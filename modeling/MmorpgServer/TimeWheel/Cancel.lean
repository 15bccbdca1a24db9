import MmorpgServer.TimeWheel.Conservation
import MmorpgServer.TimeWheel.Flags

/-!
# Cancelled timers

`del_timer` writes the field `cancel` of a node, and `dispatch_list` invokes the callback if the
field is zero. No function writes the zero: in a node that was not cancelled, the field is what
`malloc` left there. So a callback is invoked iff its node was not cancelled before and the byte
happened to be zero.

## Main definitions

* `Log` — what `malloc` left in the cells, the nodes that were cancelled, and the callbacks reached
* `calls` — the callbacks that were invoked, in order

## Main results

* `cancel_exact_iff` — cancellation is exact where the bytes that `malloc` left are zero, and two
  runs that differ in these bytes invoke the same callbacks where they agree
* `cancel_not_exact` — a callback that is lost
-/

namespace MmorpgServer.TimeWheel.Linked

open Machine

variable {H : Type*} {s s' : State H} {a a' : Act H} {tr evs : List Event} {n : NodeId}
  {T : TimeWheel.STimer H} {batch : List NodeId}

/-! ### The log of a run -/

/-- A callback that is reached. -/
inductive Visit (H : Type*) where
  /-- `add_timer` invokes it -/
  | immediate (n : NodeId) (callback : H)
  /-- `dispatch_list` tests `cancel`; `deleted` if `del_timer` was called on the node before -/
  | dispatched (n : NodeId) (callback : H) (deleted invoked : Bool)

def Visit.node : Visit H → NodeId
  | .immediate n _ => n
  | .dispatched n _ _ _ => n

/-- The callbacks that were invoked, in order, with their nodes. -/
def calls (visits : List (Visit H)) : List (NodeId × H) :=
  visits.filterMap fun
    | .immediate n callback => some (n, callback)
    | .dispatched n callback _ invoked => if invoked then some (n, callback) else none

structure Log (H : Type*) where
  /-- what each `malloc` left in the cell that it returned -/
  cells : List (TimerNode H)
  /-- the nodes on which `del_timer` was called -/
  deleted : List NodeId
  visits : List (Visit H)

namespace Log

def empty : Log H := ⟨[], [], []⟩

/-- The byte that `malloc` left in the field `cancel`. -/
def malloced (log : Log H) (n : NodeId) : Option UInt8 := log.cells[n]?.map fun v => v.cancel

/-- The cell that a step gets from `malloc`. -/
def cell : Act H → List (TimerNode H)
  | .add _ _ _ cell => [cell]
  | _ => []

/-- The node that a step cancels. -/
def victim : Act H → List NodeId
  | .del n => [n]
  | _ => []

/-- The callback that a step reaches. -/
def visit (s : State H) (deleted : List NodeId) : Act H → List (Visit H)
  | .add time func _ _ => if time ≤ 0 then [.immediate s.fresh func] else []
  | .dispatch =>
    match s.ticker with
    | .dispatching _ (some temp) =>
      ((s.wheel.node temp).map fun v =>
        Visit.dispatched temp v.callback (deleted.contains temp) (v.cancel == 0)).toList
    | _ => []
  | _ => []

/-- The log of one more step. -/
def note (s : State H) (a : Act H) (_ : State H) (log : Log H) : Log H where
  cells := log.cells ++ cell a
  deleted := log.deleted ++ victim a
  visits := log.visits ++ visit s log.deleted a

/-- The flags that the log says the nodes have. -/
def flags (log : Log H) (n : NodeId) : UInt8 :=
  if n ∈ log.deleted then 1 else (log.malloced n).getD 0

end Log

/-- What the log says of a visit: `dispatch_list` invokes the callback of a node that was not
cancelled and in whose flag `malloc` left zero. -/
def Visit.Faithful (malloced : NodeId → Option UInt8) : Visit H → Prop
  | .immediate .. => True
  | .dispatched n _ deleted invoked =>
    invoked = true ↔ deleted = false ∧ malloced n = some 0

/-! ### One step -/

/-- What a step does to the ticker and to the number of nodes, and when it is taken. -/
inductive Took (s : State H) : Act H → State H → List Event → Prop where
  | immediate (time : Int32) (func : H) (threadid : Int32) (cell : TimerNode H) (T : STimer H)
      (h : time ≤ 0) :
      Took s (.add time func threadid cell) { s with wheel := T, fresh := s.fresh + 1 }
        [.immediate s.fresh, .freed s.fresh]
  | add (time : Int32) (func : H) (threadid : Int32) (cell : TimerNode H) (T : STimer H)
      (h : ¬ time ≤ 0) :
      Took s (.add time func threadid cell) { s with wheel := T, fresh := s.fresh + 1 }
        [.added s.fresh time]
  | del (n : NodeId) (T : STimer H) (h : s.wheel.node n ≠ none) :
      Took s (.del n) { s with wheel := T } []
  | update (ticker : Ticker) (T : STimer H) (evs : List Event) (h : s.ticker = .idle) :
      Took s .update { s with ticker := ticker, wheel := T } evs
  | dispatch (phase : Phase) (temp : NodeId) (v : TimerNode H)
      (hticker : s.ticker = .dispatching phase (some temp)) (hv : s.wheel.node temp = some v) :
      Took s .dispatch { s with ticker := .calling phase temp v.next }
        [.dispatched temp (v.cancel == 0)]
  | release (phase : Phase) (temp : NodeId) (current : Option NodeId) (T : STimer H)
      (hticker : s.ticker = .calling phase temp current) :
      Took s .release { s with wheel := T, ticker := .dispatching phase current } [.freed temp]
  | resume (phase : Phase) (ticker : Ticker) (T : STimer H) (evs : List Event)
      (h : s.ticker = .dispatching phase none) :
      Took s .resume { s with ticker := ticker, wheel := T } evs
  | clear (T : STimer H) (nodes : List NodeId) :
      Took s .clear { s with wheel := T } (nodes.map .freed)

theorem step_took (hstep : step s a = some (s', evs)) : Took s a s' evs := by
  cases a with
  | add time func threadid cell =>
    dsimp only [step] at hstep
    split_ifs at hstep with htime
    · obtain ⟨T', -, heq⟩ := Option.bind_eq_some_iff.mp hstep
      obtain ⟨rfl, rfl⟩ := Prod.mk.inj (Option.some.inj heq)
      exact .immediate time func threadid cell T' htime
    · obtain ⟨T', -, heq⟩ := Option.bind_eq_some_iff.mp hstep
      obtain ⟨rfl, rfl⟩ := Prod.mk.inj (Option.some.inj heq)
      exact .add time func threadid cell T' htime
  | del n =>
    obtain ⟨T', hdel, heq⟩ := Option.bind_eq_some_iff.mp hstep
    obtain ⟨rfl, rfl⟩ := Prod.mk.inj (Option.some.inj heq)
    obtain ⟨v, hv, -⟩ := Option.bind_eq_some_iff.mp hdel
    exact .del n T' (by simp [hv])
  | update =>
    dsimp only [step] at hstep
    split at hstep
    · obtain ⟨r, -, heq⟩ := Option.bind_eq_some_iff.mp hstep
      obtain ⟨rfl, rfl⟩ := Prod.mk.inj (Option.some.inj heq)
      exact .update r.1 r.2.1 _ ‹_›
    · cases hstep
  | dispatch =>
    dsimp only [step] at hstep
    split at hstep
    · obtain ⟨v, hv, heq⟩ := Option.bind_eq_some_iff.mp hstep
      obtain ⟨rfl, rfl⟩ := Prod.mk.inj (Option.some.inj heq)
      exact .dispatch _ _ v ‹_› hv
    · cases hstep
  | release =>
    dsimp only [step] at hstep
    split at hstep
    · obtain ⟨T', -, heq⟩ := Option.bind_eq_some_iff.mp hstep
      obtain ⟨rfl, rfl⟩ := Prod.mk.inj (Option.some.inj heq)
      exact .release _ _ _ T' ‹_›
    · cases hstep
  | resume =>
    dsimp only [step] at hstep
    split at hstep
    · obtain ⟨r, -, heq⟩ := Option.bind_eq_some_iff.mp hstep
      obtain ⟨rfl, rfl⟩ := Prod.mk.inj (Option.some.inj heq)
      exact .resume _ r.1 r.2.1 _ ‹_›
    · obtain ⟨rfl, rfl⟩ := Prod.mk.inj (Option.some.inj hstep)
      exact .resume _ _ _ _ ‹_›
    · cases hstep
  | clear =>
    obtain ⟨r, -, heq⟩ := Option.bind_eq_some_iff.mp hstep
    obtain ⟨rfl, rfl⟩ := Prod.mk.inj (Option.some.inj heq)
    exact .clear r.2 r.1

theorem Took.allowed (h : Took s a s' evs) : Allowed s a := by
  cases h with
  | immediate | add | clear => trivial
  | del n T hn => exact hn
  | update ticker T evs hidle => exact hidle
  | dispatch phase temp v hticker => exact ⟨phase, temp, hticker⟩
  | release phase temp current T hticker => exact ⟨phase, temp, current, hticker⟩
  | resume phase ticker T evs hticker => exact ⟨phase, hticker⟩

/-- Each `malloc` returns the next node. -/
theorem Took.fresh (h : Took s a s' evs) : s'.fresh = s.fresh + (Log.cell a).length := by
  cases h <;> rfl

theorem Took.fresh_le (h : Took s a s' evs) : s.fresh ≤ s'.fresh :=
  h.fresh ▸ Nat.le_add_right _ _

/-- The callback that runs goes on, or it returns and its node is freed. -/
theorem Took.calling (h : Took s a s' evs) {phase : Phase} {current : Option NodeId}
    (hticker : s.ticker = .calling phase n current) :
    n ∈ freed evs ∨ s'.ticker = .calling phase n current := by
  cases h with
  | immediate | add | del | clear => exact Or.inr hticker
  | update ticker T evs hidle => simp [hticker] at hidle
  | dispatch phase' temp v hticker' => simp [hticker] at hticker'
  | release phase' temp current' T hticker' =>
    obtain ⟨-, rfl, -⟩ := Ticker.calling.inj (hticker.symm.trans hticker')
    exact Or.inl List.mem_cons_self
  | resume phase' ticker T evs hticker' => simp [hticker] at hticker'

/-- The callbacks that a step reaches: there is at most one. Its node is new and freed in the
step, or the next of the batch, and is then in hand. -/
theorem Took.visit (h : Took s a s' evs) (deleted : List NodeId) :
    Log.visit s deleted a = [] ∨
    (∃ func, Log.visit s deleted a = [.immediate s.fresh func] ∧ s.fresh ∈ freed evs ∧
      s.fresh < s'.fresh) ∨
    (∃ phase temp v, Log.visit s deleted a =
        [.dispatched temp v.callback (deleted.contains temp) (v.cancel == 0)] ∧
      s.ticker = .dispatching phase (some temp) ∧ s.wheel.node temp = some v ∧
      s'.ticker = .calling phase temp v.next) := by
  cases h with
  | immediate time func threadid cell T htime =>
    exact Or.inr (Or.inl ⟨func, if_pos htime, List.mem_cons_self, Nat.lt_succ_self _⟩)
  | add time func threadid cell T htime => exact Or.inl (if_neg htime)
  | dispatch phase temp v hticker hv =>
    refine Or.inr (Or.inr ⟨phase, temp, v, ?_, hticker, hv, rfl⟩)
    simp [Log.visit, hticker, hv]
  | del | update | release | resume | clear => exact Or.inl rfl

theorem Inv.step (h : Inv s tr T batch) (hstep : step s a = some (s', evs)) :
    ∃ T' batch', Inv s' (tr ++ evs) T' batch' := by
  obtain ⟨u, evs', T', batch', hone, hinv⟩ := inv_step h (step_took hstep).allowed
  obtain ⟨rfl, rfl⟩ := Prod.mk.inj (Option.some.inj (hone.symm.trans hstep))
  exact ⟨T', batch', hinv⟩

/-! ### The log is right -/

/-- What the log says of the state that a run leads to. -/
structure Books (s : State H) (tr : List Event) (log : Log H) : Prop where
  conserved : ∃ T batch, Inv s tr T batch
  cells : log.cells.length = s.fresh
  deleted : ∀ n ∈ log.deleted, n < s.fresh
  flags : s.recancel log.flags = s
  faithful : ∀ w ∈ log.visits, w.Faithful log.malloced ∧ w.node < s.fresh
  visited : ∀ w ∈ log.visits, w.node ∈ freed tr ∨ ∃ phase current,
    s.ticker = .calling phase w.node current
  once : (log.visits.map Visit.node).Nodup

variable {log log' : Log H}

theorem books_init [Inhabited H] : Books (initTimer H) [] .empty where
  conserved := ⟨_, [], inv_init⟩
  cells := rfl
  deleted := by simp [Log.empty]
  flags := rfl
  faithful := by simp [Log.empty]
  visited := by simp [Log.empty]
  once := List.nodup_nil

/-- A node that is freed or in the batch is not new, and not both. -/
theorem Inv.known (h : Inv s tr T batch) :
    (∀ n ∈ freed tr, n < s.fresh) ∧ (∀ n ∈ batch, n < s.fresh ∧ n ∉ freed tr) := by
  have hmem : ∀ n, n ∈ freed tr ++ (batch ++ contents T) → n < s.fresh := fun n hn =>
    List.mem_range.mp (h.account.mem_iff.mp hn)
  have hdisjoint := List.disjoint_of_nodup_append (h.account.nodup_iff.mpr List.nodup_range)
  refine ⟨fun n hn => hmem n (List.mem_append_left _ hn), fun n hn => ?_⟩
  have hbatch : n ∈ batch ++ contents T := List.mem_append_left _ hn
  exact ⟨hmem n (List.mem_append_right _ hbatch), fun hfreed => hdisjoint hfreed hbatch⟩

/-- The node at which the ticker is, is of the batch. -/
theorem Inv.current (h : Inv s tr T batch) (phase : Phase) (current : Option NodeId)
    (hticker : s.ticker = .calling phase n current ∨ s.ticker = .dispatching phase (some n)) :
    n ∈ batch := by
  have hheld := h.held
  rcases hticker with hticker | hticker
  · rw [hticker] at hheld
    obtain ⟨rest, rfl, -⟩ := hheld
    exact List.mem_cons_self
  · rw [hticker] at hheld
    cases batch with
    | nil => cases hheld
    | cons m rest =>
      obtain rfl := Addr.node.inj (Option.some.inj hheld.1)
      exact List.mem_cons_self

/-- Of a cell that is allocated, the flag is as the log says. -/
theorem Books.cancel (h : Books s tr log) {v : TimerNode H} (hv : s.wheel.node n = some v) :
    v.cancel = log.flags n := by
  have hnode := congrArg (fun s : State H => s.wheel.node n) h.flags
  simp only [State.recancel, recancel_node, hv, Option.map_some, Option.some.injEq] at hnode
  exact (congrArg (fun v : TimerNode H => v.cancel) hnode).symm

theorem malloced_append (cells : List (TimerNode H)) {deleted : List NodeId}
    {visits : List (Visit H)} (hn : n < log.cells.length) :
    (Log.mk (log.cells ++ cells) deleted visits).malloced n = log.malloced n := by
  simp [Log.malloced, List.getElem?_append_left hn]

/-- The flags of the log follow the step. -/
theorem Books.flagsAfter (h : Books s tr log) (hstep : Took s a s' evs) :
    flagsAfter log.flags s.fresh a = (Log.note s a s' log).flags := by
  funext m
  cases hstep with
  | immediate time func threadid cell | add time func threadid cell =>
    by_cases hm : m = s.fresh
    · subst hm
      have hnew : log.cells.length ∉ log.deleted := fun hin =>
        Nat.lt_irrefl _ (h.cells ▸ h.deleted _ hin)
      simp [Linked.flagsAfter, Log.note, Log.flags, Log.malloced, Log.cell, Log.victim, hnew,
        ← h.cells]
    · simp only [Linked.flagsAfter, Function.update_of_ne hm, Log.note, Log.flags, Log.malloced,
        Log.cell, Log.victim, List.append_nil]
      rcases Nat.lt_or_gt_of_ne hm with hlt | hgt
      · rw [List.getElem?_append_left (h.cells ▸ hlt)]
      · rw [List.getElem?_eq_none (by rw [h.cells]; omega),
          List.getElem?_eq_none (by simp [h.cells]; omega)]
  | del n T hn =>
    by_cases hm : m = n
    · subst hm
      simp [Linked.flagsAfter, Log.note, Log.flags, Log.victim]
    · simp [Linked.flagsAfter, Log.note, Log.flags, Log.victim, Log.malloced, Log.cell, hm]
  | update | dispatch | release | resume | clear =>
    simp [Linked.flagsAfter, Log.note, Log.flags, Log.malloced, Log.cell, Log.victim]

/-- A visit of a step is told as it is, and its node was not visited before. -/
theorem Books.visit (h : Books s tr log) (htook : Took s a s' evs) :
    ((Log.visit s log.deleted a).map Visit.node).Nodup ∧ ∀ w ∈ Log.visit s log.deleted a,
      (w.Faithful (Log.note s a s' log).malloced ∧ w.node < s'.fresh) ∧
      (w.node ∈ freed (tr ++ evs) ∨
        ∃ phase current, s'.ticker = .calling phase w.node current) ∧
      ∀ w' ∈ log.visits, w'.node ≠ w.node := by
  obtain ⟨T, batch, hinv⟩ := h.conserved
  rcases htook.visit log.deleted with hnil | ⟨func, hvisit, hfreed, hlt⟩ |
    ⟨phase, temp, v, hvisit, hticker, hv, hticker'⟩
  · rw [hnil]
    exact ⟨List.nodup_nil, fun w hw => absurd hw List.not_mem_nil⟩
  · rw [hvisit]
    refine ⟨List.nodup_singleton _, fun w hw => ?_⟩
    obtain rfl := List.mem_singleton.mp hw
    refine ⟨⟨trivial, hlt⟩, Or.inl ?_, fun w' hw' heq => ?_⟩
    · rw [freed_append]
      exact List.mem_append_right _ hfreed
    · have hlt := (h.faithful w' hw').2
      rw [heq] at hlt
      exact Nat.lt_irrefl _ hlt
  · have hbatch : temp ∈ batch := hinv.current phase none (Or.inr hticker)
    obtain ⟨hlt, hlive⟩ := hinv.known.2 temp hbatch
    rw [hvisit]
    refine ⟨List.nodup_singleton _, fun w hw => ?_⟩
    obtain rfl := List.mem_singleton.mp hw
    refine ⟨⟨?_, Nat.lt_of_lt_of_le hlt htook.fresh_le⟩, Or.inr ⟨_, _, hticker'⟩,
      fun w' hw' heq => ?_⟩
    · -- the flag that is tested is the one of the log
      have hcancel := h.cancel hv
      have hcell : log.malloced temp ≠ none := by
        simp [Log.malloced, h.cells, hlt]
      obtain ⟨b, hb⟩ := Option.ne_none_iff_exists'.mp hcell
      have hsame : (Log.note s a s' log).malloced temp = log.malloced temp :=
        malloced_append _ (h.cells.symm ▸ hlt)
      change (v.cancel == 0) = true ↔ _ ∧ _
      rw [hsame, hcancel, Log.flags, hb]
      by_cases hdel : temp ∈ log.deleted <;> simp [hdel]
    · -- a visited node is freed, or its callback runs
      change w'.node = temp at heq
      rcases h.visited w' hw' with hfreed | ⟨phase', current', hcalling⟩
      · exact hlive (heq ▸ hfreed)
      · rw [hticker] at hcalling
        cases hcalling

/-- What the log says of the visits so far stays true. -/
theorem Books.faithful_note (h : Books s tr log) (htook : Took s a s' evs) :
    ∀ w ∈ log.visits, w.Faithful (Log.note s a s' log).malloced ∧ w.node < s'.fresh := by
  intro w hw
  obtain ⟨hfaithful, hlt⟩ := h.faithful w hw
  refine ⟨?_, Nat.lt_of_lt_of_le hlt htook.fresh_le⟩
  cases w with
  | immediate => trivial
  | dispatched n callback deleted invoked =>
    have hcell : (Log.note s a s' log).malloced n = log.malloced n :=
      malloced_append _ (h.cells.symm ▸ hlt)
    change _ ↔ _ ∧ (Log.note s a s' log).malloced n = some 0
    rw [hcell]
    exact hfaithful

/-- A visited node is freed when its callback returns. -/
theorem Books.visited_note (h : Books s tr log) (htook : Took s a s' evs) :
    ∀ w ∈ log.visits, w.node ∈ freed (tr ++ evs) ∨
      ∃ phase current, s'.ticker = .calling phase w.node current := by
  intro w hw
  rw [freed_append]
  rcases h.visited w hw with hfreed | ⟨phase, current, hticker⟩
  · exact Or.inl (List.mem_append_left _ hfreed)
  · rcases htook.calling hticker with hfreed | hticker'
    · exact Or.inl (List.mem_append_right _ hfreed)
    · exact Or.inr ⟨phase, current, hticker'⟩

/-- The nodes on which `del_timer` is called are allocated. -/
theorem Inv.victim_lt (h : Inv s tr T batch) (htook : Took s a s' evs) :
    ∀ n ∈ Log.victim a, n < s.fresh := by
  intro n hn
  cases htook with
  | del m T' hm =>
    obtain rfl := List.mem_singleton.mp hn
    have hmem := h.account.mem_iff.mp (List.mem_append_right _ ((h.alive n).mp hm))
    exact List.mem_range.mp hmem
  | immediate | add | update | dispatch | release | resume | clear => cases hn

/-- **The log is right after every step.** -/
theorem Books.step (h : Books s tr log) (hstep : step s a = some (s', evs)) :
    Books s' (tr ++ evs) (Log.note s a s' log) := by
  have htook := step_took hstep
  obtain ⟨T, batch, hinv⟩ := h.conserved
  obtain ⟨hone, hvisit⟩ := h.visit htook
  refine ⟨hinv.step hstep, ?_, ?_, ?_, ?_, ?_, ?_⟩
  · rw [htook.fresh, ← h.cells]
    exact List.length_append
  · intro n hn
    refine Nat.lt_of_lt_of_le ?_ htook.fresh_le
    exact (List.mem_append.mp hn).elim (h.deleted n) (hinv.victim_lt htook n)
  · -- the step commutes with the exchange of flags that changes nothing
    have hafter := step_recancel (c := log.flags) (s := s) (SameButCell.refl a)
    rw [h.flags, after, hstep, h.flagsAfter htook] at hafter
    exact (Option.some.inj hafter).symm
  · exact List.forall_mem_append.mpr ⟨h.faithful_note htook, fun w hw => (hvisit w hw).1⟩
  · exact List.forall_mem_append.mpr ⟨h.visited_note htook, fun w hw => (hvisit w hw).2.1⟩
  · change ((log.visits ++ Log.visit s log.deleted a).map Visit.node).Nodup
    rw [List.map_append]
    refine List.nodup_append.mpr ⟨h.once, hone, fun n hn m hm heq => ?_⟩
    obtain ⟨w', hw', rfl⟩ := List.mem_map.mp hn
    obtain ⟨w, hw, rfl⟩ := List.mem_map.mp hm
    exact (hvisit w hw).2.2 w' hw' heq

/-- The log is right after every run. -/
theorem books_exec [Inhabited H] {acts : List (Act H)}
    (hrun : exec (recorded step Log.note) (initTimer H, .empty) acts = some (s, log)) :
    ∃ tr, Books s tr log := by
  refine exec_invariant (I := fun st : State H × Log H => ∃ tr, Books st.1 tr st.2) ?_
    ⟨[], books_init⟩ hrun
  rintro st a st' ⟨tr, h⟩ hone
  obtain ⟨s', evs, hstep, rfl⟩ := recorded_eq_some.mp hone
  exact ⟨_, h.step hstep⟩

/-! ### Two runs -/

/-- The same visit, but for the test of the flag. -/
inductive SameVisit : Visit H → Visit H → Prop where
  | immediate (n : NodeId) (callback : H) :
      SameVisit (.immediate n callback) (.immediate n callback)
  | dispatched (n : NodeId) (callback : H) (deleted invoked invoked' : Bool) :
      SameVisit (.dispatched n callback deleted invoked) (.dispatched n callback deleted invoked')

/-- The states of two runs that differ in what `malloc` returned. -/
def Alike (st st' : State H × Log H) : Prop :=
  (∃ c, st'.1 = st.1.recancel c) ∧ st'.2.deleted = st.2.deleted ∧
    List.Forall₂ SameVisit st.2.visits st'.2.visits

theorem visit_recancel {c : NodeId → UInt8} (hlabel : SameButCell a a') (deleted : List NodeId) :
    List.Forall₂ SameVisit (Log.visit s deleted a) (Log.visit (s.recancel c) deleted a') := by
  cases hlabel with
  | add time func threadid cell cell' =>
    by_cases htime : time ≤ 0
    · simp only [Log.visit, htime, if_true]
      exact .cons (.immediate s.fresh func) .nil
    · simp only [Log.visit, htime, if_false]
      exact .nil
  | dispatch =>
    simp only [Log.visit, State.recancel, recancel_node]
    split
    · cases s.wheel.node _ with
      | none => exact .nil
      | some v => exact .cons (.dispatched _ v.callback _ _ _) .nil
    · exact .nil
  | del | update | release | resume | clear => exact .nil

/-- A step keeps two such states alike. -/
theorem Alike.step {st st' : State H × Log H} (hlabel : SameButCell a a') (h : Alike st st') :
    Option.Rel Alike (recorded step Log.note st a) (recorded step Log.note st' a') := by
  obtain ⟨⟨c, hc⟩, hdeleted, hvisits⟩ := h
  have hafter := step_recancel (c := c) (s := st.1) hlabel
  rw [← hc, after, after] at hafter
  unfold recorded
  cases hone : Linked.step st.1 a with
  | none =>
    rw [hone] at hafter
    rw [Option.map_eq_none_iff.mp hafter]
    exact .none
  | some r =>
    rw [hone] at hafter
    obtain ⟨r', hone', hr'⟩ := Option.map_eq_some_iff.mp hafter
    rw [hone']
    refine .some ⟨⟨_, hr'⟩, ?_, ?_⟩
    · have hvictim : Log.victim a' = Log.victim a := by
        cases hlabel <;> rfl
      exact congrArg₂ (· ++ ·) hdeleted hvictim
    · change List.Forall₂ SameVisit (st.2.visits ++ Log.visit st.1 st.2.deleted a)
        (st'.2.visits ++ Log.visit st'.1 st'.2.deleted a')
      rw [hc, hdeleted]
      exact List.rel_append hvisits (visit_recancel hlabel _)

theorem alike_init : Alike (initTimer H, .empty) (initTimer H, .empty) :=
  ⟨⟨fun _ => 0, rfl⟩, rfl, .nil⟩

theorem node_mem_of_mem_calls {visits : List (Visit H)} {call : NodeId × H}
    (h : call ∈ calls visits) : call.1 ∈ visits.map Visit.node := by
  obtain ⟨w, hw, heq⟩ := List.mem_filterMap.mp h
  refine List.mem_map.mpr ⟨w, hw, ?_⟩
  cases w with
  | immediate => exact congrArg Prod.fst (Option.some.inj heq)
  | dispatched n callback deleted invoked =>
    dsimp only at heq
    split at heq
    · exact congrArg Prod.fst (Option.some.inj heq)
    · cases heq

theorem nodes_eq {visits visits' : List (Visit H)} (h : List.Forall₂ SameVisit visits visits') :
    visits'.map Visit.node = visits.map Visit.node := by
  induction h with
  | nil => rfl
  | cons hw _ ih => exact congrArg₂ List.cons (by cases hw <;> rfl) ih

/-- A callback that only one of the runs invokes is not invoked later by the other. -/
theorem calls_cons_eq_iff {visits visits' : List (Visit H)} {callback : H}
    {deleted invoked invoked' : Bool} (h : List.Forall₂ SameVisit visits visits')
    (hnew : n ∉ visits.map Visit.node) :
    calls (.dispatched n callback deleted invoked :: visits) =
        calls (.dispatched n callback deleted invoked' :: visits') ↔
      invoked = invoked' ∧ calls visits = calls visits' := by
  have hskip : (n, callback) ∉ calls visits := fun hmem => hnew (node_mem_of_mem_calls hmem)
  have hskip' : (n, callback) ∉ calls visits' := fun hmem =>
    hnew (nodes_eq h ▸ node_mem_of_mem_calls hmem)
  unfold calls at hskip hskip' ⊢
  cases invoked <;> cases invoked'
  · simp
  · simp only [List.filterMap_cons, Bool.false_eq_true, if_false, if_true, false_and, iff_false]
    intro heq
    rw [heq] at hskip
    exact hskip List.mem_cons_self
  · simp only [List.filterMap_cons, Bool.true_eq_false, Bool.false_eq_true, if_false, if_true,
      false_and, iff_false]
    intro heq
    rw [← heq] at hskip'
    exact hskip' List.mem_cons_self
  · simp

/-- The callbacks of two runs are the same iff every test of a flag comes out the same. -/
theorem calls_eq_iff {visits visits' : List (Visit H)} {malloced malloced' : NodeId → Option UInt8}
    (h : List.Forall₂ SameVisit visits visits') (honce : (visits.map Visit.node).Nodup)
    (hfaithful : ∀ w ∈ visits, w.Faithful malloced)
    (hfaithful' : ∀ w ∈ visits', w.Faithful malloced') :
    calls visits = calls visits' ↔ ∀ n callback invoked,
      .dispatched n callback false invoked ∈ visits →
        (malloced n = some 0 ↔ malloced' n = some 0) := by
  induction h with
  | nil => simp [calls]
  | @cons w w' visits visits' hw h ih =>
    obtain ⟨hnew, honce⟩ := List.nodup_cons.mp honce
    have hrest := ih honce (fun v hv => hfaithful v (List.mem_cons_of_mem _ hv))
      fun v hv => hfaithful' v (List.mem_cons_of_mem _ hv)
    have hfirst := hfaithful w List.mem_cons_self
    have hfirst' := hfaithful' w' List.mem_cons_self
    cases hw with
    | immediate n callback =>
      simp only [List.mem_cons, reduceCtorEq, false_or]
      refine Iff.trans ?_ hrest
      simp [calls]
    | dispatched n callback deleted invoked invoked' =>
      change invoked = true ↔ deleted = false ∧ malloced n = some 0 at hfirst
      change invoked' = true ↔ deleted = false ∧ malloced' n = some 0 at hfirst'
      have htest : invoked = invoked' ↔
          (deleted = false → (malloced n = some 0 ↔ malloced' n = some 0)) := by
        rw [Bool.eq_iff_iff, hfirst, hfirst', and_congr_right_iff]
      refine ((calls_cons_eq_iff h hnew).trans (and_congr htest hrest)).trans ?_
      constructor
      · rintro ⟨hone, hall⟩ m callback' invoked'' hm
        rcases List.mem_cons.mp hm with heq | hm
        · cases heq
          exact hone rfl
        · exact hall m callback' invoked'' hm
      · intro hall
        refine ⟨?_, fun m callback' invoked'' hm => hall m _ _ (List.mem_cons_of_mem _ hm)⟩
        rintro rfl
        exact hall n callback invoked List.mem_cons_self

/-! ### Cancellation -/

/-- **Where cancellation is exact.** In every run, `dispatch_list` invokes the callbacks of
exactly the nodes that were not cancelled before the test, iff `malloc` left a zero in the flag of
each node that it comes to and that was not cancelled. And of two runs that differ only in what
`malloc` left in the cells, one is completed if the other is, and they invoke the same callbacks
in the same order iff, for each such node, both flags were zero or neither was. -/
theorem cancel_exact_iff [Inhabited H] (acts : List (Act H)) {s : State H} {log : Log H}
    (hrun : exec (recorded step Log.note) (initTimer H, .empty) acts = some (s, log)) :
    ((∀ n callback deleted invoked, .dispatched n callback deleted invoked ∈ log.visits →
        (invoked = true ↔ deleted = false)) ↔
      ∀ n callback invoked, .dispatched n callback false invoked ∈ log.visits →
        log.malloced n = some 0) ∧
    ∀ acts', List.Forall₂ SameButCell acts acts' → ∃ s' log',
      exec (recorded step Log.note) (initTimer H, .empty) acts' = some (s', log') ∧
        (calls log.visits = calls log'.visits ↔
          ∀ n callback invoked, .dispatched n callback false invoked ∈ log.visits →
            (log.malloced n = some 0 ↔ log'.malloced n = some 0)) := by
  obtain ⟨tr, h⟩ := books_exec hrun
  refine ⟨⟨fun hexact n callback invoked hmem => ?_, fun hzero n callback deleted invoked hmem =>
    (h.faithful _ hmem).1.trans ?_⟩, fun acts' hlabels => ?_⟩
  · have hinvoked := (hexact n callback false invoked hmem).mpr rfl
    exact ((h.faithful _ hmem).1.mp hinvoked).2
  · refine and_iff_left_iff_imp.mpr ?_
    rintro rfl
    exact hzero n callback invoked hmem
  · have hrel := exec_simulation (Q := SameButCell) (fun _ _ _ _ hlabel h => h.step hlabel)
      hlabels (alike_init (H := H))
    rw [hrun] at hrel
    generalize hrun' : exec (recorded step Log.note) (initTimer H, .empty) acts' = o at hrel
    cases hrel with
    | @some _ st' halike =>
      obtain ⟨s', log'⟩ := st'
      obtain ⟨tr', h'⟩ := books_exec hrun'
      exact ⟨s', log', rfl, calls_eq_iff halike.2.2 h.once (fun w hw => (h.faithful w hw).1)
        fun w hw => (h'.faithful w hw).1⟩

/-- Two timers of which one is cancelled, in cells that `malloc` returned with zeroes. -/
theorem cancel_exact_iff_two : ∃ s log,
    exec (recorded step Log.note) (initTimer ℕ, .empty)
      [.add 1 5 7 ⟨⟨9, 9, 0, 9⟩, none⟩, .add 1 6 7 ⟨⟨9, 9, 0, 9⟩, none⟩, .del 0, .update,
        .dispatch, .release, .dispatch, .release, .resume] = some (s, log) ∧
    log.visits = [.dispatched 0 5 true false, .dispatched 1 6 false true] ∧
    ((∀ n callback deleted invoked, .dispatched n callback deleted invoked ∈ log.visits →
        (invoked = true ↔ deleted = false)) ↔
      ∀ n callback invoked, .dispatched n callback false invoked ∈ log.visits →
        log.malloced n = some 0) :=
  ⟨_, _, rfl, rfl, (cancel_exact_iff [.add 1 5 7 ⟨⟨9, 9, 0, 9⟩, none⟩,
    .add 1 6 7 ⟨⟨9, 9, 0, 9⟩, none⟩, .del 0, .update, .dispatch, .release, .dispatch, .release,
    .resume] rfl).1⟩

/-- A timer that is not cancelled, in a cell in which `malloc` left a one: its callback is not
invoked, and is invoked when `malloc` leaves a zero. -/
theorem cancel_not_exact :
    ¬ (∀ (acts : List (Act ℕ)) (s : State ℕ) (log : Log ℕ),
      exec (recorded step Log.note) (initTimer ℕ, .empty) acts = some (s, log) →
      ∀ n callback deleted invoked, .dispatched n callback deleted invoked ∈ log.visits →
        (invoked = true ↔ deleted = false)) ∧
    ¬ (∀ (acts acts' : List (Act ℕ)) (s s' : State ℕ) (log log' : Log ℕ),
      List.Forall₂ SameButCell acts acts' →
      exec (recorded step Log.note) (initTimer ℕ, .empty) acts = some (s, log) →
      exec (recorded step Log.note) (initTimer ℕ, .empty) acts' = some (s', log') →
      calls log.visits = calls log'.visits) := by
  constructor
  · intro h
    have hexact := h [.add 1 5 7 ⟨⟨9, 9, 1, 9⟩, none⟩, .update, .dispatch] _ _ rfl 0 5 false false
      List.mem_cons_self
    exact absurd hexact (by decide)
  · intro h
    have hlabels : List.Forall₂ SameButCell
        [.add 1 5 7 ⟨⟨9, 9, 1, 9⟩, none⟩, .update, .dispatch]
        [.add 1 5 7 ⟨⟨9, 9, 0, 9⟩, none⟩, .update, .dispatch] :=
      .cons (.add 1 5 7 _ _) (.cons .update (.cons .dispatch .nil))
    have hcalls := h _ _ _ _ _ _ hlabels rfl rfl
    exact absurd hcalls (by decide)

end MmorpgServer.TimeWheel.Linked
