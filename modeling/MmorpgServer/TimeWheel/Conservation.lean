import MmorpgServer.TimeWheel.Representation

/-!
# No node of the wheel is lost or freed twice

The nodes that were allocated are those that were freed, those of the batch that the ticker has
detached, and those of the lists, each once. This account is kept by every step of the machine on
the cells, also when callbacks add, cancel or clear timers while a batch is dispatched.

## Main definitions

* `freed`, `Held` — the nodes that a run has freed, and those of the batch
* `Allowed` — the steps that may be taken
* `Inv`, `Conserved` — the account

## Main results

* `inv_step` — a step that may be taken is taken, and keeps the account
* `nodes_conserved` — every run
-/

namespace MmorpgServer.TimeWheel.Linked

open Chain Machine

variable {H : Type*} {M M' : STimer H} {T : TimeWheel.STimer H} {fuel : ℕ} {n : NodeId}
  {current : Option NodeId} {s s' : State H} {tr evs : List Event} {batch : List NodeId}

/-! ### Runs -/

/-- The nodes that a run has freed. -/
def freed (tr : List Event) : List NodeId :=
  tr.filterMap fun
    | .freed n => some n
    | _ => none

theorem freed_append (tr tr' : List Event) : freed (tr ++ tr') = freed tr ++ freed tr' :=
  List.filterMap_append

theorem freed_map (l : List NodeId) : freed (l.map .freed) = l := by
  induction l with
  | nil => rfl
  | cons n l ih => exact congrArg (n :: ·) ih

/-- The batch that the ticker has detached, from the node whose callback runs. -/
def Held (M : STimer H) : Ticker → List NodeId → Prop
  | .idle, batch => batch = []
  | .dispatching _ current, batch => Path (next M) (current.map .node) (batch.map .node)
  | .calling _ temp current, batch =>
    ∃ rest, batch = temp :: rest ∧ Path (next M) (current.map .node) (rest.map .node)

/-- Every node that was allocated was freed, is in the batch or stands in a list, once. -/
structure Inv (s : State H) (tr : List Event) (T : TimeWheel.STimer H) (batch : List NodeId) :
    Prop where
  rep : Rep s.wheel T
  held : Held s.wheel s.ticker batch
  alive : ∀ n, s.wheel.node n ≠ none ↔ n ∈ batch ++ contents T
  account : (freed tr ++ (batch ++ contents T)).Perm (List.range s.fresh)

/-- A step that may be taken: the ticker is where the step begins, and `del_timer` is called
with a node that has not been freed. -/
def Allowed (s : State H) : Act H → Prop
  | .add .. | .clear => True
  | .del n => s.wheel.node n ≠ none
  | .update => s.ticker = .idle
  | .dispatch => ∃ phase temp, s.ticker = .dispatching phase (some temp)
  | .release => ∃ phase temp current, s.ticker = .calling phase temp current
  | .resume => ∃ phase, s.ticker = .dispatching phase none

theorem inv_init [Inhabited H] :
    Inv (initTimer H) [] ⟨fun _ => [], 0, fun _ => ⟨0, default, 0, 0⟩⟩ [] where
  rep :=
    { chain := fun _ => rfl
      tail := fun _ => rfl
      time := rfl
      fields := fun n v hv => by cases hv
      bounds := fun _ _ => rfl }
  held := rfl
  alive n := by simp [initTimer, contents]
  account := by simp [freed, initTimer, contents]

theorem Inv.nodup (h : Inv s tr T batch) : (batch ++ contents T).Nodup :=
  (h.account.nodup_iff.mpr List.nodup_range).of_append_right

/-- No list is longer than the number of nodes that were allocated. -/
theorem Inv.length_le (h : Inv s tr T batch) : (contents T).length ≤ s.fresh := by
  have hlength := h.account.length_eq
  rw [List.length_append, List.length_append, List.length_range] at hlength
  omega

theorem Inv.fresh (h : Inv s tr T batch) : s.fresh ∉ batch ++ contents T := by
  intro hmem
  have hlt := List.mem_range.mp (h.account.mem_iff.mp (List.mem_append_right _ hmem))
  exact Nat.lt_irrefl _ hlt

/-! ### The steps -/

/-- The fields of a node are written, `next` only if it stands in no list. -/
theorem Rep.write (h : Rep M T) (v : TimerNode H)
    (hnext : n ∈ contents T → (M.node n).map TimerNode.next = some v.next) :
    Rep { M with node := Function.update M.node n (some v) } (T.setNode n v.toTimerNode) where
  chain a := by
    refine (h.chain a).congr fun x hx => ?_
    cases x with
    | head b => rfl
    | node m =>
      have hm : m ∈ T.list a := by simpa using hx
      by_cases hmn : m = n
      · subst hmn
        obtain ⟨v', hv', heq⟩ := Option.map_eq_some_iff.mp (hnext (h.mem_contents hm))
        simp [next, hv', heq]
      · simp [next, hmn]
  tail := h.tail
  time := h.time
  fields m w hw := by
    by_cases hm : m = n
    · subst hm
      simp only [Function.update_self, Option.some.injEq] at hw
      rw [setNode_node_self, hw]
    · simp only [Function.update_of_ne hm] at hw
      rw [setNode_node_of_ne _ hm]
      exact h.fields m w hw
  bounds := h.bounds

/-- What the ticker detaches was in a list. -/
structure Detached (M : STimer H) (T : TimeWheel.STimer H) (ticker : Ticker) (M' : STimer H)
    (T' : TimeWheel.STimer H) (batch : List NodeId) : Prop where
  rep : Rep M' T'
  held : Held M' ticker batch
  alive : ∀ m, M'.node m = none ↔ M.node m = none
  account : (batch ++ contents T').Perm (contents T)

theorem Rep.executeAfter (h : Rep M T) (hnodup : (contents T).Nodup) :
    ∃ T' batch, Detached M T (executeAfter M).1 (executeAfter M).2 T' batch := by
  unfold Linked.executeAfter
  rcases h.takeDue hnodup with ⟨hnone, -⟩ | ⟨n, batch, M', T', htake, -, hrep, hpath, hnode, hperm⟩
  · rw [hnone]
    exact ⟨T, [], h, rfl, fun _ => Iff.rfl, List.Perm.refl _⟩
  · rw [htake]
    exact ⟨T', n :: batch, hrep, hpath, fun m => by rw [hnode], hperm⟩

theorem Rep.executeBefore (h : Rep M T) (hnodup : (contents T).Nodup)
    (hfuel : (contents T).length ≤ fuel) :
    ∃ ticker M' evs T' batch, executeBefore fuel M = some (ticker, M', evs) ∧ freed evs = [] ∧
      Detached M T ticker M' T' batch := by
  unfold Linked.executeBefore
  rcases h.takeDue hnodup with ⟨hnone, -⟩ | ⟨n, batch, M', T', htake, -, hrep, hpath, hnode, hperm⟩
  · rw [hnone]
    obtain ⟨M₁, hshift, hrep₁, hsame, hperm₁⟩ := h.timerShift hnodup hfuel
    obtain ⟨T', batch, hdet⟩ := hrep₁.executeAfter (hperm₁.nodup_iff.mpr hnodup)
    refine ⟨_, _, [.tick], T', batch, ?_, rfl, hdet.rep, hdet.held, fun m => ?_,
      hdet.account.trans hperm₁⟩
    · simp [hshift]
    · exact (hdet.alive m).trans hsame.alive
  · rw [htake]
    exact ⟨_, _, [], T', n :: batch, rfl, rfl, hrep, hpath, fun m => by rw [hnode], hperm⟩

/-- The ticker has the lock, and no batch. -/
theorem Inv.detach (h : Inv s tr T []) {ticker : Ticker} {M' : STimer H}
    {T' : TimeWheel.STimer H} (hdet : Detached s.wheel T ticker M' T' batch)
    (evs : List Event) (hevs : freed evs = []) :
    Inv { s with ticker := ticker, wheel := M' } (tr ++ evs) T' batch where
  rep := hdet.rep
  held := hdet.held
  alive n := by
    rw [hdet.account.mem_iff, ne_eq, hdet.alive]
    exact h.alive n
  account := by
    rw [freed_append, hevs, List.append_nil]
    exact (hdet.account.append_left _).trans h.account

theorem Held.congr {ticker : Ticker} (h : Held M ticker batch)
    (heq : ∀ m ∈ batch, next M' (.node m) = next M (.node m)) : Held M' ticker batch := by
  have hpath : ∀ {q : Option Addr} {l : List NodeId}, (∀ m ∈ l, m ∈ batch) →
      Path (next M) q (l.map .node) → Path (next M') q (l.map .node) := by
    intro q l hl h
    refine h.congr fun x hx => ?_
    obtain ⟨m, hm, rfl⟩ := List.mem_map.mp hx
    exact heq m (hl m hm)
  cases ticker with
  | idle => exact h
  | dispatching phase current => exact hpath (fun _ hm => hm) h
  | calling phase temp current =>
    obtain ⟨rest, rfl, hrest⟩ := h
    exact ⟨rest, rfl, hpath (fun m hm => List.mem_cons_of_mem temp hm) hrest⟩

/-- `del_timer` writes a flag. -/
theorem Inv.del {v : TimerNode H} (h : Inv s tr T batch) (hv : s.wheel.node n = some v) :
    Inv { s with wheel := { s.wheel with
        node := Function.update s.wheel.node n (some { v with cancel := 1 }) } } (tr ++ [])
      (T.setNode n { v with cancel := 1 }) batch where
  rep := h.rep.write { v with cancel := 1 } fun _ => by simp [hv]
  held := by
    refine h.held.congr fun m _ => ?_
    by_cases hm : m = n
    · subst hm
      simp [next, hv]
    · simp [next, hm]
  alive m := by
    by_cases hm : m = n
    · subst hm
      exact iff_of_true (by simp) ((h.alive m).mp (by simp [hv]))
    · simp only [Function.update_of_ne hm]
      exact h.alive m
  account := by
    rw [List.append_nil]
    exact h.account

/-- A node that is filed. -/
theorem Inv.add (h : Inv s tr T batch) (time : Int32) (func : H) (threadid : Int32)
    (cell : TimerNode H) :
    ∃ M' T', addNode (writeNode s.wheel s.fresh time func threadid cell) s.fresh = some M' ∧
      Inv { s with wheel := M', fresh := s.fresh + 1 } (tr ++ [.added s.fresh time]) T' batch := by
  have hnew := h.fresh
  rw [List.mem_append, not_or] at hnew
  set v : TimerNode H :=
    { cell with expire := time.toUInt32 + s.wheel.time, callback := func, id := threadid } with hv
  have hwrite := h.rep.write (n := s.fresh) v fun hin => absurd hin hnew.2
  obtain ⟨M', hadd, hrep, hsame⟩ := hwrite.addNode
    (List.nodup_cons.mpr ⟨hnew.2, h.nodup.of_append_right⟩) (by simp)
  have hperm := contents_addNode (T := T.setNode s.fresh v.toTimerNode) (n := s.fresh)
  -- the nodes of the batch are neither new nor in a list
  have hbatch : ∀ m ∈ batch, M'.node m = s.wheel.node m := by
    intro m hm
    have hmn : m ≠ s.fresh := fun heq => hnew.1 (heq ▸ hm)
    refine (hsame.others m ?_).trans (Function.update_of_ne hmn _ _)
    rw [List.mem_cons, not_or]
    exact ⟨hmn, List.disjoint_of_nodup_append h.nodup hm⟩
  refine ⟨M', _, hadd, hrep, h.held.congr fun m hm => next_node (hbatch m hm), fun m => ?_, ?_⟩
  · rw [ne_eq, hsame.alive, List.mem_append, hperm.mem_iff, List.mem_cons]
    by_cases hm : m = s.fresh
    · subst hm
      simp
    · simp only [Function.update_of_ne hm]
      rw [← ne_eq, h.alive m, List.mem_append]
      simp [hm]
      rfl
  · have hfiled := (hperm.append_left batch).trans List.perm_middle
    rw [freed_append, List.range_succ, show freed [.added s.fresh time] = [] from rfl,
      List.append_nil]
    refine (hfiled.append_left (freed tr)).trans ?_
    refine List.perm_middle.trans (List.Perm.trans ?_ (h.account.append_right [s.fresh]))
    exact (List.perm_append_singleton _ _).symm

/-- A node whose delay is not positive is freed at once. -/
theorem Inv.immediate (h : Inv s tr T batch) :
    Inv { s with fresh := s.fresh + 1 } (tr ++ [.immediate s.fresh, .freed s.fresh]) T batch where
  rep := h.rep
  held := h.held
  alive := h.alive
  account := by
    rw [freed_append, List.range_succ, List.append_assoc]
    refine List.Perm.trans ?_ (h.account.append_right [s.fresh])
    rw [List.append_assoc]
    exact List.perm_append_comm.append_left (freed tr)

/-- The node at the head of the batch is freed. -/
theorem Inv.release {phase : Phase} {temp : NodeId} (h : Inv s tr T batch)
    (hticker : s.ticker = .calling phase temp current) :
    ∃ rest, s.wheel.node temp ≠ none ∧
      Inv { s with
        wheel := { s.wheel with node := Function.update s.wheel.node temp none }
        ticker := .dispatching phase current } (tr ++ [.freed temp]) T rest := by
  have hheld := h.held
  rw [hticker] at hheld
  obtain ⟨rest, rfl, hpath⟩ := hheld
  have hnodup : (temp :: (rest ++ contents T)).Nodup := h.nodup
  obtain ⟨hnew, -⟩ := List.nodup_cons.mp hnodup
  rw [List.mem_append, not_or] at hnew
  refine ⟨rest, (h.alive temp).mpr List.mem_cons_self, ?_, ?_, fun m => ?_, ?_⟩
  · refine h.rep.gone [temp] rfl rfl (by simp) (fun m hm => ?_) (by simpa using hnew.2)
    exact Function.update_of_ne (by simpa using hm) _ _
  · refine hpath.congr fun x hx => ?_
    obtain ⟨m, hm, rfl⟩ := List.mem_map.mp hx
    have hne : m ≠ temp := fun heq => hnew.1 (heq ▸ hm)
    exact next_node (Function.update_of_ne hne _ _)
  · by_cases hm : m = temp
    · subst hm
      exact iff_of_false (by simp) (by simpa using hnew)
    · simp only [Function.update_of_ne hm]
      rw [h.alive m, List.cons_append, List.mem_cons, or_iff_right hm]
  · rw [freed_append, List.append_assoc]
    exact h.account

/-- All lists are emptied. -/
theorem Inv.clear (h : Inv s tr T batch) :
    ∃ M', clearTimer s.fresh s.wheel = some (contents T, M') ∧
      Inv { s with wheel := M' } (tr ++ (contents T).map .freed) (TimeWheel.clearTimer T).2
        batch := by
  obtain ⟨M', hrun, hrep, hgone, hothers⟩ :=
    h.rep.clearTimer h.nodup.of_append_right h.length_le
  have hempty : contents (TimeWheel.clearTimer T).2 = [] :=
    List.flatMap_eq_nil_iff.mpr fun a _ => h.rep.clearTimer_list a
  have hbatch : ∀ m ∈ batch, m ∉ contents T := fun m hm =>
    List.disjoint_of_nodup_append h.nodup hm
  refine ⟨M', hrun, hrep, h.held.congr fun m hm => next_node (hothers m (hbatch m hm)),
    fun m => ?_, ?_⟩
  · rw [hempty, List.append_nil]
    by_cases hm : m ∈ contents T
    · exact iff_of_false (by simp [hgone m hm]) fun hin => hbatch m hin hm
    · rw [ne_eq, hothers m hm, ← ne_eq, h.alive m, List.mem_append, or_iff_left hm]
  · rw [freed_append, freed_map, hempty, List.append_nil, List.append_assoc]
    exact (List.perm_append_comm.append_left (freed tr)).trans h.account

/-- Between batches the ticker holds no nodes. -/
theorem Inv.batch_eq_nil (h : Inv s tr T batch)
    (hticker : s.ticker = .idle ∨ ∃ phase, s.ticker = .dispatching phase none) : batch = [] := by
  have hheld := h.held
  rcases hticker with hidle | ⟨phase, hnone⟩
  · rw [hidle] at hheld
    exact hheld
  · rw [hnone] at hheld
    cases batch with
    | nil => rfl
    | cons n rest => cases hheld.1

/-- The next node of the batch is read, and its callback runs. -/
theorem Inv.dispatch {phase : Phase} {temp : NodeId} (h : Inv s tr T batch)
    (hticker : s.ticker = .dispatching phase (some temp)) :
    ∃ v, s.wheel.node temp = some v ∧
      Inv { s with ticker := .calling phase temp v.next }
        (tr ++ [.dispatched temp (v.cancel == 0)]) T batch := by
  have hheld := h.held
  rw [hticker] at hheld
  cases batch with
  | nil => cases hheld
  | cons n rest =>
    obtain ⟨v, heq, hv, hpath⟩ := path_node_cons hheld
    obtain rfl := Option.some.inj heq
    refine ⟨v, hv, h.rep, ⟨rest, rfl, hpath⟩, h.alive, ?_⟩
    rw [freed_append, show freed [.dispatched temp (v.cancel == 0)] = [] from rfl,
      List.append_nil]
    exact h.account

/-- A step that may be taken is taken, without a fault, and keeps the account. -/
theorem inv_step {a : Act H} (h : Inv s tr T batch) (hallowed : Allowed s a) :
    ∃ s' evs T' batch', step s a = some (s', evs) ∧ Inv s' (tr ++ evs) T' batch' := by
  cases a with
  | add time func threadid cell =>
    dsimp only [step]
    split_ifs with htime
    · -- the new cell is freed again, and the memory is as before
      have hfree : free (writeNode s.wheel s.fresh time func threadid cell) s.fresh =
          some s.wheel := by
        have hnone : s.wheel.node s.fresh = none := by
          by_contra hne
          exact h.fresh ((h.alive s.fresh).mp hne)
        simp [free, writeNode, ← hnone]
      exact ⟨_, _, T, batch, by simp [hfree], h.immediate⟩
    · obtain ⟨M', T', hadd, hinv⟩ := h.add time func threadid cell
      refine ⟨_, _, T', batch, ?_, hinv⟩
      simp [hadd]
  | del n =>
    obtain ⟨v, hv⟩ := Option.ne_none_iff_exists'.mp hallowed
    refine ⟨_, _, _, batch, ?_, h.del hv⟩
    simp [step, delTimer, hv]
  | update =>
    obtain rfl := h.batch_eq_nil (Or.inl hallowed)
    obtain ⟨ticker, M', evs, T', batch, hrun, hevs, hdet⟩ := h.rep.executeBefore h.nodup h.length_le
    refine ⟨_, _, T', batch, ?_, h.detach hdet (.update :: evs) hevs⟩
    simp [step, show s.ticker = .idle from hallowed, hrun]
  | dispatch =>
    obtain ⟨phase, temp, hticker⟩ := hallowed
    obtain ⟨v, hv, hinv⟩ := h.dispatch hticker
    refine ⟨_, _, T, batch, ?_, hinv⟩
    simp [step, hticker, hv]
  | release =>
    obtain ⟨phase, temp, current, hticker⟩ := hallowed
    obtain ⟨rest, hlive, hinv⟩ := h.release hticker
    obtain ⟨v, hv⟩ := Option.ne_none_iff_exists'.mp hlive
    refine ⟨_, _, T, rest, ?_, hinv⟩
    simp [step, hticker, free, hv]
  | resume =>
    obtain ⟨phase, hticker⟩ := hallowed
    obtain rfl := h.batch_eq_nil (Or.inr ⟨phase, hticker⟩)
    cases phase with
    | before =>
      obtain ⟨ticker, M', evs, T', batch, hrun, hevs, hdet⟩ :=
        h.rep.executeBefore h.nodup h.length_le
      refine ⟨_, _, T', batch, ?_, h.detach hdet _ hevs⟩
      simp [step, hticker, hrun]
    | after =>
      obtain ⟨T', batch, hdet⟩ := h.rep.executeAfter h.nodup
      refine ⟨_, _, T', batch, ?_, h.detach hdet [] rfl⟩
      simp [step, hticker]
  | clear =>
    obtain ⟨M', hrun, hinv⟩ := h.clear
    refine ⟨_, _, _, batch, ?_, hinv⟩
    simp [step, hrun]

/-! ### Conservation -/

/-- The lists have the nodes `content`, and the ticker has detached the nodes `batch`. With the
nodes that were freed, these are the nodes that were allocated, each once. -/
structure Conserved (s : State H) (tr : List Event) (content : Slot → List NodeId)
    (batch : List NodeId) : Prop where
  chain : ∀ a, Run (next s.wheel) (.head a) ((content a).map .node)
  tail : ∀ a, (s.wheel.list a).tail = ((content a).map Addr.node).getLastD (.head a)
  bounds : ∀ a ∉ allSlots, content a = []
  held : Held s.wheel s.ticker batch
  account : (freed tr ++ (batch ++ allSlots.flatMap content)).Perm (List.range s.fresh)

variable {content : Slot → List NodeId}

theorem Inv.conserved (h : Inv s tr T batch) : Conserved s tr T.list batch :=
  ⟨h.rep.chain, h.rep.tail, h.rep.bounds, h.held, h.account⟩

/-- Where a node is that has not been freed. -/
theorem Inv.once (h : Inv s tr T batch) (hn : n < s.fresh) (hfreed : n ∉ freed tr) :
    (n ∈ batch ∧ ∀ a, n ∉ T.list a) ∨ n ∉ batch ∧ ∃! a, n ∈ T.list a := by
  have hmem := h.account.mem_iff.mpr (List.mem_range.mpr hn)
  rw [List.mem_append, or_iff_right hfreed, List.mem_append] at hmem
  have hdisjoint := List.disjoint_of_nodup_append h.nodup
  rcases hmem with hbatch | hcontents
  · exact Or.inl ⟨hbatch, fun a ha => hdisjoint hbatch (h.rep.mem_contents ha)⟩
  · obtain ⟨a, -, ha⟩ := List.mem_flatMap.mp hcontents
    refine Or.inr ⟨fun hbatch => hdisjoint hbatch hcontents, a, ha, fun b hb => ?_⟩
    exact h.rep.slot_unique h.nodup.of_append_right hb ha

/-- `clear_timer` leaves every list as `init_timer` does. -/
theorem Inv.step_clear (h : Inv s tr T batch) :
    ∃ s', step s .clear = some (s', (allSlots.flatMap T.list).map .freed) ∧
      ∀ a, s'.wheel.list a = ⟨none, .head a⟩ := by
  obtain ⟨M', hclear, h'⟩ := h.clear
  refine ⟨{ s with wheel := M' }, by simp [step, hclear, contents], fun a => ?_⟩
  have hchain := h'.rep.chain a
  have htail := h'.rep.tail a
  rw [h.rep.clearTimer_list a] at hchain htail
  have hnext := Option.map_eq_none_iff.mp (Option.some.inj hchain)
  change M'.list a = _
  rcases hlist : M'.list a with ⟨p, t⟩
  rw [hlist] at hnext htail
  exact congrArg₂ LinkList.mk hnext htail

/-- **No node is lost or freed twice.** Every run whose steps may be taken is taken without a
fault. In every state of it, each node that was allocated was freed once, or else is in the batch
of the ticker or is linked once into one of the lists, whose tails are their last nodes.
`clear_timer` then empties the lists and frees the nodes that stood in them; if no batch is being
dispatched, every node has been freed once. -/
theorem nodes_conserved [Inhabited H] {acts : List (Act H)}
    (hallowed : Guarded (traced step) (fun st => Allowed st.1) (initTimer H, []) acts) :
    ∃ s tr content batch, exec (traced step) (initTimer H, []) acts = some (s, tr) ∧
      Conserved s tr content batch ∧
      (∀ n < s.fresh, n ∉ freed tr →
        (n ∈ batch ∧ ∀ a, n ∉ content a) ∨ n ∉ batch ∧ ∃! a, n ∈ content a) ∧
      batch.Nodup ∧ (∀ a, (content a).Nodup) ∧ (freed tr).Nodup ∧
      ∃ s', step s .clear = some (s', (allSlots.flatMap content).map .freed) ∧
        (∀ a, s'.wheel.list a = ⟨none, .head a⟩) ∧
        (s.ticker = .idle →
          (freed tr ++ allSlots.flatMap content).Perm (List.range s.fresh)) := by
  obtain ⟨⟨s, tr⟩, hrun, T, batch, h⟩ := exec_progress_of_guarded
    (I := fun st => ∃ T batch, Inv st.1 st.2 T batch)
    (fun st a hallowed h => by
      obtain ⟨T, batch, h⟩ := h
      obtain ⟨s', evs, T', batch', hstep, h'⟩ := inv_step h hallowed
      exact ⟨_, traced_eq_some.mpr ⟨s', evs, hstep, rfl⟩, T', batch', h'⟩)
    hallowed ⟨_, [], inv_init⟩
  dsimp only at h
  obtain ⟨s', hclear, hempty⟩ := h.step_clear
  refine ⟨s, tr, T.list, batch, hrun, h.conserved, fun n => h.once, h.nodup.of_append_left,
    h.rep.list_nodup h.nodup.of_append_right,
    (h.account.nodup_iff.mpr List.nodup_range).of_append_left, s', hclear, hempty, fun hidle => ?_⟩
  have hheld := h.held
  rw [hidle] at hheld
  obtain rfl : batch = [] := hheld
  exact h.account

/-- A timer that is cancelled, one that waits, and one that runs at once. -/
theorem nodes_conserved_three : ∃ s tr content batch,
    exec (traced step) (initTimer ℕ, []) [.add 1 5 7 ⟨⟨9, 9, 0, 9⟩, some 9⟩,
      .add 300 6 7 ⟨⟨9, 9, 0, 9⟩, some 9⟩, .add 0 8 7 ⟨⟨9, 9, 0, 9⟩, some 9⟩, .del 0, .update,
      .dispatch, .release, .resume] = some (s, tr) ∧ Conserved s tr content batch := by
  have hallowed : Guarded (traced step) (fun st => Allowed st.1) (initTimer ℕ, [])
      [.add 1 5 7 ⟨⟨9, 9, 0, 9⟩, some 9⟩, .add 300 6 7 ⟨⟨9, 9, 0, 9⟩, some 9⟩,
        .add 0 8 7 ⟨⟨9, 9, 0, 9⟩, some 9⟩, .del 0, .update, .dispatch, .release, .resume] := by
    refine .cons trivial rfl (.cons trivial rfl (.cons trivial rfl ?_))
    refine .cons (Option.some_ne_none _) rfl (.cons rfl rfl ?_)
    refine .cons ⟨_, _, rfl⟩ rfl (.cons ⟨_, _, _, rfl⟩ rfl ?_)
    exact .cons ⟨_, rfl⟩ rfl trivial
  obtain ⟨s, tr, content, batch, hrun, h, -⟩ := nodes_conserved hallowed
  exact ⟨s, tr, content, batch, hrun, h⟩

end MmorpgServer.TimeWheel.Linked
