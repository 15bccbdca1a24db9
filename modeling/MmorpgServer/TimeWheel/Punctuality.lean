import MmorpgServer.TimeWheel.Run

/-!
# The time wheel is punctual

Every node that `dispatch_list` handles was added exactly as many ticks before as its delay
says, and none is handled twice. `Ledger` relates the trace of a run with the deadlines of
the invariant; the result is read off it.

## Main definitions

* `dispatchedIds` — the nodes that were dispatched, in order
* `Ledger` — what the trace so far says about deadlines

## Main results

* `Ledger.move` — every step keeps the books
* `dispatch_punctual` — never early, never late, never twice
-/

namespace MmorpgServer.TimeWheel

open Machine Trace

variable {H : Type*} {s s' : State H} {due due' : NodeId → ℕ} {now : ℕ} {n : NodeId}
  {act : Act H} {evs tr : List Event}

/-- The nodes that were dispatched, in order. -/
def dispatchedIds (tr : List Event) : List NodeId :=
  tr.filterMap fun
    | .dispatched n _ => some n
    | _ => none

@[simp] theorem dispatchedIds_append (tr tr' : List Event) :
    dispatchedIds (tr ++ tr') = dispatchedIds tr ++ dispatchedIds tr' :=
  List.filterMap_append

theorem mem_dispatchedIds : n ∈ dispatchedIds tr ↔ ∃ invoked, .dispatched n invoked ∈ tr := by
  unfold dispatchedIds
  rw [List.mem_filterMap]
  constructor
  · rintro ⟨e, he, heq⟩
    cases e with
    | dispatched m invoked =>
      obtain rfl := Option.some.inj heq
      exact ⟨invoked, he⟩
    | _ => cases heq
  · rintro ⟨invoked, he⟩
    exact ⟨_, he, rfl⟩

/-! ### The events of one step -/

theorem Move.added (hmove : Move s act s' evs) {d : Int32} (h : .added n d ∈ evs) :
    evs = [.added n d] := by
  cases hmove with
  | add => rw [List.mem_singleton.mp h]
  | immediate | del | update | dispatch | finish | clear => simp at h

theorem Move.dispatched (hmove : Move s act s' evs) (hgood : Good s due now) {invoked : Bool}
    (h : .dispatched n invoked ∈ evs) :
    n ∈ inHand s.ticker ∧ n ∉ inHand s'.ticker ∧ ¬ Pending s'.wheel n ∧
      evs = [.dispatched n invoked, .freed n] := by
  cases hmove with
  | dispatch m batch hticker =>
    have heq : n = m ∧ invoked = ((s.wheel.node m).cancel == 0) := by simpa using h
    obtain ⟨rfl, rfl⟩ := heq
    have hhand : n ∈ inHand s.ticker := by
      rw [hticker]
      exact List.mem_cons_self
    have hnodup := hgood.hand_nodup
    rw [hticker] at hnodup
    exact ⟨hhand, (List.nodup_cons.mp hnodup).1, (hgood.hand_due n hhand).2, rfl⟩
  | immediate | add | del | update | finish | clear => simp at h

/-- A node in the wheel or in hand was so before the step, or was just added. -/
theorem Move.origin (hmove : Move s act s' evs) (hgood : Good s due now)
    (h : Pending s'.wheel n ∨ n ∈ inHand s'.ticker) :
    (Pending s.wheel n ∨ n ∈ inHand s.ticker) ∨ ∃ d, .added n d ∈ evs := by
  cases hmove with
  | immediate | del => exact Or.inl h
  | add time func threadid hpos =>
    have hmem := (hgood.addTimer func threadid hpos).2.2.2
    rcases h with ⟨a, ha⟩ | hhand
    · rcases (hmem a n).mp ha with hn | ⟨rfl, -⟩
      · exact Or.inl (Or.inl ⟨a, hn⟩)
      · exact Or.inr ⟨time, List.mem_singleton_self _⟩
    · exact Or.inl (Or.inr hhand)
  | update hidle =>
    left
    left
    apply (pending_timerShift hgood.filed hgood.served).mp
    rcases h with ⟨a, ha⟩ | hhand
    · exact ⟨a, (hgood.mem_update.mp ha).1⟩
    · have hbatch := (executeAfter_eq (filed_timerShift hgood.filed hgood.served).1).1
      change n ∈ inHand (executeAfter (timerShift s.wheel)).1 at hhand
      rw [hbatch] at hhand
      exact ⟨_, hhand⟩
  | dispatch m batch hticker =>
    refine Or.inl (h.imp_right fun hhand => ?_)
    rw [hticker]
    exact List.mem_cons_of_mem m hhand
  | finish hticker => exact Or.inl (h.imp_right fun hhand => absurd hhand List.not_mem_nil)
  | clear hidle =>
    refine Or.inl (h.imp_left fun hpending => ?_)
    obtain ⟨a, ha⟩ := hpending
    exact ⟨a, mem_of_mem_clearTimer ha⟩

/-- A node that is added was not known before. -/
theorem Move.fresh_le_added (hmove : Move s act s' evs) {d : Int32} (h : .added n d ∈ evs) :
    s.fresh ≤ n := by
  cases hmove with
  | add =>
    obtain ⟨rfl, -⟩ := Event.added.inj (List.mem_singleton.mp h)
    exact le_rfl
  | immediate | del | update | dispatch | finish | clear => simp at h

/-! ### The ledger -/

/-- What the trace so far says about the deadlines. -/
structure Ledger (s : State H) (due : NodeId → ℕ) (tr : List Event) : Prop where
  added : ∀ n d k, At .tick tr (.added n d) k → n < s.fresh ∧ due n = k + d.toNatClampNeg
  origin : ∀ n, Pending s.wheel n ∨ n ∈ inHand s.ticker → ∃ d, .added n d ∈ tr
  dispatched : ∀ pre n invoked post, tr = pre ++ .dispatched n invoked :: post →
    n < s.fresh ∧ due n = pre.count .tick ∧ ∃ d, .added n d ∈ pre
  gone : ∀ n ∈ dispatchedIds tr, ¬ Pending s.wheel n ∧ n ∉ inHand s.ticker
  once : (dispatchedIds tr).Nodup

theorem ledger_nil (memory : NodeId → TimerNode H) : Ledger (initTimer memory) due [] where
  added _ _ _ h := absurd h not_at_nil
  origin := by
    rintro n (⟨a, h⟩ | h) <;> exact absurd h List.not_mem_nil
  dispatched pre n invoked post h := by simp at h
  gone _ h := absurd h List.not_mem_nil
  once := List.nodup_nil

/-- A node that was dispatched is known. -/
theorem Ledger.dispatched_lt (h : Ledger s due tr) (hn : n ∈ dispatchedIds tr) : n < s.fresh := by
  obtain ⟨invoked, hn⟩ := mem_dispatchedIds.mp hn
  obtain ⟨pre, post, hsplit⟩ := List.append_of_mem hn
  exact (h.dispatched pre n invoked post hsplit).1

/-- Every step keeps the books. -/
theorem Ledger.move (h : Ledger s due tr) (hgood : Good s due (tr.count .tick))
    (hmove : Move s act s' evs) :
    ∃ due', Good s' due' ((tr ++ evs).count .tick) ∧ Ledger s' due' (tr ++ evs) := by
  obtain ⟨due', hgood', hdue, hfresh, -, hadded⟩ := hmove.good hgood
  refine ⟨due', by rwa [List.count_append], ?_, ?_, ?_, ?_, ?_⟩
  · intro n d k hat
    rcases at_append.mp hat with hold | ⟨j, hnew, rfl⟩
    · obtain ⟨hlt, heq⟩ := h.added n d k hold
      exact ⟨hlt.trans_le hfresh, (hdue n hlt).trans heq⟩
    · -- an addition is the only event of its step
      obtain ⟨hlt, heq⟩ := hadded n d hnew.mem
      rw [hmove.added hnew.mem, at_cons] at hnew
      obtain ⟨-, rfl⟩ := hnew.resolve_right (by simp)
      exact ⟨hlt, heq⟩
  · intro n hn
    rcases hmove.origin hgood hn with hold | ⟨d, hd⟩
    · obtain ⟨d, hd⟩ := h.origin n hold
      exact ⟨d, List.mem_append_left _ hd⟩
    · exact ⟨d, List.mem_append_right _ hd⟩
  · intro pre n invoked post heq
    rcases split_append heq with ⟨mid, rfl⟩ | ⟨mid, rfl, hnew⟩
    · obtain ⟨hlt, hcount, hd⟩ := h.dispatched pre n invoked mid rfl
      exact ⟨hlt.trans_le hfresh, (hdue n hlt).trans hcount, hd⟩
    · -- a dispatch is the first event of its step
      have hmem : .dispatched n invoked ∈ evs := by
        rw [hnew]
        simp
      obtain ⟨hhand, -, -, hevs⟩ := hmove.dispatched hgood hmem
      have hmid : mid = [] := by
        rw [hevs] at hnew
        have hrest : Event.dispatched n invoked ∉ [Event.freed n] := by simp
        exact ((List.append_cons_inj_of_notMem List.not_mem_nil hrest).mp hnew).1.symm
      have hlt := hgood.known n (Or.inr hhand)
      obtain ⟨d, hd⟩ := h.origin n (Or.inr hhand)
      rw [hmid, List.append_nil]
      exact ⟨hlt.trans_le hfresh, (hdue n hlt).trans (hgood.hand_due n hhand).1, d, hd⟩
  · intro n hn
    rw [dispatchedIds_append, List.mem_append] at hn
    rcases hn with hold | hnew
    · have hlt := h.dispatched_lt hold
      apply not_or.mp
      intro hin
      rcases hmove.origin hgood hin with hbefore | ⟨d, hd⟩
      · exact not_or.mpr (h.gone n hold) hbefore
      · -- it would have been added again
        exact (hmove.fresh_le_added hd).not_gt hlt
    · obtain ⟨invoked, hnew⟩ := mem_dispatchedIds.mp hnew
      obtain ⟨-, hhand, hpending, -⟩ := hmove.dispatched hgood hnew
      exact ⟨hpending, hhand⟩
  · rw [dispatchedIds_append]
    by_cases hnew : ∃ n invoked, .dispatched n invoked ∈ evs
    · obtain ⟨n, invoked, hnew⟩ := hnew
      obtain ⟨hhand, -, -, hevs⟩ := hmove.dispatched hgood hnew
      rw [hevs]
      refine List.nodup_append'.mpr ⟨h.once, List.nodup_singleton n, ?_⟩
      exact List.disjoint_singleton.mpr fun hmem => (h.gone n hmem).2 hhand
    · have hnil : dispatchedIds evs = [] := by
        refine List.eq_nil_iff_forall_not_mem.mpr fun n hn => hnew ?_
        exact ⟨n, mem_dispatchedIds.mp hn⟩
      rw [hnil, List.append_nil]
      exact h.once

/-- After every run there are deadlines for which the machine is good and the books are
right. -/
theorem ledger_exec {memory : NodeId → TimerNode H} {acts : List (Act H)}
    (hrun : exec (traced step) (initTimer memory, []) acts = some (s, tr)) :
    ∃ due, Good s due (tr.count .tick) ∧ Ledger s due tr := by
  refine exec_invariant
    (I := fun st => ∃ due, Good st.1 due (st.2.count .tick) ∧ Ledger st.1 due st.2) ?_ ?_ hrun
  · rintro ⟨s, tr⟩ act st ⟨due, hgood, hledger⟩ hstep
    obtain ⟨s', evs, hone, rfl⟩ := traced_eq_some.mp hstep
    exact hledger.move hgood (hgood.move hone)
  · exact ⟨fun _ => 0, good_initTimer memory, ledger_nil memory⟩

/-- The wheel is punctual. In every run, whatever threads and callbacks add, cancel or clear
between the critical sections of the ticker: when `dispatch_list` handles a node, the node
was added before, and since then the clock was incremented exactly as often as its delay
says; and no node is handled twice. -/
theorem dispatch_punctual {memory : NodeId → TimerNode H} {acts : List (Act H)} {s : State H}
    {tr : List Event} (hrun : exec (traced step) (initTimer memory, []) acts = some (s, tr)) :
    (dispatchedIds tr).Nodup ∧
      ∀ pre n invoked post, tr = pre ++ .dispatched n invoked :: post →
        (∃ d, .added n d ∈ pre) ∧
        ∀ before d between, pre = before ++ .added n d :: between →
          between.count .tick = d.toNatClampNeg := by
  obtain ⟨due, -, hledger⟩ := ledger_exec hrun
  refine ⟨hledger.once, fun pre n invoked post heq => ?_⟩
  obtain ⟨-, hcount, hd⟩ := hledger.dispatched pre n invoked post heq
  refine ⟨hd, fun before d between hpre => ?_⟩
  have hat : At .tick tr (.added n d) (before.count .tick) := by
    refine ⟨before, between ++ .dispatched n invoked :: post, ?_, rfl⟩
    rw [heq, hpre, List.append_assoc, List.cons_append]
  have hdue := (hledger.added n d _ hat).2
  rw [hcount, hpre, List.count_append, List.count_cons_of_ne (by simp)] at hdue
  omega

/-- One timer with delay `1`, added at tick `0` and dispatched by the first update. -/
theorem dispatch_punctual_one :
    (∃ d, Event.added 0 d ∈ [.added 0 1, .update, .tick]) ∧
      ∀ before d between,
        [Event.added 0 1, .update, .tick] = before ++ .added 0 d :: between →
          between.count .tick = d.toNatClampNeg :=
  have hrun : exec (traced step) (initTimer fun _ => ⟨0, (), 0, 0⟩, [])
      [.add 1 () 0, .update, .dispatch] =
        some (_, [.added 0 1, .update, .tick, .dispatched 0 true, .freed 0]) := rfl
  (dispatch_punctual hrun).2 [.added 0 1, .update, .tick] 0 true [.freed 0] rfl

end MmorpgServer.TimeWheel
