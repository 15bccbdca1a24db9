import MmorpgServer.TimeWheel.Punctuality

/-!
# Which timers the wheel loses

`timer_shift` empties slot `0` of a level below the top never: its loop goes on to the next
digit there. `add_node` does file nodes in such slots, whenever the digit of the deadline at
the level of the delay is `0`. These nodes are lost; every other node is dispatched by the
time its delay has passed.

## Main definitions

* `FiresInTime` — the callback of the new node is invoked within the delay, in every
  continuation that neither cancels the node nor clears the wheel
* `Lost` — the word condition under which `add_node` chooses slot `0` of a lower level

## Main results

* `firesInTime_of_not_lost`, `not_firesInTime_of_lost` — by following the node
* `firesInTime_iff` — in every reachable state
-/

namespace MmorpgServer.TimeWheel

open Machine

variable {H : Type*} {s s' : State H} {due : NodeId → ℕ} {now : ℕ} {n : NodeId}
  {act : Act H} {acts : List (Act H)} {evs tr : List Event}

/-- The updates that were entered and left in a trace that ends with this ticker. An update
under way at the start of the trace does not count. -/
def completedUpdates (ticker : Ticker) (tr : List Event) : ℕ :=
  tr.count .update - if ticker = .idle then 0 else 1

/-- The step neither cancels the node nor clears the wheel. -/
def Spares (n : NodeId) : Act H → Prop
  | .del m => m ≠ n
  | .clear => False
  | _ => True

/-- However the machine goes on after `add_timer`, when as many updates are complete as the
delay says, the callback of the new node has been invoked. -/
def FiresInTime (s : State H) (time : Int32) (func : H) (threadid : Int32) : Prop :=
  ∀ acts u tr,
    exec (traced step) (s, []) (.add time func threadid :: acts) = some (u, tr) →
    (∀ act ∈ acts, Spares s.fresh act) →
    time.toNatClampNeg ≤ completedUpdates u.ticker tr →
    .dispatched s.fresh true ∈ tr

/-- For a level below the top, the delay asks for that level and the digit of the deadline
there is `0`. -/
def Lost (clock : UInt32) (time : Int32) : Prop :=
  ∃ i < 3, span i ≤ time.toNatClampNeg ∧ time.toNatClampNeg < span (i + 1) ∧
    (time.toUInt32 + clock) >>> UInt32.ofNat (levelShift i) &&& timeLevelMask = 0

/-! ### The list of the new node -/

/-- `add_node` chooses a dead list exactly for the digit `0` of a level below the top. -/
theorem dead_slotFor {due dist : ℕ} :
    Dead (slotFor due dist) ↔
      ∃ i < 3, span i ≤ dist ∧ dist < span (i + 1) ∧ digit i due = 0 := by
  have hlevel : ∀ j, span j ≤ dist → dist < span (j + 1) →
      (Dead (.level j (digit j due)) ↔
        ∃ i < 3, span i ≤ dist ∧ dist < span (i + 1) ∧ digit i due = 0) := by
    intro j hge hlt
    constructor
    · rintro ⟨hj, hzero⟩
      exact ⟨j, hj, hge, hlt, hzero⟩
    · rintro ⟨i, hi, hge', hlt', hzero⟩
      -- the ranges of delays are disjoint, so there is one level for a delay
      rcases Nat.lt_trichotomy i j with h | rfl | h
      · have hmono : span (i + 1) ≤ span j := span_le_span h
        omega
      · exact ⟨hi, hzero⟩
      · have hmono : span (j + 1) ≤ span i := span_le_span h
        omega
  have hnear : dist < span 0 → ¬ ∃ i < 3, span i ≤ dist ∧ dist < span (i + 1) ∧
      digit i due = 0 := by
    rintro h0 ⟨i, -, hge, -⟩
    have hmono : span 0 ≤ span i := span_le_span (Nat.zero_le i)
    omega
  unfold slotFor
  split_ifs with h0 h1 h2 h3
  · exact iff_of_false id (hnear h0)
  · exact hlevel 0 (by omega) h1
  · exact hlevel 1 (by omega) h2
  · exact hlevel 2 (by omega) h3
  · refine iff_of_false (fun hd => absurd hd.1 (by omega)) ?_
    rintro ⟨i, hi, -, hlt, -⟩
    have hmono : span (i + 1) ≤ span 3 := span_le_span hi
    omega

theorem lost_iff {clock : UInt32} {time : Int32} (hclock : clock.toNat = now % 2 ^ 32)
    (hpos : 0 < time) :
    Lost clock time ↔
      Dead (slotFor (now + time.toNatClampNeg) time.toNatClampNeg) := by
  rw [dead_slotFor]
  unfold Lost
  refine exists_congr fun i => and_congr_right fun hi =>
    and_congr_right fun _ => and_congr_right fun _ => ?_
  have hword : (time.toUInt32 + clock).toNat = (now + time.toNatClampNeg) % 2 ^ 32 := by
    rw [UInt32.toNat_add, (delay_bounds hpos).2.2, hclock]
    omega
  rw [← UInt32.toNat_inj, digit_toNat _ (by omega : i < 4), hword, digit_mod_word (by omega)]
  rfl

/-! ### Following the new node -/

/-- What is known of the node that was added at tick `now - tr.count .tick`. -/
structure Followed (n : NodeId) (start dueTick : ℕ) (st : State H × List Event)
    (due : NodeId → ℕ) : Prop where
  good : Good st.1 due (start + st.2.count .tick)
  ticks : st.2.count .update = st.2.count .tick
  known : n < st.1.fresh
  due_eq : due n = dueTick

theorem Followed.move {start dueTick : ℕ} (h : Followed n start dueTick (s, tr) due)
    (hmove : Move s act s' evs) :
    ∃ due', Followed n start dueTick (s', tr ++ evs) due' := by
  obtain ⟨due', hgood', hdue, hfresh, hcount, -⟩ := hmove.good h.good
  refine ⟨due', ?_, ?_, h.known.trans_le hfresh, (hdue n h.known).trans h.due_eq⟩
  · change Good s' due' (start + (tr ++ evs).count .tick)
    rwa [List.count_append, ← Nat.add_assoc]
  · change (tr ++ evs).count .update = (tr ++ evs).count .tick
    rw [List.count_append, List.count_append, hcount, h.ticks]

/-- The new node after `add_timer`. -/
theorem Good.followed (hgood : Good s due now) {time : Int32} (func : H) (threadid : Int32)
    (hpos : 0 < time) :
    ∃ s' due', step s (.add time func threadid) = some (s', [.added s.fresh time]) ∧
      Followed s.fresh now (now + time.toNatClampNeg) (s', [.added s.fresh time]) due' ∧
      (s'.wheel.node s.fresh).cancel = (s.wheel.node s.fresh).cancel ∧
      s.fresh ∈ s'.wheel.list
        (slotFor (now + time.toNatClampNeg) time.toNatClampNeg) := by
  obtain ⟨-, -, hcancel, hmem⟩ := hgood.addTimer func threadid hpos
  obtain ⟨due', hgood', -, -, -, hadded⟩ := (Move.add time func threadid hpos).good hgood
  obtain ⟨hlt, hdue⟩ := hadded s.fresh time (List.mem_singleton_self _)
  refine ⟨_, due', ?_, ⟨hgood', rfl, hlt, hdue⟩, hcancel, ?_⟩
  · rw [step]
    exact if_neg (Int32.not_le.mpr hpos)
  · exact (hmem _ _).mpr (Or.inr ⟨rfl, rfl⟩)

/-- A node that is not filed in a dead list is dispatched in time. -/
theorem firesInTime_of_not_lost (hgood : Good s due now) {time : Int32} (func : H)
    (threadid : Int32) (hpos : 0 < time) (hcancel : (s.wheel.node s.fresh).cancel = 0)
    (hlost : ¬ Lost s.wheel.time time) : FiresInTime s time func threadid := by
  intro acts u tr hrun hspares hcompleted
  obtain ⟨s₁, due₁, hadd, hfollowed, hcancel₁, hmem⟩ := hgood.followed func threadid hpos
  have hlive : Live s₁ s.fresh :=
    Or.inr ⟨_, fun hdead => hlost ((lost_iff hgood.filed.time hpos).mpr hdead), hmem⟩
  have hrest := (exec_traced_cons hadd).mp hrun
  -- the node stays live, and not cancelled, until its callback is invoked
  have hend : (∃ due', Followed s.fresh now (now + time.toNatClampNeg) (u, tr) due') ∧
      (u.wheel.node s.fresh).cancel = 0 ∧
      (Live u s.fresh ∨ .dispatched s.fresh true ∈ tr) := by
    refine exec_invariant_of_forall (P := Spares s.fresh)
      (I := fun st => (∃ due', Followed s.fresh now (now + time.toNatClampNeg) st due') ∧
        (st.1.wheel.node s.fresh).cancel = 0 ∧
        (Live st.1 s.fresh ∨ .dispatched s.fresh true ∈ st.2)) ?_ hspares
      ⟨⟨due₁, hfollowed⟩, hcancel₁.trans hcancel, Or.inl hlive⟩ hrest
    rintro ⟨s₂, tr₂⟩ act st hact ⟨⟨due₂, hfollowed₂⟩, hcancel₂, hlive₂⟩ hstep
    obtain ⟨s₃, evs, hone, rfl⟩ := traced_eq_some.mp hstep
    have hmove := hfollowed₂.good.move hone
    have hdel : act ≠ .del s.fresh := by
      rintro rfl
      exact hact rfl
    have hclear : act ≠ .clear := by
      rintro rfl
      exact hact
    refine ⟨hfollowed₂.move hmove,
      (hmove.cancel hfollowed₂.good hfollowed₂.known hdel).trans hcancel₂, ?_⟩
    rcases hlive₂ with hlive₂ | hdone
    · apply (hmove.live hfollowed₂.good hclear hlive₂).imp_right
      intro hnew
      rw [hcancel₂] at hnew
      exact List.mem_append_right _ hnew
    · exact Or.inr (List.mem_append_left _ hdone)
  obtain ⟨⟨due', hfollowed'⟩, -, hlive' | hdone⟩ := hend
  · obtain ⟨hle, hhand⟩ := hfollowed'.good.le_due hlive'
    rw [hfollowed'.due_eq] at hle hhand
    have hticks := hfollowed'.ticks
    have hd := (delay_bounds hpos).1
    unfold completedUpdates at hcompleted
    dsimp only at hle hhand hticks
    by_cases hidle : u.ticker = .idle
    · rw [if_pos hidle] at hcompleted
      have hhand := hhand (by omega)
      rw [hidle] at hhand
      exact absurd hhand List.not_mem_nil
    · rw [if_neg hidle] at hcompleted
      omega
  · exact hdone

/-! ### The ticker makes progress -/

/-- The ticker alone can lead from one state to the other, entering `k` updates. -/
def Ticks (s s' : State H) (k : ℕ) : Prop :=
  ∃ acts evs, (∀ n, ∀ act ∈ acts, Spares n act) ∧
    exec (traced step) (s, []) acts = some (s', evs) ∧ evs.count .update = k

theorem Ticks.refl : Ticks s s 0 := ⟨[], [], by simp, rfl, rfl⟩

theorem Ticks.head {u : State H} {k : ℕ} (hstep : step s act = some (s', evs))
    (hspares : ∀ n, Spares n act) (h : Ticks s' u k) :
    Ticks s u (evs.count .update + k) := by
  obtain ⟨acts, evs', hacts, hrun, hcount⟩ := h
  refine ⟨act :: acts, evs ++ evs', fun n => ?_, ?_, ?_⟩
  · exact List.forall_mem_cons.mpr ⟨hspares n, hacts n⟩
  · exact exec_traced_cons_eq_some.mpr ⟨s', evs, evs', hstep, hrun, rfl⟩
  · rw [List.count_append, hcount]

/-- From every good state the ticker can leave the update it is in. -/
theorem Good.leave (hgood : Good s due now) :
    ∃ s', Ticks s s' 0 ∧ s'.ticker = .idle ∧ ∃ due', Good s' due' now := by
  cases hticker : s.ticker with
  | idle => exact ⟨s, .refl, hticker, due, hgood⟩
  | dispatching phase batch =>
    obtain rfl := hgood.phase _ _ hticker
    induction batch generalizing s due with
    | nil =>
      obtain ⟨due', hgood', -⟩ := (Move.finish hticker).good hgood
      have hnone := (takeDue_eq_none hgood.filed).mpr hgood.served
      have hstep : step s .resume = some ({ s with ticker := .idle }, []) := by
        rw [step, hticker]
        simp only [executeAfter, hnone]
      exact ⟨_, .head hstep (fun _ => trivial) .refl, rfl, due', hgood'⟩
    | cons n batch ih =>
      obtain ⟨due', hgood', -⟩ := (Move.dispatch n batch hticker).good hgood
      have hstep : step s .dispatch = some ({ s with ticker := .dispatching .after batch },
          [.dispatched n ((s.wheel.node n).cancel == 0), .freed n]) := by
        rw [step, hticker]
      obtain ⟨u, hticks, hidle, hgood''⟩ := ih hgood' rfl
      exact ⟨u, .head hstep (fun _ => trivial) hticks, hidle, hgood''⟩

/-- From every good state the ticker can complete any number of updates. -/
theorem Good.ticks (hgood : Good s due now) (k : ℕ) :
    ∃ s', Ticks s s' k ∧ s'.ticker = .idle := by
  induction k generalizing s due now with
  | zero =>
    obtain ⟨s', hticks, hidle, -⟩ := hgood.leave
    exact ⟨s', hticks, hidle⟩
  | succ k ih =>
    obtain ⟨s₁, ⟨acts, evs, hacts, hrun, hcount⟩, hidle, due₁, hgood₁⟩ := hgood.leave
    have hnone := (takeDue_eq_none hgood₁.filed).mpr hgood₁.served
    have hstep : step s₁ .update = some ({ s₁ with
        ticker := (executeAfter (timerShift s₁.wheel)).1
        wheel := (executeAfter (timerShift s₁.wheel)).2 }, [.update, .tick]) := by
      rw [step, hidle]
      simp only [executeBefore, hnone]
    obtain ⟨due₂, hgood₂, -⟩ := (Move.update hidle).good hgood₁
    obtain ⟨u, hticks, hidle'⟩ := ih hgood₂
    obtain ⟨acts', evs', hacts', hrun', hcount'⟩ := hticks.head hstep (fun _ => trivial)
    refine ⟨u, ⟨acts ++ acts', evs ++ evs', fun n act hact => ?_, ?_, ?_⟩, hidle'⟩
    · exact (List.mem_append.mp hact).elim (hacts n act) (hacts' n act)
    · exact exec_append_eq_some.mpr ⟨_, hrun, exec_traced_append.mpr ⟨evs', hrun', rfl⟩⟩
    · rw [List.count_append, hcount, hcount', Nat.zero_add]
      exact Nat.add_comm 1 k

/-! ### Lost nodes -/

/-- A node that is filed in a dead list is never dispatched. -/
theorem not_firesInTime_of_lost (hgood : Good s due now) {time : Int32} (func : H)
    (threadid : Int32) (hpos : 0 < time) (hlost : Lost s.wheel.time time) :
    ¬ FiresInTime s time func threadid := by
  intro hfires
  obtain ⟨s₁, due₁, hadd, hfollowed, -, hmem⟩ := hgood.followed func threadid hpos
  have hdead := (lost_iff hgood.filed.time hpos).mp hlost
  -- the ticker completes as many updates as the delay says
  obtain ⟨u, ⟨acts, evs, hacts, hrun, hcount⟩, hidle⟩ := hfollowed.good.ticks time.toNatClampNeg
  have hrest : exec (traced step) (s₁, [.added s.fresh time]) acts =
      some (u, .added s.fresh time :: evs) := exec_traced_append.mpr ⟨evs, hrun, rfl⟩
  have hcompleted :
      time.toNatClampNeg ≤ completedUpdates u.ticker (.added s.fresh time :: evs) := by
    unfold completedUpdates
    rw [hidle, if_pos rfl, List.count_cons_of_ne (by simp), hcount]
    exact le_rfl
  have hfired := hfires _ u _ ((exec_traced_cons hadd).mpr hrest) (hacts s.fresh) hcompleted
  -- but the node stays where it is
  have hend : (∃ due', Followed s.fresh now (now + time.toNatClampNeg)
        (u, .added s.fresh time :: evs) due') ∧
      s.fresh ∈ u.wheel.list (slotFor (now + time.toNatClampNeg) time.toNatClampNeg) ∧
      ∀ invoked, .dispatched s.fresh invoked ∉ Event.added s.fresh time :: evs := by
    refine exec_invariant_of_forall (P := Spares s.fresh)
      (I := fun st => (∃ due', Followed s.fresh now (now + time.toNatClampNeg) st due') ∧
        s.fresh ∈ st.1.wheel.list
          (slotFor (now + time.toNatClampNeg) time.toNatClampNeg) ∧
        ∀ invoked, .dispatched s.fresh invoked ∉ st.2) ?_ (hacts s.fresh)
      ⟨⟨due₁, hfollowed⟩, hmem, by simp⟩ hrest
    rintro ⟨s₂, tr₂⟩ act st hact ⟨⟨due₂, hfollowed₂⟩, hmem₂, hnever₂⟩ hstep
    obtain ⟨s₃, evs, hone, rfl⟩ := traced_eq_some.mp hstep
    have hmove := hfollowed₂.good.move hone
    have hclear : act ≠ .clear := by
      rintro rfl
      exact hact
    refine ⟨hfollowed₂.move hmove, hmove.stuck hfollowed₂.good hclear hdead hmem₂,
      fun invoked hin => ?_⟩
    rcases List.mem_append.mp hin with hold | hnew
    · exact hnever₂ invoked hold
    · have hhand := (hmove.dispatched hfollowed₂.good hnew).1
      exact (hfollowed₂.good.hand_due _ hhand).2 ⟨_, hmem₂⟩
  exact hend.2.2 true hfired

/-- In every reachable state, at every value of the clock and whatever else is in the wheel:
`add_timer` sees the callback of its new node invoked in time if and only if it does not file
the node in a slot `0` below the top level. -/
theorem firesInTime_iff {memory : NodeId → TimerNode H} {acts : List (Act H)} {s : State H}
    {tr : List Event} (hrun : exec (traced step) (initTimer memory, []) acts = some (s, tr))
    {time : Int32} (hpos : 0 < time) (func : H) (threadid : Int32)
    (hcancel : (s.wheel.node s.fresh).cancel = 0) :
    FiresInTime s time func threadid ↔ ¬ Lost s.wheel.time time := by
  obtain ⟨due, hgood, -⟩ := ledger_exec hrun
  constructor
  · intro hfires hlost
    exact not_firesInTime_of_lost hgood func threadid hpos hlost hfires
  · exact firesInTime_of_not_lost hgood func threadid hpos hcancel

/-- At tick `2`, with two other timers in the wheel, the delay `300` is served. Its timer is filed
at level `0` and has to be moved. -/
theorem firesInTime_iff_cascading : ∃ (s : State Unit) (tr : List Event),
    exec (traced step) (initTimer fun _ => ⟨0, (), 0, 0⟩, [])
      [.add 10 () 0, .update, .add 70000 () 0, .update] = some (s, tr) ∧
      s.wheel.time = 2 ∧ FiresInTime s 300 () 0 := by
  obtain ⟨s, tr, hrun, hcancel, htime⟩ : ∃ s tr,
      exec (traced step) (initTimer fun _ => ⟨0, (), 0, 0⟩, [])
        [.add 10 () 0, .update, .add 70000 () 0, .update] = some (s, tr) ∧
        (s.wheel.node s.fresh).cancel = 0 ∧ s.wheel.time = 2 := ⟨_, _, rfl, rfl, rfl⟩
  refine ⟨s, tr, hrun, htime, (firesInTime_iff hrun (by decide) () 0 hcancel).mpr ?_⟩
  rw [htime]
  unfold Lost
  decide

/-- One update after `init_timer`, a timer with delay `16383` is lost: its deadline `16384`
has digit `0` at level `0`. -/
theorem not_firesInTime_16383 :
    ∃ s tr, exec (traced step) (initTimer fun _ => ⟨0, (), 0, 0⟩, []) [.update] = some (s, tr) ∧
      (s.wheel.node s.fresh).cancel = 0 ∧ ¬ FiresInTime s 16383 () 0 := by
  obtain ⟨s, tr, hrun, hcancel, htime⟩ : ∃ s tr,
      exec (traced step) (initTimer fun _ => ⟨0, (), 0, 0⟩, []) [.update] = some (s, tr) ∧
        (s.wheel.node s.fresh).cancel = 0 ∧ s.wheel.time = 1 := ⟨_, _, rfl, rfl, rfl⟩
  obtain ⟨due, hgood, -⟩ := ledger_exec hrun
  refine ⟨s, tr, hrun, hcancel, not_firesInTime_of_lost hgood () 0 (by decide) ?_⟩
  rw [htime]
  exact ⟨0, by decide, by decide, by decide, by decide⟩

end MmorpgServer.TimeWheel
