import MmorpgServer.TimeWheel.Order

/-!
# What a tick moves

The loop of `timer_shift` looks at the digits of the clock until it finds one that is not zero,
and moves the list it names. A node that is moved is at its block start, so that it is filed
strictly lower, and in no list `0`. The number of the levels bounds how often a node is moved.

## Main definitions

* `Tests` — the values of the variables of the loop
* `shiftDigit`, `Selects` — the digits of `ct >> TIME_NEAR_SHIFT`, and the list they select
* `shifted`, `drained` — the list that `timer_shift` moves, and its nodes
* `movedBy` — the nodes that a step of the machine moves

## Main results

* `Tests.values`, `timerShift_selects` — the loop is bounded and finds the list of the lowest
  digit that is not zero
* `Filed.descends` — a node that is moved is filed strictly lower
* `MovesLeft.move` — a step keeps the moves that are left to a node
* `moved_descends` — every move of every run descends, and no node is moved five times
-/

namespace MmorpgServer.TimeWheel

open Machine

variable {H : Type*} {T : STimer H} {s s' : State H} {due : NodeId → ℕ} {now i mask idx : ℕ}
  {n m : NodeId} {a : Slot} {act : Act H} {evs : List Event} {ct time : UInt32}
  {moved : List NodeId}

/-! ### The loop of `timer_shift` -/

/-- The values of `mask`, `time` and `i` when the condition of the loop is evaluated. -/
inductive Tests (ct : UInt32) : ℕ → UInt32 → ℕ → Prop where
  | first : Tests ct timeNear (ct >>> UInt32.ofNat timeNearShift) 0
  /-- the condition holds and the index is `0` -/
  | next {mask i : ℕ} {time : UInt32} (h : Tests ct mask time i)
      (hlow : ct &&& UInt32.ofNat (mask - 1) = 0) (hidx : time &&& timeLevelMask = 0) :
      Tests ct (mask <<< timeLevelShift) (time >>> UInt32.ofNat timeLevelShift) (i + 1)

/-- Every test is about one of the four levels. -/
theorem Tests.values (h : Tests ct mask time i) (hct : ct ≠ 0) :
    i < 4 ∧ mask = span i ∧ time.toNat = ct.toNat / span i := by
  induction h with
  | first => exact ⟨by omega, rfl, loop_time_zero ct⟩
  | @next mask i time _ hlow hidx ih =>
    obtain ⟨hi, rfl, htime⟩ := ih
    rw [loop_low_iff ct hi] at hlow
    rw [loop_index_iff htime] at hidx
    refine ⟨?_, loop_mask i, loop_time htime⟩
    -- at level 3 the index would be that of a clock that is `0`
    have hne : i ≠ 3 := by
      rintro rfl
      exact loop_last hct hlow hidx
    omega

/-- The digit `i` of `ct >> TIME_NEAR_SHIFT`, in base 64. -/
def shiftDigit (ct : UInt32) (i : ℕ) : ℕ := (ct >>> UInt32.ofNat timeNearShift).toNat / 64 ^ i % 64

theorem span_eq (i : ℕ) : span i = 256 * 64 ^ i := by
  rw [span, levelShift, Nat.pow_add, Nat.mul_comm i, Nat.pow_mul]
  rfl

theorem shiftDigit_eq (ct : UInt32) (i : ℕ) : shiftDigit ct i = digit i ct.toNat := by
  rw [shiftDigit, loop_time_zero, span_zero, Nat.div_div_eq_div_mul, ← span_eq]
  rfl

/-- `t[i][idx]` is the list of the least level whose digit is not zero, the low bits being zero. -/
structure Selects (ct : UInt32) (i idx : ℕ) : Prop where
  low : ct.toNat % timeNear = 0
  level : i < 4
  index : idx = shiftDigit ct i
  ne_zero : idx ≠ 0
  least : ∀ j < i, shiftDigit ct j = 0

theorem cascade_eq_some_iff (hct : ct ≠ 0) :
    cascade ct.toNat = some (i, idx) ↔ Selects ct i idx := by
  constructor
  · intro h
    obtain ⟨hi, hdvd, rfl, hlast⟩ := cascade_eq_some h
    obtain ⟨hlow, hleast⟩ := (span_dvd_iff hi).mp hdvd
    refine ⟨hlow, hi, (shiftDigit_eq ct i).symm, fun hzero => ?_, fun j hj => ?_⟩
    · obtain rfl := hlast hzero
      exact loop_last hct (Nat.mod_eq_zero_of_dvd hdvd) hzero
    · rw [shiftDigit_eq]
      exact hleast j hj
  · rintro ⟨hlow, hi, rfl, hne, hleast⟩
    rw [shiftDigit_eq] at hne ⊢
    refine cascade_of_dvd hi ((span_dvd_iff hi).mpr ⟨hlow, fun j hj => ?_⟩) fun h => absurd h hne
    rw [← shiftDigit_eq]
    exact hleast j hj

/-- For every clock value but `0` the loop of `timer_shift` stays within the four levels, with a
mask that is no more than `2 ^ 26`, and ends within four rounds; the list that is moved, if there
is one, is that of the least level whose digit is not zero. -/
theorem timerShift_selects {H : Type*} {ct : UInt32} (hct : ct ≠ 0) :
    (∀ mask time i, Tests ct mask time i → i ≤ 3 ∧ mask = 2 ^ (8 + 6 * i) ∧ mask ≤ 2 ^ 26) ∧
    ∃ r : Option (ℕ × ℕ),
      (∀ fuel, 4 ≤ fuel →
        shiftLoop ct fuel timeNear (ct >>> UInt32.ofNat timeNearShift) 0 = some r) ∧
      (∀ i idx, r = some (i, idx) ↔ Selects ct i idx) ∧
      ∀ T : STimer H, T.time + 1 = ct → timerShift T =
        match r with
        | some (i, idx) => moveList { T with time := ct } i idx
        | none => { T with time := ct } := by
  constructor
  · intro mask time i h
    obtain ⟨hi, rfl, -⟩ := h.values hct
    refine ⟨by omega, ?_, span_le_span (show i ≤ 3 by omega)⟩
    rw [span, levelShift, Nat.mul_comm]
    rfl
  · refine ⟨cascade ct.toNat, fun fuel hfuel => shiftLoop_eq_of_le hct hfuel,
      fun i idx => cascade_eq_some_iff hct, ?_⟩
    rintro T rfl
    unfold timerShift
    rw [if_neg hct, shiftLoop_eq hct]
    cases cascade (T.time + 1).toNat <;> rfl

/-- At tick `16384` the loop goes round twice, and list `1` of level `1` is moved. -/
theorem timerShift_selects_second : ∃ r : Option (ℕ × ℕ), r = some (1, 1) ∧
    (∀ fuel, 4 ≤ fuel →
      shiftLoop 16384 fuel timeNear ((16384 : UInt32) >>> UInt32.ofNat timeNearShift) 0 = some r) ∧
    ∀ T : STimer Unit, T.time + 1 = 16384 → timerShift T =
      match r with
      | some (i, idx) => moveList { T with time := 16384 } i idx
      | none => { T with time := 16384 } := by
  obtain ⟨-, r, hloop, hselects, hshift⟩ := @timerShift_selects Unit 16384 (by decide)
  exact ⟨r, (hselects 1 1).mpr ⟨by decide, by decide, by decide, by decide, by decide⟩, hloop,
    hshift⟩

/-! ### The list that is moved -/

/-- The list that `timer_shift` moves. -/
def shifted (T : STimer H) : Option (ℕ × ℕ) :=
  let ct := T.time + 1
  if ct = 0 then some (3, 0)
  else (shiftLoop ct 5 timeNear (ct >>> UInt32.ofNat timeNearShift) 0).join

theorem timerShift_shifted (T : STimer H) :
    timerShift T = match shifted T with
      | some (i, idx) => moveList { T with time := T.time + 1 } i idx
      | none => { T with time := T.time + 1 } := by
  unfold timerShift shifted
  by_cases hzero : T.time + 1 = 0
  · rw [if_pos hzero, if_pos hzero]
  · rw [if_neg hzero, if_neg hzero]
    generalize shiftLoop (T.time + 1) 5 timeNear _ 0 = r
    rcases r with _ | _ | _ <;> rfl

theorem shifted_eq (htime : T.time.toNat = now % 2 ^ 32) : shifted T = cascade (now + 1) := by
  have hct : (T.time + 1).toNat = (now + 1) % 2 ^ 32 := by
    rw [UInt32.toNat_add, htime, Nat.mod_add_mod]
    rfl
  rw [← cascade_mod_word, ← hct]
  unfold shifted
  by_cases hzero : T.time + 1 = 0
  · rw [if_pos hzero, hzero]
    rfl
  · rw [if_neg hzero, shiftLoop_eq hzero]
    rfl

/-- The nodes that `timer_shift` moves. -/
def drained (T : STimer H) : List NodeId :=
  match shifted T with
  | some (i, idx) => T.list (.level i idx)
  | none => []

/-- A near list, or a list of a level below `i` other than list `0`. -/
def Lower (i : ℕ) : Slot → Prop
  | .near _ => True
  | .level j k => j < i ∧ k ≠ 0

theorem foldl_addNode_fields (hand : List NodeId) (T : STimer H) :
    (hand.foldl addNode T).node = T.node ∧ (hand.foldl addNode T).time = T.time := by
  induction hand generalizing T with
  | nil => exact ⟨rfl, rfl⟩
  | cons n hand ih =>
    obtain ⟨a, ha⟩ := addNode_link T n
    obtain ⟨hnode, htime⟩ := ih (addNode T n)
    rw [ha] at hnode htime
    rw [List.foldl_cons, ha]
    exact ⟨hnode, htime⟩

/-- Where a node that is moved is filed. -/
theorem Filed.lower_slotFor (h : Filed T due now) (hshift : shifted T = some (i, idx))
    (hn : n ∈ T.list (.level i idx)) : Lower i (slotFor (due n) (due n - (now + 1))) := by
  rw [shifted_eq h.time] at hshift
  have hstart := (h.placed _ n hn).emptied hshift
  obtain ⟨-, hlower⟩ := slotFor_blockStart (cascade_eq_some hshift).1 hstart
  cases ha : slotFor (due n) (due n - (now + 1)) with
  | near j => trivial
  | level j k => exact hlower j k ha

/-- The loop of `move_list` links every node strictly lower. -/
theorem Filed.descends (h : Filed T due now) (hshift : shifted T = some (i, idx))
    {pre post : List NodeId} (hlist : T.list (.level i idx) = pre ++ n :: post) :
    let T' := pre.foldl TimeWheel.addNode
      ({ T with time := T.time + 1 }.linkClear (.level i idx)).2
    ∃ a, TimeWheel.addNode T' n = T'.link a n ∧ Lower i a := by
  intro T'
  have hn : n ∈ T.list (.level i idx) := by
    rw [hlist]
    exact List.mem_append_right pre List.mem_cons_self
  obtain ⟨hnode, htime⟩ := foldl_addNode_fields pre
    ({ T with time := T.time + 1 }.linkClear (.level i idx)).2
  have hcascade := hshift
  rw [shifted_eq h.time] at hcascade
  obtain ⟨hle, hlt⟩ := h.emptied_bounds hcascade hn
  have hexpire : (T'.node n).expire.toNat = due n % 2 ^ 32 := by
    rw [hnode]
    exact h.expire _ n hn
  have hclock : T'.time.toNat = (now + 1) % 2 ^ 32 := by
    rw [htime]
    change (T.time + 1).toNat = _
    rw [UInt32.toNat_add, h.time, Nat.mod_add_mod]
    rfl
  exact ⟨_, addNode_eq hexpire hclock hle hlt, h.lower_slotFor hshift hn⟩

theorem Filed.mem_drained (h : Filed T due now) :
    n ∈ drained T ↔ ∃ a, Emptied (now + 1) a ∧ n ∈ T.list a := by
  unfold drained
  rw [shifted_eq h.time]
  cases hcascade : cascade (now + 1) with
  | none => simp [Emptied, hcascade]
  | some p =>
    obtain ⟨i, idx⟩ := p
    constructor
    · exact fun hn => ⟨_, ⟨i, idx, rfl, hcascade⟩, hn⟩
    · rintro ⟨_, ⟨i', idx', rfl, hsome⟩, hn⟩
      rw [hcascade] at hsome
      cases hsome
      exact hn

theorem Filed.nodup_drained (h : Filed T due now) : (drained T).Nodup := by
  unfold drained
  cases shifted T with
  | none => exact List.nodup_nil
  | some p => exact h.nodup _

/-! ### How often a node is moved -/

/-- The nodes that a step moves: it comes to `timer_shift` when it finds nothing due. -/
def movedBy (s : State H) : Act H → List NodeId
  | .update =>
    if s.ticker = .idle ∧ (takeDue s.wheel).isNone then drained s.wheel else []
  | .resume =>
    if s.ticker = .dispatching .before [] ∧ (takeDue s.wheel).isNone then drained s.wheel else []
  | _ => []

/-- Add what the step moves. -/
def noteMoved (s : State H) (act : Act H) (_ : State H) (moved : List NodeId) : List NodeId :=
  moved ++ movedBy s act

/-- A node has been moved at most as often as there are levels above its list. -/
structure MovesLeft (s : State H) (moved : List NodeId) : Prop where
  standing : ∀ a n, n ∈ s.wheel.list a → moved.count n + height a ≤ 4
  bound : ∀ n, moved.count n ≤ 4
  known : ∀ n ∈ moved, n < s.fresh

theorem Placed.height_le {d : ℕ} (h : Placed now d a) : height a ≤ 4 := by
  cases a with
  | near j => exact Nat.zero_le 4
  | level i j => exact h.1

theorem Lower.height_lt (h : Lower i a) : height a < height (.level i idx) := by
  cases a with
  | near j => exact Nat.succ_pos i
  | level j k => exact Nat.succ_lt_succ h.1

/-- What a tick does to the moves that are left. -/
theorem MovesLeft.timerShift (h : MovesLeft s moved) (hgood : Good s due now) :
    (∀ a n, n ∈ (timerShift s.wheel).list a →
      (moved ++ drained s.wheel).count n + height a ≤ 4) ∧
    (∀ n, (moved ++ drained s.wheel).count n ≤ 4) ∧
    ∀ n ∈ moved ++ drained s.wheel, n < s.fresh := by
  obtain ⟨-, -, hmem⟩ := filed_timerShift hgood.filed hgood.served
  have hdrained := fun n => hgood.filed.mem_drained (n := n)
  have honce : ∀ n, (drained s.wheel).count n ≤ 1 :=
    List.nodup_iff_count_le_one.mp hgood.filed.nodup_drained
  refine ⟨fun a n hn => ?_, fun n => ?_, fun n hn => ?_⟩
  · rw [List.count_append]
    rcases (hmem a n).mp hn with ⟨hstay, hkept⟩ | ⟨b, hempty, hb, ha⟩
    · -- a node that stays is not in the list that is moved
      have hout : n ∉ drained s.wheel := by
        rw [hdrained]
        rintro ⟨b, hempty, hb⟩
        exact hkept (hgood.filed.disjoint a b n hstay hb ▸ hempty)
      rw [List.count_eq_zero_of_not_mem hout]
      exact h.standing a n hstay
    · obtain ⟨i, idx, rfl, hcascade⟩ := hempty
      have hlower := hgood.filed.lower_slotFor ((shifted_eq hgood.filed.time).trans hcascade) hb
      rw [← ha] at hlower
      have hlt : height a < height (.level i idx) := hlower.height_lt
      have hbefore := h.standing _ n hb
      have hone := honce n
      omega
  · rw [List.count_append]
    by_cases hn : n ∈ drained s.wheel
    · obtain ⟨b, ⟨i, idx, rfl, -⟩, hb⟩ := (hdrained n).mp hn
      have hbefore := h.standing _ n hb
      have hone := honce n
      change moved.count n + (i + 1) ≤ 4 at hbefore
      omega
    · rw [List.count_eq_zero_of_not_mem hn]
      exact h.bound n
  · rcases List.mem_append.mp hn with hn | hn
    · exact h.known n hn
    · obtain ⟨b, -, hb⟩ := (hdrained n).mp hn
      exact hgood.known n (Or.inl ⟨b, hb⟩)

theorem movesLeft_initTimer (memory : NodeId → TimerNode H) :
    MovesLeft (initTimer memory) [] where
  standing _ _ h := absurd h List.not_mem_nil
  bound _ := Nat.zero_le 4
  known _ h := absurd h List.not_mem_nil

/-- Every step keeps the moves that are left. -/
theorem MovesLeft.move (h : MovesLeft s moved) (hgood : Good s due now)
    (hmove : Move s act s' evs) : MovesLeft s' (moved ++ movedBy s act) := by
  cases hmove with
  | immediate time func threadid hle =>
    change MovesLeft _ (moved ++ [])
    rw [List.append_nil]
    exact ⟨h.standing, h.bound, fun n hn => Nat.lt_succ_of_lt (h.known n hn)⟩
  | add time func threadid hpos =>
    obtain ⟨hfiled, -, -, hmem⟩ := hgood.addTimer func threadid hpos
    change MovesLeft _ (moved ++ [])
    rw [List.append_nil]
    refine ⟨fun a n hn => ?_, h.bound, fun n hn => Nat.lt_succ_of_lt (h.known n hn)⟩
    rcases (hmem a n).mp hn with hold | ⟨rfl, -⟩
    · exact h.standing a n hold
    · -- the new node has not been moved yet
      rw [List.count_eq_zero_of_not_mem fun hin => (h.known _ hin).ne rfl, Nat.zero_add]
      exact (hfiled.placed a _ hn).height_le
  | del m =>
    change MovesLeft _ (moved ++ [])
    rw [List.append_nil]
    exact ⟨h.standing, h.bound, h.known⟩
  | update hidle =>
    have hnone : takeDue s.wheel = none := (takeDue_eq_none hgood.filed).mpr hgood.served
    have hmoved : movedBy s .update = drained s.wheel :=
      if_pos ⟨hidle, by rw [hnone]; rfl⟩
    obtain ⟨hstanding, hbound, hknown⟩ := h.timerShift hgood
    rw [hmoved]
    exact ⟨fun a n hn => hstanding a n (hgood.mem_update.mp hn).1, hbound, hknown⟩
  | dispatch m batch hticker =>
    change MovesLeft _ (moved ++ [])
    rw [List.append_nil]
    exact ⟨h.standing, h.bound, h.known⟩
  | finish hticker =>
    have hmoved : movedBy s .resume = [] := by simp [movedBy, hticker]
    rw [hmoved, List.append_nil]
    exact ⟨h.standing, h.bound, h.known⟩
  | clear hidle =>
    change MovesLeft _ (moved ++ [])
    rw [List.append_nil]
    exact ⟨fun a n hn => h.standing a n (mem_of_mem_clearTimer hn), h.bound, h.known⟩

/-- In every state of every run, whatever is added, cancelled and dispatched meanwhile, each node
of the list that `timer_shift` moves is linked into a strictly lower level, and there not into
list `0`; and in the whole run no node is moved more than four times. -/
theorem moved_descends {memory : NodeId → TimerNode H} {acts : List (Act H)} {s : State H}
    {tr : List Event} (hrun : exec (traced step) (initTimer memory, []) acts = some (s, tr)) :
    (∀ i idx, shifted s.wheel = some (i, idx) →
      timerShift s.wheel = moveList { s.wheel with time := s.wheel.time + 1 } i idx ∧
      ∀ pre n post, s.wheel.list (.level i idx) = pre ++ n :: post →
        let T := pre.foldl addNode
          ({ s.wheel with time := s.wheel.time + 1 }.linkClear (.level i idx)).2
        ∃ a, addNode T n = T.link a n ∧ Lower i a) ∧
    ∃ moved, exec (recorded step noteMoved) (initTimer memory, []) acts = some (s, moved) ∧
      ∀ n, moved.count n ≤ 4 := by
  obtain ⟨moved, hrec⟩ := exec_recorded noteMoved [] hrun
  -- the deadlines and the clock that go with the state
  obtain ⟨⟨due, now, hgood⟩, hleft⟩ := exec_invariant
    (I := fun st : State H × List NodeId => (∃ due now, Good st.1 due now) ∧ MovesLeft st.1 st.2)
    (fun st act st' ⟨⟨due, now, hgood⟩, hleft⟩ hone => by
      obtain ⟨s', evs, hstep, rfl⟩ := recorded_eq_some.mp hone
      have hmove := hgood.move hstep
      obtain ⟨due', hgood', -⟩ := hmove.good hgood
      exact ⟨⟨due', _, hgood'⟩, hleft.move hgood hmove⟩)
    ⟨⟨fun _ => 0, 0, good_initTimer memory⟩, movesLeft_initTimer memory⟩ hrec
  refine ⟨fun i idx hshift => ⟨?_, fun pre n post hlist => ?_⟩, moved, hrec, hleft.bound⟩
  · rw [timerShift_shifted, hshift]
  · exact hgood.filed.descends hshift hlist

/-- Timers with the delays `300` and `1000`, and `256` updates, the last of which moves the first
timer. -/
def movedOnce : List (Act Unit) := .add 300 () 0 :: .add 1000 () 0 :: List.replicate 256 .update

theorem moved_descends_movedOnce : ∃ s : State Unit,
    exec (recorded step noteMoved) (initTimer fun _ => ⟨0, (), 0, 0⟩, []) movedOnce =
      some (s, [0]) ∧ ∀ n, [0].count n ≤ 4 := by
  have hsome : (exec (traced step) (initTimer fun _ => ⟨0, (), 0, 0⟩, []) movedOnce).isSome =
      true := by decide +kernel
  have hmoved : (exec (recorded step noteMoved) (initTimer fun _ => ⟨0, (), 0, 0⟩, [])
      movedOnce).map (·.2) = some [0] := by decide +kernel
  obtain ⟨⟨s, tr⟩, hrun⟩ := Option.isSome_iff_exists.mp hsome
  obtain ⟨-, moved, hrec, hbound⟩ := moved_descends hrun
  obtain rfl : moved = [0] := Option.some.inj ((congrArg _ hrec).symm.trans hmoved)
  exact ⟨s, hrec, hbound⟩

end MmorpgServer.TimeWheel
