import MmorpgServer.TimeWheel.Model
import MmorpgServer.Lib.Digits
import Mathlib.Tactic.IntervalCases
import Mathlib.Tactic.Ring

/-!
# Where the wheel files a deadline

The clock of the wheel is a 32-bit word, but a node is filed for an absolute tick: the
number of ticks made so far plus its delay. This file restates the word computations of
`add_node` and `timer_shift` over absolute ticks, and says at which list of the wheel a
node may stand while the clock shows `now`.

## Main definitions

* `span`, `digit` — the width of a level and the digit that names a list of it
* `slotFor` — the list that `add_node` chooses, from the deadline and its distance
* `cascade` — the list that `timer_shift` empties when the clock reaches a tick
* `Dead` — the lists that no `timer_shift` ever empties: slot `0` of the levels below `3`
* `Placed` — a node due at `due` may stand in this list at tick `now`

## Main results

* `addNode_eq`, `timerShift_eq` — the functions of the source in absolute ticks
* `placed_slotFor` — `add_node` files every node where it may stand
* `Placed.tick` — standing where it may, a node stays so unless its list is emptied
* `Placed.emptied` — and an emptied node is exactly at its block start
-/

namespace MmorpgServer.TimeWheel

open Digits

/-- The width of level `i`: how many ticks one of its lists covers. -/
def span (i : ℕ) : ℕ := 2 ^ levelShift i

/-- The digit of a tick at level `i`. -/
def digit (i x : ℕ) : ℕ := x / span i % 64

theorem span_pos (i : ℕ) : 0 < span i := Nat.two_pow_pos _

theorem span_succ (i : ℕ) : span (i + 1) = 64 * span i := by
  unfold span levelShift timeLevelShift
  rw [Nat.succ_mul, ← Nat.add_assoc, Nat.pow_add, Nat.mul_comm]

theorem levelShift_le {i j : ℕ} (h : i ≤ j) : levelShift i ≤ levelShift j :=
  Nat.add_le_add_left (Nat.mul_le_mul_right timeLevelShift h) timeNearShift

theorem span_le_span {i j : ℕ} (h : i ≤ j) : span i ≤ span j :=
  Nat.pow_le_pow_right (by omega) (levelShift_le h)

@[simp] theorem span_zero : span 0 = 256 := rfl
@[simp] theorem span_three : span 3 = 67108864 := rfl
@[simp] theorem span_four : span 4 = 4294967296 := rfl

/-- The digits of a tick are those of the 32-bit clock. -/
theorem digit_mod_word {i : ℕ} (hi : i < 4) (x : ℕ) : digit i (x % 2 ^ 32) = digit i x := by
  apply digit_mod
  interval_cases i
  · exact ⟨2 ^ 18, rfl⟩
  · exact ⟨2 ^ 12, rfl⟩
  · exact ⟨2 ^ 6, rfl⟩
  · exact ⟨1, rfl⟩

/-! ### `add_node` -/

/-- The list for a node due at tick `due`, `dist` ticks from now. -/
def slotFor (due dist : ℕ) : Slot :=
  if dist < span 0 then .near (due % 256)
  else if dist < span 1 then .level 0 (digit 0 due)
  else if dist < span 2 then .level 1 (digit 1 due)
  else if dist < span 3 then .level 2 (digit 2 due)
  else .level 3 (digit 3 due)

variable {H : Type*} {T : STimer H} {n : NodeId} {now due : ℕ}

theorem near_index_toNat (x : UInt32) : (x &&& timeNearMask).toNat = x.toNat % 256 := by
  rw [UInt32.toNat_and]
  exact Nat.and_two_pow_sub_one_eq_mod x.toNat 8

theorem level_index_toNat (x : UInt32) : (x &&& timeLevelMask).toNat = x.toNat % 64 := by
  rw [UInt32.toNat_and]
  exact Nat.and_two_pow_sub_one_eq_mod x.toNat 6

theorem shift_toNat (x : UInt32) {k : ℕ} (hk : k < 32) :
    (x >>> UInt32.ofNat k).toNat = x.toNat / 2 ^ k := by
  rw [UInt32.toNat_shiftRight, UInt32.toNat_ofNat', Nat.shiftRight_eq_div_pow,
    Nat.mod_eq_of_lt (show k < 2 ^ 32 by omega), Nat.mod_eq_of_lt hk]

theorem levelShift_lt {i : ℕ} (hi : i < 4) : levelShift i < 32 := by
  unfold levelShift timeNearShift timeLevelShift
  omega

/-- The index that `add_node` computes at level `i` is the digit of the deadline. -/
theorem digit_toNat (x : UInt32) {i : ℕ} (hi : i < 4) :
    (x >>> UInt32.ofNat (levelShift i) &&& timeLevelMask).toNat = digit i x.toNat := by
  rw [level_index_toNat, shift_toNat x (levelShift_lt hi)]
  rfl

/-- The widths are words. -/
theorem span_lt_word {i : ℕ} (hi : i < 4) : span i < 2 ^ 32 :=
  Nat.pow_lt_pow_right (by omega) (levelShift_lt hi)

theorem lt_span_iff (x : UInt32) {i : ℕ} (hi : i < 4) :
    x < UInt32.ofNat (1 <<< levelShift i) ↔ x.toNat < span i := by
  rw [UInt32.lt_iff_toNat_lt, UInt32.toNat_ofNat', Nat.one_shiftLeft]
  rw [show 2 ^ levelShift i = span i from rfl, Nat.mod_eq_of_lt (span_lt_word hi)]

/-- The remaining distance, as a difference of 32-bit words. -/
theorem distance_toNat {e t : UInt32} (he : e.toNat = due % 2 ^ 32) (ht : t.toNat = now % 2 ^ 32)
    (hle : now ≤ due) (hlt : due < now + 2 ^ 32) : (e - t).toNat = due - now := by
  rw [UInt32.toNat_sub, he, ht]
  omega

/-- `add_node` in absolute ticks. -/
theorem addNode_eq (hnode : (T.node n).expire.toNat = due % 2 ^ 32)
    (htime : T.time.toNat = now % 2 ^ 32) (hle : now ≤ due) (hlt : due < now + 2 ^ 32) :
    addNode T n = T.link (slotFor due (due - now)) n := by
  have hdist := distance_toNat hnode htime hle hlt
  have hnear : ((T.node n).expire &&& timeNearMask).toNat = due % 256 := by
    rw [near_index_toNat, hnode]
    omega
  have hdigit : ∀ i < 4,
      ((T.node n).expire >>> UInt32.ofNat (levelShift i) &&& timeLevelMask).toNat =
        digit i due := by
    intro i hi
    rw [digit_toNat _ hi, hnode, digit_mod_word hi]
  -- the same comparisons and indices on both sides, level by level
  unfold addNode slotFor
  simp only [hnear, hdigit 0 (by omega), hdigit 1 (by omega), hdigit 2 (by omega),
    hdigit 3 (by omega), lt_span_iff _ (show 1 < 4 by omega), lt_span_iff _ (show 2 < 4 by omega),
    lt_span_iff _ (show 3 < 4 by omega), hdist,
    show ∀ x : UInt32, x < UInt32.ofNat timeNear ↔ x.toNat < span 0 from
      fun x => lt_span_iff x (show 0 < 4 by omega)]
  split_ifs <;> rfl

/-! ### `timer_shift` -/

/-- The lowest level whose digit is not `0`; level `3` when all lower digits are. -/
def lowLevel (now : ℕ) : ℕ :=
  if digit 0 now = 0 then
    if digit 1 now = 0 then
      if digit 2 now = 0 then 3 else 2
    else 1
  else 0

/-- The list that is emptied when the clock reaches tick `now`. -/
def cascade (now : ℕ) : Option (ℕ × ℕ) :=
  if now % span 0 = 0 then some (lowLevel now, digit (lowLevel now) now) else none

theorem lowLevel_spec (now : ℕ) :
    lowLevel now < 4 ∧ (∀ i < lowLevel now, digit i now = 0) ∧
      (digit (lowLevel now) now = 0 → lowLevel now = 3) := by
  unfold lowLevel
  split_ifs with h0 h1 h2
  · refine ⟨by omega, fun i hi => ?_, fun _ => rfl⟩
    interval_cases i <;> assumption
  · refine ⟨by omega, fun i hi => ?_, fun h => absurd h h2⟩
    interval_cases i <;> assumption
  · refine ⟨by omega, fun i hi => ?_, fun h => absurd h h1⟩
    interval_cases i
    exact h0
  · exact ⟨by omega, fun i hi => absurd hi (by omega), fun h => absurd h h0⟩

/-- All digits below level `i` are `0` exactly when the tick is a multiple of its width. -/
theorem span_dvd_iff {i : ℕ} (hi : i < 4) :
    span i ∣ now ↔ now % span 0 = 0 ∧ ∀ j < i, digit j now = 0 := by
  induction i with
  | zero => simp [Nat.dvd_iff_mod_eq_zero]
  | succ i ih =>
    -- one more digit is `0` exactly when the multiple is a multiple of 64 widths
    rw [Nat.forall_lt_succ_right, ← and_assoc, ← ih (by omega), span_succ, digit]
    constructor
    · rintro ⟨c, rfl⟩
      refine ⟨⟨64 * c, by ring⟩, ?_⟩
      rw [Nat.mul_right_comm, Nat.mul_div_cancel _ (span_pos i)]
      exact Nat.mul_mod_right 64 c
    · rintro ⟨⟨c, rfl⟩, hzero⟩
      rw [Nat.mul_div_cancel_left _ (span_pos i)] at hzero
      obtain ⟨d, rfl⟩ := Nat.dvd_of_mod_eq_zero hzero
      exact ⟨d, by ring⟩

theorem cascade_eq_some {i s : ℕ} (h : cascade now = some (i, s)) :
    i < 4 ∧ span i ∣ now ∧ s = digit i now ∧ (s = 0 → i = 3) := by
  unfold cascade at h
  split_ifs at h with hnear
  obtain ⟨hlt, hlow, hlast⟩ := lowLevel_spec now
  obtain ⟨rfl, rfl⟩ := Prod.mk.inj (Option.some.inj h)
  exact ⟨hlt, (span_dvd_iff hlt).mpr ⟨hnear, hlow⟩, rfl, hlast⟩

theorem cascade_of_dvd {i : ℕ} (hi : i < 4) (hdvd : span i ∣ now)
    (hlive : digit i now = 0 → i = 3) : cascade now = some (i, digit i now) := by
  obtain ⟨hnear, hlow⟩ := (span_dvd_iff hi).mp hdvd
  obtain ⟨hlt, hlow', hlast⟩ := lowLevel_spec now
  have heq : lowLevel now = i := by
    -- the first nonzero digit is not below `i`, where all are zero, and not above, unless the
    -- loop runs on to level 3
    rcases Nat.lt_trichotomy (lowLevel now) i with h | h | h
    · have := hlast (hlow _ h)
      omega
    · exact h
    · have := hlive (hlow' _ h)
      omega
  unfold cascade
  rw [if_pos hnear, heq]

theorem mask_eq_zero_iff (x : UInt32) {k : ℕ} (hk : k < 32) :
    x &&& UInt32.ofNat (2 ^ k - 1) = 0 ↔ x.toNat % 2 ^ k = 0 := by
  have hlt : 2 ^ k < 2 ^ 32 := Nat.pow_lt_pow_right (by omega) hk
  rw [← UInt32.toNat_inj, UInt32.toNat_and, UInt32.toNat_ofNat',
    Nat.mod_eq_of_lt (show 2 ^ k - 1 < 2 ^ 32 by omega), Nat.and_two_pow_sub_one_eq_mod]
  rfl

/-! ### The loop of `timer_shift` -/

section Loop

variable {ct time : UInt32} {i : ℕ}

theorem loop_mask (i : ℕ) : span i <<< timeLevelShift = span (i + 1) := by
  rw [Nat.shiftLeft_eq, span_succ, Nat.mul_comm]
  rfl

theorem loop_low_iff (ct : UInt32) (hi : i < 4) :
    ct &&& UInt32.ofNat (span i - 1) = 0 ↔ ct.toNat % span i = 0 :=
  mask_eq_zero_iff ct (levelShift_lt hi)

theorem loop_index (htime : time.toNat = ct.toNat / span i) :
    (time &&& timeLevelMask).toNat = digit i ct.toNat := by
  rw [level_index_toNat, htime]
  rfl

theorem loop_index_iff (htime : time.toNat = ct.toNat / span i) :
    time &&& timeLevelMask = 0 ↔ digit i ct.toNat = 0 := by
  rw [← loop_index htime, ← UInt32.toNat_inj]
  rfl

theorem loop_time (htime : time.toNat = ct.toNat / span i) :
    (time >>> UInt32.ofNat timeLevelShift).toNat = ct.toNat / span (i + 1) := by
  rw [shift_toNat _ (by decide), htime, Nat.div_div_eq_div_mul, span_succ, Nat.mul_comm]
  rfl

theorem loop_time_zero (ct : UInt32) :
    (ct >>> UInt32.ofNat timeNearShift).toNat = ct.toNat / span 0 :=
  shift_toNat _ (by decide)

/-- With all digits `0` the clock would be `0`. -/
theorem loop_last (hct : ct ≠ 0) (hlow : ct.toNat % span 3 = 0) : digit 3 ct.toNat ≠ 0 := by
  have hne : ct.toNat ≠ 0 := fun h => hct (UInt32.toNat_inj.mp h)
  have hlt := ct.toNat_lt
  unfold digit
  rw [span_three] at hlow ⊢
  omega

/-- One round of the loop of `timer_shift` that goes on: the digit of its level is `0`. -/
theorem shiftLoop_succ {fuel : ℕ} (hi : i < 4) (htime : time.toNat = ct.toNat / span i) :
    shiftLoop ct (fuel + 1) (span i) time i =
      if ct.toNat % span i = 0 then
        if digit i ct.toNat = 0 then
          shiftLoop ct fuel (span (i + 1)) (time >>> UInt32.ofNat timeLevelShift) (i + 1)
        else some (some (i, digit i ct.toNat))
      else some none := by
  -- the tests of the source, in terms of the digits of the clock
  rw [shiftLoop]
  simp only [loop_low_iff ct hi, ne_eq, loop_index_iff htime, loop_index htime, loop_mask,
    ite_not]

/-- The loop of `timer_shift` ends within four rounds for every clock value but `0`, with
the list that `cascade` names. -/
theorem shiftLoop_eq_of_le (hct : ct ≠ 0) {fuel : ℕ} (hfuel : 4 ≤ fuel) :
    shiftLoop ct fuel timeNear (ct >>> UInt32.ofNat timeNearShift) 0 =
      some (cascade ct.toNat) := by
  obtain ⟨more, rfl⟩ := Nat.exists_eq_add_of_le' hfuel
  have h0 := loop_time_zero ct
  have h1 := loop_time h0
  have h2 := loop_time h1
  have h3 := loop_time h2
  change shiftLoop ct (more + 3 + 1) (span 0) _ 0 = _
  rw [shiftLoop_succ (by omega) h0, shiftLoop_succ (by omega) h1, shiftLoop_succ (by omega) h2,
    shiftLoop_succ (by omega) h3]
  unfold cascade lowLevel
  by_cases hnear : ct.toNat % span 0 = 0
  · rw [if_pos hnear, if_pos hnear]
    by_cases hd0 : digit 0 ct.toNat = 0
    · have hdvd1 := (span_dvd_iff (show 1 < 4 by omega)).mpr
        ⟨hnear, fun j hj => by interval_cases j; exact hd0⟩
      rw [if_pos hd0, if_pos hd0, if_pos (Nat.mod_eq_zero_of_dvd hdvd1)]
      by_cases hd1 : digit 1 ct.toNat = 0
      · have hdvd2 := (span_dvd_iff (show 2 < 4 by omega)).mpr
          ⟨hnear, fun j hj => by interval_cases j <;> assumption⟩
        rw [if_pos hd1, if_pos hd1, if_pos (Nat.mod_eq_zero_of_dvd hdvd2)]
        by_cases hd2 : digit 2 ct.toNat = 0
        · have hdvd3 := (span_dvd_iff (show 3 < 4 by omega)).mpr
            ⟨hnear, fun j hj => by interval_cases j <;> assumption⟩
          have hmod3 := Nat.mod_eq_zero_of_dvd hdvd3
          rw [if_pos hd2, if_pos hd2, if_pos hmod3, if_neg (loop_last hct hmod3)]
        · rw [if_neg hd2, if_neg hd2]
      · rw [if_neg hd1, if_neg hd1]
    · rw [if_neg hd0, if_neg hd0]
  · rw [if_neg hnear, if_neg hnear]

theorem shiftLoop_eq (hct : ct ≠ 0) :
    shiftLoop ct 5 timeNear (ct >>> UInt32.ofNat timeNearShift) 0 = some (cascade ct.toNat) :=
  shiftLoop_eq_of_le hct (by omega)

end Loop

theorem cascade_mod_word (now : ℕ) : cascade (now % 2 ^ 32) = cascade now := by
  have hnear : now % 2 ^ 32 % span 0 = now % span 0 :=
    Nat.mod_mod_of_dvd _ ⟨2 ^ 24, rfl⟩
  have hlow : lowLevel (now % 2 ^ 32) = lowLevel now := by
    unfold lowLevel
    rw [digit_mod_word (by omega), digit_mod_word (by omega), digit_mod_word (by omega)]
  unfold cascade
  rw [hnear, hlow, digit_mod_word (lowLevel_spec now).1]

/-- `timer_shift` in absolute ticks. -/
theorem timerShift_eq (htime : T.time.toNat = now % 2 ^ 32) :
    timerShift T =
      match cascade (now + 1) with
      | some (i, idx) => moveList { T with time := T.time + 1 } i idx
      | none => { T with time := T.time + 1 } := by
  have hct : (T.time + 1).toNat = (now + 1) % 2 ^ 32 := by
    rw [UInt32.toNat_add, htime, Nat.mod_add_mod]
    rfl
  rw [← cascade_mod_word, ← hct]
  unfold timerShift
  by_cases hzero : T.time + 1 = 0
  · -- the clock wraps: the source moves list `0` of level 3, as `cascade` has it for tick `0`
    rw [if_pos hzero, hzero]
    rfl
  · rw [if_neg hzero, shiftLoop_eq hzero]
    cases cascade (T.time + 1).toNat <;> rfl

/-! ### Where a node may stand -/

/-- The lists that no `timer_shift` empties: its loop skips slot `0` of a level, and the
branch for the wrap of the clock looks at level `3` only. -/
def Dead : Slot → Prop
  | .near _ => False
  | .level i s => i < 3 ∧ s = 0

instance : DecidablePred Dead
  | .near _ => isFalse id
  | .level i s => inferInstanceAs (Decidable (i < 3 ∧ s = 0))

/-- At tick `now`, a node due at `due` may stand in this list. In a list that is emptied
some day, its block start is still to come and less than one turn away. -/
def Placed (now due : ℕ) : Slot → Prop
  | .near j => j = due % 256 ∧ now ≤ due ∧ due < now + span 0
  | .level i s => i < 4 ∧ s = digit i due ∧
      (Dead (.level i s) ∨ (now < blockStart (span i) due ∧ due < now + span (i + 1)))

/-- `add_node` files every node where it may stand. -/
theorem placed_slotFor (hle : now ≤ due) (hlt : due < now + 2 ^ 32) :
    Placed now due (slotFor due (due - now)) := by
  have hlevel : ∀ i, i < 4 → span i ≤ due - now → due - now < span (i + 1) →
      Placed now due (.level i (digit i due)) := by
    intro i hi hge hless
    exact ⟨hi, rfl, Or.inr ⟨lt_blockStart (span_pos i) (by omega), by omega⟩⟩
  unfold slotFor
  split_ifs with h0 h1 h2 h3
  · exact ⟨rfl, hle, by omega⟩
  · exact hlevel 0 (by omega) (by omega) h1
  · exact hlevel 1 (by omega) (by omega) h2
  · exact hlevel 2 (by omega) (by omega) h3
  · exact hlevel 3 (by omega) (by omega) (by rw [span_four]; omega)

/-- One tick later a node may still stand where it stands, unless it was due in a near list
or its list is emptied at that tick. -/
theorem Placed.tick {a : Slot} (h : Placed now due a) (hdue : a ≠ .near (now % 256))
    (hkeep : ∀ i s, a = .level i s → cascade (now + 1) ≠ some (i, s)) :
    Placed (now + 1) due a := by
  cases a with
  | near j =>
    obtain ⟨rfl, hle, hlt⟩ := h
    have hne : due ≠ now := fun heq => hdue (by rw [heq])
    -- the near list of the tick that ends is the one whose nodes are due
    exact ⟨rfl, by omega, by omega⟩
  | level i s =>
    obtain ⟨hi, rfl, hlive⟩ := h
    refine ⟨hi, rfl, ?_⟩
    by_cases hdead : Dead (.level i (digit i due))
    · exact Or.inl hdead
    · obtain ⟨hbefore, hturn⟩ := hlive.resolve_left hdead
      refine Or.inr ⟨?_, by omega⟩
      by_contra hnot
      -- otherwise the clock stands at the block start and the list is emptied
      have heq : now + 1 = blockStart (span i) due := by omega
      have hdigit : digit i (now + 1) = digit i due := by
        rw [heq]
        exact digit_blockStart (span_pos i)
      have hlast : digit i (now + 1) = 0 → i = 3 := by
        intro hzero
        by_contra hi3
        exact hdead ⟨by omega, by rw [← hdigit]; exact hzero⟩
      have hcascade := cascade_of_dvd hi (by rw [heq]; exact dvd_blockStart) hlast
      exact hkeep i _ rfl (by rw [hcascade, hdigit])

/-- A node whose list is emptied stands exactly at its block start. -/
theorem Placed.emptied {i s : ℕ} (h : Placed now due (.level i s))
    (hempty : cascade (now + 1) = some (i, s)) : now + 1 = blockStart (span i) due := by
  obtain ⟨hi, hs, hlive⟩ := h
  obtain ⟨-, hdvd, hdigit, hlast⟩ := cascade_eq_some hempty
  have hdead : ¬ Dead (.level i s) := fun hd => by
    have := hlast hd.2
    have := hd.1
    omega
  -- a dead list is never emptied
  obtain ⟨hbefore, hturn⟩ := hlive.resolve_left hdead
  rw [span_succ] at hturn
  exact eq_blockStart (span_pos i) hbefore hturn hdvd (hs.symm.trans hdigit)

/-- Where `add_node` puts a node that was just emptied from level `i`: strictly lower, and
not in a dead list. -/
theorem slotFor_blockStart {i : ℕ} (hi : i < 4) (hnow : now = blockStart (span i) due) :
    ¬ Dead (slotFor due (due - now)) ∧
      ∀ j s, slotFor due (due - now) = .level j s → j < i ∧ s ≠ 0 := by
  have hrest : due - now = due % span i := by
    have := blockStart_add_mod (span i) due
    omega
  have hbound := Nat.mod_lt due (span_pos i)
  -- a level that is chosen lies below `i`, and the digit there is that of the distance
  have hlevel : ∀ j, span j ≤ due % span i → due % span i < span (j + 1) →
      j < i ∧ digit j due ≠ 0 := by
    intro j hge hless
    have hji : j < i := by
      by_contra hnot
      have hmono : span i ≤ span j := span_le_span (not_lt.mp hnot)
      omega
    refine ⟨hji, ?_⟩
    have hdvd : span j * 64 ∣ span i := by
      rw [Nat.mul_comm, ← span_succ]
      exact pow_dvd_pow 2 (levelShift_le hji)
    have hdigit : digit j due = due % span i / span j % 64 := (digit_mod hdvd).symm
    rw [span_succ] at hless
    rw [hdigit]
    exact digit_ne_zero (span_pos j) hge hless
  rw [hrest]
  unfold slotFor
  split_ifs with h0 h1 h2 h3
  · exact ⟨id, fun _ _ h => by cases h⟩
  · have := hlevel 0 (by omega) h1
    exact ⟨fun hd => this.2 hd.2, fun _ _ h => by cases h; exact this⟩
  · have := hlevel 1 (by omega) h2
    exact ⟨fun hd => this.2 hd.2, fun _ _ h => by cases h; exact this⟩
  · have := hlevel 2 (by omega) h3
    exact ⟨fun hd => this.2 hd.2, fun _ _ h => by cases h; exact this⟩
  · have := hlevel 3 (by omega) (by
      rw [span_four]
      have : span i ≤ span 3 := span_le_span (Nat.le_of_lt_succ hi)
      rw [span_three] at this
      omega)
    exact ⟨fun hd => this.2 hd.2, fun _ _ h => by cases h; exact this⟩

end MmorpgServer.TimeWheel
