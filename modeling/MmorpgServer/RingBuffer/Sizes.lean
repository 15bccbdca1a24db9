import MmorpgServer.RingBuffer.Model

/-!
# The size helpers of the ring buffer

The buffer works for sizes that are powers of two. `ringbuffer.h` has two helpers for that:
`is_power_of_two` is right, `roundup_power_of_two` never returns for a size that it has to
look at, since the loop that should shift the size down drops the shifted value.

## Main definitions

* `IsRoundup`, `RoundsUp` — what rounding a size up should give, and that the code gives it

## Main results

* `isPowerOfTwo_eq_one_iff` — the test accepts the powers of two from `2` on
* `roundupPowerOfTwo_runs_on` — no size from `2` on is ever rounded up
-/

namespace MmorpgServer.RingBuffer

variable {sz : UInt32}

/-- The test accepts exactly the powers of two, apart from `1`, for which it answers `-1`. -/
theorem isPowerOfTwo_eq_one_iff :
    isPowerOfTwo sz = 1 ↔ 2 ≤ sz.toNat ∧ sz.toNat.isPowerOfTwo := by
  have htwo : sz < 2 ↔ sz.toNat < 2 := UInt32.lt_iff_toNat_lt
  unfold isPowerOfTwo
  split
  · next h =>
    rw [htwo] at h
    exact ⟨fun heq => absurd heq (by decide), fun hle => by omega⟩
  · next h =>
    rw [htwo, not_lt] at h
    have hpred : (sz - 1).toNat = sz.toNat - 1 :=
      UInt32.toNat_sub_of_le _ _ (UInt32.le_iff_toNat_le.mpr (by simp; omega))
    -- the test of the source is the one of the library
    have hand : sz &&& (sz - 1) = 0 ↔ sz.toNat.isPowerOfTwo := by
      rw [← Nat.and_sub_one_eq_zero_iff_isPowerOfTwo (by omega), ← UInt32.toNat_inj,
        UInt32.toNat_and, hpred]
      rfl
    split
    · next hzero => exact ⟨fun _ => ⟨h, hand.mp hzero⟩, fun _ => rfl⟩
    · next hne =>
      exact ⟨fun heq => absurd heq (by decide), fun hle => absurd (hand.mpr hle.2) hne⟩

/-! ### Rounding up -/

/-- `r` is the least power of two that is at least `sz`, and passes the test of the header. -/
structure IsRoundup (sz r : UInt32) : Prop where
  pow : r.toNat.isPowerOfTwo
  le : sz ≤ r
  least : ∀ m : ℕ, m.isPowerOfTwo → sz.toNat ≤ m → r.toNat ≤ m
  test : isPowerOfTwo r = 1

/-- `roundup_power_of_two` returns for `sz`, with the power of two that it should, and gives
that power back for itself. -/
def RoundsUp (sz : UInt32) : Prop :=
  ∃ fuel r, roundupPowerOfTwo fuel sz = some r ∧ IsRoundup sz r ∧
    ∃ fuel', roundupPowerOfTwo fuel' r = some r

/-- The loop never leaves a size that is not zero. -/
theorem roundupLoop_runs_on (hsz : sz ≠ 0) (fuel i : ℕ) : roundupLoop fuel sz i = none := by
  induction fuel generalizing i with
  | zero => rfl
  | succ fuel ih =>
    rw [roundupLoop, if_pos hsz]
    exact ih (i + 1)

/-- The loop of `roundup_power_of_two` does not end for any size from `2` on, however long it
runs, so that none of them is rounded up. -/
theorem roundupPowerOfTwo_runs_on (hsz : 2 ≤ sz) :
    (∀ fuel, roundupPowerOfTwo fuel sz = none) ∧ ¬ RoundsUp sz := by
  have htwo : 2 ≤ sz.toNat := UInt32.le_iff_toNat_le.mp hsz
  have hne : sz ≠ 0 := by
    rintro rfl
    exact absurd htwo (by decide)
  have hnone (fuel : ℕ) : roundupPowerOfTwo fuel sz = none := by
    rw [roundupPowerOfTwo, if_neg (UInt32.not_lt.mpr hsz), roundupLoop_runs_on hne, Option.map_none]
  refine ⟨hnone, ?_⟩
  rintro ⟨fuel, r, hsome, -⟩
  rw [hnone fuel] at hsome
  exact absurd hsome (by simp)

/-- The size of the header's comment, `5 -> 8`. -/
theorem roundupPowerOfTwo_runs_on_five :
    (∀ fuel, roundupPowerOfTwo fuel 5 = none) ∧ ¬ RoundsUp 5 :=
  roundupPowerOfTwo_runs_on (by decide)

/-- `8` is what the header's comment expects for `5`, and the code never returns it. -/
theorem not_roundsUp_five : IsRoundup 5 8 ∧ ¬ RoundsUp 5 := by
  refine ⟨⟨⟨3, rfl⟩, by decide, ?_, by decide⟩, ?_⟩
  · rintro m ⟨k, rfl⟩ hle
    have hfive : 5 ≤ 2 ^ k := hle
    have hk : 3 ≤ k := by
      by_contra hlt
      have hpow : 2 ^ k ≤ 2 ^ 2 := Nat.pow_le_pow_right (by omega) (by omega)
      exact absurd (hfive.trans hpow) (by decide)
    change 2 ^ 3 ≤ 2 ^ k
    exact Nat.pow_le_pow_right (by omega) hk
  · rintro ⟨fuel, r, hsome, -⟩
    rw [roundupPowerOfTwo, if_neg (by decide), roundupLoop_runs_on (by decide)] at hsome
    exact absurd hsome (by simp)

end MmorpgServer.RingBuffer
