import Mathlib.Data.Nat.ModEq
import Mathlib.Tactic.Ring

/-!
# Digits of a deadline

Arithmetic of hierarchical timing wheels. A wheel level of width `w` and radix `r` files a
deadline under its digit `due / w % r`; the level's list with index `s` is emptied when
the clock reaches a multiple of `w` whose digit is `s`. The block start of a deadline is
`due / w * w`, the last multiple of `w` that is not after it.

## Main results

* `eq_blockStart` — when the list of a deadline is emptied, the clock stands exactly at
  the block start, provided it was before it and less than one turn away
* `digit_blockStart` — the converse: at the block start the clock shows the deadline's digit
* `digit_mod`, `digit_ne_zero` — digits after the emptying
-/

namespace MmorpgServer.Digits

variable {w r due now : ℕ}

/-- The last multiple of `w` that is not after the deadline. -/
def blockStart (w due : ℕ) : ℕ := due / w * w

theorem blockStart_le (w due : ℕ) : blockStart w due ≤ due := Nat.div_mul_le_self due w

theorem blockStart_add_mod (w due : ℕ) : blockStart w due + due % w = due := Nat.div_add_mod' due w

theorem lt_blockStart_add (hw : 0 < w) (due : ℕ) : due < blockStart w due + w := by
  have hmod := Nat.mod_lt due hw
  have hsplit := blockStart_add_mod w due
  omega

/-- A deadline at least one width away has its block start in the future. -/
theorem lt_blockStart (hw : 0 < w) (h : now + w ≤ due) : now < blockStart w due := by
  have hlt := lt_blockStart_add hw due
  omega

/-- The clock next shows the deadline's digit, at a multiple of the width, exactly at the
block start of the deadline. -/
theorem eq_blockStart (hw : 0 < w) (hbefore : now < blockStart w due)
    (hturn : due < now + r * w) (hdvd : w ∣ now + 1)
    (hdigit : due / w % r = (now + 1) / w % r) : now + 1 = blockStart w due := by
  -- the next tick is the multiple `b * w`, and the deadline's block is not before it and less
  -- than `r` blocks after it: with equal digits they are the same block
  obtain ⟨b, hb⟩ := hdvd
  have hblock : due / w % r = b % r := by
    rw [hdigit, hb, Nat.mul_div_cancel_left _ hw]
  unfold blockStart at hbefore ⊢
  have hle : b ≤ due / w := by
    by_contra hlt
    have hmul : (due / w + 1) * w ≤ b * w := Nat.mul_le_mul_right w (by omega)
    rw [Nat.add_mul, Nat.one_mul] at hmul
    rw [Nat.mul_comm w b] at hb
    omega
  have hclose : due / w < b + r := by
    by_contra hge
    have hmul : (b + r) * w ≤ due / w * w := Nat.mul_le_mul_right w (by omega)
    have hstart := Nat.div_mul_le_self due w
    rw [Nat.add_mul] at hmul
    rw [Nat.mul_comm w b] at hb
    omega
  have heq : due / w = b := by
    obtain ⟨d, hd⟩ := Nat.exists_eq_add_of_le hle
    have hmod : (b + d) % r = b % r := by rw [← hd]; exact hblock
    have hzero : d % r = 0 := by
      have hcancel : b + d ≡ b + 0 [MOD r] := hmod
      have hd0 : d % r = 0 % r := Nat.ModEq.add_left_cancel' b hcancel
      rw [hd0, Nat.zero_mod]
    have hd0 : d = 0 := by
      rw [Nat.mod_eq_of_lt (by omega)] at hzero
      exact hzero
    omega
  rw [heq, hb, Nat.mul_comm]

/-- At the block start the clock shows the deadline's digit. -/
theorem digit_blockStart (hw : 0 < w) : blockStart w due / w % r = due / w % r := by
  unfold blockStart
  rw [Nat.mul_div_cancel _ hw]

theorem dvd_blockStart : w ∣ blockStart w due := Dvd.intro_left _ rfl

/-- Reducing a deadline modulo a multiple of one turn keeps its digit. -/
theorem digit_mod {N : ℕ} (hdvd : w * r ∣ N) : due % N / w % r = due / w % r := by
  obtain ⟨c, rfl⟩ := hdvd
  rw [Nat.mul_assoc, Nat.mod_mul_right_div_self, Nat.mod_mul_right_mod]

/-- A distance of at least one width and less than one turn has a nonzero digit. -/
theorem digit_ne_zero (hw : 0 < w) (hle : w ≤ due) (hlt : due < r * w) : due / w % r ≠ 0 := by
  rw [Nat.mod_eq_of_lt (Nat.div_lt_of_lt_mul (by rwa [Nat.mul_comm w r]))]
  exact (Nat.div_pos hle hw).ne'

end MmorpgServer.Digits
