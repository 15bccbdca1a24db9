import Mathlib.Data.List.Basic
import Mathlib.Algebra.Order.Ring.Nat

/-!
# Decimal numbers

Numbers printed in base ten, as bytes, without leading zeros and with a minus sign in front of the
negative ones.

## Main definitions

* `print`, `printInt` — a number as it is printed
* `value` — the number that digits stand for

## Main results

* `value_print`, `print_value` — printing and reading are inverse, on digits without a leading zero
-/

namespace MmorpgServer.Decimal

variable {n m k d : ℕ} {b : UInt8} {l l' : List UInt8}

/-! ### Digits -/

/-- The digit `d` -/
def digit (d : ℕ) : UInt8 := UInt8.ofNat (48 + d)

/-- `b` is one of `0` to `9`. -/
def IsDigit (b : UInt8) : Prop := 48 ≤ b.toNat ∧ b.toNat ≤ 57

instance : DecidablePred IsDigit := fun _ => inferInstanceAs (Decidable (_ ∧ _))

theorem toNat_digit (h : d < 10) : (digit d).toNat = 48 + d := by
  unfold digit
  rw [UInt8.toNat_ofNat']
  omega

theorem isDigit_digit (h : d < 10) : IsDigit (digit d) := by
  rw [IsDigit, toNat_digit h]
  omega

theorem digit_toNat (h : IsDigit b) : digit (b.toNat - 48) = b := by
  apply UInt8.toNat_inj.mp
  unfold IsDigit at h
  rw [toNat_digit (by omega)]
  omega

/-! ### Printing -/

/-- The digits of a number, the first one in front -/
def print (n : ℕ) : List UInt8 :=
  if n < 10 then [digit n] else print (n / 10) ++ [digit (n % 10)]
termination_by n
decreasing_by omega

/-- A number with its sign, which is shown only where it is negative -/
def printInt : ℤ → List UInt8
  | .ofNat n => print n
  | .negSucc n => 45 :: print (n + 1)

theorem print_of_lt (h : n < 10) : print n = [digit n] := by
  rw [print, if_pos h]

theorem print_of_le (h : 10 ≤ n) : print n = print (n / 10) ++ [digit (n % 10)] := by
  rw [print, if_neg (by omega)]

/-- Induction on the digits of a number. -/
theorem digit_induction {P : ℕ → Prop} (hlt : ∀ n, n < 10 → P n)
    (hle : ∀ n, 10 ≤ n → P (n / 10) → P n) : ∀ n, P n := by
  intro n
  induction n using Nat.strong_induction_on with
  | _ n ih =>
    rcases Nat.lt_or_ge n 10 with h | h
    · exact hlt n h
    · exact hle n h (ih _ (by omega))

theorem print_ne_nil : print n ≠ [] := by
  rw [print]
  split <;> simp

theorem isDigit_of_mem_print : ∀ n, ∀ b ∈ print n, IsDigit b := by
  apply digit_induction
  · intro n h b hb
    rw [print_of_lt h, List.mem_singleton] at hb
    exact hb ▸ isDigit_digit h
  · intro n h ih b hb
    rw [print_of_le h, List.mem_append, List.mem_singleton] at hb
    rcases hb with hb | rfl
    · exact ih b hb
    · exact isDigit_digit (Nat.mod_lt n (by decide))

/-- Only the number zero is printed with a zero in front. -/
theorem head?_print : ∀ n, (print n).head? = some (digit 0) → n = 0 := by
  apply digit_induction
  · intro n h hhead
    rw [print_of_lt h, List.head?_cons, Option.some.injEq] at hhead
    have hnat := congrArg UInt8.toNat hhead
    rw [toNat_digit h, toNat_digit (by omega)] at hnat
    omega
  · intro n h ih hhead
    rw [print_of_le h, List.head?_append_of_ne_nil _ print_ne_nil] at hhead
    have hzero := ih hhead
    omega

/-! ### Reading -/

/-- The number that digits stand for, behind a number that was read before them -/
def valueFrom (n : ℕ) (l : List UInt8) : ℕ := l.foldl (fun n b => n * 10 + (b.toNat - 48)) n

/-- The number that digits stand for -/
def value (l : List UInt8) : ℕ := valueFrom 0 l

@[simp] theorem valueFrom_nil : valueFrom n [] = n := rfl

theorem valueFrom_cons :
    valueFrom n (b :: l) = valueFrom (n * 10 + (b.toNat - 48)) l := by
  unfold valueFrom
  exact List.foldl_cons ..

theorem valueFrom_append : valueFrom n (l ++ l') = valueFrom (valueFrom n l) l' := by
  unfold valueFrom
  exact List.foldl_append ..

theorem value_print : ∀ n, value (print n) = n := by
  apply digit_induction
  · intro n h
    rw [print_of_lt h, value, valueFrom_cons, valueFrom_nil, toNat_digit h]
    omega
  · intro n h ih
    have hdigit := toNat_digit (Nat.mod_lt n (by decide : 0 < 10))
    rw [value] at ih
    rw [print_of_le h, value, valueFrom_append, ih, valueFrom_cons, valueFrom_nil, hdigit]
    omega

theorem le_valueFrom : n ≤ valueFrom n l := by
  induction l generalizing n with
  | nil => exact le_rfl
  | cons b l ih =>
    rw [valueFrom_cons]
    exact le_trans (by omega) ih

/-- Digits behind a number that is not zero are the end of its print. -/
theorem print_valueFrom (hn : 0 < n) (hl : ∀ b ∈ l, IsDigit b) :
    print (valueFrom n l) = print n ++ l := by
  induction l generalizing n with
  | nil => rw [valueFrom_nil, List.append_nil]
  | cons b l ih =>
    obtain ⟨hb, hl⟩ := List.forall_mem_cons.mp hl
    have hrange := hb
    unfold IsDigit at hrange
    have hdigit : (n * 10 + (b.toNat - 48)) % 10 = b.toNat - 48 := by omega
    have hrest : (n * 10 + (b.toNat - 48)) / 10 = n := by omega
    rw [valueFrom_cons, ih (by omega) hl, print_of_le (by omega), hdigit, hrest, digit_toNat hb,
      List.append_assoc, List.singleton_append]

/-- Digits without a leading zero are what is printed for their number. -/
theorem print_value (hhead : b ≠ digit 0) (hl : ∀ c ∈ b :: l, IsDigit c) :
    print (value (b :: l)) = b :: l := by
  obtain ⟨hb, hl⟩ := List.forall_mem_cons.mp hl
  have hpos : 0 < b.toNat - 48 := by
    rcases Nat.eq_zero_or_pos (b.toNat - 48) with hzero | hpos
    · exact absurd (by rw [← hzero, digit_toNat hb]) hhead
    · exact hpos
  have hrange := hb
  unfold IsDigit at hrange
  rw [value, valueFrom_cons, Nat.zero_mul, Nat.zero_add, print_valueFrom hpos hl,
    print_of_lt (by omega), digit_toNat hb, List.singleton_append]

end MmorpgServer.Decimal
