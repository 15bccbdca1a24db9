import Mathlib.Logic.Function.Basic
import Mathlib.Algebra.Order.Ring.Nat
import Mathlib.Tactic.Ring

/-!
# Numbers in a memory of bytes

A number is stored in consecutive bytes, the lowest first. What is stored somewhere is read there
again, and elsewhere nothing changes.

## Main definitions

* `load`, `store` — a number of `n` bytes at an address
* `paste` — other contents for `n` bytes

## Main results

* `load_store` — what was stored is read
* `store_outside` — other bytes are as before
-/

namespace MmorpgServer.ByteMemory

/-- The bytes at the addresses. -/
abbrev Memory := ℕ → UInt8

variable {mem mem' : Memory} {n a b v : ℕ}

/-- The number in the `n` bytes from `a` on. -/
def load (mem : Memory) : (n a : ℕ) → ℕ
  | 0, _ => 0
  | n + 1, a => (mem a).toNat + 256 * load mem n (a + 1)

/-- Write a number to the `n` bytes from `a` on. -/
def store (mem : Memory) : (n a v : ℕ) → Memory
  | 0, _, _ => mem
  | n + 1, a, v => store (Function.update mem a (UInt8.ofNat v)) n (a + 1) (v / 256)

/-- Give other contents to the `n` bytes from `a` on. -/
def paste (mem contents : Memory) (a n : ℕ) : Memory := fun b =>
  if a ≤ b ∧ b < a + n then contents b else mem b

theorem load_lt : load mem n a < 256 ^ n := by
  induction n generalizing a with
  | zero => exact Nat.one_pos
  | succ n ih =>
    have hbyte : (mem a).toNat < 256 := (mem a).toNat_lt
    have hrest := @ih (a + 1)
    rw [load, pow_succ]
    omega

/-- Only the bytes that are read matter. -/
theorem load_congr (h : ∀ b, a ≤ b → b < a + n → mem' b = mem b) :
    load mem' n a = load mem n a := by
  induction n generalizing a with
  | zero => rfl
  | succ n ih =>
    rw [load, load, h a le_rfl (by omega), ih fun b hle hlt => h b (by omega) (by omega)]

/-- Bytes that are not written are as before. -/
theorem store_outside (h : b < a ∨ a + n ≤ b) : store mem n a v b = mem b := by
  induction n generalizing mem a v with
  | zero => rfl
  | succ n ih =>
    rw [store, ih (by omega)]
    exact Function.update_of_ne (by omega) _ _

/-- What was stored is read, as far as it fits. -/
theorem load_store : load (store mem n a v) n a = v % 256 ^ n := by
  induction n generalizing mem a v with
  | zero => exact (Nat.mod_one v).symm
  | succ n ih =>
    -- the first byte is written before the others, which are behind it
    have hfirst : store mem (n + 1) a v a = UInt8.ofNat v := by
      rw [store, store_outside (Or.inl (Nat.lt_succ_self a))]
      exact Function.update_self a _ mem
    have hbyte : (UInt8.ofNat v).toNat = v % 256 := UInt8.toNat_ofNat'
    rw [load, hfirst, store, ih, hbyte, pow_succ']
    exact (Nat.mod_mul).symm

end MmorpgServer.ByteMemory
