import MmorpgServer.Redis.Hiredis
import MmorpgServer.Lib.Decimal
import Mathlib.Data.List.TakeDrop

/-!
# Strings of `sds.c`

The functions on dynamic strings that the client library uses to build commands and to discard
what was sent or read. Memory never runs out here, and a string is its bytes.

## Main definitions

* `sdsrange` — a part of a string
* `sdsull2str`, `sdsll2str` — numbers as strings
* `sdscatfmt` — append what a format describes

## Main results

* `sdsrange_drop` — how the beginning of a string is discarded
* `sdsull2str_eq`, `sdsll2str_eq` — numbers are printed in base ten
-/

namespace MmorpgServer.Redis

open Decimal

/-! ### Conversions -/

/-- The byte of a character. -/
def byte (c : Char) : UInt8 := UInt8.ofNat c.toNat

/-- A number of the machine as an `int` -/
def toInt (n : ℤ) : ℤ := n.bmod (2 ^ 32)

theorem toInt_of_lt {n : ℤ} (hlow : -2 ^ 31 ≤ n) (hhigh : n < 2 ^ 31) : toInt n = n := by
  unfold toInt
  rw [Int.bmod_eq_of_le (by omega) (by omega)]

/-! ### Characters -/

/-- `tolower` -/
def tolower (b : UInt8) : UInt8 := if 65 ≤ b ∧ b ≤ 90 then b + 32 else b

/-- `isspace` -/
def isspace (b : UInt8) : Bool := b = 32 || (9 ≤ b && b ≤ 13)

/-! ### Parts -/

/-- `sdsrange` -/
def sdsrange (s : Bytes) (start stop : ℤ) : Bytes :=
  let len : ℤ := s.length
  if len = 0 then s
  else
    let start := if start < 0 then max (toInt (len + start)) 0 else start
    let stop := if stop < 0 then max (toInt (len + stop)) 0 else stop
    if start > stop ∨ start ≥ toInt len then []
    else
      let stop := if stop ≥ toInt len then toInt (len - 1) else stop
      if start > stop then [] else (s.drop start.toNat).take ((stop - start).toNat + 1)

/-- The beginning of a string is discarded. -/
theorem sdsrange_drop {s : Bytes} {n : ℕ} (hle : n ≤ s.length) (hfits : s.length < 2 ^ 31) :
    sdsrange s n (-1) = s.drop n := by
  have hlen : toInt (s.length : ℤ) = s.length := toInt_of_lt (by omega) (by omega)
  have hlast : toInt ((s.length : ℤ) + -1) = s.length - 1 := toInt_of_lt (by omega) (by omega)
  unfold sdsrange
  dsimp only
  split
  · next hzero =>
    obtain rfl := List.eq_nil_of_length_eq_zero (Int.ofNat_eq_zero.mp hzero)
    rw [List.drop_nil]
  · next hpos =>
    have hstop : (if (-1 : ℤ) < 0 then max (toInt ((s.length : ℤ) + -1)) 0 else -1) =
        s.length - 1 := by
      rw [if_pos (by decide), hlast, max_eq_left (by omega)]
    rw [if_neg (not_lt.mpr (Int.natCast_nonneg n)), hstop, hlen]
    by_cases hend : n = s.length
    · rw [if_pos (by omega), List.drop_eq_nil_of_le (by omega)]
    · rw [if_neg (by omega), if_neg (by omega), if_neg (by omega), Int.toNat_natCast]
      apply List.take_of_length_le
      rw [List.length_drop]
      omega

/-! ### Numbers -/

/-- The digits of a number, the last one first -/
def digitsLoop (v : ℕ) : Bytes :=
  UInt8.ofNat (48 + v % 10) :: if v / 10 = 0 then [] else digitsLoop (v / 10)
termination_by v
decreasing_by omega

/-- The loop that reverses a string: the bytes at `s` and at `p` change places. -/
def reverseLoop (buf : Bytes) (s p : ℕ) : Bytes :=
  if s < p then
    reverseLoop ((buf.set s (buf.getD p 0)).set p (buf.getD s 0)) (s + 1) (p - 1)
  else buf
termination_by p - s
decreasing_by omega

/-- `sdsull2str` -/
def sdsull2str (v : UInt64) : Bytes :=
  let buf := digitsLoop v.toNat
  reverseLoop buf 0 (buf.length - 1)

/-- `sdsll2str` -/
def sdsll2str (value : Int64) : Bytes :=
  let buf := digitsLoop value.toInt.natAbs ++ if value < 0 then [byte '-'] else []
  reverseLoop buf 0 (buf.length - 1)

/-- The loop reverses what lies between the two places. -/
theorem reverseLoop_append : ∀ (n : ℕ) (a m c : Bytes), m.length = n →
    reverseLoop (a ++ m ++ c) a.length (a.length + m.length - 1) = a ++ m.reverse ++ c := by
  intro n
  induction n using Nat.strongRecOn with
  | ind n ih =>
    intro a m c hm
    rw [reverseLoop]
    split
    · next hlt =>
      -- the outer bytes change places
      obtain ⟨x, m', rfl⟩ := List.exists_cons_of_ne_nil
        (List.ne_nil_of_length_pos (l := m) (by omega))
      rcases List.eq_nil_or_concat m' with rfl | ⟨m', y, rfl⟩
      · simp at hlt
      · have hlen : a.length + (x :: (m' ++ [y])).length - 1 = (a ++ x :: m').length := by
          simp only [List.length_cons, List.length_append, List.length_nil]
          omega
        have hx : (a ++ x :: (m' ++ [y]) ++ c).getD a.length 0 = x := by simp
        have hy : (a ++ x :: (m' ++ [y]) ++ c).getD (a ++ x :: m').length 0 = y := by
          have hsplit : a ++ x :: (m' ++ [y]) ++ c = (a ++ x :: m') ++ y :: c := by simp
          rw [hsplit, List.getD_eq_getElem?_getD, List.getElem?_append_right le_rfl, Nat.sub_self]
          rfl
        have hset : ((a ++ x :: (m' ++ [y]) ++ c).set a.length y).set (a ++ x :: m').length x =
            (a ++ [y]) ++ m' ++ x :: c := by
          have hfirst : (a ++ x :: (m' ++ [y]) ++ c).set a.length y = (a ++ y :: m') ++ y :: c := by
            simp
          have hshape : (a ++ x :: m').length = (a ++ y :: m').length := by simp
          rw [hfirst, hshape, List.set_append_right _ _ le_rfl, Nat.sub_self]
          simp
        rw [List.concat_eq_append, hlen, hx, hy, hset]
        have hstart : a.length + 1 = (a ++ [y]).length := by simp
        have hend : (a ++ x :: m').length - 1 = (a ++ [y]).length + m'.length - 1 := by
          simp only [List.length_append, List.length_cons, List.length_nil]
          omega
        have hshort : m'.length < n := by
          simp only [List.length_cons, List.length_concat] at hm
          omega
        rw [hstart, hend, ih _ hshort (a ++ [y]) m' (x :: c) rfl]
        simp
    · next hge =>
      match m, hm with
      | [], _ => rfl
      | [x], _ => rfl
      | x :: y :: m, _ =>
        simp only [List.length_cons] at hge
        omega

theorem reverseLoop_eq (buf : Bytes) : reverseLoop buf 0 (buf.length - 1) = buf.reverse := by
  have happend := reverseLoop_append buf.length [] buf [] rfl
  simpa using happend

theorem reverse_digitsLoop : ∀ n, (digitsLoop n).reverse = print n := by
  apply digit_induction
  · intro n h
    rw [digitsLoop, if_pos (by omega), print_of_lt h, Nat.mod_eq_of_lt h]
    rfl
  · intro n h ih
    rw [digitsLoop, if_neg (by omega), List.reverse_cons, ih, print_of_le h]
    rfl

/-- Numbers are printed in base ten. -/
theorem sdsull2str_eq (v : UInt64) : sdsull2str v = print v.toNat := by
  unfold sdsull2str
  rw [reverseLoop_eq, reverse_digitsLoop]

theorem sdsll2str_eq (value : Int64) : sdsll2str value = printInt value.toInt := by
  unfold sdsll2str
  rw [reverseLoop_eq, List.reverse_append, reverse_digitsLoop]
  have hneg : value < 0 ↔ value.toInt < 0 := by
    rw [Int64.lt_iff_toInt_lt]
    exact Iff.rfl
  cases hint : value.toInt with
  | ofNat n =>
    rw [if_neg (by rw [hneg, hint]; simp)]
    rfl
  | negSucc n =>
    rw [if_pos (by rw [hneg, hint]; exact Int.negSucc_lt_zero n)]
    rfl

/-! ### Formats -/

/-- An argument of `sdscatfmt` -/
inductive FmtArg where
  | str (s : Bytes)
  | int (n : Int32)
  | longlong (n : Int64)
  | uint (n : UInt32)
  | ulonglong (n : UInt64)

/-- `sdscatfmt`. It is not defined where an argument is missing or is of another type, and behind
a `%` at the end. -/
def sdscatfmt (s : Bytes) : (fmt : Bytes) → List FmtArg → Option Bytes
  | [], _ => some s
  | [c], args => if c = byte '%' then none else sdscatfmt (s ++ [c]) [] args
  | c :: next :: fmt, args =>
    if c = byte '%' then
      if next = byte 's' then
        match args with
        | .str t :: args => sdscatfmt (s ++ cstr t) fmt args
        | _ => none
      else if next = byte 'S' then
        match args with
        | .str t :: args => sdscatfmt (s ++ t) fmt args
        | _ => none
      else if next = byte 'i' then
        match args with
        | .int n :: args => sdscatfmt (s ++ sdsll2str n.toInt64) fmt args
        | _ => none
      else if next = byte 'I' then
        match args with
        | .longlong n :: args => sdscatfmt (s ++ sdsll2str n) fmt args
        | _ => none
      else if next = byte 'u' then
        match args with
        | .uint n :: args => sdscatfmt (s ++ sdsull2str n.toUInt64) fmt args
        | _ => none
      else if next = byte 'U' then
        match args with
        | .ulonglong n :: args => sdscatfmt (s ++ sdsull2str n) fmt args
        | _ => none
      else sdscatfmt (s ++ [next]) fmt args
    else sdscatfmt (s ++ [c]) (next :: fmt) args

end MmorpgServer.Redis
