import Mathlib.Data.List.Basic

/-!
# Blocks of memory

A block is a list of cells, and nothing can be written behind its end. An allocator gives blocks
with any contents, and may move a block to another size.

## Main definitions

* `write` — write to the cells from an index on
* `resize` — a block of another size with the same beginning

## Main results

* `write_append` — what is written takes the place of as many cells
* `resize_append`, `exists_append_of_le` — a larger block begins with the smaller one
-/

namespace MmorpgServer.Block

variable {α : Type*} {l a b c xs : List α} {n i : ℕ}

/-- Write to the cells from `i` on, if there are as many. -/
def write (l : List α) (i : ℕ) (xs : List α) : Option (List α) :=
  if i + xs.length ≤ l.length then some (l.take i ++ (xs ++ l.drop (i + xs.length))) else none

/-- The first `n` cells; where the block is shorter, the others are filled. -/
def resize (fill : ℕ → α) (n : ℕ) (l : List α) : List α :=
  (List.range n).map fun i => (l[i]?).getD (fill i)

theorem write_append (h : b.length = xs.length) (hi : a.length = i) :
    write (a ++ (b ++ c)) i xs = some (a ++ (xs ++ c)) := by
  subst hi
  unfold write
  rw [if_pos (by simp only [List.length_append]; omega), List.take_left, List.drop_append,
    List.drop_eq_nil_of_le (Nat.le_add_right _ _), List.nil_append, Nat.add_sub_cancel_left, ← h,
    List.drop_left]

/-- Cells that are written one behind the other -/
theorem exists_append_of_le (h : n ≤ l.length) : ∃ b c, l = b ++ c ∧ b.length = n :=
  ⟨l.take n, l.drop n, (List.take_append_drop n l).symm, List.length_take_of_le h⟩

@[simp] theorem length_resize (fill : ℕ → α) (n : ℕ) (l : List α) :
    (resize fill n l).length = n := by
  rw [resize, List.length_map, List.length_range]

/-- What fits into the block of the new size is kept. -/
theorem resize_append (fill : ℕ → α) (h : a.length ≤ n) :
    ∃ rest, resize fill n (a ++ b) = a ++ rest ∧ rest.length = n - a.length := by
  refine ⟨(resize fill n (a ++ b)).drop a.length, ?_, by rw [List.length_drop, length_resize]⟩
  have htake : (resize fill n (a ++ b)).take a.length = a := by
    apply List.ext_getElem?
    intro i
    by_cases hi : i < a.length
    · have hin : i < n := by omega
      rw [List.getElem?_take_of_lt hi]
      simp [resize, List.getElem?_append_left hi, hi, hin]
    · rw [List.getElem?_eq_none (by rw [List.length_take]; omega),
        List.getElem?_eq_none (by omega)]
  conv_lhs => rw [← List.take_append_drop a.length (resize fill n (a ++ b)), htake]

end MmorpgServer.Block
