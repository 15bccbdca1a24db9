import Mathlib.Data.List.Infix
import Mathlib.Data.Nat.ModEq

/-!
# Bounded queues and their circular layout

The abstract purpose of a ring buffer: a queue of at most `cap` items, pushed and popped
in chunks. The second half relates such a queue to a memory of `cap` cells in which the
item at stream position `p` lives in cell `p % cap`.

## Main definitions

* `BoundedFifo` — a queue whose bound is part of the value
* `BoundedFifo.push`, `BoundedFifo.pop` — chunked operations
* `Stored` — a list laid out circularly from a start position
* `blit` — the contiguous copy of a segment into a memory

## Main results

* `stored_blit_two` — two contiguous copies, split where the memory ends, lay out a chunk
* `Stored.blit_two` — they keep every item that was stored before, as long as all fit
-/

namespace MmorpgServer

/-- A queue of at most `cap` items. -/
structure BoundedFifo (α : Type*) (cap : ℕ) where
  /-- The items, oldest first. -/
  items : List α
  bound : items.length ≤ cap

namespace BoundedFifo

variable {α : Type*} {cap : ℕ}

/-- The queue without items. -/
def empty : BoundedFifo α cap := ⟨[], Nat.zero_le _⟩

/-- How many more items the queue takes. -/
def room (q : BoundedFifo α cap) : ℕ := cap - q.items.length

/-- Append a chunk that fits. -/
def push (q : BoundedFifo α cap) (xs : List α) (h : xs.length ≤ q.room) : BoundedFifo α cap :=
  ⟨q.items ++ xs, by
    have := q.bound
    rw [List.length_append]
    unfold room at h
    omega⟩

/-- Drop the oldest `n` items. -/
def pop (q : BoundedFifo α cap) (n : ℕ) : BoundedFifo α cap :=
  ⟨q.items.drop n, by
    have := q.bound
    rw [List.length_drop]
    omega⟩

@[simp] theorem items_empty : (empty : BoundedFifo α cap).items = [] := rfl

@[simp] theorem items_push (q : BoundedFifo α cap) {xs : List α} (h : xs.length ≤ q.room) :
    (q.push xs h).items = q.items ++ xs := rfl

@[simp] theorem items_pop (q : BoundedFifo α cap) (n : ℕ) :
    (q.pop n).items = q.items.drop n := rfl

theorem length_add_room (q : BoundedFifo α cap) : q.items.length + q.room = cap :=
  Nat.add_sub_cancel' q.bound

end BoundedFifo

/-! ### Circular layout -/

section Layout

variable {α : Type*} {cells : ℕ → α} {cap start : ℕ} {xs ys : List α}

/-- The list `xs` lies in the cells from stream position `start` on, modulo `cap`. -/
def Stored (cells : ℕ → α) (cap start : ℕ) (xs : List α) : Prop :=
  ∀ i (h : i < xs.length), cells ((start + i) % cap) = xs[i]

theorem stored_nil : Stored cells cap start [] :=
  fun _ h => absurd h (Nat.not_lt_zero _)

/-- Only the start position modulo `cap` matters. -/
theorem Stored.of_modEq {start' : ℕ} (h : Stored cells cap start xs)
    (hmod : start' ≡ start [MOD cap]) : Stored cells cap start' xs := by
  intro i hi
  rw [(hmod.add_right i : (start' + i) % cap = (start + i) % cap)]
  exact h i hi

theorem Stored.drop (h : Stored cells cap start xs) (n : ℕ) :
    Stored cells cap (start + n) (xs.drop n) := by
  intro i hi
  rw [List.length_drop] at hi
  rw [List.getElem_drop, Nat.add_assoc]
  exact h (n + i) (by omega)

theorem Stored.append (h : Stored cells cap start xs)
    (h' : Stored cells cap (start + xs.length) ys) : Stored cells cap start (xs ++ ys) := by
  intro i hi
  by_cases hleft : i < xs.length
  · rw [List.getElem_append_left hleft]
    exact h i hleft
  · rw [List.getElem_append_right (by omega)]
    have hcell := h' (i - xs.length) (by rw [List.length_append] at hi; omega)
    rwa [show start + xs.length + (i - xs.length) = start + i by omega] at hcell

/-- Copy `n` items of `src`, from its position `pos` on, to the cells from `off` on. -/
def blit (cells : ℕ → α) (off : ℕ) (src : ℕ → α) (pos n : ℕ) : ℕ → α :=
  fun a => if off ≤ a ∧ a < off + n then src (pos + (a - off)) else cells a

theorem blit_of_mem {off pos n a : ℕ} {src : ℕ → α} (h : off ≤ a) (h' : a < off + n) :
    blit cells off src pos n a = src (pos + (a - off)) :=
  if_pos ⟨h, h'⟩

theorem blit_of_not_mem {off pos n a : ℕ} {src : ℕ → α} (h : ¬ (off ≤ a ∧ a < off + n)) :
    blit cells off src pos n a = cells a :=
  if_neg h

/-- The items `src 0 … src (n - 1)`. -/
def segment (src : ℕ → α) (n : ℕ) : List α := (List.range n).map src

@[simp] theorem length_segment (src : ℕ → α) (n : ℕ) : (segment src n).length = n := by
  simp [segment]

@[simp] theorem getElem_segment (src : ℕ → α) (n i : ℕ) (h : i < (segment src n).length) :
    (segment src n)[i] = src i := by
  simp [segment]

/-- A position less than `cap` past `start` wraps at most once. -/
theorem add_mod_of_lt (hcap : 0 < cap) {i : ℕ} (hi : i < cap) :
    (start + i) % cap =
      if start % cap + i < cap then start % cap + i else start % cap + i - cap := by
  have hlt := Nat.mod_lt start hcap
  rw [← Nat.mod_add_mod]
  split
  · next h => exact Nat.mod_eq_of_lt h
  · next h =>
    rw [Nat.mod_eq_sub_mod (by omega), Nat.mod_eq_of_lt (by omega)]

/-- The two copies of a ring buffer: `k` items from the start cell on, the rest from cell
`0` on. The split `k` is either where the memory ends or, when the chunk starts at cell
`0`, any split at all that leaves nothing for the first copy. -/
theorem stored_blit_two {src : ℕ → α} {n k : ℕ} (hcap : 0 < cap) (hn : n ≤ cap)
    (hk : k = min n (cap - start % cap) ∨ (start % cap = 0 ∧ k = 0)) :
    Stored (blit (blit cells (start % cap) src 0 k) 0 src k (n - k)) cap start
      (segment src n) := by
  intro i hi
  rw [length_segment] at hi
  have hlt := Nat.mod_lt start hcap
  rw [getElem_segment, add_mod_of_lt hcap (by omega)]
  split
  · next hfit =>
    by_cases hzero : k = 0
    · -- nothing was copied by the first copy: the chunk starts at cell 0
      have hstart : start % cap = 0 := by omega
      rw [blit_of_mem (Nat.zero_le _) (by omega)]
      exact congrArg src (by omega)
    · -- the second copy stays below the start cell
      have hik : i < k := by omega
      rw [blit_of_not_mem (by omega), blit_of_mem (by omega) (by omega)]
      exact congrArg src (by omega)
  · next hwrap =>
    -- past the end of the memory: the second copy starts where the first one stopped
    have hik : k = cap - start % cap := by omega
    rw [blit_of_mem (Nat.zero_le _) (by omega)]
    exact congrArg src (by omega)

/-- The two copies leave every item stored before the chunk in place, as long as all of
them fit together. -/
theorem Stored.blit_two {src : ℕ → α} {n k : ℕ} (h : Stored cells cap start xs)
    (hcap : 0 < cap) (hfit : xs.length + n ≤ cap)
    (hk : k = min n (cap - (start + xs.length) % cap) ∨
      ((start + xs.length) % cap = 0 ∧ k = 0)) :
    Stored (blit (blit cells ((start + xs.length) % cap) src 0 k) 0 src k (n - k)) cap start
      xs := by
  intro i hi
  have hcell : (start + i) % cap =
      if start % cap + i < cap then start % cap + i else start % cap + i - cap :=
    add_mod_of_lt hcap (by omega)
  have hlt := Nat.mod_lt start hcap
  have hend : (start + xs.length) % cap =
      if start % cap + xs.length < cap then start % cap + xs.length
      else start % cap + xs.length - cap := by
    by_cases hfull : xs.length < cap
    · exact add_mod_of_lt hcap hfull
    · -- a full memory ends where it starts
      have hlen : xs.length = cap := by omega
      rw [hlen, Nat.add_mod_right, if_neg (by omega)]
      omega
  rw [← h i hi]
  -- both copies stay off the cells of the `xs.length` items that are already there
  rw [blit_of_not_mem, blit_of_not_mem]
  · split at hcell <;> split at hend <;> omega
  · split at hcell <;> split at hend <;> omega

end Layout

end MmorpgServer
