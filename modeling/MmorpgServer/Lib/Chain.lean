import Mathlib.Data.List.Nodup

/-!
# Singly linked chains in a memory

The cells of a memory hold the address of the next cell or the null address. The memory is
a function `next : α → Option (Option α)`: `none` where no cell can be read, `some none` for
a null address. A chain starts behind a cell that is not part of it, such as a header.

## Main definitions

* `Run next a l` — the cells that follow `a` are exactly `l`
* `Path next p l` — the same, from a pointer to the first cell

## Main results

* `Run.unique` — the chain behind a cell is determined
* `Run.next_last`, `Run.drop` — the middle of a chain
* `Run.insert`, `Run.erase` — what one splice does to a chain
-/

namespace MmorpgServer.Chain

variable {α : Type*} {next next' : α → Option (Option α)} {a x : α} {l l' l₁ l₂ : List α}

/-- The cells that follow `a` are exactly `l`, and the last one is followed by none. -/
def Run (next : α → Option (Option α)) : α → List α → Prop
  | a, [] => next a = some none
  | a, b :: l => next a = some (some b) ∧ Run next b l

/-- The chain behind a cell is determined. -/
theorem Run.unique (h : Run next a l) (h' : Run next a l') : l = l' := by
  induction l generalizing a l' with
  | nil =>
    cases l' with
    | nil => rfl
    | cons b l' =>
      have heq := h.symm.trans h'.1
      cases heq
  | cons b l ih =>
    cases l' with
    | nil =>
      have heq := h.1.symm.trans h'
      cases heq
    | cons b' l' =>
      have heq := h.1.symm.trans h'.1
      cases heq
      rw [ih h.2 h'.2]

/-- Only the cells of the chain matter. -/
theorem Run.congr (h : Run next a l) (heq : ∀ b ∈ a :: l, next' b = next b) : Run next' a l := by
  induction l generalizing a with
  | nil => exact (heq a List.mem_cons_self).trans h
  | cons b l ih =>
    obtain ⟨ha, hl⟩ := List.forall_mem_cons.mp heq
    exact ⟨ha.trans h.1, ih h.2 hl⟩

/-- The first cell. -/
theorem Run.head (h : Run next a l) : next a = some l.head? := by
  cases l with
  | nil => exact h
  | cons b l => exact h.1

/-- The rest of a chain, behind one of its cells. -/
theorem Run.drop (h : Run next a (l₁ ++ l₂)) : Run next (l₁.getLastD a) l₂ := by
  induction l₁ generalizing a with
  | nil => exact h
  | cons b l₁ ih =>
    rw [List.getLastD_cons]
    exact ih h.2

/-- The cell in the middle of a chain points to the rest. -/
theorem Run.next_last (h : Run next a (l₁ ++ l₂)) : next (l₁.getLastD a) = some l₂.head? :=
  h.drop.head

theorem getLastD_mem : l.getLastD a ∈ a :: l := by
  induction l generalizing a with
  | nil => exact List.mem_cons_self
  | cons b l ih =>
    rw [List.getLastD_cons]
    exact List.mem_cons_of_mem a ih

theorem getLastD_append : (l₁ ++ l₂).getLastD a = l₂.getLastD (l₁.getLastD a) := by
  induction l₁ generalizing a with
  | nil => rfl
  | cons b l₁ ih =>
    rw [List.cons_append, List.getLastD_cons, List.getLastD_cons]
    exact ih

/-- Every cell of a chain, its start included, is the last one of some initial part. -/
theorem exists_split (h : x ∈ a :: l) : ∃ l₁ l₂, l = l₁ ++ l₂ ∧ x = l₁.getLastD a := by
  rcases List.mem_cons.mp h with rfl | h
  · exact ⟨[], l, rfl, rfl⟩
  · obtain ⟨l₁, l₂, rfl⟩ := List.append_of_mem h
    exact ⟨l₁ ++ [x], l₂, by simp, List.getLastD_concat.symm⟩

/-- The part of a chain before a splice. -/
theorem Run.splice {l₃ : List α} (h : Run next a (l₁ ++ l₂)) (hnodup : (a :: (l₁ ++ l₂)).Nodup)
    (heq : ∀ b ∈ a :: l₁, b ≠ l₁.getLastD a → next' b = next b)
    (hrest : Run next' (l₁.getLastD a) l₃) : Run next' a (l₁ ++ l₃) := by
  induction l₁ generalizing a with
  | nil => exact hrest
  | cons b l₁ ih =>
    obtain ⟨hnew, hnodup⟩ := List.nodup_cons.mp hnodup
    obtain ⟨ha, hl⟩ := List.forall_mem_cons.mp heq
    rw [List.getLastD_cons] at ha hl hrest
    -- only the cell before the splice is rewritten, and `a` is not that cell
    have hne : a ≠ l₁.getLastD b := by
      intro heq'
      refine hnew (List.mem_append_left l₂ ?_)
      rw [heq']
      exact getLastD_mem
    exact ⟨(ha hne).trans h.1, ih h.2 hnodup hl hrest⟩

/-- A splice leaves the cells behind it. -/
theorem nodup_splice (hnodup : (a :: (l₁ ++ l₂)).Nodup) :
    ∀ b ∈ l₂, b ≠ l₁.getLastD a := by
  rintro b hb rfl
  rw [← List.cons_append] at hnodup
  exact List.disjoint_of_nodup_append hnodup getLastD_mem hb

/-- Link a new cell into a chain. -/
theorem Run.insert (h : Run next a (l₁ ++ l₂)) (hnodup : (a :: (l₁ ++ l₂)).Nodup)
    (hx : next' x = some l₂.head?) (hlast : next' (l₁.getLastD a) = some (some x))
    (heq : ∀ b ∈ a :: (l₁ ++ l₂), b ≠ l₁.getLastD a → next' b = next b) :
    Run next' a (l₁ ++ x :: l₂) := by
  -- the new cell leads to the old rest, whose cells are not the one that was rewritten
  refine h.splice hnodup (fun b hb => heq b ?_) ⟨hlast, ?_⟩
  · rw [← List.cons_append]
    exact List.mem_append_left l₂ hb
  · have hbehind := nodup_splice hnodup
    cases l₂ with
    | nil => exact hx
    | cons b l₂ =>
      refine ⟨hx, Run.congr h.drop.2 fun c hc => heq c ?_ (hbehind c hc)⟩
      exact List.mem_cons_of_mem a (List.mem_append_right l₁ hc)

/-- Unlink a cell from a chain. -/
theorem Run.erase (h : Run next a (l₁ ++ x :: l₂)) (hnodup : (a :: (l₁ ++ x :: l₂)).Nodup)
    (hlast : next' (l₁.getLastD a) = some l₂.head?)
    (heq : ∀ b ∈ a :: (l₁ ++ l₂), b ≠ l₁.getLastD a → next' b = next b) :
    Run next' a (l₁ ++ l₂) := by
  -- the cell before the erased one leads to what followed it
  refine h.splice hnodup (fun b hb => heq b ?_) ?_
  · rw [← List.cons_append]
    exact List.mem_append_left l₂ hb
  · have hbehind := nodup_splice hnodup
    cases l₂ with
    | nil => exact hlast
    | cons b l₂ =>
      refine ⟨hlast, Run.congr h.drop.2.2 fun c hc => heq c ?_ ?_⟩
      · exact List.mem_cons_of_mem a (List.mem_append_right l₁ hc)
      · exact hbehind c (List.mem_cons_of_mem x hc)

/-! ### From a pointer -/

/-- The cells from the pointer `p` on are exactly `l`, and the last one is followed by none. -/
def Path (next : α → Option (Option α)) : Option α → List α → Prop
  | p, [] => p = none
  | p, b :: l => p = some b ∧ ∃ q, next b = some q ∧ Path next q l

/-- A chain is the cell it starts behind and the way from there. -/
theorem run_iff_path : Run next a l ↔ ∃ p, next a = some p ∧ Path next p l := by
  induction l generalizing a with
  | nil =>
    constructor
    · exact fun h => ⟨none, h, rfl⟩
    · rintro ⟨p, hp, rfl⟩
      exact hp
  | cons b l ih =>
    constructor
    · exact fun h => ⟨some b, h.1, rfl, ih.mp h.2⟩
    · rintro ⟨p, hp, rfl, hrest⟩
      exact ⟨hp, ih.mpr hrest⟩

/-- Only the cells on the way matter. -/
theorem Path.congr {p : Option α} (h : Path next p l) (heq : ∀ b ∈ l, next' b = next b) :
    Path next' p l := by
  induction l generalizing p with
  | nil => exact h
  | cons b l ih =>
    obtain ⟨hb, hl⟩ := List.forall_mem_cons.mp heq
    obtain ⟨rfl, q, hq, hrest⟩ := h
    exact ⟨rfl, q, hb.trans hq, ih hrest hl⟩

end MmorpgServer.Chain
