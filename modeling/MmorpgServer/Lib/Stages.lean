import Mathlib.Data.List.Basic

/-!
# Lists in stages

Lists have a rank. Now and then one is emptied, and its elements are appended to lists of lower
ranks. An element is ahead of another one if it stands in a list of a lower rank, or in front of it
in the same list; two elements that are appended to the same list keep their order.

## Main definitions

* `Ahead` — the order of two elements
* `scatter` — the lists after one was emptied

## Main results

* `Ahead.mono` — appending elements keeps the order of the others
* `Ahead.scatter` — emptying a list keeps the order of two elements that belong together
* `Ahead.take` — the elements of a list of the lowest rank leave in their order
-/

namespace MmorpgServer.Stages

variable {α κ : Type*} {rank : κ → ℕ} {list list' : κ → List α} {x y : α} {a : κ}

/-- `x` stands in a list of a lower rank than `y`, or in front of it in the same list. -/
def Ahead (rank : κ → ℕ) (list : κ → List α) (x y : α) : Prop :=
  ∃ a b, x ∈ list a ∧ y ∈ list b ∧ (rank a < rank b ∨ a = b ∧ [x, y].Sublist (list a))

/-- Lists with more elements in them have the same order. -/
theorem Ahead.mono (h : Ahead rank list x y) (hsub : ∀ a, (list a).Sublist (list' a)) :
    Ahead rank list' x y := by
  obtain ⟨a, b, hx, hy, horder⟩ := h
  exact ⟨a, b, (hsub a).subset hx, (hsub b).subset hy,
    horder.imp_right fun ⟨hab, hxy⟩ => ⟨hab, hxy.trans (hsub a)⟩⟩

variable [DecidableEq κ]

/-- List `a` is emptied, and each of its elements is appended where it belongs. -/
def scatter (list : κ → List α) (a : κ) (place : α → κ) (c : κ) : List α :=
  (if c = a then [] else list c) ++ (list a).filter fun x => place x = c

theorem mem_scatter_of_ne {place : α → κ} {c : κ} (hne : c ≠ a) (hx : x ∈ list c) :
    x ∈ scatter list a place c := by
  rw [scatter, if_neg hne]
  exact List.mem_append_left _ hx

theorem mem_scatter {place : α → κ} (hx : x ∈ list a) : x ∈ scatter list a place (place x) :=
  List.mem_append_right _ (List.mem_filter.mpr ⟨hx, by simp⟩)

/-- Two elements that belong to the same list keep their order, if that list has a lower rank than
the emptied one, and the first one stands nowhere between the two. -/
theorem Ahead.scatter {place : α → κ} (h : Ahead rank list x y) (hsame : place x = place y)
    (hlower : x ∈ list a → rank (place x) < rank a)
    (hstay : ∀ b, rank b < rank a → x ∈ list b → y ∈ list a → b = place y) :
    Ahead rank (scatter list a place) x y := by
  obtain ⟨b, c, hx, hy, hrank | ⟨rfl, hxy⟩⟩ := h
  · by_cases hb : b = a
    · -- the first one moves, to a list of a lower rank
      subst hb
      have hc : c ≠ b := fun heq => absurd hrank (by simp [heq])
      exact ⟨_, c, mem_scatter hx, mem_scatter_of_ne hc hy, Or.inl (Nat.lt_trans (hlower hx) hrank)⟩
    · by_cases hc : c = a
      · -- the second one is appended to the list of the first one
        subst hc
        obtain rfl := hstay b hrank hx hy
        refine ⟨_, _, mem_scatter_of_ne hb hx, mem_scatter hy, Or.inr ⟨rfl, ?_⟩⟩
        have hlast : y ∈ (list c).filter fun z => place z = place y :=
          List.mem_filter.mpr ⟨hy, by simp⟩
        rw [Stages.scatter, if_neg hb]
        exact (List.singleton_sublist.mpr hx).append (List.singleton_sublist.mpr hlast)
      · exact ⟨b, c, mem_scatter_of_ne hb hx, mem_scatter_of_ne hc hy, Or.inl hrank⟩
  · by_cases hb : b = a
    · -- both move, to the same list
      subst hb
      refine ⟨_, _, mem_scatter hx, hsame ▸ mem_scatter hy, Or.inr ⟨rfl, ?_⟩⟩
      have hfilter := hxy.filter fun z => decide (place z = place x)
      rw [List.filter_cons_of_pos (by simp), List.filter_cons_of_pos (by simp [hsame])] at hfilter
      exact hfilter.trans (List.sublist_append_right _ _)
    · refine ⟨b, b, mem_scatter_of_ne hb hx, mem_scatter_of_ne hb hy, Or.inr ⟨rfl, ?_⟩⟩
      rw [Stages.scatter, if_neg hb]
      exact hxy.trans (List.sublist_append_left _ _)

/-- When a list of the lowest rank is taken out, two elements of it are in order, the second one
alone is not in it, and otherwise they stay in order. -/
theorem Ahead.take (h : Ahead rank list x y) (hlow : rank a = 0) :
    [x, y].Sublist (list a) ∨ (x ∈ list a ∧ ∃ b ≠ a, y ∈ list b) ∨
      Ahead rank (Function.update list a []) x y := by
  obtain ⟨b, c, hx, hy, horder⟩ := h
  by_cases hb : b = a
  · subst hb
    by_cases hc : c = b
    · subst hc
      rcases horder with hrank | ⟨-, hxy⟩
      · exact absurd hrank (Nat.lt_irrefl _)
      · exact Or.inl hxy
    · exact Or.inr (Or.inl ⟨hx, c, hc, hy⟩)
  · -- nothing is ahead of a list of the lowest rank
    have hc : c ≠ a := by
      rintro rfl
      rcases horder with hrank | ⟨heq, -⟩
      · omega
      · exact hb heq
    right
    right
    refine ⟨b, c, ?_, ?_, ?_⟩ <;> simpa [Function.update_of_ne hb, Function.update_of_ne hc]

end MmorpgServer.Stages
