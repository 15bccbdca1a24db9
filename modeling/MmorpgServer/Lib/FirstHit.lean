import MmorpgServer.Lib.Trace

/-!
# The first element with a property

## Main definitions

* `AtEach` — a relation between every element of a list and those before it
* `MarksFirst` — a mark stands at the first element with a property, and at no other one

## Main results

* `atEach_concat`, `atEach_map` — how the relation is built up
* `MarksFirst.congr` — when one mark is that of two properties
-/

namespace MmorpgServer.FirstHit

variable {ε τ : Type*} {R : List ε → ε → Prop} {P Q hit : ε → Prop} {xs : List ε} {x : ε}

/-- Every element is related to the list of those before it. -/
def AtEach (R : List ε → ε → Prop) (xs : List ε) : Prop :=
  ∀ pre x post, xs = pre ++ x :: post → R pre x

theorem atEach_nil : AtEach R [] := fun _ _ _ h => absurd h (by simp)

theorem atEach_concat : AtEach R (xs ++ [x]) ↔ AtEach R xs ∧ R xs x := by
  constructor
  · intro h
    refine ⟨fun pre y post hxs => h pre y (post ++ [x]) (by simp [hxs]), h xs x [] rfl⟩
  · rintro ⟨hxs, hx⟩ pre y post heq
    rcases Trace.split_append heq with ⟨mid, hold⟩ | ⟨mid, rfl, hlast⟩
    · exact hxs pre y mid hold
    · rcases List.singleton_eq_append_iff.mp hlast with ⟨rfl, hpost⟩ | ⟨-, hnil⟩
      · obtain ⟨rfl, -⟩ := List.cons.inj hpost
        rwa [List.append_nil]
      · cases hnil

theorem atEach_map {f : τ → ε} {l : List τ} :
    AtEach R (l.map f) ↔ AtEach (fun pre y => R (pre.map f) (f y)) l := by
  induction l using List.reverseRecOn with
  | nil => exact iff_of_true atEach_nil atEach_nil
  | append_singleton l y ih =>
    rw [List.map_append, List.map_singleton, atEach_concat, atEach_concat, ih]

/-- The mark `hit` stands at the first element with the property `P`, and at no other one. -/
def MarksFirst (P hit : ε → Prop) (xs : List ε) : Prop :=
  AtEach (fun pre x => hit x ↔ P x ∧ ∀ y ∈ pre, ¬ P y) xs

/-- There is a mark if there is an element with the property. -/
theorem MarksFirst.exists_iff (h : MarksFirst P hit xs) : (∃ x ∈ xs, hit x) ↔ ∃ x ∈ xs, P x := by
  induction xs using List.reverseRecOn with
  | nil => simp
  | append_singleton xs x ih =>
    obtain ⟨hxs, hx⟩ := atEach_concat.mp h
    have hold := ih hxs
    simp only [List.mem_append, List.mem_singleton, or_and_right, exists_or, exists_eq_left, hold,
      hx]
    -- a later element is not marked, but then there was an earlier one
    constructor
    · exact Or.imp_right And.left
    · rintro (hP | hP)
      · exact Or.inl hP
      · by_cases hnone : ∃ y ∈ xs, P y
        · exact Or.inl hnone
        · exact Or.inr ⟨hP, fun y hy hPy => hnone ⟨y, hy, hPy⟩⟩

/-- The mark of `P` is that of `Q` if and only if the two agree up to the first element with
the property `Q`. -/
theorem MarksFirst.congr (h : MarksFirst P hit xs) :
    MarksFirst Q hit xs ↔ AtEach (fun pre x => (∀ y ∈ pre, ¬ Q y) → (P x ↔ Q x)) xs := by
  induction xs using List.reverseRecOn with
  | nil => exact iff_of_true atEach_nil atEach_nil
  | append_singleton xs x ih =>
    obtain ⟨hxs, hx⟩ := atEach_concat.mp h
    unfold MarksFirst
    rw [atEach_concat, atEach_concat, ← ih hxs]
    refine and_congr_right fun hxs' => ?_
    -- up to here the elements with the two properties begin together
    have hnone : (∀ y ∈ xs, ¬ P y) ↔ ∀ y ∈ xs, ¬ Q y := by
      have hsome := (MarksFirst.exists_iff hxs).symm.trans (MarksFirst.exists_iff hxs')
      simpa using not_congr hsome
    rw [hx, hnone, and_congr_left_iff]

end MmorpgServer.FirstHit
