import MmorpgServer.Lib.Machine

/-!
# First fit

Items come one after the other, and each goes into the first bin that takes it. Where no bin
does, a fresh one may be added behind the others. What was packed in this way fits again if all
the bins are there from the beginning.

## Main definitions

* `place` — one item, with the bins that there are
* `extend` — one item, with a fresh bin if it needs one

## Main results

* `place_map` — bins may be replaced by what the items see of them
* `exec_place_refill` — the bins of one run are enough for another one
-/

namespace MmorpgServer.FirstFit

open Machine

variable {α β γ : Type*} {put : β → Option β} {put' : γ → Option γ} {bins bins' more : List β}

/-- Put an item into the first bin that takes it. -/
def place (put : β → Option β) : List β → Option (List β)
  | [] => none
  | b :: bins =>
    match put b with
    | some b' => some (b' :: bins)
    | none => (place put bins).map (b :: ·)

/-- The same, with a fresh bin behind the others if none of them takes the item. -/
def extend (put : α → β → Option β) (fresh : β) (bins : List β) (x : α) : Option (List β) :=
  match place (put x) bins with
  | some bins' => some bins'
  | none => (put x fresh).map fun b => bins ++ [b]

theorem place_cons_of_some {b b' : β} (h : put b = some b') :
    place put (b :: bins) = some (b' :: bins) := by
  rw [place, h]

theorem place_cons_of_none {b : β} (h : put b = none) :
    place put (b :: bins) = (place put bins).map (b :: ·) := by
  rw [place, h]

theorem place_length (h : place put bins = some bins') : bins'.length = bins.length := by
  induction bins generalizing bins' with
  | nil => cases h
  | cons b bins ih =>
    cases hput : put b with
    | some b' =>
      rw [place_cons_of_some hput] at h
      rw [← Option.some.inj h, List.length_cons, List.length_cons]
    | none =>
      rw [place_cons_of_none hput] at h
      obtain ⟨rest, hrest, rfl⟩ := Option.map_eq_some_iff.mp h
      rw [List.length_cons, List.length_cons, ih hrest]

/-- Bins behind the one that takes the item do not matter. -/
theorem place_append_of_some (h : place put bins = some bins') :
    place put (bins ++ more) = some (bins' ++ more) := by
  induction bins generalizing bins' with
  | nil => cases h
  | cons b bins ih =>
    rw [List.cons_append]
    cases hput : put b with
    | some b' =>
      rw [place_cons_of_some hput] at h ⊢
      rw [← Option.some.inj h, List.cons_append]
    | none =>
      rw [place_cons_of_none hput] at h ⊢
      obtain ⟨rest, hrest, rfl⟩ := Option.map_eq_some_iff.mp h
      rw [ih hrest, Option.map_some, List.cons_append]

/-- If no bin takes the item, those behind them are tried. -/
theorem place_append_of_none (h : place put bins = none) :
    place put (bins ++ more) = (place put more).map (bins ++ ·) := by
  induction bins with
  | nil => simp
  | cons b bins ih =>
    rw [List.cons_append]
    cases hput : put b with
    | some b' => rw [place_cons_of_some hput] at h; cases h
    | none =>
      rw [place_cons_of_none hput] at h ⊢
      rw [ih (Option.map_eq_none_iff.mp h), Option.map_map]
      rfl

/-- Bins that are seen through a function. -/
theorem place_map {view : γ → β} (hview : ∀ c, put (view c) = (put' c).map view) (cs : List γ) :
    place put (cs.map view) = (place put' cs).map (List.map view) := by
  induction cs with
  | nil => rfl
  | cons c cs ih =>
    have hput := hview c
    rw [List.map_cons]
    cases hc : put' c with
    | some c' =>
      rw [hc, Option.map_some] at hput
      rw [place_cons_of_some hput, place_cons_of_some hc, Option.map_some, List.map_cons]
    | none =>
      rw [hc, Option.map_none] at hput
      rw [place_cons_of_none hput, place_cons_of_none hc, ih, Option.map_map, Option.map_map]
      rfl

/-- **The bins of one run are enough for another one.** If a run has added `k` fresh bins, the
same items fit without adding any when these are there before. -/
theorem exec_place_refill {put : α → β → Option β} {fresh : β} {xs : List α}
    (hrun : exec (extend put fresh) bins xs = some bins') :
    ∃ k, bins'.length = bins.length + k ∧
      exec (fun bins x => place (put x) bins) (bins ++ List.replicate k fresh) xs =
        some bins' := by
  induction xs generalizing bins with
  | nil =>
    obtain rfl := Option.some.inj hrun
    exact ⟨0, rfl, by rw [List.replicate_zero, List.append_nil, exec_nil]⟩
  | cons x xs ih =>
    obtain ⟨bins₁, hone, hrest⟩ := exec_cons_eq_some.mp hrun
    obtain ⟨k, hlength, hpack⟩ := ih hrest
    unfold extend at hone
    cases hplace : place (put x) bins with
    | some bins₂ =>
      rw [hplace] at hone
      obtain rfl := Option.some.inj hone
      refine ⟨k, by rw [hlength, place_length hplace], ?_⟩
      exact exec_cons_eq_some.mpr ⟨_, place_append_of_some hplace, hpack⟩
    | none =>
      rw [hplace] at hone
      obtain ⟨b, hput, rfl⟩ := Option.map_eq_some_iff.mp hone
      refine ⟨k + 1, by rw [hlength, List.length_append, List.length_singleton]; omega, ?_⟩
      refine exec_cons_eq_some.mpr ⟨bins ++ b :: List.replicate k fresh, ?_, ?_⟩
      · rw [place_append_of_none hplace, List.replicate_succ, place_cons_of_some hput,
          Option.map_some]
      · rwa [List.append_assoc, List.singleton_append] at hpack

end MmorpgServer.FirstFit
