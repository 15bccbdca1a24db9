import MmorpgServer.Lib.Bump
import MmorpgServer.Lib.ByteMemory
import Mathlib.Data.List.Pairwise

/-!
# Words in a memory of bytes

What a program keeps in memory is a list of words, each of them an address and what it holds. A
program that changes some words leaves the others, as long as no two of them overlap, so that what
was proved of a few words holds of them among all the others.

## Main definitions

* `Holds` — the words are in memory
* `Spaced` — no two words overlap
* `Edits` — only some words have changed, and what they hold now
* `addresses` — the words of an area

## Main results

* `Edits.embed` — the other words are as before
* `Holds.store`, `Holds.paste` — what is written
* `spaced_of_areas` — the words of areas that are apart do not overlap
-/

namespace MmorpgServer.Words

open Bump ByteMemory

/-- An address and the number that is there -/
abbrev Word := ℕ × ℕ

variable {n a v size : ℕ} {mem mem' mem'' contents : Memory} {w : Word}
  {ws ws' ws'' xs ys : List Word}

/-- The words are in memory. -/
def Holds (n : ℕ) (mem : Memory) (ws : List Word) : Prop := ∀ w ∈ ws, load mem n w.1 = w.2

/-- No two words overlap. -/
def Spaced (n : ℕ) (ws : List Word) : Prop :=
  ws.Pairwise fun v w => v.1 + n ≤ w.1 ∨ w.1 + n ≤ v.1

theorem holds_append : Holds n mem (xs ++ ys) ↔ Holds n mem xs ∧ Holds n mem ys :=
  List.forall_mem_append

theorem Holds.subset (h : Holds n mem ws) (hsub : ws' ⊆ ws) : Holds n mem ws' :=
  fun w hw => h w (hsub hw)

/-- What a word holds fits into it. -/
theorem Holds.lt (h : Holds n mem ws) (hw : w ∈ ws) : w.2 < 256 ^ n := by
  rw [← h w hw]
  exact load_lt

/-- Only the addresses matter. -/
theorem spaced_congr (haddrs : ws'.map Prod.fst = ws.map Prod.fst) :
    Spaced n ws' ↔ Spaced n ws := by
  have hpairs : ∀ l : List Word,
      Spaced n l ↔ (l.map Prod.fst).Pairwise fun a b => a + n ≤ b ∨ b + n ≤ a :=
    fun l => (List.pairwise_map (R := fun a b => a + n ≤ b ∨ b + n ≤ a)).symm
  rw [hpairs, hpairs, haddrs]

theorem Spaced.of_append (h : Spaced n (xs ++ ys)) :
    Spaced n xs ∧ Spaced n ys ∧ ∀ x ∈ xs, ∀ y ∈ ys, x.1 + n ≤ y.1 ∨ y.1 + n ≤ x.1 :=
  List.pairwise_append.mp h

/-- The words `ws` hold `ws'` now, and everything else is as before. -/
structure Edits (n : ℕ) (mem : Memory) (ws : List Word) (mem' : Memory) (ws' : List Word) :
    Prop where
  holds : Holds n mem' ws'
  addrs : ws'.map Prod.fst = ws.map Prod.fst
  frame : ∀ b, (∀ w ∈ ws, b < w.1 ∨ w.1 + n ≤ b) → mem' b = mem b

theorem Edits.refl (h : Holds n mem ws) : Edits n mem ws mem ws := ⟨h, rfl, fun _ _ => rfl⟩

/-- A byte is outside words if it is outside words at the same addresses. -/
theorem outside_congr (haddrs : ws'.map Prod.fst = ws.map Prod.fst) {b : ℕ}
    (h : ∀ w ∈ ws, b < w.1 ∨ w.1 + n ≤ b) : ∀ w ∈ ws', b < w.1 ∨ w.1 + n ≤ b := by
  intro w hw
  have hmem : w.1 ∈ ws.map Prod.fst := haddrs ▸ List.mem_map_of_mem hw
  obtain ⟨w', hw', heq⟩ := List.mem_map.mp hmem
  exact heq ▸ h w' hw'

theorem Edits.trans (h : Edits n mem ws mem' ws') (h' : Edits n mem' ws' mem'' ws'') :
    Edits n mem ws mem'' ws'' where
  holds := h'.holds
  addrs := h'.addrs.trans h.addrs
  frame b hb := (h'.frame b (outside_congr h.addrs hb)).trans (h.frame b hb)

/-- Words that do not overlap those that have changed. -/
theorem Edits.kept (h : Edits n mem ws mem' ws') (hold : Holds n mem ys)
    (hapart : ∀ w ∈ ws, ∀ y ∈ ys, w.1 + n ≤ y.1 ∨ y.1 + n ≤ w.1) : Holds n mem' ys := by
  intro y hy
  rw [← hold y hy]
  refine load_congr fun b hle hlt => h.frame b fun w hw => ?_
  rcases hapart w hw y hy with hw | hy
  · exact Or.inr (hw.trans hle)
  · exact Or.inl (by omega)

/-- The frame rule: some words among others have changed, and the others have not. -/
theorem Edits.embed (h : Edits n mem ws mem' ws') (hold : Holds n mem (xs ++ (ws ++ ys)))
    (hspaced : Spaced n (xs ++ (ws ++ ys))) :
    Edits n mem (xs ++ (ws ++ ys)) mem' (xs ++ (ws' ++ ys)) := by
  obtain ⟨hxs, hrest⟩ := holds_append.mp hold
  obtain ⟨-, hys⟩ := holds_append.mp hrest
  obtain ⟨-, hspaced', hbefore⟩ := hspaced.of_append
  obtain ⟨-, -, hbehind⟩ := hspaced'.of_append
  refine ⟨holds_append.mpr ⟨h.kept hxs fun w hw x hx => ?_,
    holds_append.mpr ⟨h.holds, h.kept hys hbehind⟩⟩, ?_, fun b hb => ?_⟩
  · exact Or.symm (hbefore x hx w (List.mem_append_left ys hw))
  · simp only [List.map_append, h.addrs]
  · exact h.frame b fun w hw => hb w (List.mem_append_right xs (List.mem_append_left ys hw))

/-- One word is written. -/
theorem edits_store (hv : v < 256 ^ n) (old : ℕ) :
    Edits n mem [(a, old)] (store mem n a v) [(a, v)] where
  holds := List.forall_mem_singleton.mpr (load_store.trans (Nat.mod_eq_of_lt hv))
  addrs := rfl
  frame _ hb := store_outside (hb _ List.mem_cons_self)

/-- One word among others is written. -/
theorem Holds.store {old : ℕ} (h : Holds n mem (xs ++ (a, old) :: ys))
    (hspaced : Spaced n (xs ++ (a, old) :: ys)) (hv : v < 256 ^ n) :
    Edits n mem (xs ++ (a, old) :: ys) (store mem n a v) (xs ++ (a, v) :: ys) :=
  (edits_store hv old).embed h hspaced

/-- Memory behind or before the words gets other contents. -/
theorem Holds.paste (h : Holds n mem ws) (hapart : ∀ w ∈ ws, w.1 + n ≤ a ∨ a + size ≤ w.1) :
    Holds n (paste mem contents a size) ws := by
  intro w hw
  rw [← h w hw]
  refine load_congr fun b hle hlt => if_neg ?_
  rcases hapart w hw with hw | hw <;> omega

/-! ### Areas -/

/-- Where the words of an area are. -/
def addresses (n : ℕ) (r : Interval) : List ℕ := (List.range (r.len / n)).map fun i => r.lo + n * i

theorem addresses_bounds {r : Interval} (h : a ∈ addresses n r) :
    r.lo ≤ a ∧ a + n ≤ r.lo + r.len := by
  obtain ⟨i, hi, rfl⟩ := List.mem_map.mp h
  have hlast : n * (i + 1) ≤ r.len :=
    (Nat.mul_le_mul_left n (List.mem_range.mp hi)).trans (Nat.mul_div_le r.len n)
  rw [Nat.mul_succ] at hlast
  omega

/-- The words of areas that are apart do not overlap. -/
theorem spaced_of_areas {areas : List Interval}
    (haddrs : ws.map Prod.fst = areas.flatMap (addresses n)) (hapart : areas.Pairwise Apart) :
    Spaced n ws := by
  have hpairs : (ws.map Prod.fst).Pairwise fun a b => a + n ≤ b ∨ b + n ≤ a := by
    rw [haddrs, List.pairwise_flatMap]
    refine ⟨fun r _ => ?_, hapart.imp fun {r q} hrq a ha b hb => ?_⟩
    · unfold addresses
      refine List.pairwise_map.mpr (List.pairwise_lt_range.imp fun {i j} hij => Or.inl ?_)
      have hle : n * (i + 1) ≤ n * j := Nat.mul_le_mul_left n hij
      rw [Nat.mul_succ] at hle
      omega
    · have ha' := addresses_bounds ha
      have hb' := addresses_bounds hb
      unfold Apart at hrq
      omega
  exact List.pairwise_map.mp hpairs

end MmorpgServer.Words
