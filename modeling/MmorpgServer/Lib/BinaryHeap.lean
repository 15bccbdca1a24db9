import Mathlib.Logic.Equiv.Basic
import Mathlib.Order.Lattice

/-!
# Heap order around a hole

The keys of a binary heap are a function of the position, the children of `i` are `2i + 1`
and `2i + 2`. While a key sifts, every pair of parent and child is in order but those that
touch one position, the hole, and the children of the hole are in order with its parent.

## Main definitions

* `Ordered` — the heap order on the first `n` positions
* `OffHole` — the order away from the hole
* `Below`, `Above` — the hole is in order with its children, with its parent

## Main results

* `OffHole.down`, `OffHole.up` — exchanging the hole with its least child, or its parent
* `OffHole.ordered` — the end of a sift
* `Ordered.offHole`, `Ordered.offHole_last` — the start: a key replaced, or appended
* `Ordered.root_le` — the root is least
-/

namespace MmorpgServer.BinaryHeap

variable {κ : Type*} [LinearOrder κ] {key key' : ℕ → κ} {n hole c : ℕ}

/-- The position of the parent. -/
def parent (i : ℕ) : ℕ := (i - 1) / 2

/-- `i` is a child of `p`. The root is no child, although it is its own `parent`. -/
def IsChild (i p : ℕ) : Prop := 0 < i ∧ parent i = p

theorem isChild_iff {i p : ℕ} : IsChild i p ↔ i = 2 * p + 1 ∨ i = 2 * p + 2 := by
  unfold IsChild parent
  omega

theorem IsChild.lt {i p : ℕ} (h : IsChild i p) : p < i := by
  rcases isChild_iff.mp h with rfl | rfl <;> omega

theorem isChild_parent {i : ℕ} (h : 0 < i) : IsChild i (parent i) := ⟨h, rfl⟩

/-- The heap order on the first `n` positions. -/
def Ordered (key : ℕ → κ) (n : ℕ) : Prop :=
  ∀ i p, IsChild i p → i < n → key p ≤ key i

/-- The hole is in order with its children. -/
def Below (key : ℕ → κ) (n hole : ℕ) : Prop :=
  ∀ i, IsChild i hole → i < n → key hole ≤ key i

/-- The hole is in order with its parent. -/
def Above (key : ℕ → κ) (hole : ℕ) : Prop :=
  ∀ p, IsChild hole p → key p ≤ key hole

/-- The order away from the hole. -/
structure OffHole (key : ℕ → κ) (n hole : ℕ) : Prop where
  except : ∀ i p, IsChild i p → i < n → i ≠ hole → p ≠ hole → key p ≤ key i
  grand : ∀ i p, IsChild i hole → i < n → IsChild hole p → key p ≤ key i

/-- The end of a sift. -/
theorem OffHole.ordered (h : OffHole key n hole) (hbelow : Below key n hole)
    (habove : Above key hole) : Ordered key n := by
  intro i p hchild hi
  by_cases hp : p = hole
  · subst hp
    exact hbelow i hchild hi
  by_cases hh : i = hole
  · subst hh
    exact habove p hchild
  exact h.except i p hchild hi hh hp

/-- The root is least. -/
theorem Ordered.root_le (h : Ordered key n) {i : ℕ} (hi : i < n) : key 0 ≤ key i := by
  induction i using Nat.strong_induction_on with
  | _ i ih =>
    rcases Nat.eq_zero_or_pos i with rfl | hpos
    · exact le_rfl
    · have hchild := isChild_parent hpos
      have hlt := hchild.lt
      exact (ih (parent i) hlt (by omega)).trans (h i (parent i) hchild hi)

/-- A heap with one key replaced. -/
theorem Ordered.offHole {m : ℕ} (h : Ordered key n) (hm : m ≤ n) (hhole : hole < m)
    (hkey : ∀ i < m, i ≠ hole → key' i = key i) : OffHole key' m hole where
  except i p hchild hi hih hph := by
    have := hchild.lt
    rw [hkey i hi hih, hkey p (by omega) hph]
    exact h i p hchild (by omega)
  grand i p hchild hi hparent := by
    have hlt := hchild.lt
    have hlt' := hparent.lt
    -- the old key of the hole stood between its parent and its child
    rw [hkey i hi (by omega), hkey p (by omega) (by omega)]
    exact (h hole p hparent (by omega)).trans (h i hole hchild (by omega))

/-- A heap with one key appended: the hole at the end has no children. -/
theorem Ordered.offHole_last (h : Ordered key n) (hkey : ∀ i < n, key' i = key i) :
    OffHole key' (n + 1) n ∧ Below key' (n + 1) n := by
  refine ⟨⟨fun i p hchild hi hin hpn => ?_, fun i p hchild hi _ => ?_⟩, fun i hchild hi => ?_⟩
  · have := hchild.lt
    rw [hkey i (by omega), hkey p (by omega)]
    exact h i p hchild (by omega)
  · have := hchild.lt
    omega
  · have := hchild.lt
    omega

/-- Exchange the hole with its least child: the child's position is in order with its new
parent, whatever was above the hole. -/
theorem OffHole.down (h : OffHole key n hole) (hchild : IsChild c hole) (hc : c < n)
    (hmin : ∀ i, IsChild i hole → i < n → key c ≤ key i) (hlt : key c < key hole) :
    OffHole (key ∘ Equiv.swap hole c) n c ∧ Above (key ∘ Equiv.swap hole c) c := by
  have hne : hole < c := hchild.lt
  have hother : ∀ i, i ≠ hole → i ≠ c → (key ∘ Equiv.swap hole c) i = key i := fun i hi hi' =>
    congrArg key (Equiv.swap_apply_of_ne_of_ne hi hi')
  have hhole : (key ∘ Equiv.swap hole c) hole = key c := congrArg key (Equiv.swap_apply_left _ _)
  have hchild' : (key ∘ Equiv.swap hole c) c = key hole :=
    congrArg key (Equiv.swap_apply_right _ _)
  refine ⟨⟨fun i p hip hi hic hpc => ?_, fun i p hic hi hcp => ?_⟩, fun p hcp => ?_⟩
  · have hlti := hip.lt
    by_cases hih : i = hole
    · subst hih
      -- the child's key is now below the parent of the hole: the order across the hole
      rw [hhole, hother p (by omega) hpc]
      exact h.grand c p hchild hc hip
    · rw [hother i hih hic]
      by_cases hph : p = hole
      · subst hph
        rw [hhole]
        -- a sibling of `c`
        exact hmin i hip hi
      · rw [hother p hph hpc]
        exact h.except i p hip hi hih hph
  · have hlti := hic.lt
    obtain rfl : hole = p := hchild.2.symm.trans hcp.2
    -- the new hole is `c`, and its parent holds what was the key of `c`
    rw [hhole, hother i (by omega) (by omega)]
    exact h.except i c hic hi (by omega) (by omega)
  · obtain rfl : hole = p := hchild.2.symm.trans hcp.2
    rw [hhole, hchild']
    exact hlt.le

/-- Exchange the hole with its parent: the parent's position is in order with its new
children. -/
theorem OffHole.up (h : OffHole key n hole) (hbelow : Below key n hole) (hhole : hole < n)
    {p : ℕ} (hparent : IsChild hole p) (hlt : key hole < key p) :
    OffHole (key ∘ Equiv.swap p hole) n p ∧ Below (key ∘ Equiv.swap p hole) n p := by
  have hne : p < hole := hparent.lt
  have hother : ∀ i, i ≠ p → i ≠ hole → (key ∘ Equiv.swap p hole) i = key i := fun i hi hi' =>
    congrArg key (Equiv.swap_apply_of_ne_of_ne hi hi')
  have hkeyp : (key ∘ Equiv.swap p hole) p = key hole := congrArg key (Equiv.swap_apply_left _ _)
  have hkeyh : (key ∘ Equiv.swap p hole) hole = key p := congrArg key (Equiv.swap_apply_right _ _)
  refine ⟨⟨fun i q hiq hi hip hqp => ?_, fun i q hip hi hpq => ?_⟩, fun i hip hi => ?_⟩
  · -- the old hole is not the child of this pair, since its parent is the new hole
    have hih : i ≠ hole := by
      rintro rfl
      exact hqp (hiq.2.symm.trans hparent.2)
    rw [hother i hip hih]
    by_cases hqh : q = hole
    · subst hqh
      rw [hkeyh]
      exact h.grand i p hiq hi hparent
    · rw [hother q hqp hqh]
      exact h.except i q hiq hi hih hqh
  · have hltq := hpq.lt
    -- the pair above the new hole was in order, and the grandparent keeps its key
    have hpq' : key q ≤ key p := h.except p q hpq (by omega) (by omega) (by omega)
    rw [hother q (by omega) (by omega)]
    by_cases hih : i = hole
    · subst hih
      rw [hkeyh]
      exact hpq'
    · have hlti := hip.lt
      rw [hother i (by omega) hih]
      exact hpq'.trans (h.except i p hip hi hih (by omega))
  · rw [hkeyp]
    by_cases hih : i = hole
    · subst hih
      rw [hkeyh]
      exact hlt.le
    · have hlti := hip.lt
      rw [hother i (by omega) hih]
      -- a sibling of the old hole was in order with the larger key
      exact hlt.le.trans (h.except i p hip hi hih (by omega))

end MmorpgServer.BinaryHeap
