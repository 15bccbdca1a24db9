import Mathlib.Data.List.Basic
import Mathlib.Order.Nat
import Mathlib.Tactic.Tauto

/-!
# Bump allocation on pages

An allocator hands out blocks of memory from pages, each of which is filled from its first
usable address upwards. The pages are apart from each other, and a new block begins where the
blocks of its page end or later, so no two blocks overlap.

## Main definitions

* `Interval`, `Apart` — stretches of memory without a common address
* `Page` — the first usable address, the end of the blocks so far, the end of the page
* `Packed` — the blocks lie in the pages and are apart

## Main results

* `Packed.place`, `Packed.addPage`, `Packed.reset` — the operations of such an allocator
-/

namespace MmorpgServer.Bump

/-- The addresses from `lo` on, `len` of them. -/
structure Interval where
  lo : ℕ
  len : ℕ
  deriving DecidableEq

/-- One interval ends before the other begins. -/
def Apart (a b : Interval) : Prop := a.lo + a.len ≤ b.lo ∨ b.lo + b.len ≤ a.lo

instance : DecidableRel Apart := fun a b =>
  inferInstanceAs (Decidable (a.lo + a.len ≤ b.lo ∨ b.lo + b.len ≤ a.lo))

theorem Apart.symm {a b : Interval} (h : Apart a b) : Apart b a := Or.symm h

instance : Std.Symm Apart := ⟨fun _ _ => Apart.symm⟩

/-- One interval lies in another. -/
def Inside (a b : Interval) : Prop := b.lo ≤ a.lo ∧ a.lo + a.len ≤ b.lo + b.len

theorem Inside.refl (a : Interval) : Inside a a := ⟨le_rfl, le_rfl⟩

/-- What lies in intervals that are apart is apart. -/
theorem Apart.mono {a b c d : Interval} (h : Apart c d) (hac : Inside a c) (hbd : Inside b d) :
    Apart a b :=
  Or.imp (fun hle => hac.2.trans (hle.trans hbd.1)) (fun hle => hbd.2.trans (hle.trans hac.1)) h

/-- A page that is filled from `lo` upwards and is full up to `last`. -/
structure Page where
  lo : ℕ
  last : ℕ
  stop : ℕ
  deriving DecidableEq

/-- The pages, and with them all that is ever placed in them, are apart. -/
def PagesApart (p q : Page) : Prop := p.stop ≤ q.lo ∨ q.stop ≤ p.lo

/-- The blocks lie in the filled parts of pages that are apart, and are apart themselves. -/
structure Packed (pages : List Page) (blocks : List Interval) : Prop where
  bounds : ∀ p ∈ pages, p.lo ≤ p.last ∧ p.last ≤ p.stop
  pages_apart : pages.Pairwise PagesApart
  inside : ∀ b ∈ blocks, ∃ p ∈ pages, p.lo ≤ b.lo ∧ b.lo + b.len ≤ p.last
  apart : blocks.Pairwise Apart

variable {pages pre post : List Page} {blocks : List Interval} {p q : Page} {m n : ℕ}

/-- Every block lies in a page. -/
theorem Packed.within (h : Packed pages blocks) {b : Interval} (hb : b ∈ blocks) :
    ∃ p ∈ pages, p.lo ≤ b.lo ∧ b.lo + b.len ≤ p.stop := by
  obtain ⟨p, hp, hlo, hhi⟩ := h.inside b hb
  exact ⟨p, hp, hlo, hhi.trans (h.bounds p hp).2⟩

/-- Place a block in a page, behind those that are there. -/
theorem Packed.place (h : Packed (pre ++ p :: post) blocks) (hlast : p.last ≤ m)
    (hfit : m + n ≤ p.stop) :
    Packed (pre ++ { p with last := m + n } :: post) (⟨m, n⟩ :: blocks) := by
  obtain ⟨hlo, hstop⟩ := h.bounds p (by simp)
  have hmem : ∀ q, q ∈ pre ++ { p with last := m + n } :: post →
      q = { p with last := m + n } ∨ q ∈ pre ∨ q ∈ post := by
    intro q hq
    simp only [List.mem_append, List.mem_cons] at hq
    tauto
  obtain ⟨hpre, hrest, hcross⟩ := List.pairwise_append.mp h.pages_apart
  obtain ⟨hp, hpost⟩ := List.pairwise_cons.mp hrest
  refine ⟨fun q hq => ?_, ?_, fun b hb => ?_, List.pairwise_cons.mpr ⟨fun b hb => ?_, h.apart⟩⟩
  · rcases hmem q hq with rfl | hq | hq
    · dsimp only
      omega
    · exact h.bounds q (List.mem_append_left _ hq)
    · exact h.bounds q (List.mem_append_right _ (List.mem_cons_of_mem p hq))
  · -- only `last` changed, which `PagesApart` does not mention
    refine List.pairwise_append.mpr ⟨hpre, List.pairwise_cons.mpr ⟨hp, hpost⟩, ?_⟩
    intro a ha b hb
    rcases List.mem_cons.mp hb with rfl | hb
    · exact hcross a ha p List.mem_cons_self
    · exact hcross a ha b (List.mem_cons_of_mem p hb)
  · rcases List.mem_cons.mp hb with rfl | hb
    · exact ⟨{ p with last := m + n }, by simp, hlo.trans hlast, le_rfl⟩
    · obtain ⟨q, hq, hqlo, hqhi⟩ := h.inside b hb
      simp only [List.mem_append, List.mem_cons] at hq
      rcases hq with hq | rfl | hq
      · exact ⟨q, by simp [hq], hqlo, hqhi⟩
      · exact ⟨{ q with last := m + n }, by simp, hqlo,
          hqhi.trans (hlast.trans (Nat.le_add_right m n))⟩
      · exact ⟨q, by simp [hq], hqlo, hqhi⟩
  · -- an older block lies below the new one or in another page
    obtain ⟨q, hq, hqlo, hqhi⟩ := h.inside b hb
    obtain ⟨-, hqstop⟩ := h.bounds q hq
    simp only [List.mem_append, List.mem_cons] at hq
    have hother : PagesApart q p → Apart ⟨m, n⟩ b := by
      unfold Apart
      rintro (hbefore | hbehind)
      · right
        dsimp only
        omega
      · left
        dsimp only
        omega
    rcases hq with hq | rfl | hq
    · exact hother (hcross q hq p List.mem_cons_self)
    · exact Or.inr (hqhi.trans hlast)
    · exact hother (Or.symm (hp q hq))

/-- A further page. -/
theorem Packed.addPage (h : Packed pages blocks) (hbounds : p.lo ≤ p.last ∧ p.last ≤ p.stop)
    (hapart : ∀ q ∈ pages, PagesApart q p) : Packed (pages ++ [p]) blocks where
  bounds q hq := by
    rcases List.mem_append.mp hq with hq | hq
    · exact h.bounds q hq
    · rwa [List.mem_singleton.mp hq]
  pages_apart := by
    refine List.pairwise_append.mpr ⟨h.pages_apart, List.pairwise_singleton _ p, ?_⟩
    intro q hq r hr
    rw [List.mem_singleton.mp hr]
    exact hapart q hq
  inside b hb := by
    obtain ⟨q, hq, hin⟩ := h.inside b hb
    exact ⟨q, List.mem_append_left _ hq, hin⟩
  apart := h.apart

/-- Empty all pages. -/
theorem Packed.reset (h : Packed pages blocks) :
    Packed (pages.map fun p => { p with last := p.lo }) [] where
  bounds q hq := by
    obtain ⟨p, hp, rfl⟩ := List.mem_map.mp hq
    obtain ⟨hlo, hhi⟩ := h.bounds p hp
    exact ⟨le_rfl, hlo.trans hhi⟩
  pages_apart := List.pairwise_map.mpr h.pages_apart
  inside _ hb := absurd hb List.not_mem_nil
  apart := List.Pairwise.nil

end MmorpgServer.Bump
