import MmorpgServer.PagePool.Pages

/-!
# Requests that fail

A large request asks for a block, for a descriptor and perhaps for a page to take the descriptor
from. When one of these fails, what came before it is undone, and the pool is as it was. A block is
never placed at address `0`, which would be a failure to the caller, while the pages are filled
within their ends.

## Main definitions

* `Act.asks` — the operation is a request
* `Undone` — a result `NULL` leaves no trace

## Main results

* `allocSmall_undone`, `addLarge_undone`, `mpAllocLarge_undone` — the parts of a request
* `deepCall_undone` — every request
-/

namespace MmorpgServer.PagePool

open Bump Machine

variable {S : ℕ} {s s' s₁ : Sys} {q : MpNode} {fit : MpNode → Option ℕ} {tail blocks : List ℕ}
  {size m a fuel : ℕ} {alloc : Sys → ℕ → Option (Sys × ℕ)}

/-- A request, which returns a block or `NULL`. -/
def Act.asks : Act → Prop
  | .alloc _ | .nalloc _ | .calloc _ | .memalign _ _ => True
  | .free _ | .reset => False

/-- If the result is `NULL`, the pool is as it was, and nothing has been allocated. -/
def Undone (s : Sys) (r : Option (Sys × ℕ)) : Prop :=
  ∀ s', r = some (s', 0) → s'.pool = s.pool ∧ s'.live = s.live

theorem undone_same (s : Sys) : Undone s (some (s, 0)) := by
  intro s' hrun
  obtain ⟨rfl, -⟩ := Prod.mk.inj (Option.some.inj hrun)
  exact ⟨rfl, rfl⟩

/-! ### Small requests -/

/-- No page places a block at address `0`. -/
theorem Inv.fit_ne_zero (h : Inv S tail blocks s) (hq : q ∈ s.pool.pages)
    (hfit : fit = fitAligned size ∨ fit = fitLast size) : fit q ≠ some 0 := by
  intro hplace
  obtain ⟨hlow, hlast⟩ := h.bounds hq
  have hend := h.end_le hq
  unfold sizeofNode at hlow
  rcases fit_place hfit hplace with hzero | hzero
  · have := (le_mpAlignPtr (hlast.trans hend)).1
    omega
  · omega

/-- A small request that returns `NULL` leaves no trace. -/
theorem allocSmall_undone (h : Inv S tail blocks s)
    (hfit : fit = fitAligned size ∨ fit = fitLast size) : Undone s (allocSmall fit s size) := by
  intro s' hrun
  obtain ⟨pre, q, post, -, hplace, hpages, -⟩ | ⟨-, hblock⟩ := allocSmall_cases hrun
  -- a page that has room does not return `NULL`
  · refine absurd hplace (h.fit_ne_zero ?_ hfit)
    rw [hpages]
    exact List.mem_append_right _ List.mem_cons_self
  · obtain ⟨-, hpool, hlive⟩ | ⟨head, node, -, ⟨hpos, hdvd, hhalf, -⟩, hm, -⟩ :=
      mpAllocBlock_given hblock
    · exact ⟨hpool, hlive⟩
    · -- a page in the lower half of the address space is nowhere near its end
      unfold mpAlignPtr sizeT mpAlignment sizeofNode at hm
      omega

/-! ### Large requests -/

/-- What the allocator does not give it has not given. -/
theorem request_failed {alignment : ℕ} (hreq : request s alignment size = (s', 0)) :
    s'.pool = s.pool ∧ s'.live = s.live := by
  obtain ⟨answers, ⟨-, rfl⟩ | ⟨⟨hpos, -⟩, -⟩⟩ := request_cases hreq
  · exact ⟨rfl, rfl⟩
  · exact absurd hpos (Nat.lt_irrefl 0)

/-- A descriptor for a block that has just been given out. -/
theorem addLarge_undone {len : ℕ} (hsmall : Undone s₁ (alloc s₁ sizeofLarge))
    (hpool : s₁.pool = s.pool) (hlive : s₁.live = ⟨a, len⟩ :: s.live) (ha : a ≠ 0)
    (hnew : a ∉ s.live.map (·.lo)) : Undone s (addLarge alloc s₁ a) := by
  intro s' hrun
  obtain ⟨⟨s₂, large⟩, hdesc, hrun⟩ := Option.bind_eq_some_iff.mp hrun
  dsimp only at hrun
  split_ifs at hrun with hlarge
  · -- the descriptor fails, and the block is given back
    obtain ⟨hpool₂, hlive₂⟩ := hsmall s₂ (hlarge ▸ hdesc)
    rw [free_first (hlive₂.trans hlive) ha hnew] at hrun
    obtain ⟨rfl, -⟩ := Prod.mk.inj (Option.some.inj hrun)
    exact ⟨hpool₂.trans hpool, rfl⟩
  · exact absurd (Prod.mk.inj (Option.some.inj hrun)).2 ha

/-- A descriptor is a small block. -/
theorem mpAlloc_descriptor_undone (h : Inv S tail blocks s) (hS : 16 ≤ S) :
    Undone s (mpAlloc (fuel + 1) s sizeofLarge) := by
  rw [mpAlloc, if_neg (by decide), if_pos (by rw [h.max]; exact sizeofLarge_le_maxOf.mpr hS)]
  exact allocSmall_undone h (Or.inl rfl)

/-- A descriptor for the block that a request got. -/
theorem requested_undone {alignment : ℕ} (h : Inv S tail blocks s) (hS : 16 ≤ S) (ha : a ≠ 0)
    (hreq : request s alignment size = (s₁, a)) :
    Undone s (addLarge (mpAlloc (fuel + 1)) s₁ a) := by
  obtain ⟨-, hlive, hpool, hfresh⟩ := request_given hreq ha
  obtain ⟨-, ⟨hzero, -⟩ | ⟨-, h₁, -⟩⟩ := request_inv h hreq
  · exact absurd hzero ha
  · exact addLarge_undone (mpAlloc_descriptor_undone h₁ hS) hpool hlive ha
      (hfresh.not_mem fun r hr => (h.sound r hr).2.1)

theorem mpAllocLarge_undone (h : Inv S tail blocks s) (hS : 16 ≤ S) :
    Undone s (mpAllocLarge (mpAlloc (fuel + 1)) s size) := by
  unfold mpAllocLarge malloc
  cases hreq : request s 16 size with
  | mk s₁ a =>
    dsimp only
    split_ifs with ha
    · intro s' hrun
      obtain ⟨rfl, -⟩ := Prod.mk.inj (Option.some.inj hrun)
      exact request_failed (ha ▸ hreq)
    · split
      · exact fun s' hrun => absurd (Prod.mk.inj (Option.some.inj hrun)).2 ha
      · exact requested_undone h hS ha hreq

theorem mpMemalign_undone {alignment : ℕ} (h : Inv S tail blocks s) (hS : 16 ≤ S) :
    Undone s (mpMemalign (fuel + 1) s size alignment) := by
  unfold mpMemalign posixMemalign
  split_ifs
  · cases hreq : request s alignment size with
    | mk s₁ a =>
      dsimp only
      split_ifs with ha
      · intro s' hrun
        obtain ⟨rfl, -⟩ := Prod.mk.inj (Option.some.inj hrun)
        exact request_failed (ha ▸ hreq)
      · exact requested_undone h hS ha hreq
  · -- the alignment is refused
    exact undone_same s

/-! ### Every request -/

/-- **A request that fails leaves no trace.** -/
theorem deepCall_undone {act : Act} (h : Clean S s) (hS : 16 ≤ S) (hasks : act.asks) :
    Undone s (deepCall s act) := by
  obtain ⟨tail, hinv⟩ := h.regions
  have hsmall : ∀ {fuel size : ℕ}, Undone s (mpAlloc (fuel + 2) s size) := fun {fuel size} => by
    rw [mpAlloc]
    split_ifs
    · exact undone_same s
    · exact allocSmall_undone hinv (Or.inl rfl)
    · exact mpAllocLarge_undone hinv hS
  cases act with
  | alloc size | calloc size => exact hsmall
  | nalloc size =>
    unfold deepCall mpNalloc
    dsimp only
    split_ifs
    · exact allocSmall_undone hinv (Or.inr rfl)
    · exact mpAllocLarge_undone hinv hS
  | memalign size alignment => exact mpMemalign_undone hinv hS
  | free a | reset => exact absurd hasks not_false

end MmorpgServer.PagePool
