import MmorpgServer.PagePool.Space

/-!
# Runs of the page pool

Large blocks, `mp_free` and `mp_reset_pool` move blocks between the descriptors and the
allocator; with the small blocks of `Space` this gives what every operation keeps, and so what
holds after every run in which no small request is rounded up beyond the end of its page.

## Main definitions

* `Guard` — the small request of an operation, if it makes one, is not rounded up too far
* `Safe` — the small blocks lie in their pages and are apart

## Main results

* `step_inv` — an operation keeps the invariant and does not fault
* `safe_exec` — the runs that meet the guard are safe
-/

namespace MmorpgServer.PagePool

open Bump Machine

variable {S : ℕ} {s s' : Sys} {tail blocks : List ℕ} {size m a : ℕ}
  {alloc : Sys → ℕ → Option (Sys × ℕ)}

/-- Where the descriptors are. -/
def descriptors (pool : MpPool) : List Interval := pool.large.map fun l => ⟨l.addr, sizeofLarge⟩

/-- The pool between two operations: what the allocator has given out are its regions and the
blocks that the descriptors hold. A descriptor is a small block that was handed out, and there are
none where it would be a large one. -/
structure Clean (S : ℕ) (s : Sys) : Prop where
  regions : ∃ tail, Inv S tail (nonnull s.pool.large) s
  handed : (descriptors s.pool).Sublist s.handed
  starved : s.pool.max < sizeofLarge → s.pool.large = []

/-- A block that was returned is a small one, but no descriptor, or one that a descriptor holds. -/
def Lent (s : Sys) (m size : ℕ) : Prop :=
  (⟨m, size⟩ :: descriptors s.pool).Sublist s.handed ∨
    m ∈ nonnull s.pool.large ∧ ∃ len, size ≤ len ∧ ⟨m, len⟩ ∈ s.live

/-- An operation has returned, perhaps with one descriptor more, and the pool is as between two
operations. -/
def Returns (S : ℕ) (s : Sys) (size : ℕ) (r : Option (Sys × ℕ)) : Prop :=
  ∃ s' m, r = some (s', m) ∧ Clean S s' ∧
    s'.pool.large.length ≤ s.pool.large.length + 1 ∧ (m ≠ 0 → Lent s' m size)

theorem Served.returns {r : Option (Sys × ℕ)} (h : Clean S s)
    (hserved : Served S size (nonnull s.pool.large) s r) : Returns S s size r := by
  obtain ⟨s', m, hr, hlarge, hmax, -, hhanded, tail, h'⟩ := hserved
  have hdesc : descriptors s'.pool = descriptors s.pool := by
    unfold descriptors
    rw [hlarge]
  refine ⟨s', m, hr, ⟨⟨tail, by rwa [hlarge]⟩, ?_, by rw [hmax, hlarge]; exact h.starved⟩,
    by rw [hlarge]; exact Nat.le_succ _, fun hm => ?_⟩
  · rw [hdesc]
    rcases hhanded with ⟨hsame, -⟩ | ⟨hmore, -⟩
    · rw [hsame]
      exact h.handed
    · rw [hmore]
      exact h.handed.trans (List.sublist_cons_self _ _)
  · rcases hhanded with ⟨-, hzero⟩ | ⟨hmore, -⟩
    · exact absurd hzero hm
    · left
      rw [hdesc, hmore]
      exact h.handed.cons_cons _

/-! ### Descriptors -/

theorem nonnull_cons_of_ne {l : MpLarge} {large : List MpLarge} (h : l.alloc ≠ 0) :
    nonnull (l :: large) = l.alloc :: nonnull large := by
  unfold nonnull
  rw [List.map_cons, List.filter_cons_of_pos (by simpa using h)]

theorem nonnull_cons_of_eq {l : MpLarge} {large : List MpLarge} (h : l.alloc = 0) :
    nonnull (l :: large) = nonnull large := by
  unfold nonnull
  rw [List.map_cons, List.filter_cons_of_neg (by simpa using h)]

/-- Replacing one descriptor's block. -/
theorem nonnull_cons_congr {l : MpLarge} {large large' : List MpLarge} (xs ys : List ℕ)
    (h : (xs ++ nonnull large).Perm (ys ++ nonnull large')) :
    (xs ++ nonnull (l :: large)).Perm (ys ++ nonnull (l :: large')) := by
  by_cases hl : l.alloc = 0
  · rwa [nonnull_cons_of_eq hl, nonnull_cons_of_eq hl]
  · rw [nonnull_cons_of_ne hl, nonnull_cons_of_ne hl]
    exact List.perm_middle.trans ((h.cons l.alloc).trans List.perm_middle.symm)

/-- An empty descriptor takes the new block. -/
theorem reuseLarge_perm (ha : a ≠ 0) {n : ℕ} {large large' : List MpLarge}
    (h : reuseLarge a n large = some large') :
    (a :: nonnull large).Perm (nonnull large') := by
  induction n generalizing large large' with
  | zero =>
    rw [reuseLarge] at h
    · cases h
    · rintro _ _ _ hn
      cases hn
  | succ n ih =>
    cases large with
    | nil => cases h
    | cons l large =>
      rw [reuseLarge] at h
      split_ifs at h with hl
      · obtain rfl := Option.some.inj h
        rw [nonnull_cons_of_eq hl, nonnull_cons_of_ne ha]
      · obtain ⟨large'', hrest, rfl⟩ := Option.map_eq_some_iff.mp h
        exact nonnull_cons_congr [a] [] (ih hrest)

/-- No descriptor is empty among those that the loop looks at. -/
theorem reuseLarge_eq_none {n : ℕ} {large : List MpLarge} (h : reuseLarge a n large = none) :
    ∀ l ∈ large.take n, l.alloc ≠ 0 := by
  induction n generalizing large with
  | zero => simp
  | succ n ih =>
    cases large with
    | nil => simp
    | cons l large =>
      rw [reuseLarge] at h
      split_ifs at h with hl
      rw [List.take_succ_cons]
      exact List.forall_mem_cons.mpr ⟨hl, ih (Option.map_eq_none_iff.mp h)⟩

/-- The descriptor of the block is emptied. -/
theorem clearLarge_perm {large large' : List MpLarge} (h : clearLarge a large = some large') :
    (a = 0 ∧ nonnull large' = nonnull large) ∨
      (a ≠ 0 ∧ (nonnull large).Perm (a :: nonnull large')) := by
  induction large generalizing large' with
  | nil => cases h
  | cons l large ih =>
    rw [clearLarge] at h
    split_ifs at h with hl
    · obtain rfl := Option.some.inj h
      by_cases ha : a = 0
      · refine Or.inl ⟨ha, ?_⟩
        rw [nonnull_cons_of_eq (hl.trans ha), nonnull_cons_of_eq rfl]
      · refine Or.inr ⟨ha, ?_⟩
        rw [nonnull_cons_of_ne (by rwa [hl]), nonnull_cons_of_eq rfl, hl]
    · obtain ⟨large'', hrest, rfl⟩ := Option.map_eq_some_iff.mp h
      rcases ih hrest with ⟨ha, heq⟩ | ⟨ha, hperm⟩
      · refine Or.inl ⟨ha, ?_⟩
        unfold nonnull at heq ⊢
        rw [List.map_cons, List.map_cons, List.filter_cons, List.filter_cons, heq]
      · exact Or.inr ⟨ha, nonnull_cons_congr [] [a] hperm⟩

/-- Looking for a descriptor moves none. -/
theorem reuseLarge_addr {n : ℕ} {large large' : List MpLarge}
    (h : reuseLarge a n large = some large') : large'.map (·.addr) = large.map (·.addr) := by
  induction n generalizing large large' with
  | zero =>
    rw [reuseLarge] at h
    · cases h
    · rintro _ _ _ hn
      cases hn
  | succ n ih =>
    cases large with
    | nil => cases h
    | cons l large =>
      rw [reuseLarge] at h
      split_ifs at h
      · obtain rfl := Option.some.inj h
        rfl
      · obtain ⟨large'', hrest, rfl⟩ := Option.map_eq_some_iff.mp h
        rw [List.map_cons, List.map_cons, ih hrest]

theorem clearLarge_addr {large large' : List MpLarge} (h : clearLarge a large = some large') :
    large'.map (·.addr) = large.map (·.addr) := by
  induction large generalizing large' with
  | nil => cases h
  | cons l large ih =>
    rw [clearLarge] at h
    split_ifs at h
    · obtain rfl := Option.some.inj h
      rfl
    · obtain ⟨large'', hrest, rfl⟩ := Option.map_eq_some_iff.mp h
      rw [List.map_cons, List.map_cons, ih hrest]

/-- Descriptors that hold other blocks are where they were. -/
theorem descriptors_congr {pool : MpPool} {large : List MpLarge}
    (haddrs : large.map (·.addr) = pool.large.map (·.addr)) :
    descriptors { pool with large := large } = descriptors pool := by
  have hmap : ∀ l : List MpLarge, (l.map fun l => (⟨l.addr, sizeofLarge⟩ : Interval)) =
      (l.map (·.addr)).map fun a => ⟨a, sizeofLarge⟩ := fun l => by
    rw [List.map_map]
    rfl
  unfold descriptors
  rw [hmap, hmap, haddrs]

/-! ### Large blocks -/

/-- Where descriptors are large blocks, each level of `mp_alloc` asks for one more block, until the
allocator fails; then all of them are given back. -/
theorem starves {fuel : ℕ} (hmax : s.pool.max < sizeofLarge) (hlarge : s.pool.large = [])
    (hsound : ∀ r ∈ s.live, 0 < r.len) (hfuel : s.answers.length < fuel) :
    ∃ answers, mpAlloc fuel s sizeofLarge = some ({ s with answers := answers }, 0) := by
  induction fuel generalizing s with
  | zero => exact absurd hfuel (Nat.not_lt_zero _)
  | succ fuel ih =>
    rw [mpAlloc, if_neg (by decide), if_neg (not_le.mpr hmax)]
    unfold mpAllocLarge malloc
    cases hreq : request s 16 sizeofLarge with
    | mk s₁ a =>
      dsimp only
      by_cases ha : a = 0
      · obtain ⟨answers, ⟨-, rfl⟩ | ⟨⟨hpos, -⟩, -⟩⟩ := request_cases hreq
        · rw [if_pos ha]
          exact ⟨answers, rfl⟩
        · exact absurd ha hpos.ne'
      · obtain ⟨hanswers, hlive, hpool, hfresh⟩ := request_given hreq ha
        have hnew := hfresh.not_mem hsound
        rw [hanswers, List.length_cons] at hfuel
        -- the descriptor of this block is a block that cannot get one
        obtain ⟨answers, hone⟩ := ih (s := s₁) (by rwa [hpool]) (by rwa [hpool]) (by
          rw [hlive]
          exact List.forall_mem_cons.mpr
            ⟨Nat.lt_of_lt_of_le Nat.one_pos (Nat.le_max_right _ 1), hsound⟩) (by omega)
        have hreuse : reuseLarge a 5 s₁.pool.large = none := by
          rw [hpool, hlarge]
          rfl
        rw [if_neg ha, hreuse]
        refine ⟨answers, ?_⟩
        unfold addLarge
        rw [hone]
        simp only [Option.bind_eq_bind, Option.bind_some]
        rw [if_pos trivial, free_first (s := { s₁ with answers := answers }) hlive ha hnew,
          Option.bind_some]
        have hhanded := (request_keeps hreq).1
        rw [← hpool, ← hhanded]
        rfl

/-- The allocator has been asked before. -/
theorem Returns.after {s₁ : Sys} {r : Option (Sys × ℕ)} (h : Returns S s₁ size r)
    (hpool : s₁.pool = s.pool) : Returns S s size r := by
  obtain ⟨s', m, hr, hclean, hlength, hlent⟩ := h
  exact ⟨s', m, hr, hclean, hpool ▸ hlength, hlent⟩

/-- A descriptor for a block that the allocator has just given out. -/
theorem addLarge_inv {len : ℕ} (ha : a ≠ 0) (h : (descriptors s.pool).Sublist s.handed)
    (hnone : s.pool.max < sizeofLarge → s.pool.large = []) (hlen : size ≤ len)
    (hlive : ⟨a, len⟩ ∈ s.live)
    (halloc : Served S sizeofLarge (a :: nonnull s.pool.large) s (alloc s sizeofLarge)) :
    Returns S s size (addLarge alloc s a) := by
  -- the descriptor is a small block, so it may come with a new page
  obtain ⟨s₁, large, hr, hlarge, hmax, hsub, hhanded, tail, h₁⟩ := halloc
  have hdesc : descriptors s₁.pool = descriptors s.pool := by
    unfold descriptors
    rw [hlarge]
  unfold addLarge
  rw [hr]
  simp only [Option.bind_eq_bind, Option.bind_some]
  by_cases hzero : large = 0
  · rw [if_pos hzero]
    -- the block is given back
    obtain ⟨s₂, hfree, h₂, hpool, hsame⟩ := free_inv h₁ ha
    rw [hfree]
    refine ⟨s₂, 0, rfl, ⟨⟨tail, by rwa [hpool, hlarge]⟩, ?_, ?_⟩, ?_, fun hne => absurd rfl hne⟩
    · rw [hpool, hdesc, hsame]
      rcases hhanded with ⟨heq, -⟩ | ⟨heq, -⟩
      · rwa [heq]
      · rw [heq]
        exact h.trans (List.sublist_cons_self _ _)
    · rw [hpool, hmax, hlarge]
      exact hnone
    · rw [hpool, hlarge]
      exact Nat.le_succ _
  · rw [if_neg hzero]
    obtain ⟨-, heq⟩ | ⟨hmore, hsmall⟩ := hhanded
    · exact absurd heq hzero
    · have hcons : descriptors { s₁.pool with large := ⟨large, a⟩ :: s₁.pool.large } =
          ⟨large, sizeofLarge⟩ :: descriptors s₁.pool := rfl
      refine ⟨_, a, rfl, ⟨⟨tail, ?_⟩, ?_, fun hlt => ?_⟩, ?_, fun _ => Or.inr ⟨?_, len, hlen,
        hsub hlive⟩⟩
      · dsimp only
        rw [nonnull_cons_of_ne ha, hlarge]
        exact { h₁ with }
      · dsimp only
        rw [hcons, hdesc, hmore]
        exact h.cons_cons _
      · exact absurd (hmax ▸ hlt) (not_lt.mpr hsmall)
      · dsimp only
        rw [List.length_cons, hlarge]
      · dsimp only
        rw [nonnull_cons_of_ne ha]
        exact List.mem_cons_self

/-- A descriptor is a small block of `mp_alloc`, if there can be any. -/
theorem mpAlloc_descriptor {n : ℕ} (h : Inv S tail blocks s)
    (hround : sizeofLarge ≤ s.pool.max → RoundsInside s.pool sizeofLarge)
    (hnone : s.pool.max < sizeofLarge → s.pool.large = [] ∧ s.answers.length < n + 1) :
    Served S sizeofLarge blocks s (mpAlloc (n + 1) s sizeofLarge) := by
  by_cases hmax : sizeofLarge ≤ s.pool.max
  · rw [mpAlloc, if_neg (by decide), if_pos hmax]
    exact allocSmall_aligned h hmax (hround hmax)
  · obtain ⟨hlarge, hfuel⟩ := hnone (not_le.mp hmax)
    obtain ⟨answers, hone⟩ :=
      starves (not_le.mp hmax) hlarge (fun r hr => (h.sound r hr).2.1) hfuel
    exact ⟨_, 0, hone, rfl, rfl, List.Subset.refl _, Or.inl ⟨rfl, rfl⟩, tail, { h with }⟩

/-- The condition under which `mp_alloc_large` makes a descriptor. -/
def MakesDescriptor (s : Sys) (size : ℕ) : Prop :=
  (malloc s size).2 ≠ 0 ∧ ∀ l ∈ s.pool.large.take 5, l.alloc ≠ 0

theorem mpAllocLarge_inv {n : ℕ} (h : Clean S s)
    (hround : sizeofLarge ≤ s.pool.max → MakesDescriptor s size →
      RoundsInside s.pool sizeofLarge)
    (hdeep : s.pool.max < sizeofLarge → s.answers.length < n + 2) :
    Returns S s size (mpAllocLarge (mpAlloc (n + 1)) s size) := by
  obtain ⟨⟨tail, hinv⟩, hhanded, hnone⟩ := h
  unfold MakesDescriptor malloc at hround
  unfold mpAllocLarge malloc
  cases hreq : request s 16 size with
  | mk s₁ a =>
    rw [hreq] at hround
    have hsame := (request_keeps hreq).1
    obtain ⟨hpool, ⟨rfl, h₁⟩ | ⟨ha, h₁, -, -, hlive, -⟩⟩ := request_inv hinv hreq
    · exact ⟨s₁, 0, if_pos rfl, ⟨⟨tail, by rwa [hpool]⟩, by rwa [hpool, hsame], by rwa [hpool]⟩,
        by rw [hpool]; exact Nat.le_succ _, fun hne => absurd rfl hne⟩
    · dsimp only
      rw [if_neg ha]
      cases hreuse : reuseLarge a 5 s₁.pool.large with
      | some large =>
        have hperm := reuseLarge_perm ha hreuse
        rw [hpool] at hperm
        have haddrs := reuseLarge_addr hreuse
        refine ⟨_, a, rfl, ⟨⟨tail, { h₁.perm hperm with }⟩, ?_, fun hlt => ?_⟩, ?_, fun _ =>
          Or.inr ⟨?_, _, Nat.le_max_left size 1, hlive⟩⟩
        · dsimp only
          rw [descriptors_congr haddrs, hpool, hsame]
          exact hhanded
        · -- there is no descriptor to be found
          rw [hpool, hnone (hpool ▸ hlt)] at hreuse
          cases hreuse
        · have hlength := congrArg List.length haddrs
          rw [List.length_map, List.length_map, hpool] at hlength
          dsimp only
          omega
        · exact hperm.subset List.mem_cons_self
      | none =>
        have hfull := reuseLarge_eq_none hreuse
        obtain ⟨hanswers, -⟩ := request_given hreq ha
        refine (addLarge_inv ha (by rwa [hpool, hsame]) (by rwa [hpool]) (Nat.le_max_left size 1)
          hlive ?_).after hpool
        rw [hpool] at hfull ⊢
        refine mpAlloc_descriptor h₁ ?_ ?_
        · rw [hpool]
          exact fun hmax => hround hmax ⟨ha, hfull⟩
        · rw [hpool]
          refine fun hlt => ⟨hnone hlt, ?_⟩
          have hlength := hdeep hlt
          rw [hanswers, List.length_cons] at hlength
          omega

/-! ### The operations -/

theorem returns_null (h : Clean S s) : Returns S s size (some (s, 0)) :=
  ⟨s, 0, rfl, h, Nat.le_succ _, fun hne => absurd rfl hne⟩

theorem mpAlloc_inv {n : ℕ} (h : Clean S s)
    (hsmall : 0 < size → size ≤ s.pool.max → RoundsInside s.pool size)
    (hlarge : s.pool.max < size → sizeofLarge ≤ s.pool.max → MakesDescriptor s size →
      RoundsInside s.pool sizeofLarge)
    (hdeep : s.pool.max < sizeofLarge → s.answers.length < n + 2) :
    Returns S s size (mpAlloc (n + 2) s size) := by
  rw [mpAlloc]
  split_ifs with hzero hmax
  · exact returns_null h
  · obtain ⟨tail, hinv⟩ := h.regions
    exact (allocSmall_aligned hinv hmax (hsmall (Nat.pos_of_ne_zero hzero) hmax)).returns h
  · exact mpAllocLarge_inv h (hlarge (not_le.mp hmax)) hdeep

theorem mpNalloc_inv {n : ℕ} (h : Clean S s)
    (hlarge : s.pool.max < size → sizeofLarge ≤ s.pool.max → MakesDescriptor s size →
      RoundsInside s.pool sizeofLarge)
    (hdeep : s.pool.max < sizeofLarge → s.answers.length < n + 2) :
    Returns S s size (mpNalloc (n + 1) s size) := by
  unfold mpNalloc
  split_ifs with hmax
  · obtain ⟨tail, hinv⟩ := h.regions
    exact (allocSmall_last hinv hmax).returns h
  · exact mpAllocLarge_inv h (hlarge (not_le.mp hmax)) hdeep

theorem mpMemalign_inv {n alignment : ℕ} (h : Clean S s)
    (hround : sizeofLarge ≤ s.pool.max → (posixMemalign s alignment size).2 ≠ 0 →
      RoundsInside s.pool sizeofLarge)
    (hdeep : s.pool.max < sizeofLarge → s.answers.length < n + 2) :
    Returns S s size (mpMemalign (n + 1) s size alignment) := by
  obtain ⟨tail, hinv⟩ := h.regions
  unfold mpMemalign
  unfold posixMemalign at hround ⊢
  split_ifs at hround ⊢ with halign
  · cases hreq : request s alignment size with
    | mk s₁ a =>
      rw [hreq] at hround
      have hsame := (request_keeps hreq).1
      obtain ⟨hpool, ⟨rfl, h₁⟩ | ⟨ha, h₁, -, -, hlive, -⟩⟩ := request_inv hinv hreq
      · exact ⟨s₁, 0, if_pos rfl, ⟨⟨tail, by rwa [hpool]⟩, by rw [hpool, hsame]; exact h.handed,
          by rw [hpool]; exact h.starved⟩, by rw [hpool]; exact Nat.le_succ _,
          fun hne => absurd rfl hne⟩
      · dsimp only
        rw [if_neg ha]
        obtain ⟨hanswers, -⟩ := request_given hreq ha
        refine (addLarge_inv ha (by rw [hpool, hsame]; exact h.handed)
          (by rw [hpool]; exact h.starved) (Nat.le_max_left size 1) hlive ?_).after hpool
        rw [hpool]
        refine mpAlloc_descriptor h₁ ?_ ?_
        · rw [hpool]
          exact fun hmax => hround hmax ha
        · rw [hpool]
          refine fun hlt => ⟨h.starved hlt, ?_⟩
          have hlength := hdeep hlt
          rw [hanswers, List.length_cons] at hlength
          omega
  · exact returns_null h

theorem mpFree_inv (h : Clean S s) : ∃ s', mpFree s a = some s' ∧ Clean S s' ∧
    s'.pool.large.length = s.pool.large.length := by
  obtain ⟨tail, hinv⟩ := h.regions
  unfold mpFree
  cases hclear : clearLarge a s.pool.large with
  | none => exact ⟨s, rfl, h, rfl⟩
  | some large =>
    have hlength := congrArg List.length (clearLarge_addr hclear)
    rw [List.length_map, List.length_map] at hlength
    have hdesc : descriptors { s.pool with large := large } = descriptors s.pool :=
      descriptors_congr (clearLarge_addr hclear)
    have hnone : s.pool.max < sizeofLarge → large = [] := fun hlt => by
      rw [h.starved hlt] at hclear
      cases hclear
    rcases clearLarge_perm hclear with ⟨rfl, heq⟩ | ⟨ha, hperm⟩
    · -- `free(NULL)`
      refine ⟨{ s with pool := { s.pool with large := large } }, rfl, ⟨⟨tail, ?_⟩, ?_, hnone⟩,
        hlength⟩
      · dsimp only
        rw [heq]
        exact { hinv with }
      · dsimp only
        rw [hdesc]
        exact h.handed
    · -- the descriptor gives up its block, and the allocator takes it back
      obtain ⟨s₁, hfree, h₁, hpool, hsame⟩ := free_inv (hinv.perm hperm) ha
      refine ⟨{ s₁ with pool := { s₁.pool with large := large } }, ?_,
        ⟨⟨tail, { h₁ with }⟩, ?_, ?_⟩, hlength⟩
      · dsimp only
        rw [hfree]
        rfl
      · dsimp only
        rw [hpool, hdesc, hsame]
        exact h.handed
      · dsimp only
        rw [hpool]
        exact hnone

/-- The first loop of `mp_reset_pool` gives all blocks back. -/
theorem free_all {large : List MpLarge} (h : Inv S tail (nonnull large) s) :
    ∃ s', large.foldlM (fun s l => free s l.alloc) s = some s' ∧ Inv S tail [] s' ∧
      s'.pool = s.pool ∧ s'.handed = s.handed := by
  induction large generalizing s with
  | nil => exact ⟨s, rfl, h, rfl, rfl⟩
  | cons l large ih =>
    rw [List.foldlM_cons]
    by_cases hl : l.alloc = 0
    · rw [nonnull_cons_of_eq hl] at h
      obtain ⟨s', hrest, h', hpool, hhanded⟩ := ih h
      refine ⟨s', ?_, h', hpool, hhanded⟩
      unfold free
      rw [if_pos hl]
      exact hrest
    · rw [nonnull_cons_of_ne hl] at h
      obtain ⟨s₁, hfree, h₁, hpool₁, hhanded₁⟩ := free_inv h hl
      obtain ⟨s', hrest, h', hpool, hhanded⟩ := ih h₁
      refine ⟨s', ?_, h', hpool.trans hpool₁, hhanded.trans hhanded₁⟩
      rw [hfree]
      exact hrest

theorem mpResetPool_inv (h : Clean S s) : ∃ s', mpResetPool s = some s' ∧ Clean S s' ∧
    s'.pool.large = [] := by
  obtain ⟨tail, hinv⟩ := h.regions
  obtain ⟨s₁, hfree, h₁, -, -⟩ := free_all hinv
  unfold mpResetPool
  rw [hfree]
  simp only [Option.bind_eq_bind, Option.bind_some]
  rw [if_neg (by rw [h₁.rest]; exact fun hne => hne rfl)]
  -- `last` is set behind the header, which does not wrap
  have hlow : s₁.pool.pages.map (fun p => { p with last := sizeT (p.addr + sizeofNode) }) =
      s₁.pool.pages.map fun p => { p with last := p.addr + sizeofNode } := by
    apply List.map_congr_left
    intro p hp
    obtain ⟨hlast, hend⟩ := h₁.bounds hp
    rw [sizeT_of_le ((hlast.trans hend).trans (h₁.end_le hp))]
  refine ⟨_, rfl, ⟨⟨tail, ?_⟩, List.Sublist.refl _, fun _ => rfl⟩, rfl⟩
  dsimp only
  rw [hlow]
  refine { h₁ with packed := ?_, frame := ?_, current := ?_ }
  · have := h₁.packed.reset
    rw [List.map_map] at this ⊢
    exact this
  · have := h₁.frame
    dsimp only
    rw [List.map_map]
    exact this
  · have := h₁.current
    dsimp only
    rw [List.map_map]
    exact this

/-! ### Runs -/

/-- The small request that an operation makes, its own or that for a descriptor, does not round
up beyond the end of the page that takes it. Blocks of `mp_nalloc` are not rounded. -/
def Guard (s : Sys) : Act → Prop
  | .alloc size | .calloc size =>
    (0 < size → size ≤ s.pool.max → RoundsInside s.pool size) ∧
      (s.pool.max < size → sizeofLarge ≤ s.pool.max → MakesDescriptor s size →
        RoundsInside s.pool sizeofLarge)
  | .nalloc size =>
    s.pool.max < size → sizeofLarge ≤ s.pool.max → MakesDescriptor s size →
      RoundsInside s.pool sizeofLarge
  | .memalign size alignment =>
    sizeofLarge ≤ s.pool.max → (posixMemalign s alignment size).2 ≠ 0 →
      RoundsInside s.pool sizeofLarge
  | .free _ | .reset => True

instance (s : Sys) (size : ℕ) : Decidable (MakesDescriptor s size) :=
  inferInstanceAs (Decidable (_ ∧ _))

instance (s : Sys) : (act : Act) → Decidable (Guard s act)
  | .alloc _ | .calloc _ => inferInstanceAs (Decidable (_ ∧ _))
  | .nalloc _ => inferInstanceAs (Decidable (_ → _))
  | .memalign _ _ => inferInstanceAs (Decidable (_ → _))
  | .free _ | .reset => inferInstanceAs (Decidable True)

theorem Returns.clean {r : Option (Sys × ℕ)} (h : Returns S s size r) :
    ∃ s', r.map Prod.fst = some s' ∧ Clean S s' := by
  obtain ⟨s', m, rfl, h', -, -⟩ := h
  exact ⟨s', rfl, h'⟩

/-- An operation keeps the invariant and does not fault. -/
theorem step_inv {act : Act} (hS : 16 ≤ S) (hguard : Guard s act) (h : Clean S s) :
    ∃ s', step s act = some s' ∧ Clean S s' := by
  have hmax : ∀ {n : ℕ}, s.pool.max < sizeofLarge → s.answers.length < n := fun hlt => by
    obtain ⟨tail, hinv⟩ := h.regions
    rw [hinv.max] at hlt
    exact absurd (sizeofLarge_le_maxOf.mpr hS) (not_le.mpr hlt)
  cases act with
  | alloc size | calloc size => exact (mpAlloc_inv h hguard.1 hguard.2 hmax).clean
  | nalloc size => exact (mpNalloc_inv h hguard hmax).clean
  | memalign size alignment => exact (mpMemalign_inv h hguard hmax).clean
  | free a =>
    obtain ⟨s', hrun, h', -⟩ := mpFree_inv (a := a) h
    exact ⟨s', hrun, h'⟩
  | reset =>
    obtain ⟨s', hrun, h', -⟩ := mpResetPool_inv h
    exact ⟨s', hrun, h'⟩

/-- A pool that has just been created. -/
theorem mpCreatePool_inv {answers : List ℕ} (hsize : S + 56 < 2 ^ 64)
    (hcreate : mpCreatePool answers 0 S = some s) : Clean S s := by
  obtain ⟨a, answers', ⟨hpos, -, hle, -⟩, rfl⟩ := mpCreatePool_eq_some hcreate
  have hbytes : sizeT (S + sizeofPool + sizeofNode) = 56 + S := by
    unfold sizeT sizeofPool sizeofNode
    omega
  have hmax : Nat.max (56 + S) 1 = 56 + S := Nat.max_eq_left (by omega)
  rw [hbytes, hmax] at hle
  have hlast : sizeT (a + sizeofPool + sizeofNode) = a + 56 :=
    sizeT_of_le (by unfold sizeofPool sizeofNode; omega)
  have hend : sizeT (a + 56 + S) = a + 56 + S := sizeT_of_le (by omega)
  refine ⟨⟨[], ?_⟩, List.Sublist.refl _, fun _ => rfl⟩
  unfold created
  rw [hlast, hend, hbytes, hmax]
  refine ⟨?_, rfl, List.mem_singleton_self _, ?_, List.Perm.refl _, ?_, ?_, rfl, ?_, rfl⟩
  · refine ⟨?_, List.pairwise_singleton _ _, ?_, List.Pairwise.nil⟩
    · intro p hp
      obtain rfl := List.mem_singleton.mp hp
      exact ⟨le_rfl, Nat.le_add_right _ _⟩
    · exact fun _ hb => absurd hb List.not_mem_nil
  · exact fun _ hb => absurd hb List.not_mem_nil
  · exact List.pairwise_singleton _ _
  · intro r hr
    obtain rfl := List.mem_singleton.mp hr
    exact ⟨hpos, by dsimp only; omega, hle⟩
  · exact List.mem_singleton_self _

/-- Every small block lies between the header and the end of a page, no page is filled beyond
its end, and no two blocks overlap. -/
structure Safe (s : Sys) : Prop where
  inside : ∀ b ∈ s.handed, ∃ p ∈ s.pool.pages, p.addr + sizeofNode ≤ b.lo ∧ b.lo + b.len ≤ p.end_
  last_le : ∀ p ∈ s.pool.pages, p.last ≤ p.end_
  disjoint : s.handed.Pairwise Apart

theorem Clean.safe (h : Clean S s) : Safe s := by
  obtain ⟨tail, h⟩ := h.regions
  refine ⟨fun b hb => ?_, fun p hp => (h.bounds hp).2, h.packed.apart⟩
  obtain ⟨q, hq, hlo, hhi⟩ := h.packed.within hb
  obtain ⟨p, hp, rfl⟩ := List.mem_map.mp hq
  exact ⟨p, hp, hlo, hhi⟩

/-- **Block safety.** A run whose small requests are not rounded up beyond the end of their
page completes, and its blocks are safe. -/
theorem safe_exec {answers : List ℕ} {s₀ : Sys} {acts : List Act} (hS : 16 ≤ S)
    (hsize : S + 56 < 2 ^ 64) (hcreate : mpCreatePool answers 0 S = some s₀)
    (hguard : Guarded step Guard s₀ acts) : ∃ s, exec step s₀ acts = some s ∧ Safe s := by
  obtain ⟨s, hrun, h⟩ := exec_progress_of_guarded (I := Clean S)
    (fun _ _ hguard h => step_inv hS hguard h) hguard (mpCreatePool_inv hsize hcreate)
  exact ⟨s, hrun, h.safe⟩

/-- Pages of 64 bytes, a small block and a large one. -/
theorem safe_exec_two : ∃ s₀ s, mpCreatePool [4096, 8192] 0 64 = some s₀ ∧
    exec step s₀ [.alloc 8, .alloc 100] = some s ∧ Safe s := by
  obtain ⟨s₀, hcreate, hguard⟩ : ∃ s₀, mpCreatePool [4096, 8192] 0 64 = some s₀ ∧
      Guarded step Guard s₀ [.alloc 8, .alloc 100] := by
    refine ⟨_, rfl, .cons ?_ rfl (.cons ?_ rfl trivial)⟩
    · exact ⟨fun _ _ => by decide, fun hlarge => absurd hlarge (by decide)⟩
    · exact ⟨fun _ hsmall => absurd hsmall (by decide), fun _ _ _ => by decide⟩
  obtain ⟨s, hrun, hsafe⟩ := safe_exec (by decide) (by decide) hcreate hguard
  exact ⟨s₀, s, hcreate, hrun, hsafe⟩

/-- In a page of 16 bytes, the second block of one byte is placed behind the end of the page. -/
theorem not_safe_two_bytes : ¬ ∀ (S : ℕ) (answers : List ℕ) (s₀ s : Sys) (acts : List Act),
    16 ≤ S → mpCreatePool answers 0 S = some s₀ → exec step s₀ acts = some s → Safe s := by
  intro h
  obtain ⟨s₀, s, hcreate, hrun, p, hp, hover⟩ : ∃ s₀ s, mpCreatePool [4096] 0 16 = some s₀ ∧
      exec step s₀ [.alloc 1, .alloc 1] = some s ∧ ∃ p ∈ s.pool.pages, p.end_ < p.last :=
    ⟨_, _, rfl, rfl, _, List.mem_cons_self, by decide⟩
  exact absurd ((h 16 [4096] s₀ s _ (by decide) hcreate hrun).last_le p hp)
    (Nat.not_le.mpr hover)

end MmorpgServer.PagePool
