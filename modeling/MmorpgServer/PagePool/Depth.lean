import MmorpgServer.PagePool.Runs

/-!
# How deep `mp_alloc` nests

`mp_alloc_large` takes the descriptor of a block from `mp_alloc`. If even a descriptor is larger
than `max`, this is a large request again, which asks for a block and a descriptor in turn. The
nesting ends when an emptied descriptor is found or the allocator fails; each level asks the
allocator once, so it ends in any case.

## Main definitions

* `deepStep` — the machine of one pool, with calls that nest as deep as they need
* `Moves`, `Keeps`, `Grows` — what an operation does to the chain of pages
* `Carried` — a relation that every operation keeps if small requests and resets do

## Main results

* `Carried.of_step` — what is kept by small requests and resets is kept by every operation
* `deepStep_moves` — every operation leaves the chain as it is, or adds one page
* `two_calls` — when two nested calls are enough
-/

namespace MmorpgServer.PagePool

open Bump Machine

variable {S : ℕ} {s s' s₁ : Sys} {pool pool' : MpPool} {size m a n fuel : ℕ}
  {fit : MpNode → Option ℕ} {alloc alloc' : Sys → ℕ → Option (Sys × ℕ)}

/-- An operation. Each nested call of `mp_alloc` asks the allocator, which answers finitely
often. -/
def deepStep (s : Sys) : Act → Option Sys
  | .alloc size => (mpAlloc (s.answers.length + 2) s size).map Prod.fst
  | .nalloc size => (mpNalloc (s.answers.length + 1) s size).map Prod.fst
  | .calloc size => (mpCalloc (s.answers.length + 2) s size).map Prod.fst
  | .memalign size alignment => (mpMemalign (s.answers.length + 1) s size alignment).map Prod.fst
  | .free a => mpFree s a
  | .reset => mpResetPool s

/-- The same with what it returns, `0` when it returns nothing. -/
def deepCall (s : Sys) : Act → Option (Sys × ℕ)
  | .alloc size => mpAlloc (s.answers.length + 2) s size
  | .nalloc size => mpNalloc (s.answers.length + 1) s size
  | .calloc size => mpCalloc (s.answers.length + 2) s size
  | .memalign size alignment => mpMemalign (s.answers.length + 1) s size alignment
  | .free a => (mpFree s a).map (·, 0)
  | .reset => (mpResetPool s).map (·, 0)

theorem deepStep_eq (s : Sys) (act : Act) : deepStep s act = (deepCall s act).map Prod.fst := by
  cases act with
  | free a =>
    rw [deepStep, deepCall, Option.map_map]
    exact (congrFun Option.map_id _).symm
  | reset =>
    rw [deepStep, deepCall, Option.map_map]
    exact (congrFun Option.map_id _).symm
  | alloc | nalloc | calloc | memalign => rfl

/-! ### What an operation does to the chain -/

/-- What the counting of failures sees of a page. -/
def mark (p : MpNode) : ℕ × ℕ := (p.addr, p.failed)

/-- The chain is as it was, but for what is free in its pages. -/
def Keeps (pool pool' : MpPool) : Prop :=
  pool'.pages.map mark = pool.pages.map mark ∧ pool'.current = pool.current ∧
    pool'.rest = pool.rest

/-- The chain has been followed to its end, where the page `node` was added. -/
def Grows (pool pool' : MpPool) (node : ℕ) : Prop :=
  pool.rest = 0 ∧ node ≠ 0 ∧ mpAlignment ∣ node ∧
    pool'.pages.map mark = (counted pool).map mark ++ [(node, 0)] ∧
    pool'.current = (if (countFailed (fromCurrent pool) pool.current).2 = 0 then node
      else (countFailed (fromCurrent pool) pool.current).2) ∧
    pool'.rest = 0

/-- What the allocator has given out is not empty, and it has not been asked more often than it
answers. -/
structure Asked (s s' : Sys) : Prop where
  answers : s'.answers.length ≤ s.answers.length
  live : ∀ r ∈ s'.live, r ∈ s.live ∨ 0 < r.len

/-- An operation adds one page at most. -/
structure Moves (s s' : Sys) : Prop where
  asked : Asked s s'
  addr : s'.pool.addr = s.pool.addr
  max : s'.pool.max = s.pool.max
  chain : Keeps s.pool s'.pool ∨ ∃ node, Grows s.pool s'.pool node

theorem Asked.refl (s : Sys) : Asked s s := ⟨le_rfl, fun _ => Or.inl⟩

theorem Asked.trans (h : Asked s s₁) (h' : Asked s₁ s') : Asked s s' where
  answers := h'.answers.trans h.answers
  live r hr := (h'.live r hr).elim (h.live r) Or.inr

/-- The pages are untouched. -/
theorem Moves.keep (hasked : Asked s s') (hpool : s'.pool = s.pool) : Moves s s' :=
  ⟨hasked, by rw [hpool], by rw [hpool], Or.inl (by rw [hpool]; exact ⟨rfl, rfl, rfl⟩)⟩

/-- The allocator is asked before an operation. -/
theorem Moves.after (h : Moves s₁ s') (hasked : Asked s s₁) (hpool : s₁.pool = s.pool) :
    Moves s s' :=
  ⟨hasked.trans h.asked, hpool ▸ h.addr, hpool ▸ h.max, hpool ▸ h.chain⟩

/-- Only descriptors change behind an operation. -/
theorem Moves.before (h : Moves s s₁) (hasked : Asked s₁ s') {large : List MpLarge}
    (hpool : s'.pool = { s₁.pool with large := large }) : Moves s s' :=
  ⟨h.asked.trans hasked, by rw [hpool]; exact h.addr, by rw [hpool]; exact h.max,
    by rw [hpool]; exact h.chain⟩

theorem request_asked {alignment : ℕ} (hreq : request s alignment size = (s', a)) :
    Asked s s' ∧ s'.pool = s.pool := by
  unfold request at hreq
  split at hreq
  · obtain ⟨rfl, -⟩ := Prod.mk.inj hreq
    exact ⟨Asked.refl s, rfl⟩
  · rename_i a' answers hanswers
    have hlength : answers.length ≤ s.answers.length := by
      rw [hanswers]
      exact Nat.le_succ _
    split_ifs at hreq
    · obtain ⟨rfl, -⟩ := Prod.mk.inj hreq
      refine ⟨⟨hlength, fun r hr => ?_⟩, rfl⟩
      rcases List.mem_cons.mp hr with rfl | hr
      · exact Or.inr (Nat.lt_of_lt_of_le Nat.one_pos (Nat.le_max_right size 1))
      · exact Or.inl hr
    · obtain ⟨rfl, -⟩ := Prod.mk.inj hreq
      exact ⟨⟨hlength, fun r => Or.inl⟩, rfl⟩

theorem posixMemalign_asked {alignment : ℕ} (hreq : posixMemalign s alignment size = (s', a)) :
    Asked s s' ∧ s'.pool = s.pool := by
  unfold posixMemalign at hreq
  split_ifs at hreq
  · exact request_asked hreq
  · obtain ⟨rfl, -⟩ := Prod.mk.inj hreq
    exact ⟨Asked.refl s, rfl⟩

theorem free_asked (hrun : free s a = some s') : Asked s s' ∧ s'.pool = s.pool := by
  unfold free at hrun
  split_ifs at hrun
  · obtain rfl := Option.some.inj hrun
    exact ⟨Asked.refl s, rfl⟩
  · obtain rfl := Option.some.inj hrun
    exact ⟨⟨le_rfl, fun r hr => Or.inl (List.mem_filter.mp hr).1⟩, rfl⟩

/-! ### What every operation is made of -/

/-- A relation between the states before and behind an operation. The allocator may be asked
before and descriptors may change behind, and in between there is a small request or a reset. -/
structure Carried (R : Sys → Sys → Prop) : Prop where
  keep : ∀ {s s'}, Asked s s' → s'.pool = s.pool → R s s'
  after : ∀ {s s₁ s'}, R s₁ s' → Asked s s₁ → s₁.pool = s.pool → R s s'
  before : ∀ {s s₁ s' large}, R s s₁ → Asked s₁ s' → s'.pool = { s₁.pool with large := large } →
    R s s'
  small : ∀ {s s' size m fit}, fit = fitAligned size ∨ fit = fitLast size → size ≤ s.pool.max →
    allocSmall fit s size = some (s', m) → R s s'
  reset : ∀ {s s'}, mpResetPool s = some s' → R s s'

section Carried

variable {R : Sys → Sys → Prop}

theorem Carried.of_addLarge (h : Carried R)
    (halloc : ∀ s' m, alloc s sizeofLarge = some (s', m) → R s s')
    (hrun : addLarge alloc s a = some (s', m)) : R s s' := by
  obtain ⟨⟨s₁, large⟩, hdesc, hrun⟩ := Option.bind_eq_some_iff.mp hrun
  have hone := halloc s₁ large hdesc
  dsimp only at hrun
  split_ifs at hrun
  · -- there is no memory for the descriptor, and the block is given back
    obtain ⟨s₂, hfree, heq⟩ := Option.bind_eq_some_iff.mp hrun
    obtain ⟨rfl, -⟩ := Prod.mk.inj (Option.some.inj heq)
    obtain ⟨hasked, hpool⟩ := free_asked hfree
    exact h.before hone hasked (show _ = { s₁.pool with large := s₁.pool.large } from hpool)
  · obtain ⟨rfl, -⟩ := Prod.mk.inj (Option.some.inj hrun)
    exact h.before hone ⟨le_rfl, fun _ => Or.inl⟩ rfl

theorem Carried.of_allocLarge (h : Carried R)
    (halloc : ∀ s s' m, alloc s sizeofLarge = some (s', m) → R s s')
    (hrun : mpAllocLarge alloc s size = some (s', m)) : R s s' := by
  unfold mpAllocLarge malloc at hrun
  cases hreq : request s 16 size with
  | mk s₁ a =>
    obtain ⟨hasked, hpool⟩ := request_asked hreq
    rw [hreq] at hrun
    dsimp only at hrun
    split_ifs at hrun
    · obtain ⟨rfl, -⟩ := Prod.mk.inj (Option.some.inj hrun)
      exact h.keep hasked hpool
    · split at hrun
      · obtain ⟨rfl, -⟩ := Prod.mk.inj (Option.some.inj hrun)
        exact h.before (h.keep hasked hpool) ⟨le_rfl, fun _ => Or.inl⟩ rfl
      · exact h.after (h.of_addLarge (halloc s₁) hrun) hasked hpool

theorem Carried.of_alloc (h : Carried R) (hrun : mpAlloc fuel s size = some (s', m)) : R s s' := by
  -- on the nesting, for the descriptor is allocated by `mp_alloc` again
  induction fuel generalizing s size s' m with
  | zero => cases hrun
  | succ fuel ih =>
    rw [mpAlloc] at hrun
    split_ifs at hrun with _ hsmall
    · obtain ⟨rfl, -⟩ := Prod.mk.inj (Option.some.inj hrun)
      exact h.keep (Asked.refl s) rfl
    · exact h.small (Or.inl rfl) hsmall hrun
    · exact h.of_allocLarge (fun s s' m hone => ih hone) hrun

theorem Carried.of_free (h : Carried R) (hrun : mpFree s a = some s') : R s s' := by
  unfold mpFree at hrun
  split at hrun
  · obtain rfl := Option.some.inj hrun
    exact h.keep (Asked.refl s) rfl
  · obtain ⟨s₁, hfree, heq⟩ := Option.bind_eq_some_iff.mp hrun
    obtain rfl := Option.some.inj heq
    obtain ⟨hasked, hpool⟩ := free_asked hfree
    exact h.before (h.keep hasked hpool) ⟨le_rfl, fun _ => Or.inl⟩ rfl

/-- What holds of small requests and resets holds of every operation. -/
theorem Carried.of_step (h : Carried R) {act : Act} (hrun : deepStep s act = some s') :
    R s s' := by
  cases act with
  | alloc size | calloc size =>
    obtain ⟨⟨s₁, m⟩, hone, rfl⟩ := Option.map_eq_some_iff.mp hrun
    exact h.of_alloc hone
  | nalloc size =>
    obtain ⟨⟨s₁, m⟩, hone, rfl⟩ := Option.map_eq_some_iff.mp hrun
    unfold mpNalloc at hone
    split_ifs at hone with hsmall
    · exact h.small (Or.inr rfl) hsmall hone
    · exact h.of_allocLarge (fun s s' m => h.of_alloc) hone
  | memalign size alignment =>
    obtain ⟨⟨s₁, m⟩, hone, rfl⟩ := Option.map_eq_some_iff.mp hrun
    unfold mpMemalign at hone
    cases hreq : posixMemalign s alignment size with
    | mk s₂ a =>
      obtain ⟨hasked, hpool⟩ := posixMemalign_asked hreq
      rw [hreq] at hone
      dsimp only at hone
      split_ifs at hone
      · obtain ⟨rfl, -⟩ := Prod.mk.inj (Option.some.inj hone)
        exact h.keep hasked hpool
      · exact h.after (h.of_addLarge (fun s' m => h.of_alloc) hone) hasked hpool
  | free a => exact h.of_free hrun
  | reset => exact h.reset hrun

end Carried

/-! ### What an operation does to the chain -/

theorem mpAllocBlock_moves (hrest : s.pool.rest = 0) (hrun : mpAllocBlock s size = some (s', m)) :
    Moves s s' := by
  obtain ⟨head, s₁, node, -, hreq, ⟨-, rfl, -⟩ | ⟨hnode, -, rfl⟩⟩ := mpAllocBlock_cases hrun
  · -- the request fails, and nothing is appended
    obtain ⟨hasked, hpool⟩ := request_asked hreq
    exact Moves.keep hasked hpool
  · obtain ⟨hasked, hpool⟩ := request_asked hreq
    have hdvd : mpAlignment ∣ node := by
      obtain ⟨answers, ⟨rfl, -⟩ | ⟨⟨-, hdvd, -⟩, -⟩⟩ := request_cases hreq
      · exact absurd rfl hnode
      · exact hdvd
    refine ⟨⟨hasked.answers, hasked.live⟩, by rw [← hpool]; rfl, by rw [← hpool]; rfl,
      Or.inr ⟨node, hrest, hnode, hdvd, ?_, ?_, rfl⟩⟩
    · rw [← hpool]
      exact List.map_append
    · rw [← hpool]
      rfl

theorem allocSmall_moves (hrun : allocSmall fit s size = some (s', m)) : Moves s s' := by
  obtain ⟨pre, q, post, -, -, hpages, rfl⟩ | ⟨hrest, hblock⟩ := allocSmall_cases hrun
  · -- a page that has room keeps its address
    refine ⟨⟨le_rfl, fun _ => Or.inl⟩, rfl, rfl, Or.inl ⟨?_, rfl, rfl⟩⟩
    rw [hpages, List.map_append, List.map_append]
    rfl
  · exact mpAllocBlock_moves hrest hblock

theorem free_all_asked {large : List MpLarge}
    (hrun : large.foldlM (fun s l => free s l.alloc) s = some s') :
    Asked s s' ∧ s'.pool = s.pool := by
  induction large generalizing s with
  | nil =>
    obtain rfl := Option.some.inj hrun
    exact ⟨Asked.refl s, rfl⟩
  | cons l large ih =>
    rw [List.foldlM_cons] at hrun
    obtain ⟨s₁, hfree, hrest⟩ := Option.bind_eq_some_iff.mp hrun
    obtain ⟨hasked, hpool⟩ := free_asked hfree
    obtain ⟨hasked', hpool'⟩ := ih hrest
    exact ⟨hasked.trans hasked', hpool'.trans hpool⟩

theorem mpResetPool_eq_some (hrun : mpResetPool s = some s') : Asked s s' ∧
    s'.pool = { s.pool with
      large := []
      pages := s.pool.pages.map fun h => { h with last := sizeT (h.addr + sizeofNode) } } := by
  obtain ⟨s₁, hfree, hrun⟩ := Option.bind_eq_some_iff.mp hrun
  obtain ⟨hasked, hpool⟩ := free_all_asked hfree
  dsimp only at hrun
  split_ifs at hrun
  · cases hrun
  obtain rfl := Option.some.inj hrun
  refine ⟨⟨hasked.answers, hasked.live⟩, ?_⟩
  rw [← hpool]

theorem mpResetPool_moves (hrun : mpResetPool s = some s') : Moves s s' := by
  obtain ⟨hasked, hpool⟩ := mpResetPool_eq_some hrun
  refine ⟨hasked, by rw [hpool], by rw [hpool], Or.inl ⟨?_, by rw [hpool], by rw [hpool]⟩⟩
  rw [hpool, List.map_map]
  rfl

theorem carried_moves : Carried Moves where
  keep := Moves.keep
  after := Moves.after
  before h hasked hpool := h.before hasked hpool
  small _ _ := allocSmall_moves
  reset := mpResetPool_moves

/-- **What an operation does to the chain.** It is as it was, or has one more page. -/
theorem deepStep_moves {act : Act} (hrun : deepStep s act = some s') : Moves s s' :=
  carried_moves.of_step hrun

/-- A chain has at most one page more behind an operation. -/
theorem Moves.length (h : Moves s s') :
    s.pool.pages.length ≤ s'.pool.pages.length ∧
      s'.pool.pages.length ≤ s.pool.pages.length + 1 := by
  rcases h.chain with ⟨hpages, -⟩ | ⟨node, -, -, -, hpages, -⟩
  · have := congrArg List.length hpages
    rw [List.length_map, List.length_map] at this
    omega
  · have hcounted := congrArg List.length (counted_addr s.pool)
    have := congrArg List.length hpages
    rw [List.length_map, List.length_append, List.length_map, List.length_singleton] at this
    rw [List.length_map, List.length_map] at hcounted
    omega

/-! ### Large requests, level by level -/

/-- An emptied descriptor is found only if there is one among those that the loop looks at. -/
theorem reuseLarge_eq_none_iff {large : List MpLarge} :
    reuseLarge a n large = none ↔ ∀ l ∈ large.take n, l.alloc ≠ 0 := by
  refine ⟨reuseLarge_eq_none, fun h => ?_⟩
  induction n generalizing large with
  | zero =>
    rw [reuseLarge]
    rintro _ _ _ hn
    cases hn
  | succ n ih =>
    cases large with
    | nil => rfl
    | cons l large =>
      rw [List.take_succ_cons] at h
      obtain ⟨hl, hlarge⟩ := List.forall_mem_cons.mp h
      rw [reuseLarge, if_neg hl, ih hlarge]
      rfl

theorem malloc_pool (s : Sys) (size : ℕ) : (malloc s size).1.pool = s.pool :=
  (request_asked (a := (malloc s size).2) Prod.mk.eta.symm).2

theorem mpAllocLarge_of_makes (h : MakesDescriptor s size) :
    mpAllocLarge alloc s size = addLarge alloc (malloc s size).1 (malloc s size).2 := by
  have hreuse : reuseLarge (malloc s size).2 5 (malloc s size).1.pool.large = none := by
    rw [malloc_pool]
    exact reuseLarge_eq_none_iff.mpr h.2
  unfold mpAllocLarge
  dsimp only
  rw [if_neg h.1, hreuse]

/-- Otherwise there is no nested call. -/
theorem mpAllocLarge_of_not (h : ¬ MakesDescriptor s size) :
    mpAllocLarge alloc s size = mpAllocLarge alloc' s size := by
  unfold mpAllocLarge
  dsimp only
  split_ifs with ha
  · rfl
  · cases hreuse : reuseLarge (malloc s size).2 5 (malloc s size).1.pool.large with
    | some large => rfl
    | none =>
      rw [malloc_pool] at hreuse
      exact absurd ⟨ha, reuseLarge_eq_none hreuse⟩ h

/-- Only the call for the descriptor matters. -/
theorem mpAllocLarge_congr (h : MakesDescriptor s size →
    alloc (malloc s size).1 sizeofLarge = alloc' (malloc s size).1 sizeofLarge) :
    mpAllocLarge alloc s size = mpAllocLarge alloc' s size := by
  by_cases hmakes : MakesDescriptor s size
  · rw [mpAllocLarge_of_makes hmakes, mpAllocLarge_of_makes hmakes]
    unfold addLarge
    rw [h hmakes]
  · exact mpAllocLarge_of_not hmakes

theorem mpAlloc_large (h : s.pool.max < size) :
    mpAlloc (fuel + 1) s size = mpAllocLarge (mpAlloc fuel) s size := by
  rw [mpAlloc, if_neg (Nat.ne_zero_of_lt h), if_neg (not_le.mpr h)]

/-! ### Two nested calls -/

/-- Two calls are enough if a descriptor is a small block, the request itself is small, or one of
the first two levels makes no descriptor. -/
theorem two_calls (k : ℕ) (hcond : sizeofLarge ≤ s.pool.max ∨ size ≤ s.pool.max ∨
    ¬ MakesDescriptor s size ∨ ¬ MakesDescriptor (malloc s size).1 sizeofLarge) :
    mpAlloc (k + 2) s size = mpAlloc 2 s size := by
  by_cases hsize : size ≤ s.pool.max
  · rw [mpAlloc, mpAlloc]
    simp only [if_pos hsize]
  · have hlarge := not_le.mp hsize
    rw [mpAlloc_large hlarge, mpAlloc_large hlarge]
    refine mpAllocLarge_congr fun hmakes => ?_
    by_cases hdesc : sizeofLarge ≤ s.pool.max
    · rw [← malloc_pool s size] at hdesc
      rw [mpAlloc, mpAlloc]
      simp only [if_pos hdesc]
    · have hdesc' : (malloc s size).1.pool.max < sizeofLarge := by
        rw [malloc_pool]
        exact not_le.mp hdesc
      rw [mpAlloc_large hdesc', mpAlloc_large hdesc']
      rcases hcond with h | h | h | h
      · exact absurd h hdesc
      · exact absurd h hsize
      · exact absurd hmakes h
      · exact mpAllocLarge_of_not h

/-- The pool that `mp_create_pool` returns. -/
theorem create_max {answers : List ℕ} {next : ℕ} (hcreate : mpCreatePool answers next S = some s) :
    s.pool.max = (if S < mpMaxAllocFromPool then S else mpMaxAllocFromPool) ∧
      ∀ r ∈ s.live, 0 < r.len := by
  obtain ⟨a, answers', -, rfl⟩ := mpCreatePool_eq_some hcreate
  refine ⟨rfl, fun r hr => ?_⟩
  obtain rfl := List.mem_singleton.mp hr
  exact Nat.lt_of_lt_of_le Nat.one_pos (Nat.le_max_right _ 1)

end MmorpgServer.PagePool
