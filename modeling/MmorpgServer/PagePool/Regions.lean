import MmorpgServer.PagePool.Depth

/-!
# The regions of a page pool

What the system allocator has given to a pool is the pool's own region, the further pages, and
the large blocks that its descriptors hold. This holds for pools of every size, also where
`mp_alloc` nests deeper than twice because a descriptor is a large block itself.

## Main definitions

* `Regions` — the regions of the allocator, and what the pool knows of them
* `Serves` — a request returns, and the regions are accounted for

## Main results

* `mpAlloc_regions` — `mp_alloc` at any depth
* `deepStep_regions` — no operation faults, and each keeps the account
-/

namespace MmorpgServer.PagePool

open Bump Machine

variable {S p : ℕ} {s s' : Sys} {tail blocks others : List ℕ} {size m a fuel : ℕ}
  {fit : MpNode → Option ℕ} {alloc : Sys → ℕ → Option (Sys × ℕ)}

/-- The pool at `p` has the further pages `tail`. The allocator has given out the pool, these
pages, and `blocks`. -/
structure Regions (p : ℕ) (tail blocks : List ℕ) (s : Sys) : Prop where
  addr : s.pool.addr = p
  pages : s.pool.pages.map (·.addr) = (p + sizeofPool) :: tail
  owned : (s.live.map (·.lo)).Perm (p :: tail ++ blocks)
  nodup : (s.live.map (·.lo)).Nodup
  sound : ∀ r ∈ s.live, 0 < r.lo ∧ 0 < r.len
  current : s.pool.current ∈ s.pool.pages.map (·.addr)
  rest : s.pool.rest = 0

theorem Regions.perm {blocks' : List ℕ} (h : Regions p tail blocks s)
    (hperm : blocks.Perm blocks') : Regions p tail blocks' s :=
  { h with owned := h.owned.trans (hperm.append_left _) }

theorem Regions.bases_nodup (h : Regions p tail blocks s) : (p :: tail ++ blocks).Nodup :=
  h.owned.nodup_iff.mp h.nodup

/-- A block is not `NULL`. -/
theorem Regions.ne_zero (h : Regions p tail blocks s) (ha : a ∈ p :: tail ++ blocks) : a ≠ 0 := by
  obtain ⟨r, hr, rfl⟩ := List.mem_map.mp (h.owned.mem_iff.mpr ha)
  exact (h.sound r hr).1.ne'

/-! ### The system allocator -/

/-- A request fails, or adds a region. -/
theorem request_regions (h : Regions p tail blocks s) {alignment : ℕ}
    (hreq : request s alignment size = (s', a)) :
    s'.pool = s.pool ∧
      ((a = 0 ∧ Regions p tail blocks s') ∨ (a ≠ 0 ∧ Regions p tail (a :: blocks) s')) := by
  obtain ⟨answers, ⟨rfl, rfl⟩ | ⟨hfresh, rfl⟩⟩ := request_cases hreq
  · exact ⟨rfl, Or.inl ⟨rfl, { h with }⟩⟩
  · have hlen : 0 < Nat.max size 1 := Nat.lt_of_lt_of_le Nat.one_pos (Nat.le_max_right size 1)
    have hnew := hfresh.not_mem fun r hr => (h.sound r hr).2
    have hpos := hfresh.1
    refine ⟨rfl, Or.inr ⟨hpos.ne', { h with owned := ?_, nodup := ?_, sound := ?_ }⟩⟩
    · exact (h.owned.cons a).trans List.perm_middle.symm
    · exact List.nodup_cons.mpr ⟨hnew, h.nodup⟩
    · exact List.forall_mem_cons.mpr ⟨⟨hpos, hlen⟩, h.sound⟩

/-- `free` takes the region of a block out. -/
theorem free_live (hnodup : (s.live.map (·.lo)).Nodup) (ha : a ∈ s.live.map (·.lo)) (hne : a ≠ 0) :
    ∃ s', free s a = some s' ∧ s'.pool = s.pool ∧
      s'.live.map (·.lo) = (s.live.map (·.lo)).erase a ∧ ∀ r ∈ s'.live, r ∈ s.live := by
  refine ⟨{ s with live := s.live.filter fun r => r.lo ≠ a }, ?_, rfl, ?_, fun r hr =>
    (List.mem_filter.mp hr).1⟩
  · unfold free
    rw [if_neg hne, if_pos ha]
  · dsimp only
    rw [hnodup.erase_eq_filter, List.filter_map]
    congr 2
    funext r
    simp [bne, beq_eq_decide]

theorem free_regions (h : Regions p tail (a :: blocks) s) :
    ∃ s', free s a = some s' ∧ s'.pool = s.pool ∧ Regions p tail blocks s' := by
  have hmem : a ∈ p :: tail ++ a :: blocks := List.mem_append_right _ List.mem_cons_self
  obtain ⟨s', hfree, hpool, hlive, hsub⟩ := free_live h.nodup (h.owned.mem_iff.mpr hmem)
    (h.ne_zero hmem)
  refine ⟨s', hfree, hpool, ?_⟩
  refine ⟨by rw [hpool]; exact h.addr, by rw [hpool]; exact h.pages, ?_, ?_, fun r hr =>
    h.sound r (hsub r hr), by rw [hpool]; exact h.current, by rw [hpool]; exact h.rest⟩
  · rw [hlive]
    have hperm := (h.owned.trans List.perm_middle).erase a
    rwa [List.erase_cons_head] at hperm
  · rw [hlive]
    exact h.nodup.erase a

/-! ### Small blocks -/

theorem mpAllocBlock_regions (h : Regions p tail blocks s) :
    ∃ s' m new, mpAllocBlock s size = some (s', m) ∧ s'.pool.large = s.pool.large ∧
      Regions p (tail ++ new) blocks s' := by
  obtain ⟨head, pages, hpages⟩ := exists_cons_of_current h.current
  unfold mpAllocBlock
  rw [hpages, List.head?_cons]
  simp only [Option.bind_eq_bind, Option.bind_some, posixMemalign_page]
  cases hreq : request s mpAlignment (ptrDiff head.end_ head.addr) with
  | mk s₁ node =>
    obtain ⟨hpool, ⟨rfl, h₁⟩ | ⟨hnode, h₁⟩⟩ := request_regions h hreq
    · rw [if_pos rfl]
      exact ⟨s₁, 0, [], rfl, by rw [hpool], by rwa [List.append_nil]⟩
    · dsimp only
      rw [if_neg hnode]
      refine ⟨_, _, [node], rfl, by rw [hpool], ?_⟩
      have haddrs : (counted s₁.pool).map (·.addr) = (p + sizeofPool) :: tail := by
        rw [counted_addr, h₁.pages]
      have hcurrent := current_counted h₁.current
      rw [← counted_addr] at hcurrent
      refine { h₁ with pages := ?_, owned := ?_, current := ?_, rest := rfl }
      · change List.map MpNode.addr (counted s₁.pool ++ [_]) = _
        rw [List.map_append, haddrs]
        rfl
      · have hperm : (tail ++ node :: blocks).Perm ((tail ++ [node]) ++ blocks) := by
          rw [List.append_assoc]
          rfl
        exact h₁.owned.trans (hperm.cons p)
      · change _ ∈ List.map MpNode.addr (counted s₁.pool ++ [_])
        rw [List.map_append]
        dsimp only
        split
        · exact List.mem_append_right _ List.mem_cons_self
        · exact List.mem_append_left _ hcurrent

/-- A small request keeps the regions, wherever the block is placed. -/
theorem allocSmall_regions (fit : MpNode → Option ℕ) (size : ℕ) (h : Regions p tail blocks s) :
    ∃ s' m new, allocSmall fit s size = some (s', m) ∧ s'.pool.large = s.pool.large ∧
      Regions p (tail ++ new) blocks s' := by
  have hsplit := before_append_from s.pool
  unfold allocSmall
  cases hfrom : fromCurrent s.pool with
  | nil =>
    obtain ⟨q, hq, haddr⟩ := List.mem_map.mp h.current
    have := List.dropWhile_eq_nil_iff.mp hfrom q hq
    simp [haddr] at this
  | cons q pages =>
    rw [hfrom] at hsplit
    dsimp only
    cases hscan : scanPages fit size (q :: pages) with
    | none =>
      dsimp only
      rw [if_neg (by rw [h.rest]; exact fun hne => hne rfl)]
      exact mpAllocBlock_regions h
    | some r =>
      obtain ⟨pages', m⟩ := r
      obtain ⟨pre, q', post, hold, rfl, -, -⟩ := scanPages_eq_some hscan
      have haddrs : (beforeCurrent s.pool ++
          (pre ++ { q' with last := sizeT (m + size) } :: post)).map (·.addr) =
          s.pool.pages.map (·.addr) := by
        rw [← hsplit, hold]
        simp
      refine ⟨_, m, [], rfl, rfl, ?_⟩
      rw [List.append_nil]
      exact { h with pages := haddrs.trans h.pages, current := haddrs ▸ h.current }

/-! ### Large blocks -/

/-- A request returns. Besides `others`, the large blocks are those of the descriptors. -/
def Serves (p : ℕ) (tail others : List ℕ) (r : Option (Sys × ℕ)) : Prop :=
  ∃ s' m new, r = some (s', m) ∧ Regions p (tail ++ new) (others ++ nonnull s'.pool.large) s'

theorem serves_same (h : Regions p tail (others ++ nonnull s.pool.large) s) :
    Serves p tail others (some (s, m)) :=
  ⟨s, m, [], rfl, by rwa [List.append_nil]⟩

theorem allocSmall_serves (h : Regions p tail (others ++ nonnull s.pool.large) s) :
    Serves p tail others (allocSmall fit s size) := by
  obtain ⟨s', m, new, hr, hlarge, h'⟩ := allocSmall_regions fit size h
  exact ⟨s', m, new, hr, by rwa [hlarge]⟩

/-- A block that the allocator has just given out gets a descriptor, or is given back. -/
theorem addLarge_serves (halloc : Serves p tail (a :: others) (alloc s sizeofLarge)) :
    Serves p tail others (addLarge alloc s a) := by
  obtain ⟨s₁, large, new, hr, h₁⟩ := halloc
  unfold addLarge
  rw [hr]
  simp only [Option.bind_eq_bind, Option.bind_some]
  by_cases hzero : large = 0
  · rw [if_pos hzero]
    obtain ⟨s₂, hfree, hpool, h₂⟩ := free_regions h₁
    rw [hfree]
    exact ⟨s₂, 0, new, rfl, by rwa [hpool]⟩
  · rw [if_neg hzero]
    have ha : a ≠ 0 := h₁.ne_zero (List.mem_append_right _ List.mem_cons_self)
    refine ⟨_, a, new, rfl, ?_⟩
    dsimp only
    rw [nonnull_cons_of_ne ha]
    exact { h₁.perm List.perm_middle.symm with }

theorem mpAllocLarge_serves (h : Regions p tail (others ++ nonnull s.pool.large) s)
    (halloc : ∀ s₁ a, request s 16 size = (s₁, a) → a ≠ 0 →
      Regions p tail (a :: others ++ nonnull s₁.pool.large) s₁ →
      Serves p tail (a :: others) (alloc s₁ sizeofLarge)) :
    Serves p tail others (mpAllocLarge alloc s size) := by
  unfold mpAllocLarge malloc
  cases hreq : request s 16 size with
  | mk s₁ a =>
    obtain ⟨hpool, ⟨rfl, h₁⟩ | ⟨ha, h₁⟩⟩ := request_regions h hreq
    · dsimp only
      rw [if_pos rfl]
      exact serves_same (by rwa [hpool])
    · dsimp only
      rw [if_neg ha]
      cases hreuse : reuseLarge a 5 s₁.pool.large with
      | some large =>
        have hperm := reuseLarge_perm ha hreuse
        rw [hpool] at hperm
        refine ⟨_, a, [], rfl, ?_⟩
        rw [List.append_nil]
        exact { h₁.perm (List.perm_middle.symm.trans (hperm.append_left others)) with }
      | none => exact addLarge_serves (halloc s₁ a hreq ha (by rwa [hpool]))

/-- **`mp_alloc` at any depth** returns, and keeps the account. -/
theorem mpAlloc_serves (hfuel : s.answers.length < fuel)
    (h : Regions p tail (others ++ nonnull s.pool.large) s) :
    Serves p tail others (mpAlloc fuel s size) := by
  induction fuel generalizing s size others with
  | zero => exact absurd hfuel (Nat.not_lt_zero _)
  | succ fuel ih =>
    rw [mpAlloc]
    split_ifs
    · exact serves_same h
    · exact allocSmall_serves h
    · refine mpAllocLarge_serves h fun s₁ a hreq ha h₁ => ih ?_ h₁
      rw [(request_given hreq ha).1, List.length_cons] at hfuel
      omega

theorem mpNalloc_serves (hfuel : s.answers.length < fuel)
    (h : Regions p tail (others ++ nonnull s.pool.large) s) :
    Serves p tail others (mpNalloc fuel s size) := by
  unfold mpNalloc
  split_ifs
  · exact allocSmall_serves h
  · refine mpAllocLarge_serves h fun s₁ a hreq ha h₁ => mpAlloc_serves ?_ h₁
    rw [(request_given hreq ha).1, List.length_cons] at hfuel
    omega

theorem mpMemalign_serves {alignment : ℕ} (hfuel : s.answers.length < fuel)
    (h : Regions p tail (others ++ nonnull s.pool.large) s) :
    Serves p tail others (mpMemalign fuel s size alignment) := by
  unfold mpMemalign posixMemalign
  split_ifs with halign
  · cases hreq : request s alignment size with
    | mk s₁ a =>
      obtain ⟨hpool, ⟨rfl, h₁⟩ | ⟨ha, h₁⟩⟩ := request_regions h hreq
      · exact serves_same (by rwa [hpool])
      · dsimp only
        rw [if_neg ha]
        rw [(request_given hreq ha).1, List.length_cons] at hfuel
        exact addLarge_serves (mpAlloc_serves (by omega) (by rwa [hpool]))
  · exact serves_same h

/-! ### Giving back -/

/-- No descriptor has the block. -/
theorem clearLarge_eq_none {large : List MpLarge} (h : clearLarge a large = none) :
    a ∉ nonnull large := by
  have hall : ∀ l ∈ large, l.alloc ≠ a := by
    induction large with
    | nil => simp
    | cons l large ih =>
      rw [clearLarge] at h
      split_ifs at h with hl
      exact List.forall_mem_cons.mpr ⟨hl, ih (Option.map_eq_none_iff.mp h)⟩
  intro hmem
  obtain ⟨l, hl, heq⟩ := List.mem_map.mp (List.mem_filter.mp hmem).1
  exact hall l hl heq

/-- A loop that frees what it walks over, but for `NULL`. -/
theorem free_each {α : Type} (addr : α → ℕ) {l : List α} {others : List ℕ}
    (hperm : (s.live.map (·.lo)).Perm ((l.map addr).filter (· ≠ 0) ++ others))
    (hnodup : (s.live.map (·.lo)).Nodup) :
    ∃ s', l.foldlM (fun s x => free s (addr x)) s = some s' ∧ s'.pool = s.pool ∧
      (s'.live.map (·.lo)).Perm others ∧ ∀ r ∈ s'.live, r ∈ s.live := by
  induction l generalizing s with
  | nil => exact ⟨s, rfl, rfl, hperm, fun _ hr => hr⟩
  | cons x l ih =>
    rw [List.foldlM_cons]
    by_cases hx : addr x = 0
    · rw [List.map_cons, List.filter_cons_of_neg (by simpa using hx)] at hperm
      obtain ⟨s', hrest, hpool, hothers, hsub⟩ := ih hperm hnodup
      refine ⟨s', ?_, hpool, hothers, hsub⟩
      unfold free
      rw [if_pos hx]
      exact hrest
    · rw [List.map_cons, List.filter_cons_of_pos (by simpa using hx), List.cons_append] at hperm
      obtain ⟨s₁, hfree, hpool₁, hlive, hsub₁⟩ :=
        free_live hnodup (hperm.mem_iff.mpr List.mem_cons_self) hx
      have hperm₁ := hperm.erase (addr x)
      rw [List.erase_cons_head, ← hlive] at hperm₁
      obtain ⟨s', hrest, hpool, hothers, hsub⟩ := ih hperm₁ (hlive ▸ hnodup.erase _)
      refine ⟨s', ?_, hpool.trans hpool₁, hothers, fun r hr => hsub₁ r (hsub r hr)⟩
      rw [hfree]
      exact hrest

/-- The loop over the descriptors frees the large blocks. -/
theorem free_large_regions (h : Regions p tail (nonnull s.pool.large) s) :
    ∃ s', s.pool.large.foldlM (fun s l => free s l.alloc) s = some s' ∧ s'.pool = s.pool ∧
      Regions p tail [] s' := by
  obtain ⟨s', hrun, hpool, hperm, hsub⟩ :=
    free_each MpLarge.alloc (h.owned.trans List.perm_append_comm) h.nodup
  have hsound : ∀ r ∈ s'.live, 0 < r.lo ∧ 0 < r.len := fun r hr => h.sound r (hsub r hr)
  have hnodup : (s'.live.map (·.lo)).Nodup :=
    hperm.nodup_iff.mpr h.bases_nodup.of_append_left
  rw [← List.append_nil (p :: tail)] at hperm
  refine ⟨s', hrun, hpool, ?_⟩
  exact ⟨hpool ▸ h.addr, hpool ▸ h.pages, hperm, hnodup, hsound, hpool ▸ h.current,
    hpool ▸ h.rest⟩

theorem mpResetPool_regions (h : Regions p tail (nonnull s.pool.large) s) :
    ∃ s', mpResetPool s = some s' ∧ Regions p tail (nonnull s'.pool.large) s' ∧
      s'.pool.large = [] := by
  obtain ⟨s₁, hrun, hpool, h₁⟩ := free_large_regions h
  unfold mpResetPool
  rw [hrun]
  simp only [Option.bind_eq_bind, Option.bind_some]
  rw [if_neg (by rw [h₁.rest]; exact fun hne => hne rfl)]
  have haddrs : (s₁.pool.pages.map fun p => { p with last := sizeT (p.addr + sizeofNode) }).map
      (·.addr) = s₁.pool.pages.map (·.addr) := by
    rw [List.map_map]
    rfl
  refine ⟨_, rfl, ?_, rfl⟩
  exact { h₁ with pages := haddrs.trans h₁.pages, current := haddrs ▸ h₁.current }

theorem mpFree_regions (h : Regions p tail (nonnull s.pool.large) s) :
    ∃ s', mpFree s a = some s' ∧ Regions p tail (nonnull s'.pool.large) s' ∧
      (nonnull s'.pool.large).Perm ((nonnull s.pool.large).erase a) := by
  have hzero : (0 : ℕ) ∉ nonnull s.pool.large := by simp [nonnull]
  unfold mpFree
  cases hclear : clearLarge a s.pool.large with
  | none =>
    refine ⟨s, rfl, h, ?_⟩
    rw [List.erase_of_not_mem (clearLarge_eq_none hclear)]
  | some large =>
    rcases clearLarge_perm hclear with ⟨rfl, heq⟩ | ⟨ha, hperm⟩
    · -- `free(NULL)`
      refine ⟨{ s with pool := { s.pool with large := large } }, rfl, ?_, ?_⟩
      · dsimp only
        rw [heq]
        exact { h with }
      · dsimp only
        rw [heq, List.erase_of_not_mem hzero]
    · obtain ⟨s₁, hfree, hpool, h₁⟩ := free_regions (h.perm hperm)
      refine ⟨{ s₁ with pool := { s₁.pool with large := large } }, ?_, { h₁ with }, ?_⟩
      · dsimp only
        rw [hfree]
        rfl
      · have herase := hperm.erase a
        rw [List.erase_cons_head] at herase
        exact herase.symm

/-! ### Runs -/

/-- No operation faults, and each keeps the account. -/
theorem deepStep_regions (h : Regions p tail (nonnull s.pool.large) s) (act : Act) :
    ∃ s' new, deepStep s act = some s' ∧ Regions p (tail ++ new) (nonnull s'.pool.large) s' := by
  have hserves : ∀ {r : Option (Sys × ℕ)}, Serves p tail [] r →
      ∃ s' new, r.map Prod.fst = some s' ∧ Regions p (tail ++ new) (nonnull s'.pool.large) s' := by
    rintro _ ⟨s', m, new, rfl, h'⟩
    exact ⟨s', new, rfl, h'⟩
  cases act with
  | alloc size | calloc size =>
    exact hserves (mpAlloc_serves (Nat.lt_add_of_pos_right Nat.two_pos) h)
  | nalloc size => exact hserves (mpNalloc_serves (Nat.lt_succ_self _) h)
  | memalign size alignment => exact hserves (mpMemalign_serves (Nat.lt_succ_self _) h)
  | free a =>
    obtain ⟨s', hrun, h', -⟩ := mpFree_regions (a := a) h
    exact ⟨s', [], hrun, by rwa [List.append_nil]⟩
  | reset =>
    obtain ⟨s', hrun, h', -⟩ := mpResetPool_regions h
    exact ⟨s', [], hrun, by rwa [List.append_nil]⟩

/-- A pool that has just been created, in memory where the first page's `next` is `NULL`. -/
theorem create_regions {answers : List ℕ} (hcreate : mpCreatePool answers 0 S = some s) :
    ∃ p, mpAlignment ∣ p ∧ Regions p [] [] s ∧ s.pool.large = [] ∧
      s.pool.pages.map mark = [(p + sizeofPool, 0)] ∧ s.pool.current = p + sizeofPool := by
  obtain ⟨a, answers', ⟨hpos, hdvd, -, -⟩, rfl⟩ := mpCreatePool_eq_some hcreate
  refine ⟨a, hdvd, ⟨rfl, rfl, List.Perm.refl _, List.nodup_singleton a, ?_,
    List.mem_singleton_self _, rfl⟩, rfl, rfl, rfl⟩
  intro r hr
  obtain rfl := List.mem_singleton.mp hr
  exact ⟨hpos, Nat.lt_of_lt_of_le Nat.one_pos (Nat.le_max_right _ 1)⟩

end MmorpgServer.PagePool
