import MmorpgServer.PagePool.Refinement
import MmorpgServer.PagePool.Window

/-!
# Where a page pool is in memory

A pool keeps its words at the beginning of its regions and, for the descriptors, in small blocks.
While the small blocks lie in their pages and are apart, so are these words.

## Main definitions

* `headers` — the areas at the beginning of the regions

## Main results

* `Inv.headers_apart` — headers and small blocks are apart
* `Clean.laid` — there is room for the words of a pool between two operations
* `Lent.clears` — there is none of them in a block that was returned
-/

namespace MmorpgServer.PagePool.Linked

open Bump Words

variable {n a rest : ℕ} {pool : MpPool} {q : MpNode} {r : Interval} {tail : List ℕ}
  {pages : List MpNode} {large : List MpLarge} {live areas : List Interval} {ws : List Word}

/-! ### Areas of words -/

/-- The areas at the beginning of the regions. That of the pool holds its first page, too. -/
def headers (p : ℕ) (tail : List ℕ) : List Interval :=
  ⟨p, sizeofPool + sizeofNode⟩ :: tail.map fun a => ⟨a, sizeofNode⟩

theorem addresses_node (a : ℕ) :
    addresses 8 ⟨a, sizeofNode⟩ = [lastAt a, endAt a, nextAt a, failedAt a] := by
  unfold addresses sizeofNode
  dsimp only
  rfl

theorem addresses_large (a : ℕ) : addresses 8 ⟨a, sizeofLarge⟩ = [nextLargeAt a, allocAt a] := by
  unfold addresses sizeofLarge
  dsimp only
  rfl

/-- The words of the first page are behind those of the pool. -/
theorem addresses_pool (p : ℕ) : addresses 8 ⟨p, sizeofPool + sizeofNode⟩ =
    [maxAt p, currentAt p, largeAt p] ++ addresses 8 ⟨p + sizeofPool, sizeofNode⟩ := by
  unfold addresses sizeofPool sizeofNode
  dsimp only
  rfl

theorem pageWords_areas (pages : List MpNode) (rest : ℕ) :
    (pageWords pages rest).map Prod.fst =
      ((pages.map (·.addr)).map fun a => (⟨a, sizeofNode⟩ : Interval)).flatMap (addresses 8) := by
  induction pages with
  | nil => rfl
  | cons q pages ih =>
    rw [List.map_cons, List.map_cons, List.flatMap_cons, addresses_node, ← ih]
    rfl

theorem largeWords_areas (large : List MpLarge) :
    (largeWords large).map Prod.fst =
      (large.map fun l => (⟨l.addr, sizeofLarge⟩ : Interval)).flatMap (addresses 8) := by
  induction large with
  | nil => rfl
  | cons l large ih =>
    rw [List.map_cons (l := large), List.flatMap_cons, addresses_large, ← ih]
    rfl

/-- The words of a pool lie in its headers and descriptors. -/
theorem words_areas (hpages : pool.pages.map (·.addr) = (pool.addr + sizeofPool) :: tail) :
    (words pool).map Prod.fst =
      (headers pool.addr tail ++ descriptors pool).flatMap (addresses 8) := by
  unfold words headers descriptors
  rw [List.map_append, List.map_append, pageWords_areas, largeWords_areas, hpages,
    List.flatMap_append, List.flatMap_cons, addresses_pool, List.map_cons, List.flatMap_cons]
  simp only [List.append_assoc]
  rfl

/-- A word lies in the area that it is of. -/
theorem exists_area (haddrs : ws.map Prod.fst = areas.flatMap (addresses 8)) {w : Word}
    (hw : w ∈ ws) : ∃ r ∈ areas, Inside ⟨w.1, 8⟩ r := by
  have hmem : w.1 ∈ areas.flatMap (addresses 8) := haddrs ▸ List.mem_map_of_mem hw
  obtain ⟨r, hr, hin⟩ := List.mem_flatMap.mp hmem
  exact ⟨r, hr, addresses_bounds hin⟩

theorem Mapped.of_inside (hr : r ∈ live) (hin : Inside ⟨a, n⟩ r) : Mapped live a n :=
  fun _ hi => ⟨r, hr, Nat.le_add_right_of_le hin.1,
    Nat.lt_of_lt_of_le (Nat.add_lt_add_left hi a) hin.2⟩

/-- Words in areas that are allocated and apart. -/
theorem sited_of_areas (haddrs : ws.map Prod.fst = areas.flatMap (addresses 8))
    (hapart : areas.Pairwise Apart) (hlive : ∀ r ∈ areas, ∃ R ∈ live, Inside r R)
    (hpos : ∀ r ∈ areas, 0 < r.lo) : Sited live ws where
  spaced := spaced_of_areas haddrs hapart
  mapped w hw := by
    obtain ⟨r, hr, hin⟩ := exists_area haddrs hw
    obtain ⟨R, hR, hrR⟩ := hlive r hr
    exact .of_inside hR ⟨hrR.1.trans hin.1, hin.2.trans hrR.2⟩
  pos w hw := by
    obtain ⟨r, hr, hin⟩ := exists_area haddrs hw
    exact (hpos r hr).trans_le hin.1

/-! ### Numbers -/

theorem pageWords_fits (hrest : rest < 2 ^ 64)
    (hpages : ∀ q ∈ pages, q.addr < 2 ^ 64 ∧ q.last < 2 ^ 64 ∧ q.end_ < 2 ^ 64 ∧
      q.failed < 2 ^ 64) : Fits (pageWords pages rest) := by
  induction pages with
  | nil => exact fun _ hw => absurd hw List.not_mem_nil
  | cons q pages ih =>
    obtain ⟨⟨-, hlast, hend, hfailed⟩, hpages⟩ := List.forall_mem_cons.mp hpages
    have hnext : firstPage pages rest < 2 ^ 64 := by
      cases pages with
      | nil => exact hrest
      | cons r pages => exact (hpages r List.mem_cons_self).1
    rw [pageWords]
    exact List.forall_mem_cons.mpr ⟨hlast, List.forall_mem_cons.mpr ⟨hend,
      List.forall_mem_cons.mpr ⟨hnext, List.forall_mem_cons.mpr ⟨hfailed, ih hpages⟩⟩⟩⟩

theorem firstLarge_lt (hlarge : ∀ l ∈ large, l.addr < 2 ^ 64) : firstLarge large < 2 ^ 64 := by
  cases large with
  | nil => decide
  | cons l large => exact hlarge l List.mem_cons_self

theorem largeWords_fits (hlarge : ∀ l ∈ large, l.addr < 2 ^ 64 ∧ l.alloc < 2 ^ 64) :
    Fits (largeWords large) := by
  induction large with
  | nil => exact fun _ hw => absurd hw List.not_mem_nil
  | cons l large ih =>
    obtain ⟨⟨-, halloc⟩, hlarge⟩ := List.forall_mem_cons.mp hlarge
    rw [largeWords]
    exact List.forall_mem_cons.mpr ⟨firstLarge_lt fun l hl => (hlarge l hl).1,
      List.forall_mem_cons.mpr ⟨halloc, ih hlarge⟩⟩

end MmorpgServer.PagePool.Linked

namespace MmorpgServer.PagePool

open Bump Words Linked

variable {S n p m a size rest : ℕ} {s s' : Sys} {pool : MpPool} {q : MpNode} {r : Interval}
  {tail blocks : List ℕ}

/-! ### Headers and blocks -/

/-- The pages are at their addresses. -/
theorem Inv.addrs (h : Inv S tail blocks s) :
    s.pool.pages.map (·.addr) = (s.pool.addr + sizeofPool) :: tail := by
  have hframe := congrArg (List.map Prod.fst) h.frame
  rw [List.map_map, List.map_cons, List.map_map] at hframe
  exact hframe.trans (congrArg (List.cons _) (List.map_id _))

/-- The region of a header. -/
theorem Inv.header_home (h : Inv S tail blocks s) (hr : r ∈ headers s.pool.addr tail) :
    ∃ R ∈ s.live, R.lo ∈ s.pool.addr :: tail ∧ Inside r R ∧ r.lo = R.lo := by
  rcases List.mem_cons.mp hr with rfl | hr
  · refine ⟨_, h.first, List.mem_cons_self, ⟨le_rfl, ?_⟩, rfl⟩
    dsimp only [sizeofPool, sizeofNode]
    omega
  · obtain ⟨a, ha, rfl⟩ := List.mem_map.mp hr
    refine ⟨_, h.further a ha, List.mem_cons_of_mem _ ha, ⟨le_rfl, ?_⟩, rfl⟩
    dsimp only [sizeofNode]
    omega

/-- The region of a small block, where it is behind the header. -/
theorem Inv.block_home (h : Inv S tail blocks s) (hr : r ∈ s.handed) :
    ∃ R ∈ s.live, R.lo ∈ s.pool.addr :: tail ∧ Inside r R ∧
      ∀ x ∈ headers s.pool.addr tail, x.lo = R.lo → x.lo + x.len ≤ r.lo := by
  obtain ⟨page, hpage, hlo, hhi⟩ := h.packed.within hr
  obtain ⟨q, hq, rfl⟩ := List.mem_map.mp hpage
  have hnew : s.pool.addr ∉ tail := fun hmem =>
    (List.nodup_cons.mp h.nodup).1 (List.mem_append_left _ hmem)
  dsimp only [toPage, sizeofNode] at hlo hhi
  -- the head page is in the region of the pool, a further page has a region of its own
  rcases h.page_cases hq with ⟨haddr, hend⟩ | ⟨ha, hend⟩
  · refine ⟨_, h.first, List.mem_cons_self, ⟨?_, ?_⟩, fun x hx heq => ?_⟩
    · dsimp only
      omega
    · dsimp only
      omega
    · rcases List.mem_cons.mp hx with rfl | hx
      · dsimp only [sizeofPool, sizeofNode]
        omega
      · obtain ⟨a, ha, rfl⟩ := List.mem_map.mp hx
        dsimp only at heq
        exact absurd (heq ▸ ha) hnew
  · refine ⟨_, h.further _ ha, List.mem_cons_of_mem _ ha, ⟨?_, ?_⟩, fun x hx heq => ?_⟩
    · dsimp only
      omega
    · dsimp only
      omega
    · rcases List.mem_cons.mp hx with rfl | hx
      · dsimp only at heq
        exact absurd (heq ▸ ha) hnew
      · obtain ⟨a, -, rfl⟩ := List.mem_map.mp hx
        dsimp only [sizeofNode] at heq ⊢
        omega

/-- Headers and small blocks are apart. -/
theorem Inv.headers_apart (h : Inv S tail blocks s) :
    (headers s.pool.addr tail ++ s.handed).Pairwise Apart := by
  have hnodup : (s.pool.addr :: tail).Nodup := h.nodup.of_append_left
  have hbases : (headers s.pool.addr tail).map (·.lo) = s.pool.addr :: tail := by
    unfold headers
    rw [List.map_cons, List.map_map]
    exact congrArg (List.cons _) (List.map_id _)
  refine List.pairwise_append.mpr ⟨?_, h.packed.apart, fun x hx b hb => ?_⟩
  · -- they are in different regions
    refine (List.pairwise_map.mp (hbases ▸ hnodup)).imp_of_mem fun {x y} hx hy hne => ?_
    obtain ⟨R, hR, -, hin, heq⟩ := h.header_home hx
    obtain ⟨Q, hQ, -, hin', heq'⟩ := h.header_home hy
    exact (h.apart_of_ne hR hQ (heq ▸ heq' ▸ hne)).mono hin hin'
  -- a block in the region of a header lies behind it
  · obtain ⟨R, hR, -, hin, heq⟩ := h.header_home hx
    obtain ⟨Q, hQ, -, hin', hbehind⟩ := h.block_home hb
    by_cases hsame : R.lo = Q.lo
    · exact Or.inl (hbehind x hx (heq.trans hsame))
    · exact (h.apart_of_ne hR hQ hsame).mono hin hin'

/-- They are in the regions of the pool. -/
theorem Inv.home (h : Inv S tail blocks s) (hr : r ∈ headers s.pool.addr tail ++ s.handed) :
    ∃ R ∈ s.live, R.lo ∈ s.pool.addr :: tail ∧ Inside r R := by
  rcases List.mem_append.mp hr with hr | hr
  · obtain ⟨R, hR, hlo, hin, -⟩ := h.header_home hr
    exact ⟨R, hR, hlo, hin⟩
  · obtain ⟨R, hR, hlo, hin, -⟩ := h.block_home hr
    exact ⟨R, hR, hlo, hin⟩

/-! ### The words of a pool -/

/-- There is room for the words of a pool whose descriptors are small blocks. -/
theorem Inv.sited (h : Inv S tail blocks s) (hhanded : (descriptors s.pool).Sublist s.handed) :
    Sited s.live (words s.pool) := by
  have hsub := (List.Sublist.refl (headers s.pool.addr tail)).append hhanded
  refine sited_of_areas (words_areas h.addrs) (h.headers_apart.sublist hsub) (fun r hr => ?_)
    fun r hr => ?_
  · obtain ⟨R, hR, -, hin⟩ := h.home (hsub.subset hr)
    exact ⟨R, hR, hin⟩
  · obtain ⟨R, hR, -, hin⟩ := h.home (hsub.subset hr)
    exact (h.sound R hR).1.trans_le hin.1

/-- What the allocator has given out is in the lower half of the address space. -/
theorem Inv.alloc_lt (h : Inv S tail blocks s) (ha : a ∈ blocks) : a < 2 ^ 63 := by
  obtain ⟨r, hr, rfl⟩ := List.mem_map.mp (h.owned.mem_iff.mpr (List.mem_append_right _ ha))
  have := h.sound r hr
  omega

/-- The numbers that a pool keeps fit into words. -/
theorem Inv.fits (h : Inv S tail blocks s) (hhanded : (descriptors s.pool).Sublist s.handed)
    (hblocks : nonnull s.pool.large ⊆ blocks) (hfailed : ∀ q ∈ s.pool.pages, q.failed < 2 ^ 64) :
    Fits (words s.pool) := by
  have hlast : ∀ q ∈ s.pool.pages, q.last ≤ 2 ^ 63 ∧ q.end_ ≤ 2 ^ 63 ∧ q.addr < 2 ^ 64 := by
    intro q hq
    obtain ⟨hlow, hlast⟩ := h.bounds hq
    have hend := h.end_le hq
    omega
  have hdesc : ∀ l ∈ s.pool.large, l.addr < 2 ^ 64 := by
    intro l hl
    have hmem : (⟨l.addr, sizeofLarge⟩ : Interval) ∈ s.handed :=
      hhanded.subset (List.mem_map_of_mem hl)
    obtain ⟨R, hR, -, -, hhi⟩ := h.home (List.mem_append_right _ hmem)
    have := (h.sound R hR).2.2
    dsimp only [sizeofLarge] at hhi
    omega
  have hcurrent : s.pool.current < 2 ^ 64 := by
    obtain ⟨q, hq, heq⟩ := List.mem_map.mp h.current
    exact heq ▸ (hlast q hq).2.2
  have hmax : s.pool.max < 2 ^ 64 := by
    rw [h.max]
    unfold maxOf mpMaxAllocFromPool mpPageSize
    split_ifs <;> omega
  refine List.forall_mem_append.mpr ⟨List.forall_mem_cons.mpr ⟨hmax, List.forall_mem_cons.mpr
    ⟨hcurrent, List.forall_mem_singleton.mpr (firstLarge_lt hdesc)⟩⟩,
    List.forall_mem_append.mpr ⟨pageWords_fits (by rw [h.rest]; decide) fun q hq => ?_,
      largeWords_fits fun l hl => ⟨hdesc l hl, ?_⟩⟩⟩
  · have := hlast q hq
    exact ⟨this.2.2, by omega, by omega, hfailed q hq⟩
  -- a descriptor is empty, or its block has been given out
  · by_cases hzero : l.alloc = 0
    · omega
    · have hmem : l.alloc ∈ nonnull s.pool.large :=
        List.mem_filter.mpr ⟨List.mem_map_of_mem hl, by simpa using hzero⟩
      have := h.alloc_lt (hblocks hmem)
      omega

theorem Clean.fits (h : Clean S s) (hfailed : ∀ q ∈ s.pool.pages, q.failed < 2 ^ 64) :
    Fits (words s.pool) := by
  obtain ⟨tail, hinv⟩ := h.regions
  exact hinv.fits h.handed (List.Subset.refl _) hfailed

/-- There is room for the words of a pool between two operations. -/
theorem Clean.laid (h : Clean S s) (hfailed : ∀ q ∈ s.pool.pages, q.failed < 2 ^ 64) : Laid s := by
  obtain ⟨tail, hinv⟩ := h.regions
  exact ⟨hinv.sited h.handed, h.fits hfailed⟩

/-- The words stay when the large blocks are freed. -/
theorem Clean.freesBlocks (h : Clean S s) (hfailed : ∀ q ∈ s.pool.pages, q.failed < 2 ^ 64) :
    FreesBlocks s := by
  intro s' hrun
  obtain ⟨tail, hinv⟩ := h.regions
  obtain ⟨s₁, hfree, hinv₁, hpool, hhanded⟩ := free_all hinv
  obtain rfl := Option.some.inj (hrun.symm.trans hfree)
  refine ⟨hinv₁.sited ?_, hpool ▸ h.fits hfailed⟩
  rw [hpool, hhanded]
  exact h.handed

/-- The regions of the further pages stay, too. -/
theorem Clean.pageRegions (h : Clean S s)
    (hrun : s.pool.large.foldlM (fun s l => PagePool.free s l.alloc) s = some s') :
    ∀ r ∈ s.pool.pages.tail, ∃ R ∈ s'.live, R.lo = r.addr ∧ sizeofNode ≤ R.len := by
  intro r hr
  obtain ⟨tail, hinv⟩ := h.regions
  obtain ⟨s₁, hfree, hinv₁, hpool, -⟩ := free_all hinv
  obtain rfl := Option.some.inj (hrun.symm.trans hfree)
  have hmem : r.addr ∈ tail := by
    have haddrs := congrArg List.tail hinv.addrs
    rw [← List.map_tail, List.tail_cons] at haddrs
    exact haddrs ▸ List.mem_map_of_mem hr
  exact ⟨_, hinv₁.further _ hmem, rfl, Nat.le_add_right _ _⟩

/-- No word of the pool is in a block that was returned. -/
theorem Lent.clears (h : Clean S s) (hlent : Lent s m size) :
    Mapped s.live m size ∧ ∀ w ∈ words s.pool, w.1 + 8 ≤ m ∨ m + size ≤ w.1 := by
  obtain ⟨⟨tail, hinv⟩, hhanded, -⟩ := h
  have hsub := (List.Sublist.refl (headers s.pool.addr tail)).append hhanded
  -- it is enough that the block is apart from the areas of the words
  suffices hapart : ∃ b : Interval, b.lo = m ∧ size ≤ b.len ∧ (∃ R ∈ s.live, Inside b R) ∧
      ∀ r ∈ headers s.pool.addr tail ++ descriptors s.pool, Apart r b by
    obtain ⟨⟨lo, len⟩, rfl, hlen, ⟨R, hR, hin⟩, hapart⟩ := hapart
    dsimp only at hlen hin ⊢
    refine ⟨.of_inside hR ⟨hin.1, (Nat.add_le_add_left hlen lo).trans hin.2⟩, fun w hw => ?_⟩
    obtain ⟨r, hr, hwr⟩ := exists_area (words_areas hinv.addrs) hw
    have hsize : Inside ⟨lo, size⟩ ⟨lo, len⟩ := ⟨le_rfl, Nat.add_le_add_left hlen lo⟩
    exact (hapart r hr).mono hwr hsize
  -- a small block is apart from the others; a large one has a region of its own
  rcases hlent with hsmall | ⟨hlarge, len, hlen, hlive⟩
  · have hmem : (⟨m, size⟩ : Interval) ∈ s.handed := hsmall.subset List.mem_cons_self
    obtain ⟨R, hR, -, hin⟩ := hinv.home (List.mem_append_right _ hmem)
    refine ⟨⟨m, size⟩, rfl, le_rfl, ⟨R, hR, hin⟩, fun r hr => ?_⟩
    obtain ⟨-, hall, hcross⟩ := List.pairwise_append.mp hinv.headers_apart
    rcases List.mem_append.mp hr with hr | hr
    · exact hcross r hr _ hmem
    · exact ((List.pairwise_cons.mp (hall.sublist hsmall)).1 r hr).symm
  · refine ⟨⟨m, len⟩, rfl, hlen, ⟨_, hlive, Inside.refl _⟩, fun r hr => ?_⟩
    obtain ⟨R, hR, hlo, hin⟩ := hinv.home (hsub.subset hr)
    refine (hinv.apart_of_ne hR hlive fun heq => ?_).mono hin (Inside.refl _)
    exact List.disjoint_of_nodup_append hinv.nodup hlo (heq ▸ hlarge)

end MmorpgServer.PagePool
