import MmorpgServer.PagePool.Model
import MmorpgServer.Lib.Machine
import Mathlib.Data.List.Nodup
import Mathlib.Data.List.Pairwise
import Mathlib.Data.List.TakeWhile

/-!
# Small blocks of the page pool

The pages of a pool form a bump allocator: `mp_nalloc` places a block right behind `last`, and
`mp_alloc` behind `last` rounded up. What can go wrong is the rounding: in the last, partial
cell of a page `last` is rounded up beyond `end`, the difference wraps, and the page seems to
have room for everything.

## Main definitions

* `Inv` — the pages are regions of the allocator, and the small blocks are packed in them
* `RoundsInside` — the page that a request would take does not round up beyond its end
* `created` — the pool that `mp_create_pool` makes

## Main results

* `mpCreatePool_eq_some` — where a pool is created
* `request_inv`, `free_inv` — what the allocator does to the invariant
* `allocSmall_aligned`, `allocSmall_last` — small requests keep the invariant
-/

namespace MmorpgServer.PagePool

open Bump Machine

variable {S : ℕ} {s s' : Sys} {tail blocks : List ℕ} {p : MpNode} {size m a : ℕ}
  {fit : MpNode → Option ℕ}

/-- A page as the blocks see it. -/
def toPage (p : MpNode) : Page := ⟨p.addr + sizeofNode, p.last, p.end_⟩

/-- The blocks that the descriptors hold. -/
def nonnull (large : List MpLarge) : List ℕ := (large.map (·.alloc)).filter (· ≠ 0)

/-- The largest small block of a pool of page size `S`. -/
def maxOf (S : ℕ) : ℕ := if S < mpMaxAllocFromPool then S else mpMaxAllocFromPool

/-- A pool of page size `S` whose further pages are at `tail`. What the allocator has given
out are the region of the pool, those of the further pages, and `blocks`. -/
structure Inv (S : ℕ) (tail blocks : List ℕ) (s : Sys) : Prop where
  packed : Packed (s.pool.pages.map toPage) s.handed
  frame : s.pool.pages.map (fun p => (p.addr, p.end_)) =
    (s.pool.addr + 24, s.pool.addr + 56 + S) :: tail.map fun a => (a, a + 32 + S)
  first : ⟨s.pool.addr, 56 + S⟩ ∈ s.live
  further : ∀ a ∈ tail, ⟨a, 32 + S⟩ ∈ s.live
  owned : (s.live.map (·.lo)).Perm (s.pool.addr :: tail ++ blocks)
  apart : s.live.Pairwise Apart
  sound : ∀ r ∈ s.live, 0 < r.lo ∧ 0 < r.len ∧ r.lo + r.len ≤ 2 ^ 63
  max : s.pool.max = maxOf S
  current : s.pool.current ∈ s.pool.pages.map (·.addr)
  rest : s.pool.rest = 0

theorem maxOf_le (S : ℕ) : maxOf S ≤ S := by
  unfold maxOf
  split_ifs with hlarge
  · exact le_rfl
  · exact not_lt.mp hlarge

/-- Descriptors are small blocks in pools that are not tiny. -/
theorem sizeofLarge_le_maxOf : sizeofLarge ≤ maxOf S ↔ 16 ≤ S := by
  unfold maxOf sizeofLarge mpMaxAllocFromPool mpPageSize
  split_ifs <;> omega

theorem Inv.max_le (h : Inv S tail blocks s) : s.pool.max ≤ S := h.max ▸ maxOf_le S

theorem Inv.perm {blocks' : List ℕ} (h : Inv S tail blocks s) (hperm : blocks.Perm blocks') :
    Inv S tail blocks' s :=
  { h with owned := h.owned.trans (hperm.append_left _) }

/-- Bases of live regions are distinct. -/
theorem Inv.nodup (h : Inv S tail blocks s) : (s.pool.addr :: tail ++ blocks).Nodup := by
  refine h.owned.nodup_iff.mp (List.pairwise_map.mpr ?_)
  refine h.apart.imp_of_mem fun {r q} hr hq hapart heq => ?_
  have hr' := h.sound r hr
  have hq' := h.sound q hq
  unfold Apart at hapart
  omega

/-- Regions that begin at different addresses. -/
theorem Inv.apart_of_ne (h : Inv S tail blocks s) {R Q : Interval} (hR : R ∈ s.live)
    (hQ : Q ∈ s.live) (hne : R.lo ≠ Q.lo) : Apart R Q :=
  h.apart.forall hR hQ fun heq => hne (heq ▸ rfl)

/-- The two kinds of pages. -/
theorem Inv.page_cases (h : Inv S tail blocks s) (hp : p ∈ s.pool.pages) :
    (p.addr = s.pool.addr + 24 ∧ p.end_ = s.pool.addr + 56 + S) ∨
      (p.addr ∈ tail ∧ p.end_ = p.addr + 32 + S) := by
  have hmem : (p.addr, p.end_) ∈ s.pool.pages.map fun p => (p.addr, p.end_) :=
    List.mem_map_of_mem hp
  rw [h.frame] at hmem
  rcases List.mem_cons.mp hmem with heq | hmem
  · exact Or.inl (Prod.mk.inj heq)
  · obtain ⟨a, ha, heq⟩ := List.mem_map.mp hmem
    obtain ⟨rfl, hend⟩ := Prod.mk.inj heq
    exact Or.inr ⟨ha, hend.symm⟩

/-- No address of a page is large. -/
theorem Inv.end_le (h : Inv S tail blocks s) (hp : p ∈ s.pool.pages) : p.end_ ≤ 2 ^ 63 := by
  rcases h.page_cases hp with ⟨-, hend⟩ | ⟨ha, hend⟩
  · have := (h.sound _ h.first).2.2
    dsimp only at this
    omega
  · have := (h.sound _ (h.further _ ha)).2.2
    dsimp only at this
    omega

theorem Inv.bounds (h : Inv S tail blocks s) (hp : p ∈ s.pool.pages) :
    p.addr + sizeofNode ≤ p.last ∧ p.last ≤ p.end_ :=
  h.packed.bounds (toPage p) (List.mem_map_of_mem hp)

/-! ### Address arithmetic -/

theorem ptrDiff_of_le {a b : ℕ} (hle : b ≤ a) (ha : a ≤ 2 ^ 63) : ptrDiff a b = a - b := by
  unfold ptrDiff sizeT
  omega

theorem sizeT_of_le {a : ℕ} (ha : a ≤ 2 ^ 63) : sizeT a = a := by
  unfold sizeT
  omega

/-- Rounding up moves less than one cell. -/
theorem le_mpAlignPtr (ha : a ≤ 2 ^ 63) : a ≤ mpAlignPtr a ∧ mpAlignPtr a < a + 32 := by
  unfold mpAlignPtr sizeT mpAlignment
  omega

theorem mpAlignPtr_of_dvd (ha : a ≤ 2 ^ 63) (hdvd : 32 ∣ a) : mpAlignPtr a = a := by
  unfold mpAlignPtr sizeT mpAlignment
  omega

/-! ### The system allocator -/

/-- A request fails, or takes what the allocator proposes. -/
theorem request_cases {alignment : ℕ} (hreq : request s alignment size = (s', a)) :
    ∃ answers, (a = 0 ∧ s' = { s with answers := answers }) ∨
      (Fresh s.live alignment size a ∧
        s' = { s with live := ⟨a, Nat.max size 1⟩ :: s.live, answers := answers }) := by
  unfold request at hreq
  split at hreq
  · obtain ⟨rfl, rfl⟩ := Prod.mk.inj hreq
    exact ⟨s.answers, Or.inl ⟨rfl, rfl⟩⟩
  · next a' answers _ =>
    refine ⟨answers, ?_⟩
    split_ifs at hreq with hfresh
    · obtain ⟨rfl, rfl⟩ := Prod.mk.inj hreq
      exact Or.inr ⟨hfresh, rfl⟩
    · obtain ⟨rfl, rfl⟩ := Prod.mk.inj hreq
      exact Or.inl ⟨rfl, rfl⟩

/-- What was handed out, and what was allocated, stays so. -/
theorem request_keeps {alignment : ℕ} (hreq : request s alignment size = (s', a)) :
    s'.handed = s.handed ∧ s.live ⊆ s'.live := by
  obtain ⟨answers, ⟨-, rfl⟩ | ⟨-, rfl⟩⟩ := request_cases hreq
  · exact ⟨rfl, List.Subset.refl _⟩
  · exact ⟨rfl, List.subset_cons_self _ _⟩

/-- What a request changes. -/
theorem request_inv (h : Inv S tail blocks s) {alignment : ℕ}
    (hreq : request s alignment size = (s', a)) :
    s'.pool = s.pool ∧
      ((a = 0 ∧ Inv S tail blocks s') ∨
        (a ≠ 0 ∧ Inv S tail (a :: blocks) s' ∧ alignment ∣ a ∧
          a + Nat.max size 1 ≤ 2 ^ 63 ∧ ⟨a, Nat.max size 1⟩ ∈ s'.live ∧
          ∀ r ∈ s.live, Apart r ⟨a, Nat.max size 1⟩)) := by
  obtain ⟨answers, ⟨rfl, rfl⟩ | ⟨⟨hpos, hdvd, hle, hapart⟩, rfl⟩⟩ := request_cases hreq
  · exact ⟨rfl, Or.inl ⟨rfl, { h with }⟩⟩
  · refine ⟨rfl, Or.inr ⟨hpos.ne', ?_, hdvd, hle, List.mem_cons_self, hapart⟩⟩
    refine { h with first := ?_, further := ?_, owned := ?_, apart := ?_, sound := ?_ }
    · exact List.mem_cons_of_mem _ h.first
    · exact fun b hb => List.mem_cons_of_mem _ (h.further b hb)
    · exact (h.owned.cons a).trans List.perm_middle.symm
    · exact List.pairwise_cons.mpr ⟨fun r hr => (hapart r hr).symm, h.apart⟩
    · refine List.forall_mem_cons.mpr ⟨⟨hpos, ?_, hle⟩, h.sound⟩
      exact Nat.lt_of_lt_of_le Nat.one_pos (Nat.le_max_right size 1)

/-- A block that was given out had been proposed, and begins where no other region does. -/
theorem request_given {alignment : ℕ} (hreq : request s alignment size = (s', a)) (ha : a ≠ 0) :
    s.answers = a :: s'.answers ∧ s'.live = ⟨a, Nat.max size 1⟩ :: s.live ∧
      s'.pool = s.pool ∧ Fresh s.live alignment size a := by
  unfold request at hreq
  split at hreq
  · exact absurd (Prod.mk.inj hreq).2.symm ha
  · rename_i a' answers hanswers
    split_ifs at hreq with hfresh
    · obtain ⟨rfl, rfl⟩ := Prod.mk.inj hreq
      exact ⟨hanswers, rfl, rfl, hfresh⟩
    · exact absurd (Prod.mk.inj hreq).2.symm ha

theorem Fresh.not_mem {live : List Interval} {alignment : ℕ} (h : Fresh live alignment size a)
    (hlive : ∀ r ∈ live, 0 < r.len) : a ∉ live.map (·.lo) := by
  obtain ⟨-, -, -, hapart⟩ := h
  intro hmem
  obtain ⟨r, hr, rfl⟩ := List.mem_map.mp hmem
  have hlen := hlive r hr
  have hone : 0 < Nat.max size 1 := Nat.lt_of_lt_of_le Nat.one_pos (Nat.le_max_right size 1)
  have := hapart r hr
  unfold Apart at this
  dsimp only at this
  omega

/-- The block that was asked for last is given back. -/
theorem free_first {live : List Interval} {len : ℕ} (hlive : s.live = ⟨a, len⟩ :: live)
    (ha : a ≠ 0) (hnew : a ∉ live.map (·.lo)) : free s a = some { s with live := live } := by
  have hmem : a ∈ s.live.map (·.lo) := by
    rw [hlive]
    exact List.mem_cons_self
  have hkeep : live.filter (fun r => r.lo ≠ a) = live := by
    refine List.filter_eq_self.mpr fun r hr => decide_eq_true fun heq => hnew ?_
    exact heq ▸ List.mem_map_of_mem hr
  unfold free
  rw [if_neg ha, if_pos hmem, hlive, List.filter_cons_of_neg (by simp), hkeep]

/-- The alignment of the pages is allowed. -/
theorem posixMemalign_page : posixMemalign s mpAlignment size = request s mpAlignment size :=
  if_pos (by decide)

/-- The pool that `mp_create_pool` makes in the memory at `a` -/
def created (next size a : ℕ) : MpPool where
  addr := a
  max := if size < mpMaxAllocFromPool then size else mpMaxAllocFromPool
  current := a + sizeofPool
  large := []
  pages := [⟨a + sizeofPool, sizeT (a + sizeofPool + sizeofNode),
    sizeT (sizeT (a + sizeofPool + sizeofNode) + size), 0⟩]
  rest := next

/-- A pool is created in the only memory that was taken. -/
theorem mpCreatePool_eq_some {answers : List ℕ} {next : ℕ}
    (hcreate : mpCreatePool answers next size = some s) : ∃ a answers',
      Fresh [] mpAlignment (sizeT (size + sizeofPool + sizeofNode)) a ∧
      s = ⟨created next size a, [⟨a, Nat.max (sizeT (size + sizeofPool + sizeofNode)) 1⟩],
        answers', []⟩ := by
  unfold mpCreatePool at hcreate
  dsimp only at hcreate
  rw [posixMemalign_page] at hcreate
  revert hcreate
  generalize hreq : request _ mpAlignment (sizeT (size + sizeofPool + sizeofNode)) = r
  obtain ⟨s₁, a⟩ := r
  intro hcreate
  obtain ⟨answers', ⟨rfl, rfl⟩ | ⟨hfresh, rfl⟩⟩ := request_cases hreq
  · cases hcreate
  · rw [if_neg hfresh.1.ne'] at hcreate
    exact ⟨a, answers', hfresh, (Option.some.inj hcreate).symm⟩

/-- Fresh memory is given out. -/
theorem request_of_fresh {a alignment : ℕ} {answers : List ℕ} (hanswers : s.answers = a :: answers)
    (hfresh : Fresh s.live alignment size a) : request s alignment size =
      ({ s with live := ⟨a, Nat.max size 1⟩ :: s.live, answers := answers }, a) := by
  unfold request
  rw [hanswers]
  exact if_pos hfresh

theorem mpCreatePool_of_fresh {a next : ℕ} {answers : List ℕ}
    (hfresh : Fresh [] mpAlignment (sizeT (S + sizeofPool + sizeofNode)) a) :
    mpCreatePool (a :: answers) next S = some ⟨created next S a,
      [⟨a, Nat.max (sizeT (S + sizeofPool + sizeofNode)) 1⟩], answers, []⟩ := by
  have hreq : request ⟨⟨0, 0, 0, [], [], 0⟩, [], a :: answers, []⟩ mpAlignment
      (sizeT (S + sizeofPool + sizeofNode)) = _ := request_of_fresh rfl hfresh
  unfold mpCreatePool
  simp only [posixMemalign_page, hreq]
  exact if_neg hfresh.1.ne'

/-- `free` of a block takes its region out. -/
theorem free_inv (h : Inv S tail (a :: blocks) s) (ha : a ≠ 0) :
    ∃ s', free s a = some s' ∧ Inv S tail blocks s' ∧ s'.pool = s.pool ∧
      s'.handed = s.handed := by
  have hlive : a ∈ s.live.map (·.lo) :=
    h.owned.mem_iff.mpr (List.mem_append_right _ List.mem_cons_self)
  have hnodup := List.nodup_middle.mp h.nodup
  obtain ⟨hnew, -⟩ := List.nodup_cons.mp hnodup
  have hpage : ∀ b ∈ s.pool.addr :: tail, b ≠ a := fun b hb heq =>
    hnew (heq ▸ List.mem_append_left blocks hb)
  have hkeep : ∀ r ∈ s.live, r.lo ≠ a → r ∈ s.live.filter fun r => r.lo ≠ a := fun r hr hne =>
    List.mem_filter.mpr ⟨hr, by simpa using hne⟩
  refine ⟨{ s with live := s.live.filter fun r => r.lo ≠ a }, ?_, ?_, rfl, rfl⟩
  · unfold free
    rw [if_neg ha, if_pos hlive]
  refine { h with first := ?_, further := ?_, owned := ?_, apart := ?_, sound := ?_ }
  · exact hkeep _ h.first (hpage _ List.mem_cons_self)
  · exact fun b hb => hkeep _ (h.further b hb) (hpage b (List.mem_cons_of_mem _ hb))
  · -- all other bases stay
    have hmap : (s.live.filter fun r => r.lo ≠ a).map (·.lo) =
        (s.live.map (·.lo)).filter fun b => b ≠ a := by
      rw [List.filter_map]
      rfl
    have hrest : (s.pool.addr :: tail ++ a :: blocks).filter (fun b => b ≠ a) =
        s.pool.addr :: tail ++ blocks := by
      have hfilter : ∀ l : List ℕ, (∀ b ∈ l, b ∈ s.pool.addr :: tail ++ blocks) →
          l.filter (fun b => b ≠ a) = l := fun l hl => List.filter_eq_self.mpr fun b hb =>
            decide_eq_true fun heq => hnew (heq ▸ hl b hb)
      have hblocks : (a :: blocks).filter (fun b => b ≠ a) = blocks := by
        rw [List.filter_cons_of_neg (by simp)]
        exact hfilter blocks fun b hb => List.mem_append_right _ hb
      rw [List.filter_append, hblocks, hfilter _ fun b hb => List.mem_append_left _ hb]
    change ((s.live.filter fun r => r.lo ≠ a).map (·.lo)).Perm _
    rw [hmap, ← hrest]
    exact h.owned.filter _
  · exact h.apart.filter _
  · exact fun r hr => h.sound r (List.mem_filter.mp hr).1

/-! ### Scanning the pages -/

theorem before_append_from (pool : MpPool) : beforeCurrent pool ++ fromCurrent pool = pool.pages :=
  List.takeWhile_append_dropWhile

/-- The page that the loop takes is the first one that passes the test. -/
theorem scanPages_eq_some {pages pages' : List MpNode}
    (h : scanPages fit size pages = some (pages', m)) :
    ∃ pre p post, pages = pre ++ p :: post ∧
      pages' = pre ++ { p with last := sizeT (m + size) } :: post ∧ fit p = some m ∧
      pages.find? (fun p => (fit p).isSome) = some p := by
  induction pages generalizing pages' with
  | nil => cases h
  | cons p pages ih =>
    rw [scanPages] at h
    cases hfit : fit p with
    | some m' =>
      rw [hfit] at h
      obtain ⟨rfl, rfl⟩ := Prod.mk.inj (Option.some.inj h)
      exact ⟨[], p, pages, rfl, rfl, hfit, List.find?_cons_of_pos (by simp [hfit])⟩
    | none =>
      rw [hfit] at h
      obtain ⟨⟨rest, m'⟩, hscan, heq⟩ := Option.map_eq_some_iff.mp h
      simp only [Prod.mk.injEq] at heq
      obtain ⟨rfl, rfl⟩ := heq
      obtain ⟨pre, q, post, hpages, hrest, hq, hfind⟩ := ih hscan
      refine ⟨p :: pre, q, post, by rw [hpages]; rfl, by rw [hrest]; rfl, hq, ?_⟩
      rw [List.find?_cons_of_neg (by simp [hfit])]
      exact hfind

/-- Counting failures changes no address. -/
theorem countFailed_spec (pages : List MpNode) (current : ℕ) :
    (countFailed pages current).1.map toPage = pages.map toPage ∧
      (countFailed pages current).1.map (fun p => (p.addr, p.end_)) =
        pages.map (fun p => (p.addr, p.end_)) ∧
      ((countFailed pages current).2 = current ∨
        (countFailed pages current).2 ∈ pages.map (·.addr)) := by
  induction pages generalizing current with
  | nil => exact ⟨rfl, rfl, Or.inl rfl⟩
  | cons p pages ih =>
    cases pages with
    | nil => exact ⟨rfl, rfl, Or.inl rfl⟩
    | cons q pages =>
      rw [countFailed]
      set current' := if p.failed > 4 then q.addr else current with hcurrent'
      obtain ⟨hpage, hframe, hcurrent⟩ := ih current'
      dsimp only
      refine ⟨?_, ?_, ?_⟩
      · rw [List.map_cons, hpage]
        rfl
      · rw [List.map_cons, hframe]
        rfl
      · rcases hcurrent with heq | hmem
        · by_cases hfailed : p.failed > 4
          · rw [if_pos hfailed] at hcurrent'
            exact Or.inr (by rw [heq, hcurrent']; simp)
          · rw [if_neg hfailed] at hcurrent'
            exact Or.inl (heq.trans hcurrent')
        · exact Or.inr (List.mem_cons_of_mem _ hmem)

/-- A block in a page that has room. -/
theorem Inv.place (h : Inv S tail blocks s) {pre post : List MpNode}
    (hpages : s.pool.pages = pre ++ p :: post) (hlast : p.last ≤ m) (hfit : m + size ≤ p.end_) :
    Inv S tail blocks { s with
      pool := { s.pool with pages := pre ++ { p with last := m + size } :: post }
      handed := ⟨m, size⟩ :: s.handed } := by
  have hpacked := h.packed
  have hframe := h.frame
  have hcurrent := h.current
  rw [hpages] at hpacked hframe hcurrent
  rw [List.map_append, List.map_cons] at hpacked hframe hcurrent
  refine { h with packed := ?_, frame := ?_, current := ?_ }
  · dsimp only
    rw [List.map_append, List.map_cons]
    exact hpacked.place hlast hfit
  · dsimp only
    rw [List.map_append, List.map_cons]
    exact hframe
  · dsimp only
    rw [List.map_append, List.map_cons]
    exact hcurrent

/-- The pages hold, perhaps with one more; the descriptors are as before. A block that is returned
is small, and has been handed out. -/
def Served (S size : ℕ) (blocks : List ℕ) (s : Sys) (r : Option (Sys × ℕ)) : Prop :=
  ∃ s' m, r = some (s', m) ∧
    s'.pool.large = s.pool.large ∧ s'.pool.max = s.pool.max ∧ s.live ⊆ s'.live ∧
    (s'.handed = s.handed ∧ m = 0 ∨ s'.handed = ⟨m, size⟩ :: s.handed ∧ size ≤ s.pool.max) ∧
    ∃ tail, Inv S tail blocks s'

/-! ### A new page -/

/-- The pages when `mp_alloc_block` has counted a failure on them. -/
def counted (pool : MpPool) : List MpNode :=
  beforeCurrent pool ++ (countFailed (fromCurrent pool) pool.current).1

theorem counted_toPage (pool : MpPool) : (counted pool).map toPage = pool.pages.map toPage := by
  unfold counted
  rw [List.map_append, (countFailed_spec _ _).1, ← List.map_append, before_append_from]

theorem counted_frame (pool : MpPool) :
    (counted pool).map (fun p => (p.addr, p.end_)) =
      pool.pages.map fun p => (p.addr, p.end_) := by
  unfold counted
  rw [List.map_append, (countFailed_spec _ _).2.1, ← List.map_append, before_append_from]

theorem counted_addr (pool : MpPool) : (counted pool).map (·.addr) = pool.pages.map (·.addr) := by
  have hframe := congrArg (List.map Prod.fst) (counted_frame pool)
  rwa [List.map_map, List.map_map] at hframe

/-- The page that `mp_alloc_block` makes of a region, with its first block. -/
def newPage (node psize size : ℕ) : MpNode :=
  { addr := node
    last := sizeT (mpAlignPtr (sizeT (node + sizeofNode)) + size)
    end_ := sizeT (node + psize)
    failed := 0 }

/-- The chain with that page behind it. -/
def addNode (pool : MpPool) (node psize size : ℕ) : MpPool :=
  { pool with
    pages := counted pool ++ [newPage node psize size]
    current := if (countFailed (fromCurrent pool) pool.current).2 = 0 then node
      else (countFailed (fromCurrent pool) pool.current).2
    rest := 0 }

/-- `mp_alloc_block` asks for one region, and makes a page of it. -/
theorem mpAllocBlock_cases (hrun : mpAllocBlock s size = some (s', m)) :
    ∃ head s₁ node, s.pool.pages.head? = some head ∧
      request s mpAlignment (ptrDiff head.end_ head.addr) = (s₁, node) ∧
      ((node = 0 ∧ s' = s₁ ∧ m = 0) ∨
        (node ≠ 0 ∧ m = mpAlignPtr (sizeT (node + sizeofNode)) ∧
          s' = { s₁ with
            pool := addNode s₁.pool node (ptrDiff head.end_ head.addr) size
            handed := ⟨m, size⟩ :: s₁.handed })) := by
  obtain ⟨head, hhead, hrun⟩ := Option.bind_eq_some_iff.mp hrun
  dsimp only at hrun
  rw [posixMemalign_page] at hrun
  cases hreq : request s mpAlignment (ptrDiff head.end_ head.addr) with
  | mk s₁ node =>
    rw [hreq] at hrun
    dsimp only at hrun
    refine ⟨head, s₁, node, hhead, hreq, ?_⟩
    by_cases hnode : node = 0
    · rw [if_pos hnode] at hrun
      obtain ⟨rfl, rfl⟩ := Prod.mk.inj (Option.some.inj hrun)
      exact Or.inl ⟨hnode, rfl, rfl⟩
    · rw [if_neg hnode] at hrun
      obtain ⟨rfl, rfl⟩ := Prod.mk.inj (Option.some.inj hrun)
      exact Or.inr ⟨hnode, rfl, rfl⟩

/-- `pool->current` stays one of the pages. -/
theorem current_counted {pool : MpPool} (h : pool.current ∈ pool.pages.map (·.addr)) :
    (countFailed (fromCurrent pool) pool.current).2 ∈ pool.pages.map (·.addr) := by
  rcases (countFailed_spec (fromCurrent pool) pool.current).2.2 with heq | hmem
  · rw [heq]
    exact h
  · rw [← before_append_from pool, List.map_append]
    exact List.mem_append_right _ hmem

/-- There is a head page. -/
theorem exists_cons_of_current {pool : MpPool} (h : pool.current ∈ pool.pages.map (·.addr)) :
    ∃ head pages, pool.pages = head :: pages := by
  refine List.exists_cons_of_ne_nil fun hnil => ?_
  rw [hnil] at h
  exact List.not_mem_nil h

/-- All pages have the size of the head page. -/
theorem Inv.exists_head (h : Inv S tail blocks s) :
    ∃ head pages, s.pool.pages = head :: pages ∧ ptrDiff head.end_ head.addr = 32 + S := by
  obtain ⟨head, pages, hpages⟩ := exists_cons_of_current h.current
  have hframe := h.frame
  rw [hpages, List.map_cons] at hframe
  obtain ⟨haddr, hend⟩ := Prod.mk.inj (List.cons.inj hframe).1
  have hle := h.end_le (p := head) (by rw [hpages]; exact List.mem_cons_self)
  refine ⟨head, pages, hpages, ?_⟩
  rw [ptrDiff_of_le (by omega) hle]
  omega

/-- A region that is apart from the regions of the pages is a page without blocks. -/
theorem Inv.packed_page (h : Inv S tail blocks s) {node : ℕ}
    (hapart : ∀ r ∈ s.live, Apart r ⟨node, 32 + S⟩) :
    Packed (s.pool.pages.map toPage ++ [⟨node + 32, node + 32, node + 32 + S⟩]) s.handed := by
  apply h.packed.addPage ⟨le_rfl, Nat.le_add_right _ _⟩
  intro q hq
  obtain ⟨p, hp, rfl⟩ := List.mem_map.mp hq
  unfold PagesApart toPage sizeofNode
  dsimp only
  rcases h.page_cases hp with ⟨haddr, hend⟩ | ⟨ha, hend⟩
  · have hregion := hapart _ h.first
    unfold Apart at hregion
    dsimp only at hregion
    omega
  · have hregion := hapart _ (h.further _ ha)
    unfold Apart at hregion
    dsimp only at hregion
    omega

/-- The pool with a further page, whose first block is handed out. -/
theorem Inv.addPage {node current : ℕ} {pages : List MpNode}
    (h : Inv S tail (node :: blocks) s) (hsize : size ≤ S) (hlive : ⟨node, 32 + S⟩ ∈ s.live)
    (hpacked : Packed (s.pool.pages.map toPage ++ [⟨node + 32, node + 32, node + 32 + S⟩]) s.handed)
    (hpage : pages.map toPage = s.pool.pages.map toPage)
    (hframe : pages.map (fun p => (p.addr, p.end_)) =
      s.pool.pages.map fun p => (p.addr, p.end_))
    (hcurrent : current = node ∨ current ∈ pages.map (·.addr)) :
    Inv S (tail ++ [node]) blocks { s with
      pool := { s.pool with
        pages := pages ++ [⟨node, node + 32 + size, node + 32 + S, 0⟩]
        current := current
        rest := 0 }
      handed := ⟨node + 32, size⟩ :: s.handed } where
  packed := by
    rw [List.map_append, hpage, List.map_singleton]
    exact hpacked.place le_rfl (Nat.add_le_add_left hsize _)
  frame := by
    rw [List.map_append, hframe, h.frame, List.map_append, List.cons_append]
    rfl
  first := h.first
  further b hb := by
    rcases List.mem_append.mp hb with hb | hb
    · exact h.further b hb
    · rw [List.mem_singleton.mp hb]
      exact hlive
  owned := h.owned.trans (List.Perm.of_eq (by simp))
  apart := h.apart
  sound := h.sound
  max := h.max
  current := by
    rw [List.map_append]
    rcases hcurrent with rfl | hmem
    · exact List.mem_append_right _ (List.mem_singleton_self _)
    · exact List.mem_append_left _ hmem
  rest := rfl

/-- A new page with its first block. -/
theorem mpAllocBlock_inv (h : Inv S tail blocks s) (hsize : size ≤ s.pool.max) :
    Served S size blocks s (mpAllocBlock s size) := by
  obtain ⟨head, pages, hpages, hpsize⟩ := h.exists_head
  unfold mpAllocBlock
  rw [hpages]
  simp only [List.head?_cons, Option.bind_eq_bind, Option.bind_some, hpsize]
  rw [posixMemalign_page]
  cases hreq : request s mpAlignment (32 + S) with
  | mk s₁ node =>
    obtain ⟨hpool, hcases⟩ := request_inv h hreq
    obtain ⟨hhanded, hgrown⟩ := request_keeps hreq
    rcases hcases with ⟨rfl, h₁⟩ | ⟨hne, h₁, hdvd, hle, hlive, hapart⟩
    · exact ⟨s₁, 0, if_pos rfl, by rw [hpool], by rw [hpool], hgrown, Or.inl ⟨hhanded, rfl⟩, tail,
        h₁⟩
    · dsimp only
      rw [if_neg hne]
      have hmax : Nat.max (32 + S) 1 = 32 + S := Nat.max_eq_left (by omega)
      rw [hmax] at hle hlive hapart
      have hS := h.max_le
      -- the region is aligned, so the first block begins right behind the header
      have hstart : mpAlignPtr (sizeT (node + sizeofNode)) = node + 32 := by
        unfold sizeofNode
        rw [sizeT_of_le (by omega), mpAlignPtr_of_dvd (by omega)]
        exact Nat.dvd_add hdvd (dvd_refl 32)
      have hlast : sizeT (node + 32 + size) = node + 32 + size := sizeT_of_le (by omega)
      have hstop : sizeT (node + (32 + S)) = node + 32 + S := by
        rw [sizeT_of_le hle]
        omega
      rw [hstart, hlast, hstop]
      refine ⟨_, _, rfl, by rw [← hpool], by rw [← hpool], hgrown,
        Or.inr ⟨congrArg (⟨node + 32, size⟩ :: ·) hhanded, hsize⟩, tail ++ [node],
        h₁.addPage (hsize.trans hS) hlive ?_ (counted_toPage s₁.pool) (counted_frame s₁.pool) ?_⟩
      · have hpacked := h.packed_page hapart
        rwa [hpool, hhanded]
      · split_ifs with hzero
        · exact Or.inl rfl
        · right
          change _ ∈ (counted s₁.pool).map (·.addr)
          rw [counted_addr]
          exact current_counted h₁.current

/-! ### Small requests -/

/-- The page that takes a small block, if any of them does. -/
def taker (fit : MpNode → Option ℕ) (pool : MpPool) : Option MpNode :=
  (fromCurrent pool).find? fun p => (fit p).isSome

/-- The page that would take a block of `mp_alloc` does not round up beyond its end. -/
def RoundsInside (pool : MpPool) (size : ℕ) : Prop :=
  ∀ p ∈ taker (fitAligned size) pool, mpAlignPtr p.last ≤ p.end_

instance (pool : MpPool) (size : ℕ) : Decidable (RoundsInside pool size) :=
  inferInstanceAs (Decidable (∀ p ∈ taker (fitAligned size) pool, mpAlignPtr p.last ≤ p.end_))

/-- A small request takes its block from the first page that has room, or asks for a page. -/
theorem allocSmall_cases (hrun : allocSmall fit s size = some (s', m)) :
    (∃ pre q post, taker fit s.pool = some q ∧ fit q = some m ∧ s.pool.pages = pre ++ q :: post ∧
      s' = { s with
        pool := { s.pool with pages := pre ++ { q with last := sizeT (m + size) } :: post }
        handed := ⟨m, size⟩ :: s.handed }) ∨
      (s.pool.rest = 0 ∧ mpAllocBlock s size = some (s', m)) := by
  unfold allocSmall at hrun
  split at hrun
  · cases hrun
  · rename_i p pages hfrom
    split at hrun
    · rename_i pages' m' hscan
      obtain ⟨rfl, rfl⟩ := Prod.mk.inj (Option.some.inj hrun)
      obtain ⟨pre, q, post, hold, rfl, hfit, hfind⟩ := scanPages_eq_some hscan
      refine Or.inl ⟨beforeCurrent s.pool ++ pre, q, post, ?_, hfit, ?_, ?_⟩
      · rw [taker, hfrom, hfind]
      · rw [← before_append_from s.pool, hfrom, hold, List.append_assoc]
      · rw [List.append_assoc]
    · split_ifs at hrun with hrest
      exact Or.inr ⟨not_not.mp hrest, hrun⟩

/-- A small request is served if the page that takes it has the room that it says. -/
theorem allocSmall_inv (h : Inv S tail blocks s) (hsize : size ≤ s.pool.max)
    (hroom : ∀ p ∈ s.pool.pages, ∀ m, taker fit s.pool = some p → fit p = some m →
      p.last ≤ m ∧ m + size ≤ p.end_) :
    Served S size blocks s (allocSmall fit s size) := by
  have hsplit := before_append_from s.pool
  unfold allocSmall
  cases hfrom : fromCurrent s.pool with
  | nil =>
    -- `current` is one of the pages, so the loop looks at one page at least
    obtain ⟨p, hp, haddr⟩ := List.mem_map.mp h.current
    have := List.dropWhile_eq_nil_iff.mp hfrom p hp
    simp [haddr] at this
  | cons p pages =>
    rw [hfrom] at hsplit
    dsimp only
    cases hscan : scanPages fit size (p :: pages) with
    | none =>
      dsimp only
      rw [if_neg (by rw [h.rest]; exact fun hne => hne rfl)]
      exact mpAllocBlock_inv h hsize
    | some r =>
      obtain ⟨pages', m⟩ := r
      obtain ⟨pre, q, post, hold, rfl, hfit, hfind⟩ := scanPages_eq_some hscan
      have hpages : s.pool.pages = (beforeCurrent s.pool ++ pre) ++ q :: post := by
        rw [← hsplit, hold, List.append_assoc]
      have hq : q ∈ s.pool.pages := by
        rw [hpages]
        exact List.mem_append_right _ List.mem_cons_self
      obtain ⟨hlast, hend⟩ := hroom q hq m (by rw [taker, hfrom, hfind]) hfit
      -- a block that ends in its page does not wrap
      have hm : sizeT (m + size) = m + size := sizeT_of_le (hend.trans (h.end_le hq))
      refine ⟨_, m, rfl, rfl, rfl, List.Subset.refl _, Or.inr ⟨rfl, hsize⟩, tail, ?_⟩
      rw [hm, ← List.append_assoc]
      exact h.place hpages hlast hend

/-- `mp_nalloc` never leaves its page. -/
theorem allocSmall_last (h : Inv S tail blocks s) (hsize : size ≤ s.pool.max) :
    Served S size blocks s (allocSmall (fitLast size) s size) := by
  apply allocSmall_inv h hsize
  intro p hp m _ hfit
  have hend := h.end_le hp
  obtain ⟨-, hlast⟩ := h.bounds hp
  unfold fitLast at hfit
  dsimp only at hfit
  split_ifs at hfit with hroom
  rw [ptrDiff_of_le hlast hend] at hroom
  obtain rfl := Option.some.inj hfit
  exact ⟨le_rfl, by omega⟩

/-- `mp_alloc` does not either, unless it rounds up beyond the end. -/
theorem allocSmall_aligned (h : Inv S tail blocks s) (hsize : size ≤ s.pool.max)
    (hround : RoundsInside s.pool size) :
    Served S size blocks s (allocSmall (fitAligned size) s size) := by
  apply allocSmall_inv h hsize
  intro p hp m htake hfit
  have hend := h.end_le hp
  obtain ⟨-, hlast⟩ := h.bounds hp
  have hle := hround p htake
  unfold fitAligned at hfit
  dsimp only at hfit
  split_ifs at hfit with hroom
  rw [ptrDiff_of_le hle hend] at hroom
  obtain rfl := Option.some.inj hfit
  exact ⟨(le_mpAlignPtr (hlast.trans hend)).1, by omega⟩

end MmorpgServer.PagePool
