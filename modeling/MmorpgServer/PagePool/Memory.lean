import MmorpgServer.PagePool.Layout

/-!
# Runs of a page pool in memory

A run in memory is one of the model, as long as no small request is rounded up beyond the end of its
page: then no block overlaps what the pool keeps in memory, and each operation finds it as the one
before has left it.

## Main definitions

* `readPool`, `view` — the pool as a walk through the memory finds it
* `Meets` — the small request of an operation, if it makes one, is not rounded up too far
* `NewPool` — a pool has been created
* `Tracks` — the pool in memory is one of the model between two operations

## Main results

* `Tracks.call` — an operation that meets the condition
* `Tracks.exec` — a run
* `NewPool.tracks`, `NewPool.exec` — the pool that a run begins with, and the run
-/

namespace MmorpgServer.PagePool

open Bump

variable {S : ℕ} {s s' : Sys} {alignment size m : ℕ} {act : Act}

/-! ### The guard -/

/-- What was handed out is nothing to the allocator. -/
theorem request_handed (s : Sys) (handed : List Interval) (alignment size : ℕ) :
    (request { s with handed := handed } alignment size).2 = (request s alignment size).2 := by
  unfold request
  dsimp only
  split
  · rfl
  · split_ifs <;> rfl

theorem posixMemalign_handed (s : Sys) (handed : List Interval) (alignment size : ℕ) :
    (posixMemalign { s with handed := handed } alignment size).2 =
      (posixMemalign s alignment size).2 := by
  unfold posixMemalign
  split_ifs
  · exact request_handed s handed alignment size
  · rfl

/-- Nor to the guard. -/
theorem guard_handed (s : Sys) (handed : List Interval) (act : Act) :
    Guard { s with handed := handed } act ↔ Guard s act := by
  have hmakes : ∀ size, MakesDescriptor { s with handed := handed } size ↔
      MakesDescriptor s size := fun size => by
    unfold MakesDescriptor malloc
    rw [request_handed]
  cases act with
  | alloc | calloc | nalloc => simp only [Guard, hmakes]
  | memalign => simp only [Guard, posixMemalign_handed]
  | free | reset => exact Iff.rfl

/-! ### One operation of the model -/

/-- An operation that meets the guard returns, with one descriptor more at most, and what
`mp_calloc` returns is a block. -/
theorem deepCall_inv (h : Clean S s) (hguard : Guard s act) :
    ∃ s' m, deepCall s act = some (s', m) ∧ Clean S s' ∧
      s'.pool.large.length ≤ s.pool.large.length + 1 ∧
      ∀ size, act = .calloc size → m ≠ 0 → Lent s' m size := by
  have hmax : s.pool.max < sizeofLarge → s.answers.length < s.answers.length + 2 :=
    fun _ => by omega
  cases act with
  | alloc size =>
    obtain ⟨s', m, hrun, h', hlength, -⟩ := mpAlloc_inv h hguard.1 hguard.2 hmax
    exact ⟨s', m, hrun, h', hlength, fun _ heq => Act.noConfusion heq⟩
  | calloc size =>
    obtain ⟨s', m, hrun, h', hlength, hlent⟩ := mpAlloc_inv h hguard.1 hguard.2 hmax
    refine ⟨s', m, hrun, h', hlength, fun size' heq hm => ?_⟩
    obtain rfl := Act.calloc.inj heq
    exact hlent hm
  | nalloc size =>
    obtain ⟨s', m, hrun, h', hlength, -⟩ := mpNalloc_inv h hguard hmax
    exact ⟨s', m, hrun, h', hlength, fun _ heq => Act.noConfusion heq⟩
  | memalign size alignment =>
    obtain ⟨s', m, hrun, h', hlength, -⟩ := mpMemalign_inv h hguard hmax
    exact ⟨s', m, hrun, h', hlength, fun _ heq => Act.noConfusion heq⟩
  | free a =>
    obtain ⟨s', hrun, h', hlength⟩ := mpFree_inv (a := a) h
    exact ⟨s', 0, by simp [deepCall, hrun], h', hlength.le.trans (Nat.le_succ _),
      fun _ heq => Act.noConfusion heq⟩
  | reset =>
    obtain ⟨s', hrun, h', hnil⟩ := mpResetPool_inv h
    exact ⟨s', 0, by simp [deepCall, hrun], h', by rw [hnil]; exact Nat.zero_le _,
      fun _ heq => Act.noConfusion heq⟩

theorem deepStep_of_call (hrun : deepCall s act = some (s', m)) : deepStep s act = some s' := by
  rw [deepStep_eq, hrun]
  rfl

end MmorpgServer.PagePool

namespace MmorpgServer.PagePool.Linked

open Bump ByteMemory Words Machine

variable {S n p fuel m : ℕ} {h h' h₀ : Heap} {s s' : Sys} {act : Act} {acts : List Act}
  {pages : List MpNode} {large : List MpLarge}

/-! ### Walks -/

/-- The pages from `p` on, up to `NULL` -/
def readPages : (fuel : ℕ) → Heap → (p : ℕ) → Option (List MpNode)
  | 0, _, _ => none
  | fuel + 1, h, p =>
    if p = 0 then some []
    else do
      let last ← h.read (lastAt p)
      let end_ ← h.read (endAt p)
      let next ← h.read (nextAt p)
      let failed ← h.read (failedAt p)
      let pages ← readPages fuel h next
      return { addr := p, last := last, end_ := end_, failed := failed } :: pages

/-- The descriptors from `l` on, up to `NULL` -/
def readLarge : (fuel : ℕ) → Heap → (l : ℕ) → Option (List MpLarge)
  | 0, _, _ => none
  | fuel + 1, h, l =>
    if l = 0 then some []
    else do
      let next ← h.read (nextLargeAt l)
      let alloc ← h.read (allocAt l)
      let large ← readLarge fuel h next
      return { addr := l, alloc := alloc } :: large

/-- The pool at `p`, if its chain and its descriptors end in `NULL` -/
def readPool (fuel p : ℕ) (h : Heap) : Option MpPool := do
  let max ← h.read (maxAt p)
  let current ← h.read (currentAt p)
  let first ← h.read (largeAt p)
  let pages ← readPages fuel h (headAt p)
  let large ← readLarge fuel h first
  return { addr := p, max := max, current := current, large := large, pages := pages, rest := 0 }

/-- The pool and its environment, without the blocks that were handed out -/
def view (fuel p : ℕ) (h : Heap) : Option Sys :=
  (readPool fuel p h).map fun pool =>
    { pool := pool, live := h.live, answers := h.answers.map Prod.fst, handed := [] }

/-- The small request that an operation makes, its own or that for a descriptor, does not round up
beyond the end of the page that takes it. -/
def Meets (fuel p : ℕ) (h : Heap) (act : Act) : Prop := ∃ s, s ∈ view fuel p h ∧ Guard s act

instance (fuel p : ℕ) (h : Heap) (act : Act) : Decidable (Meets fuel p h act) :=
  inferInstanceAs (Decidable (∃ s, s ∈ view fuel p h ∧ Guard s act))

theorem readPages_stored (hst : Stored h (pageWords pages 0)) (hfuel : pages.length < fuel) :
    readPages fuel h (firstPage pages 0) = some pages := by
  induction fuel generalizing pages with
  | zero => exact absurd hfuel (Nat.not_lt_zero _)
  | succ fuel ih =>
    cases pages with
    | nil => rfl
    | cons q pages =>
      obtain ⟨hlast, hend, hnext, hfailed, hpos, hrest⟩ := hst.page
      rw [firstPage, readPages, if_neg hpos, hlast, hend, hnext, hfailed]
      simp only [Option.bind_eq_bind, Option.bind_some]
      rw [ih hrest (Nat.lt_of_succ_lt_succ hfuel)]
      rfl

theorem readLarge_stored (hst : Stored h (largeWords large)) (hfuel : large.length < fuel) :
    readLarge fuel h (firstLarge large) = some large := by
  induction fuel generalizing large with
  | zero => exact absurd hfuel (Nat.not_lt_zero _)
  | succ fuel ih =>
    cases large with
    | nil => rfl
    | cons l large =>
      have hpos : 0 < l.addr :=
        hst.sited.pos (nextLargeAt l.addr, firstLarge large) List.mem_cons_self
      have hnext : h.read (nextLargeAt l.addr) = some (firstLarge large) :=
        hst.read List.mem_cons_self
      have halloc : h.read (allocAt l.addr) = some l.alloc :=
        hst.read (List.mem_cons_of_mem _ List.mem_cons_self)
      rw [firstLarge, readLarge, if_neg hpos.ne', hnext, halloc]
      simp only [Option.bind_eq_bind, Option.bind_some]
      rw [ih hst.tail.tail (Nat.lt_of_succ_lt_succ hfuel)]
      rfl

/-- The walks find the pool of the model. -/
theorem Rep.readPool (hrep : Rep p h s) (hfuel : s.pool.pages.length < fuel)
    (hfuel' : s.pool.large.length < fuel) : readPool fuel p h = some s.pool := by
  obtain ⟨hmax, hcurrent, hlarge⟩ := hrep.fields
  unfold Linked.readPool
  rw [hmax, hcurrent, hlarge, ← hrep.head, readPages_stored hrep.storedPages hfuel]
  simp only [Option.bind_eq_bind, Option.bind_some]
  rw [readLarge_stored hrep.storedLarge hfuel']
  have haddr := hrep.addr
  have hrest := hrep.rest
  cases s with
  | mk pool live answers handed =>
    cases pool
    dsimp only at haddr hrest
    rw [← haddr, hrest]
    rfl

theorem Rep.view (hrep : Rep p h s) (hfuel : s.pool.pages.length < fuel)
    (hfuel' : s.pool.large.length < fuel) :
    view fuel p h = some { s with handed := [] } := by
  unfold Linked.view
  rw [hrep.readPool hfuel hfuel', hrep.live, hrep.answers]
  rfl

/-! ### Runs -/

/-- The pool at `p` is a pool of the model between two operations, with `n` further pages and `n`
descriptors at most. -/
structure Tracks (S p n : ℕ) (h : Heap) (s : Sys) : Prop where
  rep : Rep p h s
  clean : Clean S s
  scans : ∃ tail, Scans p tail s
  pages : s.pool.pages.length ≤ n + 1
  large : s.pool.large.length ≤ n

theorem Tracks.readPool (h : Tracks S p n h₀ s) (hfuel : n + 1 < fuel) :
    readPool fuel p h₀ = some s.pool :=
  h.rep.readPool (h.pages.trans_lt hfuel) (h.large.trans_lt (Nat.lt_of_succ_lt hfuel))

theorem Tracks.view (h : Tracks S p n h₀ s) (hfuel : n + 1 < fuel) :
    view fuel p h₀ = some { s with handed := [] } :=
  h.rep.view (h.pages.trans_lt hfuel) (h.large.trans_lt (Nat.lt_of_succ_lt hfuel))

theorem Tracks.max (h : Tracks S p n h₀ s) : s.pool.max = maxOf S := by
  obtain ⟨tail, hinv⟩ := h.clean.regions
  exact hinv.max

/-- The condition in memory is that of the model. -/
theorem Tracks.guard (h : Tracks S p n h₀ s) (hfuel : n + 1 < fuel)
    (hmeets : Meets fuel p h₀ act) : Guard s act := by
  obtain ⟨t, ht, hguard⟩ := hmeets
  obtain rfl := Option.some.inj ((h.view hfuel).symm.trans ht)
  exact (guard_handed s [] act).mp hguard

/-- No page is counted on for ever. -/
theorem Scans.failed_le {tail : List ℕ} (h : Scans p tail s) :
    ∀ q ∈ s.pool.pages, q.failed ≤ 6 := by
  intro q hq
  rw [← before_append_from s.pool] at hq
  have hmem : q.failed ∈ failures (beforeCurrent s.pool) ++ failures (fromCurrent s.pool) := by
    rw [failures, failures, ← List.map_append]
    exact List.mem_map_of_mem hq
  exact h.window.le hmem

theorem Scans.failed_lt {tail : List ℕ} (h : Scans p tail s) :
    ∀ q ∈ s.pool.pages, q.failed < 2 ^ 64 :=
  fun q hq => (Scans.failed_le h q hq).trans_lt (by decide)

theorem Tracks.failed_lt (h : Tracks S p n h₀ s) : ∀ q ∈ s.pool.pages, q.failed < 2 ^ 64 := by
  obtain ⟨tail, hscans⟩ := h.scans
  exact Scans.failed_lt hscans

theorem step_of_call (hone : call fuel p h act = some (h', m)) : step fuel p h act = some h' :=
  congrArg (Option.map Prod.fst) hone

/-- **An operation that meets the condition.** -/
theorem Tracks.call (h : Tracks S p n h₀ s) (hfuel : n + 1 < fuel)
    (hmeets : Meets fuel p h₀ act) :
    ∃ h' s' m, call fuel p h₀ act = some (h', m) ∧ deepCall s act = some (s', m) ∧
      Tracks S p (n + 1) h' s' := by
  obtain ⟨tail, hscans⟩ := h.scans
  obtain ⟨s', m, hrun, hclean, hlength, hlent⟩ := deepCall_inv h.clean (h.guard hfuel hmeets)
  -- the counts of the pages are those of the window
  have hstep := deepStep_of_call hrun
  obtain ⟨t, tail', hdeep, hscans'⟩ := hscans.step act
  obtain rfl := Option.some.inj (hdeep.symm.trans hstep)
  have hfailed := Scans.failed_lt hscans'
  have hroomy : Roomy s act t m :=
    ⟨hclean.laid hfailed, fun size hact hm => (hlent size hact hm).clears hclean,
      fun _ => h.clean.freesBlocks h.failed_lt⟩
  have hpages := h.pages
  have hlarge := h.large
  have hfuel₁ : s.pool.pages.length < fuel := by omega
  have hfuel₂ : s.pool.large.length < fuel := by omega
  obtain ⟨h', hone, hrep⟩ := call_follows h.rep hfuel₁ hfuel₂ hrun hroomy
  have hmore := (deepStep_moves hstep).length.2
  exact ⟨h', t, m, hone, hrun, hrep, hclean, ⟨tail', hscans'⟩, by omega, by omega⟩

/-- **A run whose calls meet the condition.** -/
theorem Tracks.exec (h : Tracks S p n h₀ s) (hfuel : n + acts.length + 1 < fuel)
    (hguard : Guarded (step fuel p) (Meets fuel p) h₀ acts) :
    ∃ h' s', exec (step fuel p) h₀ acts = some h' ∧ exec deepStep s acts = some s' ∧
      Tracks S p (n + acts.length) h' s' := by
  induction acts generalizing h₀ s n with
  | nil => exact ⟨h₀, s, rfl, rfl, h⟩
  | cons act acts ih =>
    rw [List.length_cons] at hfuel ⊢
    -- each call adds one page and one descriptor at most, so the bound grows by one
    obtain ⟨h₁, s₁, m, hone, hdeep, htracks⟩ := h.call (by omega) hguard.1
    have hstep := step_of_call hone
    obtain ⟨h', s', hrest, hrest', htracks'⟩ := ih htracks (by omega) (hguard.2 h₁ hstep)
    refine ⟨h', s', exec_cons_eq_some.mpr ⟨h₁, hstep, hrest⟩,
      exec_cons_eq_some.mpr ⟨s₁, deepStep_of_call hdeep, hrest'⟩, ?_⟩
    rwa [Nat.add_right_comm n 1] at htracks'

/-- The pool can be destroyed, and nothing is left. -/
theorem Tracks.destroy (h : Tracks S p n h₀ s) (hfuel : n + 1 < fuel) :
    ∃ h', mpDestoryPool fuel h₀ p = some h' ∧ h'.live = [] := by
  obtain ⟨tail, hscans⟩ := h.scans
  obtain ⟨s', hrun, hnil⟩ := mpDestoryPool_regions hscans.regions
  have hnodup := Scans.nodup hscans.regions hscans.head hscans.further
  obtain ⟨h', hone, hlive⟩ := mpDestoryPool_follows h.rep (h.pages.trans_lt hfuel)
    (h.large.trans_lt (Nat.lt_of_succ_lt hfuel)) hrun (h.clean.freesBlocks h.failed_lt) hnodup
    fun s₁ hfree => h.clean.pageRegions hfree
  exact ⟨h', hone, hlive.trans hnil⟩

/-! ### A new pool -/

/-- A pool has been created at `p`. Its size does not overflow, and the memory held `NULL` where
`head->next` is. -/
structure NewPool (S p : ℕ) (h : Heap) : Prop where
  created : ∃ mem answers, mpCreatePool ⟨mem, [], answers⟩ S = some (h, p)
  pos : p ≠ 0
  size : S + sizeofPool + sizeofNode < 2 ^ 64
  next : h.read (nextAt (headAt p)) = some 0

theorem request_given {alignment size a : ℕ} (hreq : h.request alignment size = (h', a))
    (ha : a ≠ 0) : ∃ contents answers, h.answers = (a, contents) :: answers ∧
      Fresh h.live alignment size a ∧
      h' = ⟨paste h.mem contents a (Nat.max size 1), ⟨a, Nat.max size 1⟩ :: h.live, answers⟩ := by
  unfold Heap.request at hreq
  split at hreq
  · exact absurd (Prod.mk.inj hreq).2.symm ha
  · rename_i a' contents answers hanswers
    split_ifs at hreq with hfresh
    · obtain ⟨rfl, rfl⟩ := Prod.mk.inj hreq
      exact ⟨contents, answers, hanswers, hfresh, rfl⟩
    · exact absurd (Prod.mk.inj hreq).2.symm ha

/-- There is room for a new pool in the memory that was asked for. -/
theorem created_laid {a x : ℕ} {live : List Interval}
    (hfresh : Fresh [] mpAlignment (S + sizeofPool + sizeofNode) a)
    (hlive : ⟨a, Nat.max (S + sizeofPool + sizeofNode) 1⟩ ∈ live) (hx : x < 2 ^ 64) :
    Sited live (words (created x S a)) ∧ Fits (words (created x S a)) := by
  obtain ⟨hpos, -, hle, -⟩ := hfresh
  have hbytes : S + sizeofPool + sizeofNode ≤ Nat.max (S + sizeofPool + sizeofNode) 1 :=
    Nat.le_max_left _ 1
  unfold sizeofPool sizeofNode at hbytes hle hlive
  constructor
  · have haddrs : (words (created x S a)).map Prod.fst = (headers a []).flatMap (addresses 8) :=
      (words_areas (show (created x S a).pages.map (·.addr) = _ :: [] from rfl)).trans
        (congrArg _ (List.append_nil _))
    refine sited_of_areas haddrs (List.pairwise_singleton _ _) ?_ ?_
    · exact List.forall_mem_singleton.mpr ⟨_, hlive, le_rfl, by
        unfold sizeofPool sizeofNode
        dsimp only
        omega⟩
    · exact List.forall_mem_singleton.mpr hpos
  · have hmax : (created x S a).max < 2 ^ 64 := by
      unfold created mpMaxAllocFromPool mpPageSize
      dsimp only
      split_ifs <;> omega
    have hhead : a + sizeofPool < 2 ^ 64 := by
      unfold sizeofPool
      omega
    refine List.forall_mem_append.mpr ⟨?_, List.forall_mem_append.mpr ⟨?_, ?_⟩⟩
    · exact List.forall_mem_cons.mpr ⟨hmax, List.forall_mem_cons.mpr ⟨hhead,
        List.forall_mem_singleton.mpr (show 0 < 2 ^ 64 by decide)⟩⟩
    · exact pageWords_fits hx (List.forall_mem_singleton.mpr
        ⟨hhead, sizeT_lt _, sizeT_lt _, by dsimp only; decide⟩)
    · exact fun _ hw => absurd hw List.not_mem_nil

/-- The field `next` of the head page. -/
theorem next_mem_created (x S a : ℕ) : (nextAt (headAt a), x) ∈ words (created x S a) := by
  simp [words, created, pageWords, firstPage, headAt]

/-- `mp_create_pool` writes the words of a new pool, but not the field `next` of the head page. -/
theorem create_stored {a : ℕ} {h₁ : Heap}
    (hreq : h₀.posixMemalign mpAlignment (sizeT (S + sizeofPool + sizeofNode)) = (h₁, a))
    (ha : a ≠ 0) (hlaid : ∀ x < 2 ^ 64, Sited h₁.live (words (created x S a)) ∧
      Fits (words (created x S a))) :
    ∃ mem, mpCreatePool h₀ S = some ({ h₁ with mem := mem }, a) ∧
      Stored { h₁ with mem := mem } (words (created (load h₁.mem 8 (nextAt (headAt a))) S a)) := by
  obtain ⟨hsited, hfits⟩ := hlaid 0 (by decide)
  obtain ⟨f, hst⟩ := exists_stored hsited
  set max := if S < mpMaxAllocFromPool then S else mpMaxAllocFromPool with hmax
  set last := sizeT (a + sizeofPool + sizeofNode) with hlast
  set q := headAt a with hq
  -- the words hold anything before
  have hst₀ : Stored h₁ [(maxAt a, f (maxAt a)), (currentAt a, f (currentAt a)),
      (largeAt a, f (largeAt a)), (lastAt q, f (lastAt q)), (endAt q, f (endAt q)),
      (nextAt q, f (nextAt q)), (failedAt q, f (failedAt q))] := hst
  have hnext : load h₁.mem 8 (nextAt q) = f (nextAt q) :=
    hst₀.holds (nextAt q, f (nextAt q)) (by simp)
  obtain ⟨mem₁, hwrite₁, hedits₁⟩ := hst₀.write (v := max) [] (hfits (maxAt a, max)
    List.mem_cons_self)
  have hst₁ := hst₀.edits hedits₁
  obtain ⟨mem₂, hwrite₂, hedits₂⟩ := hst₁.write (v := q) [(maxAt a, max)] (hfits (currentAt a, q)
    (List.mem_cons_of_mem _ List.mem_cons_self))
  have hst₂ := hst₁.edits hedits₂
  obtain ⟨mem₃, hwrite₃, hedits₃⟩ := hst₂.write (v := 0) [(maxAt a, max), (currentAt a, q)]
    (by decide)
  have hst₃ := hst₂.edits hedits₃
  obtain ⟨mem₄, hwrite₄, hedits₄⟩ := hst₃.write (v := last)
    [(maxAt a, max), (currentAt a, q), (largeAt a, 0)] (sizeT_lt _)
  have hst₄ := hst₃.edits hedits₄
  obtain ⟨mem₅, hwrite₅, hedits₅⟩ := hst₄.write (v := sizeT (last + S))
    [(maxAt a, max), (currentAt a, q), (largeAt a, 0), (lastAt q, last)] (sizeT_lt _)
  have hst₅ := hst₄.edits hedits₅
  obtain ⟨mem₆, hwrite₆, hedits₆⟩ := hst₅.write (v := 0)
    [(maxAt a, max), (currentAt a, q), (largeAt a, 0), (lastAt q, last),
      (endAt q, sizeT (last + S)), (nextAt q, f (nextAt q))] (by decide)
  refine ⟨mem₆, ?_, hnext ▸ hst₅.edits hedits₆⟩
  unfold mpCreatePool
  rw [hreq]
  dsimp only at hwrite₁ hwrite₂ hwrite₃ hwrite₄ hwrite₅ hwrite₆ ⊢
  rw [if_neg ha, ← hmax, ← hlast, ← hq]
  simp only [hwrite₁, hwrite₂, hwrite₃, hwrite₄, hwrite₅, hwrite₆, Option.bind_eq_bind,
    Option.bind_some]
  rfl

/-- A pool for which there is memory, whose size does not overflow. -/
theorem create_some {mem : Memory} {answers : List (ℕ × Memory)} {a : ℕ} {h₁ : Heap}
    (hreq : Heap.posixMemalign ⟨mem, [], answers⟩ mpAlignment
      (sizeT (S + sizeofPool + sizeofNode)) = (h₁, a)) (ha : a ≠ 0)
    (hsize : S + sizeofPool + sizeofNode < 2 ^ 64) :
    ∃ mem' s, mpCreatePool ⟨mem, [], answers⟩ S = some ({ h₁ with mem := mem' }, a) ∧
      Stored { h₁ with mem := mem' } (words (created (load h₁.mem 8 (nextAt (headAt a))) S a)) ∧
      PagePool.mpCreatePool (answers.map Prod.fst) 0 S = some s ∧
      s = ⟨created 0 S a, h₁.live, h₁.answers.map Prod.fst, []⟩ ∧ h₁.live.map (·.lo) = [a] := by
  have hbytes : sizeT (S + sizeofPool + sizeofNode) = S + sizeofPool + sizeofNode :=
    Nat.mod_eq_of_lt hsize
  have hmemalign := hreq
  unfold Heap.posixMemalign at hmemalign
  rw [if_pos (by decide)] at hmemalign
  obtain ⟨contents, answers', hanswers, hfresh, rfl⟩ := request_given hmemalign ha
  dsimp only at hanswers
  subst hanswers
  have hlaid : ∀ x < 2 ^ 64, Sited [⟨a, Nat.max (sizeT (S + sizeofPool + sizeofNode)) 1⟩]
      (words (created x S a)) ∧ Fits (words (created x S a)) := by
    rw [hbytes] at hfresh ⊢
    exact fun x hx => created_laid hfresh List.mem_cons_self hx
  obtain ⟨mem', hcreate, hst⟩ := create_stored hreq ha hlaid
  exact ⟨mem', _, hcreate, hst, mpCreatePool_of_fresh hfresh, rfl, rfl⟩

/-- A new pool in whose memory `head->next` is `NULL` -/
theorem tracks_of_stored {answers : List ℕ} (haddr : s.pool = created 0 S p)
    (hlive : h.live = s.live) (hanswers : h.answers.map Prod.fst = s.answers)
    (hst : Stored h (words (created 0 S p))) (hsize : S + sizeofPool + sizeofNode < 2 ^ 64)
    (hcreate : PagePool.mpCreatePool answers 0 S = some s) : Tracks S p 0 h s := by
  obtain ⟨p', hscans⟩ := create_scans hcreate
  have hp : p' = p := by rw [← hscans.regions.addr, haddr]; rfl
  refine ⟨⟨hlive, hanswers, by rw [haddr]; rfl, by rw [haddr]; rfl, by rw [haddr]; rfl,
    by rwa [haddr]⟩, mpCreatePool_inv hsize hcreate, ⟨[], hp ▸ hscans⟩, ?_, ?_⟩
  · rw [haddr]
    exact Nat.le_refl 1
  · rw [haddr]
    exact Nat.le_refl 0

/-- A pool that has been created. -/
theorem create_eq_some {mem : Memory} {answers : List (ℕ × Memory)}
    (hcreate : mpCreatePool ⟨mem, [], answers⟩ S = some (h₀, p)) (hp : p ≠ 0)
    (hsize : S + sizeofPool + sizeofNode < 2 ^ 64) :
    ∃ h₁ s, Heap.posixMemalign ⟨mem, [], answers⟩ mpAlignment
        (sizeT (S + sizeofPool + sizeofNode)) = (h₁, p) ∧
      Stored h₀ (words (created (load h₁.mem 8 (nextAt (headAt p))) S p)) ∧
      PagePool.mpCreatePool (answers.map Prod.fst) 0 S = some s ∧
      s = ⟨created 0 S p, h₀.live, h₀.answers.map Prod.fst, []⟩ := by
  cases hreq : Heap.posixMemalign ⟨mem, [], answers⟩ mpAlignment
      (sizeT (S + sizeofPool + sizeofNode)) with
  | mk h₁ a =>
    by_cases ha : a = 0
    · -- there is no memory
      unfold mpCreatePool at hcreate
      rw [hreq] at hcreate
      dsimp only at hcreate
      rw [if_pos ha] at hcreate
      exact absurd (Prod.mk.inj (Option.some.inj hcreate)).2.symm hp
    · obtain ⟨mem', s, hcreate', hst, hmodel, hs, -⟩ := create_some hreq ha hsize
      obtain ⟨rfl, rfl⟩ := Prod.mk.inj (Option.some.inj (hcreate'.symm.trans hcreate))
      exact ⟨h₁, s, rfl, hst, hmodel, hs⟩

/-- **The pool that a run begins with.** -/
theorem NewPool.tracks (hnew : NewPool S p h₀) : ∃ s, Tracks S p 0 h₀ s := by
  obtain ⟨⟨mem, answers, hcreate⟩, hp, hsize, hnext⟩ := hnew
  obtain ⟨h₁, s, -, hst, hmodel, hs⟩ := create_eq_some hcreate hp hsize
  have hread := hst.read (next_mem_created _ S p)
  rw [Option.some.inj (hread.symm.trans hnext)] at hst
  exact ⟨s, tracks_of_stored (by rw [hs]) (by rw [hs]) (by rw [hs]) hst hsize hmodel⟩

/-- **A run on a new pool.** -/
theorem NewPool.exec (hnew : NewPool S p h₀) (hfuel : acts.length + 1 < fuel)
    (hguard : Guarded (step fuel p) (Meets fuel p) h₀ acts) :
    ∃ h s, Machine.exec (step fuel p) h₀ acts = some h ∧ Tracks S p acts.length h s := by
  obtain ⟨s₀, htracks⟩ := hnew.tracks
  rw [← Nat.zero_add acts.length] at hfuel ⊢
  obtain ⟨h, s, hrun, -, htracks'⟩ := htracks.exec hfuel hguard
  exact ⟨h, s, hrun, htracks'⟩

/-- Memory that is all zero, of which nothing is allocated -/
def blank (answers : List ℕ) : Heap := ⟨fun _ => 0, [], answers.map fun a => (a, fun _ => 0)⟩

theorem load_zero (n a : ℕ) : load (fun _ => 0) n a = 0 := by
  induction n generalizing a with
  | zero => rfl
  | succ n ih =>
    rw [load, ih]
    rfl

/-- A pool in memory that was all zero. -/
theorem newPool_blank {answers : List ℕ} (hcreate : mpCreatePool (blank answers) S = some (h₀, p))
    (hp : p ≠ 0) (hsize : S + sizeofPool + sizeofNode < 2 ^ 64) : NewPool S p h₀ := by
  obtain ⟨h₁, s, hreq, hst, -⟩ := create_eq_some hcreate hp hsize
  refine ⟨⟨_, _, hcreate⟩, hp, hsize, ?_⟩
  rw [hst.read (next_mem_created _ S p)]
  unfold Heap.posixMemalign at hreq
  rw [if_pos (by decide)] at hreq
  obtain ⟨contents, rest, hanswers, -, rfl⟩ := request_given hreq hp
  -- what was there before is zero, and what the allocator gives out is, too
  have hmem : (p, contents) ∈ answers.map fun a => (a, (fun _ => 0 : Memory)) := by
    dsimp only at hanswers
    rw [hanswers]
    exact List.mem_cons_self
  obtain ⟨a, -, heq⟩ := List.mem_map.mp hmem
  obtain rfl := (Prod.mk.inj heq).2
  have hzero : paste (fun _ => 0) (fun _ => 0) p
      (Nat.max (sizeT (S + sizeofPool + sizeofNode)) 1) = fun _ => 0 := funext fun _ => ite_self 0
  rw [hzero, load_zero]

end MmorpgServer.PagePool.Linked
