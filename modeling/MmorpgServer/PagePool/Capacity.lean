import MmorpgServer.PagePool.Window
import MmorpgServer.Lib.FirstFit

/-!
# What a reset gives back

`mp_reset_pool` empties all pages, but leaves `current` and the counts of failures as they are.
The pages before `current` are never looked at again, so they are lost. To a small request a
page is a gap, with some bytes of room behind some boundary, and `mp_alloc` is first fit on the
gaps from `current` on.

## Main definitions

* `Gap`, `gap` — what a request sees of a page
* `emptied` — the gaps of the pages that a reset pool still looks at
* `GivenBack` — behind a reset, requests are served from the pages that there are

## Main results

* `Paged.run` — the requests before the reset are first fit with fresh pages
* `givenBack_iff` — the requests behind it are first fit on the gaps from `current` on
* `capacity_iff` — when the capacity is given back
* `capacity_lost` — eight pages are too many
-/

namespace MmorpgServer.PagePool

open Bump Machine FirstFit

variable {S p size m : ℕ} {s s' s₁ : Sys} {pool : MpPool} {pages pages' : List MpNode}
  {tail sizes : List ℕ} {answers : List ℕ}

/-! ### Gaps -/

/-- The free end of a page: how many bytes it has, and how far behind a boundary it begins. -/
structure Gap where
  room : ℕ
  phase : ℕ
  deriving DecidableEq

/-- The room behind the next boundary, as the test of `mp_alloc` computes it. -/
def Gap.aligned (g : Gap) : ℕ :=
  sizeT (g.room + 2 ^ 64 - (mpAlignment - g.phase % mpAlignment) % mpAlignment)

/-- Take a block, if there is room for it. -/
def Gap.put (size : ℕ) (g : Gap) : Option Gap :=
  if size ≤ g.aligned then some ⟨g.aligned - size, size % mpAlignment⟩ else none

def gap (p : MpNode) : Gap := ⟨ptrDiff p.end_ (sizeT p.last), p.last % mpAlignment⟩

/-- A page as `mp_reset_pool` leaves it. -/
def emptyPage (p : MpNode) : MpNode := { p with last := sizeT (p.addr + sizeofNode) }

theorem aligned_gap (p : MpNode) : (gap p).aligned = ptrDiff p.end_ (mpAlignPtr p.last) := by
  unfold Gap.aligned gap ptrDiff mpAlignPtr sizeT mpAlignment
  dsimp only
  omega

/-- The test of `mp_alloc` sees only the gap of a page, and what it leaves is a gap again. -/
theorem gap_put (size : ℕ) (p : MpNode) :
    Gap.put size (gap p) =
      ((fitAligned size p).map fun m => { p with last := sizeT (m + size) }).map gap := by
  unfold Gap.put fitAligned
  rw [aligned_gap]
  dsimp only
  by_cases hroom : size ≤ ptrDiff p.end_ (mpAlignPtr p.last)
  · rw [if_pos hroom, if_pos hroom, Option.map_some, Option.map_some]
    unfold gap ptrDiff mpAlignPtr sizeT mpAlignment at *
    dsimp only
    congr 2 <;> omega
  · rw [if_neg hroom, if_neg hroom, Option.map_none, Option.map_none]

theorem place_pages (size : ℕ) (pages : List MpNode) :
    place (fun p => (fitAligned size p).map fun m => { p with last := sizeT (m + size) }) pages =
      (scanPages (fitAligned size) size pages).map Prod.fst := by
  induction pages with
  | nil => rfl
  | cons p pages ih =>
    rw [place, scanPages]
    cases fitAligned size p with
    | some m => rfl
    | none =>
      dsimp only [Option.map_none]
      rw [ih, Option.map_map, Option.map_map]
      rfl

/-- The loop of `mp_alloc` is first fit on the gaps. -/
theorem place_gap (size : ℕ) (pages : List MpNode) :
    place (Gap.put size) (pages.map gap) =
      (scanPages (fitAligned size) size pages).map fun r => r.1.map gap := by
  rw [place_map (gap_put size), place_pages, Option.map_map]
  rfl

/-! ### Empty pages -/

/-- The gaps of `n` empty pages, of which the first one is the head. -/
def emptyGaps (S n : ℕ) : List Gap := ⟨S, 24⟩ :: List.replicate (n - 1) ⟨S, 0⟩

/-- All pages have room for `S` bytes when they are empty. -/
structure Shaped (S : ℕ) (pages : List MpNode) : Prop where
  addr : ∀ q ∈ pages, q.addr < 2 ^ 64
  empty : pages.map (fun q => gap (emptyPage q)) = emptyGaps S pages.length

theorem emptyGaps_concat {n : ℕ} (hn : 0 < n) :
    emptyGaps S n ++ [⟨S, 0⟩] = emptyGaps S (n + 1) := by
  unfold emptyGaps
  rw [List.cons_append, ← List.replicate_succ', Nat.sub_add_cancel hn, Nat.add_sub_cancel]

/-- The shape depends on nothing but the addresses and the ends. -/
theorem Shaped.congr (h : Shaped S pages)
    (hframe : pages'.map (fun q => (q.addr, q.end_)) = pages.map fun q => (q.addr, q.end_)) :
    Shaped S pages' := by
  have hlength : pages'.length = pages.length := by simpa using congrArg List.length hframe
  have haddr := congrArg (List.map Prod.fst) hframe
  have hempty := congrArg (List.map fun x : ℕ × ℕ => gap (emptyPage ⟨x.1, 0, x.2, 0⟩)) hframe
  rw [List.map_map, List.map_map] at haddr hempty
  refine ⟨fun q hq => ?_, ?_⟩
  · -- some page of the other chain has the same address
    have hmem : q.addr ∈ pages.map (·.addr) := haddr ▸ List.mem_map_of_mem hq
    obtain ⟨r, hr, heq⟩ := List.mem_map.mp hmem
    exact heq ▸ h.addr r hr
  · rw [hlength, ← h.empty]
    exact hempty

/-- One page more. -/
theorem Shaped.concat {new : MpNode} (h : Shaped S pages) (hpages : 0 < pages.length)
    (haddr : new.addr < 2 ^ 64) (hnew : gap (emptyPage new) = ⟨S, 0⟩) :
    Shaped S (pages ++ [new]) := by
  refine ⟨fun q hq => ?_, ?_⟩
  · rcases List.mem_append.mp hq with hq | hq
    · exact h.addr q hq
    · rwa [List.mem_singleton.mp hq]
  · rw [List.map_append, List.map_singleton, h.empty, hnew, emptyGaps_concat hpages,
      List.length_append, List.length_singleton]

/-- What `mp_alloc_block` asks for. -/
theorem Shaped.psize {head : MpNode} (h : Shaped S (head :: pages)) :
    ptrDiff head.end_ head.addr = sizeT (S + sizeofNode) := by
  have haddr := h.addr head List.mem_cons_self
  have hempty := h.empty
  rw [List.map_cons, emptyGaps] at hempty
  have hroom := congrArg Gap.room (List.cons.inj hempty).1
  unfold gap emptyPage ptrDiff sizeT sizeofNode at *
  dsimp only at hroom
  omega

/-- A page that `mp_alloc_block` adds. -/
theorem gap_emptyPage {node : ℕ} (last failed : ℕ) (hS : S < 2 ^ 64) (hdvd : mpAlignment ∣ node) :
    gap (emptyPage ⟨node, last, sizeT (node + sizeT (S + sizeofNode)), failed⟩) = ⟨S, 0⟩ := by
  unfold gap emptyPage ptrDiff sizeT mpAlignment sizeofNode at *
  dsimp only
  congr 1 <;> omega

/-! ### Small requests -/

/-- The block `m` has been taken from one of the pages from `current` on. -/
def took (s : Sys) (size m : ℕ) (pages : List MpNode) : Sys :=
  { s with
    pool := { s.pool with pages := beforeCurrent s.pool ++ pages }
    handed := ⟨m, size⟩ :: s.handed }

theorem mpAlloc_small (fuel : ℕ) (hcurrent : s.pool.current ∈ s.pool.pages.map (·.addr))
    (hrest : s.pool.rest = 0) (hpos : 0 < size) (hle : size ≤ s.pool.max) :
    mpAlloc (fuel + 1) s size =
      match scanPages (fitAligned size) size (fromCurrent s.pool) with
      | some (pages, m) => some (took s size m pages, m)
      | none => mpAllocBlock s size := by
  rw [mpAlloc, if_neg hpos.ne', if_pos hle, allocSmall]
  have hhead := fromCurrent_head hcurrent
  cases hfrom : fromCurrent s.pool with
  | nil => simp [hfrom] at hhead
  | cons q pages =>
    dsimp only
    cases scanPages (fitAligned size) size (q :: pages) with
    | some r => rfl
    | none => exact if_neg (not_not.mpr hrest)

/-- A scan moves nothing but the free end of one page. -/
theorem scanPages_frame (h : scanPages (fitAligned size) size pages = some (pages', m)) :
    pages'.map (fun q => (q.addr, q.end_)) = pages.map fun q => (q.addr, q.end_) := by
  obtain ⟨pre, q, post, rfl, rfl, -, -⟩ := scanPages_eq_some h
  simp

theorem took_frame (h : scanPages (fitAligned size) size (fromCurrent s.pool) = some (pages', m)) :
    (took s size m pages').pool.pages.map (fun q => (q.addr, q.end_)) =
      s.pool.pages.map fun q => (q.addr, q.end_) := by
  change (beforeCurrent s.pool ++ pages').map _ = _
  rw [List.map_append, scanPages_frame h, ← List.map_append, before_append_from]

/-- The gaps are in what the counting of failures leaves alone. -/
theorem counted_gap (pool : MpPool) : (counted pool).map gap = pool.pages.map gap := by
  have hpages := congrArg
    (List.map fun q : Page => (⟨ptrDiff q.stop (sizeT q.last), q.last % mpAlignment⟩ : Gap))
    (counted_toPage pool)
  rwa [List.map_map, List.map_map] at hpages

/-- A new page, from which the block is taken. -/
theorem mpAllocBlock_gaps (hS : S < 2 ^ 64) (h : Shaped S s.pool.pages) (hle : size ≤ S)
    (hrun : mpAllocBlock s size = some (s', m)) :
    Shaped S s'.pool.pages ∧ (m ≠ 0 → ∃ b, Gap.put size ⟨S, 0⟩ = some b ∧
      s'.pool.pages.map gap = s.pool.pages.map gap ++ [b]) := by
  obtain ⟨head, s₁, node, hhead, hreq, hcases⟩ := mpAllocBlock_cases hrun
  obtain ⟨pages, hpages⟩ := List.head?_eq_some_iff.mp hhead
  rw [Shaped.psize (hpages ▸ h)] at hreq hcases
  obtain ⟨answers, hanswer⟩ := request_cases hreq
  rcases hcases with ⟨rfl, rfl, rfl⟩ | ⟨hnode, rfl, rfl⟩
  · -- `posix_memalign` failed
    obtain ⟨-, rfl⟩ | ⟨⟨hpos, -⟩, -⟩ := hanswer
    · exact ⟨h, fun hm => absurd rfl hm⟩
    · exact absurd hpos (Nat.lt_irrefl 0)
  · obtain ⟨rfl, -⟩ | ⟨⟨-, hdvd, hhalf, -⟩, rfl⟩ := hanswer
    · exact absurd rfl hnode
    · have hcounted : Shaped S (counted s.pool) := h.congr (counted_frame s.pool)
      have hlength : 0 < (counted s.pool).length := by
        have := congrArg List.length (counted_addr s.pool)
        rw [List.length_map, List.length_map, hpages, List.length_cons] at this
        omega
      have hlt : node < 2 ^ 64 := by omega
      refine ⟨hcounted.concat hlength hlt (gap_emptyPage _ _ hS hdvd), fun _ => ?_⟩
      -- the block is what the test would give on the empty page
      set new := newPage node (sizeT (S + sizeofNode)) size
      have hgap : gap (emptyPage new) = ⟨S, 0⟩ := gap_emptyPage _ _ hS hdvd
      have hroom : fitAligned size (emptyPage new) = some (mpAlignPtr (emptyPage new).last) := by
        refine if_pos ?_
        rw [← aligned_gap, hgap]
        unfold Gap.aligned sizeT mpAlignment
        dsimp only
        omega
      refine ⟨gap new, ?_, ?_⟩
      · rw [← hgap]
        exact (gap_put size (emptyPage new)).trans (by rw [hroom]; rfl)
      · change (counted s.pool ++ [new]).map gap = _
        rw [List.map_append, counted_gap]
        rfl

/-! ### The requests before the reset -/

/-- The pool between two small requests. -/
structure Paged (S max : ℕ) (s : Sys) : Prop where
  scans : ∃ p tail, Scans p tail s
  shaped : Shaped S s.pool.pages
  max : s.pool.max = max

/-- The request does not fail. -/
def Answered (s : Sys) : Act → Prop
  | .alloc size => ∃ r ∈ mpAlloc (s.answers.length + 2) s size, r.2 ≠ 0
  | _ => True

instance : ∀ s act, Decidable (Answered s act)
  | s, .alloc size =>
    inferInstanceAs (Decidable (∃ r ∈ mpAlloc (s.answers.length + 2) s size, r.2 ≠ 0))
  | _, .nalloc _ | _, .calloc _ | _, .memalign _ _ | _, .free _ | _, .reset => isTrue trivial

theorem Scans.before_length (h : Scans p tail s) :
    (beforeCurrent s.pool).length = s.pool.pages.length - 7 := by
  have hlength := h.window.before_length
  unfold failures at hlength
  rwa [← List.map_append, before_append_from, List.length_map, List.length_map] at hlength

/-- A small request. As long as `current` is the head, it is first fit with fresh pages. -/
theorem Paged.alloc {max : ℕ} (h : Paged S max s) (hS : S < 2 ^ 64) (hmax : max ≤ S)
    (hpos : 0 < size) (hle : size ≤ max) :
    ∃ s' m, mpAlloc (s.answers.length + 2) s size = some (s', m) ∧ Paged S max s' ∧
      s.pool.pages.length ≤ s'.pool.pages.length ∧
      (s'.pool.pages.length ≤ 7 → m ≠ 0 →
        extend Gap.put ⟨S, 0⟩ (s.pool.pages.map gap) size = some (s'.pool.pages.map gap)) := by
  obtain ⟨⟨p, tail, hscans⟩, hshaped, hm⟩ := h
  obtain ⟨s', tail', hrun, hscans'⟩ := hscans.step (.alloc size)
  have hmoves := deepStep_moves hrun
  obtain ⟨⟨s₁, m⟩, hone, rfl⟩ := Option.map_eq_some_iff.mp hrun
  have hsmall := mpAlloc_small (s.answers.length + 1) hscans.regions.current
    hscans.regions.rest hpos (hm ▸ hle)
  have hboth : Shaped S s₁.pool.pages ∧ (beforeCurrent s.pool = [] → m ≠ 0 →
      extend Gap.put ⟨S, 0⟩ (s.pool.pages.map gap) size = some (s₁.pool.pages.map gap)) := by
    have hplace := place_gap size (fromCurrent s.pool)
    have hwhole := before_append_from s.pool
    rw [hsmall] at hone
    cases hscan : scanPages (fitAligned size) size (fromCurrent s.pool) with
    | some r =>
      -- first fit finds the same page as the scan from `current`, which is the head
      obtain ⟨pages', m'⟩ := r
      rw [hscan] at hone hplace
      obtain ⟨rfl, rfl⟩ := Prod.mk.inj (Option.some.inj hone)
      refine ⟨hshaped.congr (took_frame hscan), fun hbefore _ => ?_⟩
      rw [hbefore, List.nil_append] at hwhole
      rw [hwhole] at hplace
      unfold extend took
      rw [hplace, hbefore]
      rfl
    | none =>
      -- both take a fresh page
      rw [hscan] at hone hplace
      obtain ⟨hshaped', hnew⟩ :=
        mpAllocBlock_gaps hS hshaped (hle.trans hmax) hone
      refine ⟨hshaped', fun hbefore hne => ?_⟩
      obtain ⟨b, hput, hpages⟩ := hnew hne
      rw [hbefore, List.nil_append] at hwhole
      rw [hwhole] at hplace
      unfold extend
      rw [hplace, hpages, Option.map_none, hput]
      rfl
  refine ⟨s₁, m, hone, ⟨⟨p, tail', hscans'⟩, hboth.1, hmoves.max.trans hm⟩, hmoves.length.1,
    fun hseven => hboth.2 ?_⟩
  -- at most seven pages are all in the window
  refine List.eq_nil_of_length_eq_zero ?_
  rw [hscans.before_length]
  have := hmoves.length.1
  dsimp only at this
  omega

/-- **The run before the reset.** If no request fails and `current` stays the head, it is first
fit with fresh pages. -/
theorem Paged.run {max : ℕ} (h : Paged S max s) (hS : S < 2 ^ 64) (hmax : max ≤ S)
    (hsmall : ∀ n ∈ sizes, 0 < n ∧ n ≤ max) :
    ∃ s₁, exec deepStep s (sizes.map .alloc) = some s₁ ∧ Paged S max s₁ ∧
      s.pool.pages.length ≤ s₁.pool.pages.length ∧
      (Guarded deepStep Answered s (sizes.map .alloc) → s₁.pool.pages.length ≤ 7 →
        exec (extend Gap.put ⟨S, 0⟩) (s.pool.pages.map gap) sizes =
          some (s₁.pool.pages.map gap)) := by
  induction sizes generalizing s with
  | nil => exact ⟨s, rfl, h, le_rfl, fun _ _ => rfl⟩
  | cons n sizes ih =>
    obtain ⟨⟨hpos, hle⟩, hsizes⟩ := List.forall_mem_cons.mp hsmall
    obtain ⟨s', m, hone, h', hlength, hextend⟩ := h.alloc hS hmax hpos hle
    obtain ⟨s₁, hrest, h₁, hlength₁, hextend₁⟩ := ih h' hsizes
    have hstep : deepStep s (.alloc n) = some s' := congrArg (Option.map Prod.fst) hone
    refine ⟨s₁, exec_cons_eq_some.mpr ⟨s', hstep, hrest⟩, h₁, hlength.trans hlength₁,
      fun ⟨hanswered, hguard⟩ hseven => ?_⟩
    obtain ⟨r, hr, hne⟩ := hanswered
    obtain rfl := Option.some.inj (hone.symm.trans hr)
    exact exec_cons_eq_some.mpr ⟨_, hextend (hlength₁.trans hseven) hne,
      hextend₁ (hguard s' hstep) hseven⟩

/-! ### The requests behind the reset -/

/-- The request is served from a page of the pool, at a place where the page has room, and the
allocator is not asked, whatever it would answer. -/
def FromPage (s : Sys) : Act → Prop
  | .alloc size =>
    ∃ q ∈ s.pool.pages, ∃ m, fitAligned size q = some m ∧
      ∀ answers, ∃ s', mpAlloc (answers.length + 2) { s with answers := answers } size =
        some (s', m) ∧ s'.answers = answers ∧ s'.live = s.live
  | _ => True

/-- A new page is asked for. -/
theorem mpAllocBlock_asks (hanswers : s.answers = [0])
    (hrun : mpAllocBlock s size = some (s', m)) : s'.answers = [] := by
  obtain ⟨head, s₁, node, -, hreq, hcases⟩ := mpAllocBlock_cases hrun
  have hstale : ¬ Fresh s.live mpAlignment (ptrDiff head.end_ head.addr) 0 :=
    fun h => absurd h.1 (Nat.lt_irrefl 0)
  unfold request at hreq
  rw [hanswers] at hreq
  dsimp only at hreq
  rw [if_neg hstale] at hreq
  obtain ⟨rfl, rfl⟩ := Prod.mk.inj hreq
  obtain ⟨-, rfl, -⟩ | ⟨hnode, -⟩ := hcases
  · rfl
  · exact absurd rfl hnode

/-- The loop over the pages returns. -/
theorem fromPage_iff (hcurrent : s.pool.current ∈ s.pool.pages.map (·.addr))
    (hrest : s.pool.rest = 0) (hpos : 0 < size) (hle : size ≤ s.pool.max) :
    FromPage s (.alloc size) ↔
      ∃ r, scanPages (fitAligned size) size (fromCurrent s.pool) = some r := by
  have hsmall : ∀ answers : List ℕ, _ := fun answers =>
    mpAlloc_small (s := { s with answers := answers }) (answers.length + 1) hcurrent hrest hpos
      hle
  constructor
  · rintro ⟨q, hq, m, hfit, hserved⟩
    cases hscan : scanPages (fitAligned size) size (fromCurrent s.pool) with
    | some r => exact ⟨r, rfl⟩
    | none =>
      -- an allocator that refuses would be asked
      obtain ⟨s', hrun, hanswers, -⟩ := hserved [0]
      rw [hsmall [0]] at hrun
      dsimp only at hrun
      rw [hscan] at hrun
      rw [mpAllocBlock_asks (s := { s with answers := [0] }) rfl hrun] at hanswers
      cases hanswers
  · rintro ⟨⟨pages', m⟩, hscan⟩
    obtain ⟨pre, q, post, hfrom, -, hfit, -⟩ := scanPages_eq_some hscan
    have hq : q ∈ s.pool.pages := by
      rw [← before_append_from s.pool, hfrom]
      simp
    refine ⟨q, hq, m, hfit, fun answers => ⟨took { s with answers := answers } size m pages', ?_,
      rfl, rfl⟩⟩
    rw [hsmall answers]
    dsimp only
    rw [hscan]

/-- Behind a request, the pages from `current` on are those that it leaves. -/
theorem fromCurrent_took (hcurrent : s.pool.current ∈ s.pool.pages.map (·.addr))
    (h : scanPages (fitAligned size) size (fromCurrent s.pool) = some (pages', m)) :
    fromCurrent (took s size m pages').pool = pages' := by
  have haddr := congrArg (List.map Prod.fst) (scanPages_frame h)
  rw [List.map_map, List.map_map] at haddr
  have hhead : (pages'.map (·.addr))[0]? = some s.pool.current :=
    (congrArg (·[0]?) haddr).trans (fromCurrent_head hcurrent)
  have hbefore : ∀ q ∈ beforeCurrent s.pool, decide (q.addr ≠ s.pool.current) = true :=
    fun q => List.mem_takeWhile_imp (p := fun q : MpNode => decide (q.addr ≠ s.pool.current))
  change (beforeCurrent s.pool ++ pages').dropWhile (fun q => decide (q.addr ≠ s.pool.current)) = _
  rw [List.dropWhile_append_of_pos hbefore]
  cases pages' with
  | nil => rfl
  | cons q pages' => exact List.dropWhile_cons_of_neg (by simpa using hhead)

/-- **The run behind the reset.** As long as every request is served from a page, it is first fit
on the gaps from `current` on. -/
theorem fromPage_run (hregions : Regions p tail (nonnull s.pool.large) s) (sizes : List ℕ)
    (hsmall : ∀ n ∈ sizes, 0 < n ∧ n ≤ s.pool.max) :
    Guarded deepStep FromPage s (sizes.map .alloc) ↔
      ∃ gaps, exec (fun gaps n => place (Gap.put n) gaps) ((fromCurrent s.pool).map gap) sizes =
        some gaps := by
  induction sizes generalizing s tail with
  | nil => exact ⟨fun _ => ⟨_, rfl⟩, fun _ => trivial⟩
  | cons n sizes ih =>
    obtain ⟨⟨hpos, hle⟩, hsizes⟩ := List.forall_mem_cons.mp hsmall
    have hfrom := fromPage_iff hregions.current hregions.rest hpos hle
    have hplace := place_gap n (fromCurrent s.pool)
    rw [List.map_cons, Guarded, hfrom]
    cases hscan : scanPages (fitAligned n) n (fromCurrent s.pool) with
    | none =>
      -- neither is the request served, nor does it fit
      rw [hscan, Option.map_none] at hplace
      rw [exec_cons, hplace, Option.bind_none]
      simp
    | some r =>
      obtain ⟨pages', m⟩ := r
      rw [hscan, Option.map_some] at hplace
      rw [exec_cons, hplace, Option.bind_some]
      obtain ⟨s', new, hrun, hregions'⟩ := deepStep_regions hregions (.alloc n)
      have hone : deepStep s (.alloc n) = some (took s n m pages') := by
        have hone' : mpAlloc (s.answers.length + 2) s n = some (took s n m pages', m) := by
          rw [mpAlloc_small _ hregions.current hregions.rest hpos hle, hscan]
        exact congrArg (Option.map Prod.fst) hone'
      obtain rfl := Option.some.inj (hrun.symm.trans hone)
      have hrest := ih hregions' hsizes
      rw [fromCurrent_took hregions.current hscan] at hrest
      rw [← hrest]
      refine ⟨fun h => h.2 _ hone, fun h => ⟨⟨_, rfl⟩, fun s'' hs'' => ?_⟩⟩
      rwa [← Option.some.inj (hone.symm.trans hs'')]

/-! ### The reset -/

/-- The same requests are served again behind a reset, without a new page. -/
def GivenBack (s : Sys) (sizes : List ℕ) : Prop :=
  ∃ s', mpResetPool s = some s' ∧ Guarded deepStep FromPage s' (sizes.map .alloc)

/-- The requests fit, first fit, into the last seven of `n` empty pages. -/
def FitsAgain (S n : ℕ) (sizes : List ℕ) : Prop :=
  ∃ gaps, exec (fun gaps n => place (Gap.put n) gaps) ((emptyGaps S n).drop (n - 7)) sizes =
    some gaps

theorem mpResetPool_fromCurrent (hrun : mpResetPool s = some s') :
    fromCurrent s'.pool = (fromCurrent s.pool).map emptyPage ∧ s'.pool.max = s.pool.max := by
  obtain ⟨-, hpool⟩ := mpResetPool_eq_some hrun
  refine ⟨?_, by rw [hpool]⟩
  rw [hpool]
  change (s.pool.pages.map emptyPage).dropWhile _ = _
  rw [List.dropWhile_map]
  rfl

theorem givenBack_iff {max : ℕ} (h : Paged S max s) (hsmall : ∀ n ∈ sizes, 0 < n ∧ n ≤ max) :
    GivenBack s sizes ↔ FitsAgain S s.pool.pages.length sizes := by
  obtain ⟨⟨p, tail, hscans⟩, hshaped, rfl⟩ := h
  obtain ⟨s', hreset, hregions, -⟩ := mpResetPool_regions hscans.regions
  obtain ⟨hfrom, hmax⟩ := mpResetPool_fromCurrent hreset
  have hrun := fromPage_run hregions sizes (by rwa [hmax])
  have hgaps : (fromCurrent s'.pool).map gap =
      (emptyGaps S s.pool.pages.length).drop (s.pool.pages.length - 7) := by
    -- the reset leaves `current`, so that the pages in front of it are dropped
    rw [hfrom, List.map_map, ← hshaped.empty, ← hscans.before_length]
    have hdrop : s.pool.pages.drop (beforeCurrent s.pool).length = fromCurrent s.pool := by
      conv_lhs => rw [← before_append_from s.pool]
      exact List.drop_left
    rw [← List.map_drop, hdrop]
    rfl
  rw [hgaps] at hrun
  refine ⟨fun ⟨s'', hreset', hguard⟩ => ?_, fun hfits => ⟨s', hreset, hrun.mpr hfits⟩⟩
  obtain rfl := Option.some.inj (hreset.symm.trans hreset')
  exact hrun.mp hguard

/-! ### Runs -/

/-- The head page of a new pool begins behind the pool. -/
theorem create_pages {next : ℕ} (hcreate : mpCreatePool answers next S = some s) :
    ∃ a, mpAlignment ∣ a ∧ a < 2 ^ 63 ∧ s.pool.pages =
      [⟨a + sizeofPool, sizeT (a + sizeofPool + sizeofNode),
        sizeT (sizeT (a + sizeofPool + sizeofNode) + S), 0⟩] := by
  obtain ⟨a, answers', ⟨-, hdvd, hhalf, -⟩, rfl⟩ := mpCreatePool_eq_some hcreate
  have hone : 1 ≤ Nat.max (sizeT (S + sizeofPool + sizeofNode)) 1 := Nat.le_max_right _ 1
  exact ⟨a, hdvd, by omega, rfl⟩

theorem create_paged (hS : S < 2 ^ 64) (hcreate : mpCreatePool answers 0 S = some s) :
    Paged S s.pool.max s ∧ s.pool.max ≤ S ∧ s.pool.pages.map gap = [⟨S, 24⟩] := by
  obtain ⟨p, hscans⟩ := create_scans hcreate
  obtain ⟨a, hdvd, hlt, hpages⟩ := create_pages hcreate
  have hgap : gap ⟨a + sizeofPool, sizeT (a + sizeofPool + sizeofNode),
      sizeT (sizeT (a + sizeofPool + sizeofNode) + S), 0⟩ = ⟨S, 24⟩ := by
    unfold gap ptrDiff sizeT mpAlignment sizeofPool sizeofNode at *
    dsimp only
    congr 1 <;> omega
  refine ⟨⟨⟨p, [], hscans⟩, ?_, rfl⟩, ?_, by rw [hpages, List.map_singleton, hgap]⟩
  · rw [hpages]
    refine ⟨fun q hq => ?_, congrArg (fun g => [g]) hgap⟩
    obtain rfl := List.mem_singleton.mp hq
    dsimp only
    unfold sizeofPool
    omega
  · rw [(create_max hcreate).1]
    unfold mpMaxAllocFromPool mpPageSize
    split_ifs <;> omega

/-- **When the capacity is given back.** Requests of the small branch are made on a new pool, the
pool is reset, and they are made again. None of them needs a new page if none failed the first
time and no page was given up, which is so as long as at most six pages were added. Otherwise they
must happen to fit into the seven pages from `current` on. -/
theorem capacity_iff (S : ℕ) (answers : List ℕ) (s₀ : Sys) (sizes : List ℕ) (hS : S < 2 ^ 64)
    (hcreate : mpCreatePool answers 0 S = some s₀)
    (hsmall : ∀ n ∈ sizes, 0 < n ∧ n ≤ s₀.pool.max) :
    ∃ s₁, exec deepStep s₀ (sizes.map .alloc) = some s₁ ∧
      (GivenBack s₁ sizes ↔
        (Guarded deepStep Answered s₀ (sizes.map .alloc) ∧ s₁.pool.pages.length ≤ 7) ∨
          FitsAgain S s₁.pool.pages.length sizes) := by
  obtain ⟨hpaged, hmax, hhead⟩ := create_paged hS hcreate
  obtain ⟨s₁, hrun, h₁, hlength, hextend⟩ := hpaged.run hS hmax hsmall
  refine ⟨s₁, hrun, ?_⟩
  rw [givenBack_iff h₁ hsmall]
  refine ⟨Or.inr, fun h => h.elim (fun ⟨hanswered, hseven⟩ => ?_) id⟩
  -- the fresh pages of the first run are there from the beginning of the second one
  obtain ⟨k, hk, hrefill⟩ := exec_place_refill (hextend hanswered hseven)
  rw [hhead] at hk hrefill
  rw [List.length_map, List.length_singleton] at hk
  refine ⟨s₁.pool.pages.map gap, ?_⟩
  rw [Nat.sub_eq_zero_of_le hseven, List.drop_zero, emptyGaps, hk, Nat.add_sub_cancel_left]
  exact hrefill

/-- Six requests of `64` bytes on pages of `64`: each takes a page, and all are given back. -/
theorem capacity_iff_six : ∃ s₀ s₁,
    mpCreatePool [4096, 8192, 12288, 16384, 20480, 24576, 28672] 0 64 = some s₀ ∧
    exec deepStep s₀ ([64, 64, 64, 64, 64, 64].map .alloc) = some s₁ ∧
    s₁.pool.pages.length = 7 ∧ GivenBack s₁ [64, 64, 64, 64, 64, 64] := by
  obtain ⟨s₀, hcreate⟩ : ∃ s₀,
      mpCreatePool [4096, 8192, 12288, 16384, 20480, 24576, 28672] 0 64 = some s₀ := ⟨_, rfl⟩
  obtain ⟨s₁, hrun, hiff⟩ := capacity_iff 64 _ s₀ [64, 64, 64, 64, 64, 64] (by decide) hcreate
    (by obtain rfl := Option.some.inj hcreate; decide)
  obtain rfl := Option.some.inj hcreate
  obtain rfl := Option.some.inj hrun
  exact ⟨_, _, rfl, rfl, by decide, hiff.mpr (Or.inl ⟨by decide, by decide⟩)⟩

/-- Eight requests of `64` bytes add eight pages, of which the reset pool looks at only seven. -/
theorem capacity_lost : ∃ s₀ s₁,
    mpCreatePool [4096, 8192, 12288, 16384, 20480, 24576, 28672, 32768, 36864] 0 64 = some s₀ ∧
    exec deepStep s₀ ((List.replicate 8 64).map .alloc) = some s₁ ∧
    Guarded deepStep Answered s₀ ((List.replicate 8 64).map .alloc) ∧
    ¬ GivenBack s₁ (List.replicate 8 64) := by
  obtain ⟨s₀, hcreate⟩ : ∃ s₀, mpCreatePool
    [4096, 8192, 12288, 16384, 20480, 24576, 28672, 32768, 36864] 0 64 = some s₀ := ⟨_, rfl⟩
  have hsmall : ∀ n ∈ List.replicate 8 64, 0 < n ∧ n ≤ s₀.pool.max := by
    obtain rfl := Option.some.inj hcreate
    decide
  obtain ⟨hpaged, hmax, -⟩ := create_paged (by decide) hcreate
  obtain ⟨s₁, hrun, h₁, -⟩ := hpaged.run (by decide) hmax hsmall
  refine ⟨s₀, s₁, hcreate, hrun, ?_, fun hback => ?_⟩
  · obtain rfl := Option.some.inj hcreate
    decide
  · obtain ⟨gaps, hfits⟩ := (givenBack_iff h₁ hsmall).mp hback
    obtain rfl := Option.some.inj hcreate
    obtain rfl := Option.some.inj hrun
    -- the eighth request finds seven full pages
    have hfull : exec (fun gaps n => place (Gap.put n) gaps) ((emptyGaps 64 9).drop 2)
        (List.replicate 8 64) = none := by decide
    exact absurd (hfits.symm.trans hfull) (Option.some_ne_none gaps)

end MmorpgServer.PagePool
