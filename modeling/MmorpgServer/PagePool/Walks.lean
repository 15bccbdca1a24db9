import MmorpgServer.PagePool.Linked
import MmorpgServer.PagePool.Runs
import MmorpgServer.Lib.Words

/-!
# Walks through the memory of a page pool

The headers of the pages and the descriptors of large blocks are words in memory, linked as the
sequences of the model are. A loop over them does to these words what it does to the sequence, and
writes nothing else.

## Main definitions

* `pageWords`, `largeWords` — the words of pages and of descriptors
* `Stored` — words are in allocated memory

## Main results

* `scanPages_follows`, `countFailed_follows`, `resetPages_follows`, `freePages_follows` — the loops
  over the pages
* `reuseLarge_follows`, `clearLarge_follows`, `freeLarge_follows` — those over the descriptors
-/

namespace MmorpgServer.PagePool.Linked

open Bump ByteMemory Words

variable {p size a c v n fuel rest : ℕ} {s s' : Sys} {h h' : Heap} {q : MpNode} {l : MpLarge}
  {pages pages' pre post : List MpNode} {large large' : List MpLarge} {live live' : List Interval}
  {ws ws' xs ys : List Word} {w : Word}

/-! ### Words of a pool -/

/-- The address of the first of some pages -/
def firstPage : List MpNode → (rest : ℕ) → ℕ
  | [], rest => rest
  | q :: _, _ => q.addr

/-- The headers of pages that are linked one to the next, the last one to `rest` -/
def pageWords : List MpNode → (rest : ℕ) → List Word
  | [], _ => []
  | q :: pages, rest =>
    (lastAt q.addr, q.last) :: (endAt q.addr, q.end_) :: (nextAt q.addr, firstPage pages rest) ::
      (failedAt q.addr, q.failed) :: pageWords pages rest

/-- The address of the first of some descriptors -/
def firstLarge : List MpLarge → ℕ
  | [] => 0
  | l :: _ => l.addr

/-- Descriptors that are linked one to the next -/
def largeWords : List MpLarge → List Word
  | [] => []
  | l :: large =>
    (nextLargeAt l.addr, firstLarge large) :: (allocAt l.addr, l.alloc) :: largeWords large

/-- The link to the rest is in the last page of the first part. -/
theorem pageWords_append (pre post : List MpNode) (rest : ℕ) :
    pageWords (pre ++ post) rest = pageWords pre (firstPage post rest) ++ pageWords post rest := by
  induction pre with
  | nil => rfl
  | cons q pre ih =>
    rw [List.cons_append, pageWords, pageWords, ih]
    cases pre <;> rfl

/-- The words are where the pages are. -/
theorem pageWords_addrs (haddrs : pages'.map (·.addr) = pages.map (·.addr)) (rest rest' : ℕ) :
    (pageWords pages' rest').map Prod.fst = (pageWords pages rest).map Prod.fst := by
  induction pages generalizing pages' with
  | nil => rw [List.map_eq_nil_iff.mp haddrs]; rfl
  | cons q pages ih =>
    obtain ⟨q', pages'', rfl⟩ := List.exists_cons_of_ne_nil (l := pages') (by
      rintro rfl
      cases haddrs)
    obtain ⟨hq, hrest⟩ := List.cons.inj haddrs
    dsimp only at hq
    simp only [pageWords, List.map_cons, hq, ih hrest]

theorem largeWords_addrs (haddrs : large'.map (·.addr) = large.map (·.addr)) :
    (largeWords large').map Prod.fst = (largeWords large).map Prod.fst := by
  induction large generalizing large' with
  | nil => rw [List.map_eq_nil_iff.mp haddrs]
  | cons l large ih =>
    obtain ⟨l', large'', rfl⟩ := List.exists_cons_of_ne_nil (l := large') (by
      rintro rfl
      cases haddrs)
    obtain ⟨hl, hrest⟩ := List.cons.inj haddrs
    dsimp only at hl
    simp only [largeWords, List.map_cons, hl, ih hrest]

theorem firstPage_congr (haddrs : pages'.map (·.addr) = pages.map (·.addr)) (rest : ℕ) :
    firstPage pages' rest = firstPage pages rest := by
  cases pages with
  | nil => rw [List.map_eq_nil_iff.mp haddrs]
  | cons q pages =>
    obtain ⟨q', pages'', rfl⟩ := List.exists_cons_of_ne_nil (l := pages') (by
      rintro rfl
      cases haddrs)
    exact (List.cons.inj haddrs).1

/-! ### Words in allocated memory -/

/-- All numbers fit into words. -/
def Fits (ws : List Word) : Prop := ∀ w ∈ ws, w.2 < 2 ^ 64

/-- The words lie in allocated memory and do not overlap. -/
structure Sited (live : List Interval) (ws : List Word) : Prop where
  spaced : Spaced 8 ws
  mapped : ∀ w ∈ ws, Mapped live w.1 8
  pos : ∀ w ∈ ws, 0 < w.1

theorem Mapped.mono (h : Mapped live a n) (hsub : live ⊆ live') : Mapped live' a n := by
  intro i hi
  obtain ⟨r, hr, hin⟩ := h i hi
  exact ⟨r, hsub hr, hin⟩

theorem Sited.mono (h : Sited live ws) (hsub : live ⊆ live') : Sited live' ws :=
  { h with mapped := fun w hw => (h.mapped w hw).mono hsub }

/-- Some of the words. -/
theorem Sited.sublist (h : Sited live ws) (hsub : ws'.Sublist ws) : Sited live ws' where
  spaced := h.spaced.sublist hsub
  mapped w hw := h.mapped w (hsub.subset hw)
  pos w hw := h.pos w (hsub.subset hw)

/-- Words at the same addresses. -/
theorem Sited.congr (h : Sited live ws) (haddrs : ws'.map Prod.fst = ws.map Prod.fst) :
    Sited live ws' := by
  have hold : ∀ w ∈ ws', ∃ w' ∈ ws, w'.1 = w.1 := fun w hw =>
    List.mem_map.mp (haddrs ▸ List.mem_map_of_mem hw)
  refine ⟨(spaced_congr haddrs).mpr h.spaced, fun w hw => ?_, fun w hw => ?_⟩
  · obtain ⟨w', hw', heq⟩ := hold w hw
    exact heq ▸ h.mapped w' hw'
  · obtain ⟨w', hw', heq⟩ := hold w hw
    exact heq ▸ h.pos w' hw'

theorem Sited.left (h : Sited live (xs ++ ys)) : Sited live xs :=
  h.sublist (List.sublist_append_left xs ys)

theorem Sited.right (h : Sited live (xs ++ ys)) : Sited live ys :=
  h.sublist (List.sublist_append_right xs ys)

theorem Sited.tail (h : Sited live (w :: ws)) : Sited live ws :=
  h.sublist (List.sublist_cons_self w ws)

/-- The words are in memory. -/
structure Stored (h : Heap) (ws : List Word) : Prop where
  sited : Sited h.live ws
  holds : Holds 8 h.mem ws

theorem Stored.left (hst : Stored h (xs ++ ys)) : Stored h xs :=
  ⟨hst.sited.left, (holds_append.mp hst.holds).1⟩

theorem Stored.right (hst : Stored h (xs ++ ys)) : Stored h ys :=
  ⟨hst.sited.right, (holds_append.mp hst.holds).2⟩

theorem Stored.tail (hst : Stored h (w :: ws)) : Stored h ws :=
  Stored.right (show Stored h ([w] ++ ws) from hst)

theorem Stored.edits {mem : Memory} (hst : Stored h ws) (hedits : Edits 8 h.mem ws mem ws') :
    Stored { h with mem := mem } ws' :=
  ⟨hst.sited.congr hedits.addrs, hedits.holds⟩

/-- A word is read. -/
theorem Stored.read (hst : Stored h ws) (hw : (a, v) ∈ ws) : h.read a = some v := by
  unfold Heap.read
  rw [if_pos (hst.sited.mapped _ hw), hst.holds _ hw]

/-- A word is written. -/
theorem Stored.write (xs : List Word) (hst : Stored h (xs ++ (a, c) :: ys)) (hv : v < 2 ^ 64) :
    ∃ mem, h.write a v = some { h with mem := mem } ∧
      Edits 8 h.mem (xs ++ (a, c) :: ys) mem (xs ++ (a, v) :: ys) := by
  have hmapped := hst.sited.mapped (a, c) (List.mem_append_right xs List.mem_cons_self)
  exact ⟨_, if_pos hmapped, hst.holds.store hst.sited.spaced hv⟩

theorem sizeT_lt (x : ℕ) : sizeT x < 2 ^ 64 := Nat.mod_lt x (Nat.two_pow_pos 64)

/-! ### Pages -/

section Pages

/-- The words of a page. -/
theorem Stored.page (hst : Stored h (pageWords (q :: pages) rest)) :
    h.read (lastAt q.addr) = some q.last ∧ h.read (endAt q.addr) = some q.end_ ∧
      h.read (nextAt q.addr) = some (firstPage pages rest) ∧
      h.read (failedAt q.addr) = some q.failed ∧ q.addr ≠ 0 ∧
      Stored h (pageWords pages rest) :=
  ⟨hst.read (by simp [pageWords]), hst.read (by simp [pageWords]),
    hst.read (by simp [pageWords]), hst.read (by simp [pageWords]),
    (hst.sited.pos (lastAt q.addr, q.last) (by simp [pageWords])).ne',
    hst.tail.tail.tail.tail⟩

/-- The pages behind the first one have been written. -/
theorem Stored.behind {mem : Memory} (hst : Stored h (pageWords (q :: pages) rest))
    (hedits : Edits 8 h.mem (pageWords pages rest) mem (pageWords pages' rest))
    (haddrs : pages'.map (·.addr) = pages.map (·.addr)) :
    Edits 8 h.mem (pageWords (q :: pages) rest) mem (pageWords (q :: pages') rest) := by
  have hwords : ∀ l, pageWords (q :: l) rest = [(lastAt q.addr, q.last), (endAt q.addr, q.end_),
      (nextAt q.addr, firstPage l rest), (failedAt q.addr, q.failed)] ++
        (pageWords l rest ++ []) := fun l => by rw [List.append_nil]; rfl
  have hholds := hst.holds
  have hspaced := hst.sited.spaced
  rw [hwords] at hholds hspaced
  have hall := hedits.embed hholds hspaced
  rw [hwords, hwords, firstPage_congr haddrs]
  exact hall

theorem Stored.addr_pos (hst : Stored h (pageWords pages rest)) (hq : q ∈ pages) : 0 < q.addr := by
  obtain ⟨pre, post, rfl⟩ := List.append_of_mem hq
  rw [pageWords_append] at hst
  exact Nat.pos_of_ne_zero hst.right.page.2.2.2.2.1

/-- Where the count of a page is. -/
theorem failed_mem (hq : q ∈ pages) (rest : ℕ) :
    (failedAt q.addr, q.failed) ∈ pageWords pages rest := by
  obtain ⟨pre, post, rfl⟩ := List.append_of_mem hq
  rw [pageWords_append]
  exact List.mem_append_right _ (by simp [pageWords])

/-- The loop of `mp_alloc` is the scan of the sequence. -/
theorem scanPages_follows (fit : MpNode → Option ℕ) (room : ℕ → ℕ → Option ℕ) (size : ℕ)
    (hfit : ∀ q, fit q = room q.last q.end_) (hst : Stored h (pageWords (q :: pages) 0))
    (hfuel : pages.length < fuel) :
    match PagePool.scanPages fit size (q :: pages) with
    | some (pages', m) => ∃ mem,
        scanPages room size fuel h q.addr = some (some ({ h with mem := mem }, m)) ∧
          Edits 8 h.mem (pageWords (q :: pages) 0) mem (pageWords pages' 0)
    | none => scanPages room size fuel h q.addr = some none := by
  induction fuel generalizing q pages with
  | zero => exact absurd hfuel (Nat.not_lt_zero _)
  | succ fuel ih =>
    obtain ⟨hlast, hend, hnext, -, -, hrest⟩ := hst.page
    rw [PagePool.scanPages, scanPages, hlast, hend, hfit]
    simp only [Option.bind_eq_bind, Option.bind_some]
    cases room q.last q.end_ with
    | some m =>
      -- the page takes the block, and of its words only `last` is written
      obtain ⟨mem, hwrite, hedits⟩ := hst.write [] (sizeT_lt (m + size))
      refine ⟨mem, ?_, hedits⟩
      dsimp only
      rw [hwrite]
      rfl
    | none =>
      dsimp only
      -- it has no room, and the walk goes on at `next`, which is `NULL` behind the last page
      rw [hnext, Option.bind_some]
      cases pages with
      | nil => rfl
      | cons r pages =>
        have hone := ih hrest (Nat.lt_of_succ_lt_succ hfuel)
        rw [firstPage, if_neg hrest.page.2.2.2.2.1]
        cases hscan : PagePool.scanPages fit size (r :: pages) with
        | none =>
          rw [hscan] at hone
          exact hone
        | some found =>
          obtain ⟨pages', m⟩ := found
          rw [hscan] at hone
          obtain ⟨mem, hrun, hedits⟩ := hone
          refine ⟨mem, hrun, hst.behind hedits ?_⟩
          obtain ⟨pre, x, post, hold, rfl, -, -⟩ := scanPages_eq_some hscan
          rw [hold]
          simp

/-- Counting changes no address. -/
theorem countFailed_addr (pages : List MpNode) (c : ℕ) :
    (PagePool.countFailed pages c).1.map (·.addr) = pages.map (·.addr) := by
  have hframe := congrArg (List.map Prod.fst) (countFailed_spec pages c).2.1
  rwa [List.map_map, List.map_map] at hframe

/-- The loop of `mp_alloc_block` is the count of the sequence, and ends at its last page. -/
theorem countFailed_follows (hst : Stored h (pageWords (q :: pages) 0))
    (hfits : ∀ r ∈ (PagePool.countFailed (q :: pages) c).1, r.failed < 2 ^ 64)
    (hfuel : pages.length < fuel) :
    ∃ mem init x, (PagePool.countFailed (q :: pages) c).1 = init ++ [x] ∧
      countFailed fuel h q.addr c =
        some ({ h with mem := mem }, x.addr, (PagePool.countFailed (q :: pages) c).2) ∧
      Edits 8 h.mem (pageWords (q :: pages) 0) mem
        (pageWords (PagePool.countFailed (q :: pages) c).1 0) := by
  induction fuel generalizing q pages h c with
  | zero => exact absurd hfuel (Nat.not_lt_zero _)
  | succ fuel ih =>
    obtain ⟨-, -, hnext, hfailed, -, -⟩ := hst.page
    rw [countFailed, hnext]
    cases pages with
    -- no failure is counted on the last page
    | nil => exact ⟨h.mem, [], q, rfl, rfl, Edits.refl hst.holds⟩
    | cons r pages =>
      -- `next` is the address of a page, so it is not `NULL`
      have hne := hst.page.2.2.2.2.2.page.2.2.2.2.1
      rw [PagePool.countFailed] at hfits ⊢
      have hcount : sizeT (q.failed + 1) = q.failed + 1 :=
        Nat.mod_eq_of_lt (hfits { q with failed := q.failed + 1 } List.mem_cons_self)
      simp only [Option.bind_eq_bind, Option.bind_some, firstPage]
      rw [if_neg hne, hfailed, Option.bind_some, hcount]
      -- the failure of this page is counted first
      obtain ⟨mem₁, hwrite, hedits₁⟩ := hst.write
        [(lastAt q.addr, q.last), (endAt q.addr, q.end_), (nextAt q.addr, r.addr)]
        (hcount ▸ sizeT_lt (q.failed + 1))
      have hst₁ : Stored { h with mem := mem₁ }
          (pageWords ({ q with failed := q.failed + 1 } :: r :: pages) 0) := hst.edits hedits₁
      obtain ⟨mem, init, x, hsplit, hrun, hedits⟩ := ih hst₁.page.2.2.2.2.2
        (c := if q.failed > 4 then r.addr else c)
        (fun r hr => hfits r (List.mem_cons_of_mem _ hr)) (Nat.lt_of_succ_lt_succ hfuel)
      refine ⟨mem, { q with failed := q.failed + 1 } :: init, x, congrArg (List.cons _) hsplit,
        ?_, hedits₁.trans (hst₁.behind hedits (countFailed_addr _ _))⟩
      rw [hwrite, Option.bind_some]
      exact hrun

/-- The last page is linked to a new one. -/
theorem Stored.linkLast {x : MpNode} {new : ℕ} (hst : Stored h (pageWords (pages ++ [x]) 0))
    (hnew : new < 2 ^ 64) :
    ∃ mem, h.write (nextAt x.addr) new = some { h with mem := mem } ∧
      Edits 8 h.mem (pageWords (pages ++ [x]) 0) mem (pageWords (pages ++ [x]) new) := by
  have hwords : ∀ r, pageWords (pages ++ [x]) r = (pageWords pages x.addr ++
      [(lastAt x.addr, x.last), (endAt x.addr, x.end_)]) ++
        (nextAt x.addr, r) :: [(failedAt x.addr, x.failed)] := fun r => by
    rw [pageWords_append, List.append_assoc]
    rfl
  rw [hwords] at hst ⊢
  rw [hwords]
  exact hst.write _ hnew

/-- The loop of `mp_reset_pool` empties every page. -/
theorem resetPages_follows (hst : Stored h (pageWords pages 0)) (hfuel : pages.length < fuel) :
    ∃ mem, resetPages fuel h (firstPage pages 0) = some { h with mem := mem } ∧
      Edits 8 h.mem (pageWords pages 0) mem
        (pageWords (pages.map fun r => { r with last := sizeT (r.addr + sizeofNode) }) 0) := by
  induction fuel generalizing pages h with
  | zero => exact absurd hfuel (Nat.not_lt_zero _)
  | succ fuel ih =>
    cases pages with
    | nil => exact ⟨h.mem, rfl, Edits.refl hst.holds⟩
    | cons q pages =>
      rw [resetPages, firstPage, if_neg hst.page.2.2.2.2.1]
      obtain ⟨mem₁, hwrite, hedits₁⟩ := hst.write [] (sizeT_lt (q.addr + sizeofNode))
      have hst₁ : Stored { h with mem := mem₁ }
          (pageWords ({ q with last := sizeT (q.addr + sizeofNode) } :: pages) 0) :=
        hst.edits hedits₁
      obtain ⟨-, -, hnext, -, -, hrest⟩ := hst₁.page
      obtain ⟨mem, hrun, hedits⟩ := ih hrest (Nat.lt_of_succ_lt_succ hfuel)
      refine ⟨mem, ?_, hedits₁.trans (hst₁.behind hedits ?_)⟩
      · simp only [hwrite, hnext, Option.bind_eq_bind, Option.bind_some]
        exact hrun
      · rw [List.map_map]
        rfl

/-- The loop of `mp_destory_pool` frees every page. -/
theorem freePages_follows (hholds : Holds 8 h.mem (pageWords pages 0))
    (hregions : ∀ r ∈ pages, 0 < r.addr ∧ ∃ R ∈ h.live, R.lo = r.addr ∧ sizeofNode ≤ R.len)
    (hnodup : (pages.map (·.addr)).Nodup) (hlive : h.live = s.live)
    (hrun : pages.foldlM (fun s r => PagePool.free s r.addr) s = some s')
    (hfuel : pages.length < fuel) :
    freePages fuel h (firstPage pages 0) = some { h with live := s'.live } := by
  induction fuel generalizing pages h s with
  | zero => exact absurd hfuel (Nat.not_lt_zero _)
  | succ fuel ih =>
    cases pages with
    | nil =>
      obtain rfl := Option.some.inj hrun
      rw [← hlive]
      rfl
    | cons q pages =>
      obtain ⟨⟨hpos, R, hR, hlo, hlen⟩, hrest⟩ := List.forall_mem_cons.mp hregions
      obtain ⟨hnew, hnodup'⟩ := List.nodup_cons.mp hnodup
      rw [List.foldlM_cons] at hrun
      obtain ⟨s₁, hfree, hrun'⟩ := Option.bind_eq_some_iff.mp hrun
      -- `next` is read before the page is freed
      have hread : h.read (nextAt q.addr) = some (firstPage pages 0) := by
        have hmapped : Mapped h.live (nextAt q.addr) 8 := by
          intro i hi
          refine ⟨R, hR, ?_⟩
          unfold nextAt sizeofNode at *
          omega
        unfold Heap.read
        rw [if_pos hmapped, hholds (nextAt q.addr, firstPage pages 0) (by simp [pageWords])]
      have hmem : q.addr ∈ s.live.map (·.lo) := by
        rw [← hlive, ← hlo]
        exact List.mem_map_of_mem hR
      have hs₁ : s₁.live = s.live.filter fun r => r.lo ≠ q.addr := by
        unfold PagePool.free at hfree
        rw [if_neg hpos.ne', if_pos hmem] at hfree
        obtain rfl := Option.some.inj hfree
        rfl
      have hone : h.free q.addr = some { h with live := s₁.live } := by
        unfold Heap.free
        rw [if_neg hpos.ne', if_pos (hlive ▸ hmem), hs₁, hlive]
      rw [freePages, firstPage, if_neg hpos.ne', hread]
      simp only [Option.bind_eq_bind, Option.bind_some]
      rw [hone, Option.bind_some]
      refine (ih (h := { h with live := s₁.live }) ?_ ?_ hnodup' rfl hrun'
        (Nat.lt_of_succ_lt_succ hfuel)).trans rfl
      · exact hholds.subset fun w hw => List.mem_append_right
          [(lastAt q.addr, q.last), (endAt q.addr, q.end_), (nextAt q.addr, firstPage pages 0),
            (failedAt q.addr, q.failed)] hw
      · intro r hr
        obtain ⟨hr0, R', hR', hlo', hlen'⟩ := hrest r hr
        have hne : R'.lo ≠ q.addr := fun heq => hnew (by
          dsimp only
          rw [← heq, hlo']
          exact List.mem_map_of_mem hr)
        refine ⟨hr0, R', ?_, hlo', hlen'⟩
        dsimp only
        rw [hs₁, ← hlive]
        exact List.mem_filter.mpr ⟨hR', decide_eq_true hne⟩

end Pages

/-! ### Descriptors -/

section Descriptors

theorem firstLarge_congr (haddrs : large'.map (·.addr) = large.map (·.addr)) :
    firstLarge large' = firstLarge large := by
  cases large with
  | nil => rw [List.map_eq_nil_iff.mp haddrs]
  | cons l large =>
    obtain ⟨l', large'', rfl⟩ := List.exists_cons_of_ne_nil (l := large') (by
      rintro rfl
      cases haddrs)
    exact (List.cons.inj haddrs).1

/-- The words of a descriptor. -/
theorem Stored.descriptor (hst : Stored h (largeWords (l :: large))) :
    h.read (nextLargeAt l.addr) = some (firstLarge large) ∧
      h.read (allocAt l.addr) = some l.alloc ∧ l.addr ≠ 0 ∧ Stored h (largeWords large) :=
  ⟨hst.read (by simp [largeWords]), hst.read (by simp [largeWords]),
    (hst.sited.pos (nextLargeAt l.addr, firstLarge large) (by simp [largeWords])).ne',
    hst.tail.tail⟩

/-- The descriptors behind the first one have been written. -/
theorem Stored.behindLarge {mem : Memory} (hst : Stored h (largeWords (l :: large)))
    (hedits : Edits 8 h.mem (largeWords large) mem (largeWords large'))
    (haddrs : large'.map (·.addr) = large.map (·.addr)) :
    Edits 8 h.mem (largeWords (l :: large)) mem (largeWords (l :: large')) := by
  have hwords : ∀ ls, largeWords (l :: ls) = [(nextLargeAt l.addr, firstLarge ls),
      (allocAt l.addr, l.alloc)] ++ (largeWords ls ++ []) := fun ls => by
    rw [List.append_nil]
    rfl
  have hholds := hst.holds
  have hspaced := hst.sited.spaced
  rw [hwords] at hholds hspaced
  have hall := hedits.embed hholds hspaced
  rw [hwords, hwords, firstLarge_congr haddrs]
  exact hall

/-- The block of a descriptor is written. -/
theorem Stored.writeAlloc (hst : Stored h (largeWords (l :: large))) (ha : a < 2 ^ 64) :
    ∃ mem, h.write (allocAt l.addr) a = some { h with mem := mem } ∧
      Edits 8 h.mem (largeWords (l :: large)) mem (largeWords ({ l with alloc := a } :: large)) :=
  hst.write [(nextLargeAt l.addr, firstLarge large)] ha

/-- The loop of `mp_alloc_large` looks at the descriptors of the sequence. -/
theorem reuseLarge_follows (hst : Stored h (largeWords large)) (ha : a < 2 ^ 64) :
    match PagePool.reuseLarge a n large with
    | some large' => ∃ mem,
        reuseLarge a n h (firstLarge large) = some (some { h with mem := mem }) ∧
        Edits 8 h.mem (largeWords large) mem (largeWords large')
    | none => reuseLarge a n h (firstLarge large) = some none := by
  induction n generalizing large with
  | zero =>
    rw [PagePool.reuseLarge]
    · rfl
    · rintro _ _ _ hn
      cases hn
  | succ n ih =>
    cases large with
    | nil => rfl
    | cons l large =>
      obtain ⟨hnext, halloc, hne, hrest⟩ := hst.descriptor
      rw [PagePool.reuseLarge, reuseLarge, firstLarge, if_neg hne, halloc]
      simp only [Option.bind_eq_bind, Option.bind_some]
      by_cases hl : l.alloc = 0
      · obtain ⟨mem, hwrite, hedits⟩ := hst.writeAlloc ha
        rw [if_pos hl, if_pos hl, hwrite]
        exact ⟨mem, rfl, hedits⟩
      · rw [if_neg hl, if_neg hl, hnext]
        have hone := ih hrest
        cases n with
        -- behind the fifth descriptor `next` is not read
        | zero =>
          rw [PagePool.reuseLarge]
          · rfl
          · rintro _ _ _ hn
            cases hn
        | succ n =>
          rw [if_neg (Nat.succ_ne_zero n), Option.bind_some]
          cases hreuse : PagePool.reuseLarge a (n + 1) large with
          | none =>
            rw [hreuse] at hone
            exact hone
          | some large' =>
            rw [hreuse] at hone
            obtain ⟨mem, hrun, hedits⟩ := hone
            exact ⟨mem, hrun, hst.behindLarge hedits (reuseLarge_addr hreuse)⟩

/-- The loop of `mp_free` passes over the descriptors of other blocks. -/
theorem clearLarge_ends (hst : Stored h (largeWords large)) (hfuel : large.length < fuel)
    (hclear : PagePool.clearLarge a large = none) :
    clearLarge a fuel h (firstLarge large) = some h := by
  induction fuel generalizing large with
  | zero => exact absurd hfuel (Nat.not_lt_zero _)
  | succ fuel ih =>
    cases large with
    | nil => rfl
    | cons l large =>
      obtain ⟨hnext, halloc, hne, hrest⟩ := hst.descriptor
      rw [PagePool.clearLarge] at hclear
      split_ifs at hclear with hl
      rw [clearLarge, firstLarge, if_neg hne, halloc]
      simp only [Option.bind_eq_bind, Option.bind_some]
      rw [if_neg hl, hnext, Option.bind_some]
      exact ih hrest (Nat.lt_of_succ_lt_succ hfuel) (Option.map_eq_none_iff.mp hclear)

/-- It frees the block, and then empties its descriptor. -/
theorem clearLarge_follows (hst : Stored h (largeWords large))
    (hsited : Sited live (largeWords large)) (hfree : h.free a = some { h with live := live })
    (hfuel : large.length < fuel) (hclear : PagePool.clearLarge a large = some large') :
    ∃ mem, clearLarge a fuel h (firstLarge large) = some { h with mem := mem, live := live } ∧
      Edits 8 h.mem (largeWords large) mem (largeWords large') := by
  induction fuel generalizing large large' with
  | zero => exact absurd hfuel (Nat.not_lt_zero _)
  | succ fuel ih =>
    cases large with
    | nil => cases hclear
    | cons l large =>
      obtain ⟨hnext, halloc, hne, hrest⟩ := hst.descriptor
      rw [PagePool.clearLarge] at hclear
      rw [clearLarge, firstLarge, if_neg hne, halloc]
      simp only [Option.bind_eq_bind, Option.bind_some]
      split_ifs at hclear ⊢ with hl
      · -- the descriptor is not in the block that was freed
        obtain rfl := Option.some.inj hclear
        have hst' : Stored { h with live := live } (largeWords (l :: large)) := ⟨hsited, hst.holds⟩
        obtain ⟨mem, hwrite, hedits⟩ := hst'.writeAlloc (a := 0) (by decide)
        rw [hl, hfree, Option.bind_some, hwrite]
        exact ⟨mem, rfl, hedits⟩
      · obtain ⟨large'', hsome, rfl⟩ := Option.map_eq_some_iff.mp hclear
        obtain ⟨mem, hrun, hedits⟩ := ih hrest hsited.tail.tail
          (Nat.lt_of_succ_lt_succ hfuel) hsome
        rw [hnext, Option.bind_some]
        exact ⟨mem, hrun, hst.behindLarge hedits (clearLarge_addr hsome)⟩

/-- To free changes nothing but what is allocated. -/
theorem free_keeps (hrun : PagePool.free s a = some s') :
    s'.pool = s.pool ∧ s'.answers = s.answers ∧ s'.live ⊆ s.live := by
  unfold PagePool.free at hrun
  split_ifs at hrun
  · obtain rfl := Option.some.inj hrun
    exact ⟨rfl, rfl, List.Subset.refl _⟩
  · obtain rfl := Option.some.inj hrun
    exact ⟨rfl, rfl, fun r hr => (List.mem_filter.mp hr).1⟩

theorem freeAll_keeps {α : Type} (addr : α → ℕ) {xs : List α}
    (hrun : xs.foldlM (fun s x => PagePool.free s (addr x)) s = some s') :
    s'.pool = s.pool ∧ s'.answers = s.answers ∧ s'.live ⊆ s.live := by
  induction xs generalizing s with
  | nil =>
    obtain rfl := Option.some.inj hrun
    exact ⟨rfl, rfl, List.Subset.refl _⟩
  | cons x xs ih =>
    rw [List.foldlM_cons] at hrun
    obtain ⟨s₁, hone, hrest⟩ := Option.bind_eq_some_iff.mp hrun
    obtain ⟨hpool₁, hanswers₁, hsub₁⟩ := free_keeps hone
    obtain ⟨hpool, hanswers, hsub⟩ := ih hrest
    exact ⟨hpool.trans hpool₁, hanswers.trans hanswers₁, List.Subset.trans hsub hsub₁⟩

/-- To free a block is the same with other contents of the memory. -/
theorem free_follows (hlive : h.live = s.live) (hrun : PagePool.free s a = some s') :
    h.free a = some { h with live := s'.live } := by
  unfold PagePool.free at hrun
  unfold Heap.free
  rw [hlive]
  split_ifs at hrun ⊢
  · obtain rfl := Option.some.inj hrun
    rw [← hlive]
  · obtain rfl := Option.some.inj hrun
    rfl

/-- The first loop of `mp_reset_pool`. The descriptors are still there when all blocks are freed. -/
theorem freeLarge_follows (hholds : Holds 8 h.mem (largeWords large)) (hlive : h.live = s.live)
    (hrun : large.foldlM (fun s l => PagePool.free s l.alloc) s = some s')
    (hsited : Sited s'.live (largeWords large)) (hfuel : large.length < fuel) :
    freeLarge fuel h (firstLarge large) = some { h with live := s'.live } := by
  induction fuel generalizing large h s with
  | zero => exact absurd hfuel (Nat.not_lt_zero _)
  | succ fuel ih =>
    cases large with
    | nil =>
      obtain rfl := Option.some.inj hrun
      rw [← hlive]
      rfl
    | cons l large =>
      rw [List.foldlM_cons] at hrun
      obtain ⟨s₁, hone, hrest⟩ := Option.bind_eq_some_iff.mp hrun
      have hsub := (freeAll_keeps MpLarge.alloc hrest).2.2
      -- what is still allocated at the end is so before and behind this `free`
      have hst : Stored h (largeWords (l :: large)) :=
        ⟨hsited.mono (hlive ▸ List.Subset.trans hsub (free_keeps hone).2.2), hholds⟩
      have hst₁ : Stored { h with live := s₁.live } (largeWords (l :: large)) :=
        ⟨hsited.mono hsub, hholds⟩
      obtain ⟨-, halloc, hne, -⟩ := hst.descriptor
      obtain ⟨hnext, -, -, hst'⟩ := hst₁.descriptor
      rw [freeLarge, firstLarge, if_neg hne, halloc]
      simp only [Option.bind_eq_bind, Option.bind_some]
      rw [free_follows hlive hone, Option.bind_some, hnext, Option.bind_some]
      exact ih hst'.holds rfl hrest hsited.tail.tail (Nat.lt_of_succ_lt_succ hfuel)

end Descriptors

end MmorpgServer.PagePool.Linked
