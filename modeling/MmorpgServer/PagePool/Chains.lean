import MmorpgServer.PagePool.Memory

/-!
# The chain of pages

`mp_create_pool` does not write the field `next` of the head page, while `mp_alloc_block` writes it
for every other page. So the chain is well formed in every run if the memory held `NULL` there, and
otherwise it is not even in a new pool. Along the chain, the pages from `pool->current` on form a
window of retries.

Both hold as long as no small request is rounded up beyond the end of its page. Behind the end there
may be a header, and `mp_calloc` clears its block.

## Main definitions

* `WellFormed` — what is expected of the chain
* `Behaves` — it is well formed, and no walk along it faults, in no run

## Main results

* `behaves_iff` — when the chain is well formed
* `endless_chain` — a page that is its own next one
* `window_bounded` — `mp_alloc` looks at seven pages at most
* `current_cleared` — a pool without a current page
-/

namespace MmorpgServer.PagePool.Linked

open Bump ByteMemory Words Machine

variable {S n p q size fuel last end_ : ℕ} {h h' h₀ : Heap} {s : Sys} {acts : List Act}
  {mem : Memory} {answers : List (ℕ × Memory)} {room : ℕ → ℕ → Option ℕ}

/-! ### When the chain is well formed -/

/-- From `pool->head` on, the chain visits pages of this pool only, each of them once, and ends in
`NULL`; `pool->current` is one of them. The allocator has given out the pool, the further pages
and the blocks of the descriptors. -/
def WellFormed (fuel p : ℕ) (h : Heap) : Prop :=
  ∃ pool tail, readPool fuel p h = some pool ∧ pool.pages.map (·.addr) = headAt p :: tail ∧
    (headAt p :: tail).Nodup ∧ pool.current ∈ headAt p :: tail ∧
    (h.live.map (·.lo)).Perm (p :: tail ++ nonnull pool.large)

theorem Tracks.wellFormed (h : Tracks S p n h₀ s) (hfuel : n + 1 < fuel) :
    WellFormed fuel p h₀ := by
  obtain ⟨tail, hscans⟩ := h.scans
  have hregions := hscans.regions
  have hnodup := Scans.nodup hregions hscans.head hscans.further
  have hcurrent := hregions.current
  rw [hregions.pages] at hnodup hcurrent
  refine ⟨s.pool, tail, h.readPool hfuel, hregions.pages, hnodup, hcurrent, ?_⟩
  rw [h.rep.live]
  exact hregions.owned

/-- The pool can be created. While no small request is rounded up beyond the end of its page, no
operation faults in any run on it, the chain stays well formed, and the pool can be destroyed. -/
def Behaves (mem : Memory) (answers : List (ℕ × Memory)) (S : ℕ) : Prop :=
  ∃ h₀ p, mpCreatePool ⟨mem, [], answers⟩ S = some (h₀, p) ∧
    (p ≠ 0 → ∀ acts fuel, acts.length + 1 < fuel →
      Guarded (step fuel p) (Meets fuel p) h₀ acts →
      ∃ h, exec (step fuel p) h₀ acts = some h ∧ WellFormed fuel p h ∧
        ∃ h', mpDestoryPool fuel h p = some h')

/-- What `posix_memalign` returns to `mp_create_pool` -/
def poolAt (mem : Memory) (answers : List (ℕ × Memory)) (S : ℕ) : Heap × ℕ :=
  Heap.posixMemalign ⟨mem, [], answers⟩ mpAlignment (sizeT (S + sizeofPool + sizeofNode))

/-- Only allocated memory is written. -/
theorem write_eq_some {a v : ℕ} (hwrite : h.write a v = some h') :
    Mapped h.live a 8 ∧ h'.live = h.live := by
  unfold Heap.write at hwrite
  split_ifs at hwrite with hmapped
  obtain rfl := Option.some.inj hwrite
  exact ⟨hmapped, rfl⟩

/-- The last word of the head page is written, so it must be allocated. -/
theorem create_mapped (hp : (poolAt mem answers S).2 ≠ 0)
    (hcreate : mpCreatePool ⟨mem, [], answers⟩ S = some (h₀, p)) :
    Mapped (poolAt mem answers S).1.live (failedAt (headAt (poolAt mem answers S).2)) 8 := by
  unfold mpCreatePool at hcreate
  change (if (poolAt mem answers S).2 = 0 then _ else _) = _ at hcreate
  rw [if_neg hp] at hcreate
  obtain ⟨h₁, hwrite₁, hcreate⟩ := Option.bind_eq_some_iff.mp hcreate
  obtain ⟨h₂, hwrite₂, hcreate⟩ := Option.bind_eq_some_iff.mp hcreate
  obtain ⟨h₃, hwrite₃, hcreate⟩ := Option.bind_eq_some_iff.mp hcreate
  obtain ⟨h₄, hwrite₄, hcreate⟩ := Option.bind_eq_some_iff.mp hcreate
  obtain ⟨h₅, hwrite₅, hcreate⟩ := Option.bind_eq_some_iff.mp hcreate
  obtain ⟨h₆, hwrite₆, -⟩ := Option.bind_eq_some_iff.mp hcreate
  obtain ⟨hmapped, -⟩ := write_eq_some hwrite₆
  rw [(write_eq_some hwrite₅).2, (write_eq_some hwrite₄).2, (write_eq_some hwrite₃).2,
    (write_eq_some hwrite₂).2, (write_eq_some hwrite₁).2] at hmapped
  exact hmapped

/-- A size that overflows leaves no room for the headers. -/
theorem create_size (hS : S < 2 ^ 64) (hp : (poolAt mem answers S).2 ≠ 0)
    (hcreate : mpCreatePool ⟨mem, [], answers⟩ S = some (h₀, p)) :
    S + sizeofPool + sizeofNode < 2 ^ 64 := by
  have hmapped := create_mapped hp hcreate
  unfold poolAt at hp hmapped
  cases hreq : Heap.posixMemalign ⟨mem, [], answers⟩ mpAlignment
      (sizeT (S + sizeofPool + sizeofNode)) with
  | mk h₁ a =>
    rw [hreq] at hp hmapped
    unfold Heap.posixMemalign at hreq
    rw [if_pos (by decide)] at hreq
    obtain ⟨contents, rest, -, -, rfl⟩ := request_given hreq hp
    obtain ⟨r, hr, hlo, hhi⟩ := hmapped 7 (by decide)
    obtain rfl := List.mem_singleton.mp hr
    dsimp only [failedAt, headAt] at hlo hhi
    by_contra hwrap
    -- what is left of the size behind the overflow is less than the headers
    have hlen : Nat.max (sizeT (S + sizeofPool + sizeofNode)) 1 ≤ 55 := by
      refine Nat.max_le.mpr ⟨?_, by decide⟩
      unfold sizeT sizeofPool sizeofNode at *
      omega
    unfold sizeofPool at hhi hlen
    omega

/-- A walk over one page finds `NULL` behind it. -/
theorem readPages_two {pages : List MpNode} (hq : q ≠ 0) (hread : readPages 2 h q = some pages) :
    h.read (nextAt q) = some 0 := by
  rw [readPages, if_neg hq] at hread
  obtain ⟨last, -, hread⟩ := Option.bind_eq_some_iff.mp hread
  obtain ⟨end_, -, hread⟩ := Option.bind_eq_some_iff.mp hread
  obtain ⟨next, hnext, hread⟩ := Option.bind_eq_some_iff.mp hread
  obtain ⟨failed, -, hread⟩ := Option.bind_eq_some_iff.mp hread
  obtain ⟨pages', hrest, -⟩ := Option.bind_eq_some_iff.mp hread
  rw [hnext]
  by_contra hne
  have hzero : next ≠ 0 := fun hzero => hne (congrArg some hzero)
  rw [readPages, if_neg hzero] at hrest
  simp [readPages] at hrest

/-- In a new pool there is no page but the head. -/
theorem WellFormed.next (h : WellFormed 2 p h₀) : h₀.read (nextAt (headAt p)) = some 0 := by
  obtain ⟨pool, -, hread, -⟩ := h
  unfold readPool at hread
  obtain ⟨max, -, hread⟩ := Option.bind_eq_some_iff.mp hread
  obtain ⟨current, -, hread⟩ := Option.bind_eq_some_iff.mp hread
  obtain ⟨first, -, hread⟩ := Option.bind_eq_some_iff.mp hread
  obtain ⟨pages, hpages, -⟩ := Option.bind_eq_some_iff.mp hread
  refine readPages_two ?_ hpages
  unfold headAt sizeofPool
  omega

/-- What is allocated can be read. -/
theorem read_of_stored (h' : Heap) {v : ℕ} {ws : List Word} (hst : Stored h ws)
    (hv : (q, v) ∈ ws) (hlive : h'.live = h.live) : h'.read q = some (load h'.mem 8 q) :=
  if_pos (hlive ▸ hst.sited.mapped _ hv)

/-- **When the chain is well formed.** If there is memory for the pool, the field `next` of its head
page must be `NULL` by chance, and the size must not overflow. -/
theorem behaves_iff (S : ℕ) (mem : Memory) (answers : List (ℕ × Memory)) (hS : S < 2 ^ 64) :
    Behaves mem answers S ↔
      ((poolAt mem answers S).2 ≠ 0 → S + sizeofPool + sizeofNode < 2 ^ 64 ∧
        (poolAt mem answers S).1.read (nextAt (headAt (poolAt mem answers S).2)) = some 0) := by
  cases hreq : poolAt mem answers S with
  | mk h₁ a =>
    dsimp only
    constructor
    · rintro ⟨h₀, p, hcreate, hruns⟩ ha
      have hsize := create_size hS (by rwa [hreq]) hcreate
      obtain ⟨mem', s, hcreate', hst, -⟩ := create_some hreq ha hsize
      obtain ⟨rfl, rfl⟩ := Prod.mk.inj (Option.some.inj (hcreate'.symm.trans hcreate))
      obtain ⟨h, hrun, hwell, -⟩ := hruns ha [] 2 (by decide) trivial
      obtain rfl := Option.some.inj hrun
      -- the field holds what it held before
      have hword := next_mem_created (load h₁.mem 8 (nextAt (headAt a))) S a
      rw [read_of_stored h₁ hst hword rfl, ← hwell.next, hst.read hword]
      exact ⟨hsize, rfl⟩
    · intro hcond
      by_cases ha : a = 0
      · refine ⟨h₁, 0, ?_, fun hne => absurd rfl hne⟩
        unfold mpCreatePool
        rw [show Heap.posixMemalign ⟨mem, [], answers⟩ mpAlignment
          (sizeT (S + sizeofPool + sizeofNode)) = (h₁, a) from hreq]
        exact if_pos ha
      · obtain ⟨hsize, hnext⟩ := hcond ha
        obtain ⟨mem', s, hcreate, hst, hmodel, hs, -⟩ := create_some hreq ha hsize
        have hword := next_mem_created (load h₁.mem 8 (nextAt (headAt a))) S a
        rw [read_of_stored h₁ hst hword rfl] at hnext
        rw [Option.some.inj hnext] at hst
        have htracks := tracks_of_stored (by rw [hs]) (by rw [hs]) (by rw [hs]) hst hsize hmodel
        refine ⟨_, a, hcreate, fun _ acts fuel hfuel hguard => ?_⟩
        rw [← Nat.zero_add acts.length] at hfuel
        obtain ⟨h, s', hrun, -, htracks'⟩ := htracks.exec hfuel hguard
        obtain ⟨h', hdestroy, -⟩ := htracks'.destroy hfuel
        exact ⟨h, hrun, htracks'.wellFormed hfuel, h', hdestroy⟩

/-- Memory that holds `NULL`. -/
theorem behaves_iff_zero : Behaves (fun _ => 0) [(4096, fun _ => 0), (8192, fun _ => 0)] 32 :=
  (behaves_iff 32 (fun _ => 0) [(4096, fun _ => 0), (8192, fun _ => 0)] (by decide)).mpr
    fun _ => by decide +kernel

/-- A full page that is its own next one is searched for ever. -/
theorem scanPages_endless (hlast : h.read (lastAt q) = some last)
    (hend : h.read (endAt q) = some end_) (hroom : room last end_ = none)
    (hnext : h.read (nextAt q) = some q) (hq : q ≠ 0) : scanPages room size fuel h q = none := by
  induction fuel with
  | zero => rfl
  | succ fuel ih =>
    rw [scanPages, hlast, hend]
    simp only [Option.bind_eq_bind, Option.bind_some]
    rw [hroom]
    dsimp only
    rw [hnext, Option.bind_some, if_neg hq]
    exact ih

theorem alloc_endless {max : ℕ} (hmax : h.read (maxAt p) = some max) (hpos : size ≠ 0)
    (hle : size ≤ max) (hcurrent : h.read (currentAt p) = some q)
    (hlast : h.read (lastAt q) = some last) (hend : h.read (endAt q) = some end_)
    (hroom : roomAligned size last end_ = none) (hnext : h.read (nextAt q) = some q) (hq : q ≠ 0) :
    step fuel p h (.alloc size) = none := by
  change (mpAlloc fuel (h.answers.length + 2) h p size).map Prod.fst = none
  rw [mpAlloc, if_neg hpos, hmax]
  simp only [Option.bind_eq_bind, Option.bind_some]
  rw [if_pos hle, allocSmall, hcurrent]
  simp only [Option.bind_eq_bind, Option.bind_some]
  rw [scanPages_endless hlast hend hroom hnext hq]
  rfl

/-- A pool of `32` bytes in memory that holds the address of the head page where its field `next`
will be. A request of `32` bytes does not return, however long the walk may be. -/
theorem endless_chain : ∃ h₀, mpCreatePool ⟨fun _ => 0, [],
      [(4096, store (fun _ => 0) 8 4136 4120), (8192, fun _ => 0)]⟩ 32 = some (h₀, 4096) ∧
    (∀ fuel, step fuel 4096 h₀ (.alloc 32) = none) ∧
    ¬ Behaves (fun _ => 0) [(4096, store (fun _ => 0) 8 4136 4120), (8192, fun _ => 0)] 32 := by
  have hwords : ((mpCreatePool ⟨fun _ => 0, [],
      [(4096, store (fun _ => 0) 8 4136 4120), (8192, fun _ => 0)]⟩ 32).map fun r =>
        (r.2, [maxAt 4096, currentAt 4096, lastAt 4120, endAt 4120, nextAt 4120].map r.1.read)) =
      some (4096, [some 32, some 4120, some 4152, some 4184, some 4120]) := by decide +kernel
  obtain ⟨⟨h₀, p⟩, hcreate, heq⟩ := Option.map_eq_some_iff.mp hwords
  simp only [Prod.mk.injEq, List.map_cons, List.map_nil, List.cons.injEq, and_true] at heq
  obtain ⟨rfl, hmax, hcurrent, hlast, hend, hnext⟩ := heq
  refine ⟨h₀, hcreate, fun fuel => alloc_endless hmax (by decide) (by decide) hcurrent hlast hend
    (by decide) hnext (by decide), fun ⟨h₁, p, hcreate', hruns⟩ => ?_⟩
  obtain ⟨rfl, rfl⟩ := Prod.mk.inj (Option.some.inj (hcreate.symm.trans hcreate'))
  obtain ⟨h, hrun, hwell, -⟩ := hruns (by decide) [] 2 (by decide) trivial
  obtain rfl := Option.some.inj hrun
  exact absurd (hnext.symm.trans hwell.next) (by decide)

/-! ### The search window -/

/-- **The search window is bounded.** In every run on a pool of any size in which no small request
is rounded up beyond the end of its page, with any failures of the allocator, no operation faults.
In every state of it the chain ends in `NULL` and `current` is one of its pages; the pages before it
have failed more than five times; from it on the counts descend strictly, but for the last two
pages, which may both not have failed; and there are at most seven pages from it on, which are all
that `mp_alloc` looks at. -/
theorem window_bounded (hnew : NewPool S p h₀) (hfuel : acts.length + 1 < fuel)
    (hguard : Guarded (step fuel p) (Meets fuel p) h₀ acts) :
    ∃ h pool, exec (step fuel p) h₀ acts = some h ∧ readPool fuel p h = some pool ∧
      pool.current ∈ pool.pages.map (·.addr) ∧
      (∀ q ∈ beforeCurrent pool, 5 < q.failed) ∧
      (∀ (i : ℕ) (q r : MpNode), (fromCurrent pool)[i]? = some q →
        (fromCurrent pool)[i + 1]? = some r →
        r.failed < q.failed ∨
          (i + 2 = (fromCurrent pool).length ∧ q.failed = 0 ∧ r.failed = 0)) ∧
      (fromCurrent pool).length ≤ 7 := by
  obtain ⟨h, s, hrun, htracks⟩ := hnew.exec hfuel hguard
  obtain ⟨tail, hscans⟩ := htracks.scans
  have hlength : (fromCurrent s.pool).length = (failures (fromCurrent s.pool)).length :=
    (List.length_map _).symm
  refine ⟨h, s.pool, hrun, htracks.readPool hfuel, hscans.regions.current, fun q hq => ?_,
    fun i q r hq hr => ?_, ?_⟩
  · have := hscans.window.given_up q.failed (List.mem_map_of_mem hq)
    omega
  · rw [hlength]
    exact hscans.window.descends (by simp [failures, hq]) (by simp [failures, hr])
  · rw [hlength]
    exact hscans.window.length_le

/-- Three requests of `32` bytes on pages of `32`, each of which takes a page. -/
theorem window_bounded_three : ∃ h₀ h pool,
    mpCreatePool (blank [4096, 8192, 12288, 16384]) 32 = some (h₀, 4096) ∧
    exec (step 5 4096) h₀ [.alloc 32, .alloc 32, .calloc 32] = some h ∧
    readPool 5 4096 h = some pool ∧ pool.pages.map (·.failed) = [2, 1, 0, 0] ∧
    (fromCurrent pool).length ≤ 7 := by
  obtain ⟨⟨h₀, p⟩, hcreate, rfl, hguard⟩ : ∃ r,
      r ∈ mpCreatePool (blank [4096, 8192, 12288, 16384]) 32 ∧ r.2 = 4096 ∧
      Guarded (step 5 r.2) (Meets 5 r.2) r.1 [.alloc 32, .alloc 32, .calloc 32] := by
    decide +kernel
  obtain ⟨h, pool, hrun, hread, -, -, -, hlength⟩ :=
    window_bounded (newPool_blank hcreate (by decide) (by decide)) (by decide) hguard
  have hcounts : ((mpCreatePool (blank [4096, 8192, 12288, 16384]) 32).bind fun r =>
      (exec (step 5 4096) r.1 [.alloc 32, .alloc 32, .calloc 32]).bind fun h =>
        (readPool 5 4096 h).map fun pool => pool.pages.map (·.failed)) = some [2, 1, 0, 0] := by
    decide +kernel
  rw [hcreate, Option.bind_some, hrun, Option.bind_some, hread, Option.map_some] at hcounts
  exact ⟨h₀, h, pool, hcreate, hrun, hread, Option.some.inj hcounts, hlength⟩

/-- The second page has `40` bytes and ends in a partial cell. The third request is rounded up
beyond its end and gets the pool itself, which `mp_calloc` clears. -/
theorem current_cleared : ∃ h₀ h pool,
    mpCreatePool (blank [4192, 8192, 4096]) 40 = some (h₀, 4192) ∧
    h₀.read (nextAt (headAt 4192)) = some 0 ∧
    exec (step 5 4192) h₀ [.alloc 100, .alloc 40, .calloc 40] = some h ∧
    readPool 5 4192 h = some pool ∧ pool.current ∉ pool.pages.map (·.addr) := by
  have hwords : ((mpCreatePool (blank [4192, 8192, 4096]) 40).bind fun r =>
      (exec (step 5 4192) r.1 [.alloc 100, .alloc 40, .calloc 40]).bind fun h =>
        (readPool 5 4192 h).map fun pool => (r.2, r.1.read (nextAt (headAt 4192)),
          decide (pool.current ∈ pool.pages.map (·.addr)))) = some (4192, some 0, false) := by
    decide +kernel
  obtain ⟨⟨h₀, p⟩, hcreate, hrest⟩ := Option.bind_eq_some_iff.mp hwords
  obtain ⟨h, hrun, hrest⟩ := Option.bind_eq_some_iff.mp hrest
  obtain ⟨pool, hread, heq⟩ := Option.map_eq_some_iff.mp hrest
  simp only [Prod.mk.injEq] at heq
  obtain ⟨rfl, hnext, hcurrent⟩ := heq
  exact ⟨h₀, h, pool, hcreate, hnext, hrun, hread, of_decide_eq_false hcurrent⟩

end MmorpgServer.PagePool.Linked
