import MmorpgServer.PagePool.Memory
import MmorpgServer.PagePool.Failure
import MmorpgServer.PagePool.NewPage

/-!
# Requests to a pool in memory

A request that fails leaves the pool as it was, and a page that is added for a request has room for
it, in every state that a pool in memory reaches while no small request is rounded up beyond the end
of its page. Behind the end there may be a header, and what `mp_calloc` clears there is the free end
of another page, or the end from which the size of the next page is computed.

## Main definitions

* `Midway` — a request has asked for memory

## Main results

* `failure_undone` — a failure leaves no trace
* `not_undone_cleared` — a request that returns `NULL` and has moved a free end
* `newPages_fit` — new pages have room
* `not_newPages_fit` — a page that is too small for its block
-/

namespace MmorpgServer.PagePool.Linked

open Bump Words RetryWindow Machine

variable {S n p size m fuel : ℕ} {h h₀ h₁ h₂ : Heap} {s s' : Sys} {act : Act}
  {acts acts' : List Act}

/-! ### Failures -/

/-- **A request that fails leaves no trace.** In every state that a pool with `max >=
sizeof(mp_large_s)` reaches while no small request is rounded up beyond the end of its page, such a
request returns, whatever the system refuses. If it returns `NULL`, the pool in memory is as it was,
and so is what has been allocated. -/
theorem failure_undone (hS : 16 ≤ S) (hnew : NewPool S p h₀) (hfuel : acts.length + 2 < fuel)
    (hguard : Guarded (step fuel p) (Meets fuel p) h₀ acts)
    (hrun : exec (step fuel p) h₀ acts = some h) (hmeets : Meets fuel p h act)
    (hasks : act.asks) :
    ∃ pool h' m, readPool fuel p h = some pool ∧ call fuel p h act = some (h', m) ∧
      (m = 0 → readPool fuel p h' = some pool ∧ h'.live = h.live) := by
  obtain ⟨h', s, hrun', htracks⟩ := hnew.exec (Nat.lt_of_succ_lt hfuel) hguard
  obtain rfl := Option.some.inj (hrun'.symm.trans hrun)
  obtain ⟨h₁, s₁, m, hone, hdeep, htracks₁⟩ := htracks.call (Nat.lt_of_succ_lt hfuel) hmeets
  refine ⟨s.pool, h₁, m, htracks.readPool (Nat.lt_of_succ_lt hfuel), hone, ?_⟩
  rintro rfl
  obtain ⟨hpool, hlive⟩ := deepCall_undone htracks.clean hS hasks s₁ hdeep
  rw [htracks₁.rep.live, htracks.rep.live, ← hpool]
  exact ⟨htracks₁.readPool hfuel, hlive⟩

/-- A block, a descriptor, and a page for the descriptor that there is no memory for. -/
theorem failure_undone_page : ∃ h₀ h, mpCreatePool (blank [4096, 8192, 0]) 40 = some (h₀, 4096) ∧
    exec (step 4 4096) h₀ [.alloc 32] = some h ∧
    ∃ pool h', readPool 4 4096 h = some pool ∧ call 4 4096 h (.alloc 100) = some (h', 0) ∧
      readPool 4 4096 h' = some pool ∧ h'.live = h.live := by
  obtain ⟨⟨h₀, p⟩, hcreate, rfl, hguard, h, hrun, hmeets⟩ :
      ∃ r, r ∈ mpCreatePool (blank [4096, 8192, 0]) 40 ∧ r.2 = 4096 ∧
        Guarded (step 4 r.2) (Meets 4 r.2) r.1 [.alloc 32] ∧
        ∃ h, h ∈ exec (step 4 r.2) r.1 [.alloc 32] ∧ Meets 4 r.2 h (.alloc 100) := by
    decide +kernel
  obtain ⟨pool, h', m, hread, hcall, hundone⟩ := failure_undone (by decide)
    (newPool_blank hcreate (by decide) (by decide)) (by decide) hguard hrun hmeets trivial
  have hnull : ((mpCreatePool (blank [4096, 8192, 0]) 40).bind fun r =>
      (exec (step 4 4096) r.1 [.alloc 32]).bind fun h =>
        (call 4 4096 h (.alloc 100)).map Prod.snd) = some 0 := by decide +kernel
  rw [hcreate, Option.bind_some, hrun, Option.bind_some, hcall, Option.map_some] at hnull
  obtain rfl : m = 0 := Option.some.inj hnull
  exact ⟨h₀, h, hcreate, hrun, pool, h', hread, hcall, hundone rfl⟩

/-- The third request is rounded up beyond the end of the second page, and `mp_calloc` clears the
free end of the third. Then there is room at the address `0`: the request returns `NULL`, and the
free end of the page has moved. -/
theorem not_undone_cleared : ∃ h₀ h pool h' pool',
    mpCreatePool (blank [8192, 4224, 4096]) 72 = some (h₀, 8192) ∧
    h₀.read (nextAt (headAt 8192)) = some 0 ∧
    exec (step 5 8192) h₀ [.alloc 40, .alloc 40, .alloc 72, .calloc 9] = some h ∧
    readPool 5 8192 h = some pool ∧ call 5 8192 h (.alloc 1) = some (h', 0) ∧
    readPool 5 8192 h' = some pool' ∧ pool.pages.map (·.last) ≠ pool'.pages.map (·.last) := by
  have hwords : ((mpCreatePool (blank [8192, 4224, 4096]) 72).bind fun r =>
      (exec (step 5 8192) r.1 [.alloc 40, .alloc 40, .alloc 72, .calloc 9]).bind fun h =>
        (readPool 5 8192 h).bind fun pool => (call 5 8192 h (.alloc 1)).bind fun r' =>
          (readPool 5 8192 r'.1).map fun pool' => (r.2, r.1.read (nextAt (headAt 8192)), r'.2,
            decide (pool.pages.map (·.last) = pool'.pages.map (·.last)))) =
      some (8192, some 0, 0, false) := by
    decide +kernel
  obtain ⟨⟨h₀, p⟩, hcreate, hrest⟩ := Option.bind_eq_some_iff.mp hwords
  obtain ⟨h, hrun, hrest⟩ := Option.bind_eq_some_iff.mp hrest
  obtain ⟨pool, hread, hrest⟩ := Option.bind_eq_some_iff.mp hrest
  obtain ⟨⟨h', m⟩, hcall, hrest⟩ := Option.bind_eq_some_iff.mp hrest
  obtain ⟨pool', hread', heq⟩ := Option.map_eq_some_iff.mp hrest
  simp only [Prod.mk.injEq] at heq
  obtain ⟨rfl, hnext, rfl, hlast⟩ := heq
  exact ⟨h₀, h, pool, h', pool', hcreate, hnext, hrun, hread, hcall, hread',
    of_decide_eq_false hlast⟩

/-! ### New pages -/

/-- Between two operations, or within one that has asked for memory -/
def Midway (h h₁ : Heap) : Prop :=
  h₁ = h ∨ ∃ alignment size a, h.request alignment size = (h₁, a)

/-- The pool is as before, when memory has been asked for. -/
theorem Tracks.midway (h : Tracks S p n h₀ s) (hmid : Midway h₀ h₁) :
    ∃ s₁ tail blocks, Rep p h₁ s₁ ∧ Inv S tail blocks s₁ ∧ nonnull s.pool.large ⊆ blocks ∧
      s₁.pool = s.pool ∧ s₁.handed = s.handed := by
  obtain ⟨tail, hinv⟩ := h.clean.regions
  rcases hmid with rfl | ⟨alignment, size, a, hreq⟩
  · exact ⟨s, tail, _, h.rep, hinv, List.Subset.refl _, rfl, rfl⟩
  · cases hmodel : PagePool.request s alignment size with
    | mk s₁ b =>
      obtain ⟨h', hreq', hrep⟩ := h.rep.request hmodel
      obtain ⟨rfl, rfl⟩ := Prod.mk.inj (hreq'.symm.trans hreq)
      obtain ⟨hpool, hcases⟩ := request_inv hinv hmodel
      obtain ⟨hhanded, -⟩ := request_keeps hmodel
      rcases hcases with ⟨-, hinv₁⟩ | ⟨-, hinv₁, -⟩
      · exact ⟨s₁, tail, _, hrep, hinv₁, List.Subset.refl _, hpool, hhanded⟩
      · exact ⟨s₁, tail, _, hrep, hinv₁, List.subset_cons_self _ _, hpool, hhanded⟩

/-- `mp_alloc_block` counts one failure more, at most, on each page. -/
theorem mpAllocBlock_failed {tail : List ℕ} (h : Scans p tail s) {s₁ : Sys}
    (hpool : s₁.pool = s.pool) (hrun : PagePool.mpAllocBlock s₁ size = some (s', m)) :
    ∀ q ∈ s'.pool.pages, q.failed ≤ 7 := by
  have hle : ∀ q ∈ s₁.pool.pages, q.failed ≤ 6 := hpool ▸ Scans.failed_le h
  obtain ⟨head, s₂, node, -, hreq, ⟨-, rfl, -⟩ | ⟨-, -, rfl⟩⟩ := mpAllocBlock_cases hrun
  · rw [(request_asked hreq).2]
    exact fun q hq => (hle q hq).trans (Nat.le_succ 6)
  · dsimp only [addNode]
    rw [(request_asked hreq).2]
    rw [← before_append_from] at hle
    intro q hq
    rcases List.mem_append.mp hq with hq | hq
    · rcases List.mem_append.mp hq with hq | hq
      · exact (hle q (List.mem_append_left _ hq)).trans (Nat.le_succ 6)
      -- a failure has been counted on the pages from `current` on
      · have hmem : q.failed ∈ bump (failures (fromCurrent s₁.pool)) := by
          rw [← countFailed_failed _ s₁.pool.current]
          exact List.mem_map_of_mem hq
        refine le_of_mem_bump (fun c hc => ?_) hmem
        obtain ⟨r, hr, rfl⟩ := List.mem_map.mp hc
        exact hle r (List.mem_append_right _ hr)
    · obtain rfl := List.mem_singleton.mp hq
      exact Nat.zero_le 7

/-- A page that is added in memory fits the request. -/
theorem Tracks.newPage (h : Tracks S p n h₀ s) (hmid : Midway h₀ h₁) (hfuel : n + 2 < fuel)
    (hsize : size ≤ s.pool.max) :
    ∃ h' m, mpAllocBlock fuel h₁ p size = some (h', m) ∧ (m ≠ 0 → ∃ pool' pages q,
      Linked.readPool fuel p h' = some pool' ∧ pool'.pages = pages ++ [q] ∧ mpAlignment ∣ m ∧
        q.addr + sizeofNode ≤ m ∧ m + size ≤ q.end_) := by
  obtain ⟨s₁, tail, blocks, hrep, hinv, hblocks, hpool, hhanded⟩ := h.midway hmid
  rw [← hpool] at hsize hblocks
  obtain ⟨s', m, hrun, hlarge, -, -, hcases, tail', hinv'⟩ := mpAllocBlock_inv hinv hsize
  obtain ⟨scanned, hscans⟩ := h.scans
  have hfailed := mpAllocBlock_failed hscans hpool hrun
  -- there is room for what it leaves behind
  have hdesc : (descriptors s'.pool).Sublist s'.handed := by
    have hbefore : (descriptors s'.pool).Sublist s₁.handed := by
      rw [descriptors, hlarge, hpool, hhanded]
      exact h.clean.handed
    rcases hcases with ⟨hsame, -⟩ | ⟨hmore, -⟩
    · rw [hsame]
      exact hbefore
    · rw [hmore]
      exact hbefore.cons _
  have hlaid : Laid s' := ⟨hinv'.sited hdesc, hinv'.fits hdesc (by rwa [hlarge])
    fun q hq => (hfailed q hq).trans_lt (by decide)⟩
  have hpages := h.pages
  have hdescs := h.large
  rw [← hpool] at hpages hdescs
  have hcurrent : fromCurrent s₁.pool ≠ [] := fun hnil => by
    have hfirst := fromCurrent_head hinv.current
    rw [hnil] at hfirst
    cases hfirst
  have hwalk : s₁.pool.pages.length < fuel := hpages.trans_lt (Nat.lt_of_succ_lt hfuel)
  obtain ⟨h', hone, hrep'⟩ := mpAllocBlock_follows hrep hwalk hcurrent s' m hrun hlaid
  refine ⟨h', m, hone, fun hm => ?_⟩
  obtain ⟨q, hnew, hdvd, hlo, hhi⟩ := newPage_fits hinv hsize hrun hm
  have hlength : s'.pool.pages.length = s₁.pool.pages.length + 1 := by
    have haddrs := congrArg List.length (counted_addr s₁.pool)
    rw [List.length_map, List.length_map] at haddrs
    rw [hnew, List.length_append, haddrs]
    rfl
  exact ⟨s'.pool, _, q, hrep'.readPool (by omega) (by rw [hlarge]; omega), hnew, hdvd, hlo, hhi⟩

/-- Behind a reset it has room again. -/
theorem Tracks.resetPages (h : Tracks S p n h₀ s) (hfuel : n + acts.length + 2 < fuel)
    (hguard : Guarded (step fuel p) (Meets fuel p) h₀ acts)
    (hrun : Machine.exec (step fuel p) h₀ acts = some h₁) :
    ∃ h₂ pool, mpResetPool fuel h₁ p = some h₂ ∧ Linked.readPool fuel p h₂ = some pool ∧
      ∀ q ∈ s.pool.pages.tail, ∃ r ∈ pool.pages, r.addr = q.addr ∧ r.end_ = q.end_ ∧
        ∀ k ≤ pool.max, HasRoom r k := by
  obtain ⟨h', s₁, hrun', hdeep, htracks⟩ := h.exec (Nat.lt_of_succ_lt hfuel) hguard
  obtain rfl := Option.some.inj (hrun'.symm.trans hrun)
  have hmeets : Meets fuel p h' .reset := ⟨_, htracks.view (Nat.lt_of_succ_lt hfuel), trivial⟩
  obtain ⟨h₂, s₂, m, hone, hmodel, htracks'⟩ := htracks.call (Nat.lt_of_succ_lt hfuel) hmeets
  obtain ⟨h₂', hreset, heq⟩ := Option.map_eq_some_iff.mp hone
  obtain ⟨rfl, -⟩ := Prod.mk.inj heq
  obtain ⟨s₂', hmodel', heq⟩ := Option.map_eq_some_iff.mp hmodel
  obtain ⟨rfl, -⟩ := Prod.mk.inj heq
  refine ⟨h₂', s₂'.pool, hreset, htracks'.readPool hfuel, fun q hq => ?_⟩
  obtain ⟨tail, hinv⟩ := h.clean.regions
  obtain ⟨tail', hscans⟩ := h.scans
  -- the regions of the pages are aligned
  have htail : tail = tail' :=
    (List.cons.inj (hinv.addrs.symm.trans hscans.regions.pages)).2
  exact reset_hasRoom hinv (htail ▸ hscans.further) hdeep hmodel'
    (htracks'.max ▸ maxOf_le S) hq

/-- **A new page always fits the request that caused it.** In every state that a pool of any size
reaches while no small request is rounded up beyond the end of its page, every request of at most
`pool->max` bytes for which `mp_alloc_block` makes a page gets an aligned block in it, behind its
header, also where it is made for a descriptor. Behind every further run and a reset, the pages that
were added have room for every request of at most `pool->max` bytes. -/
theorem newPages_fit (hnew : NewPool S p h₀) (hfuel : acts.length + 2 < fuel)
    (hguard : Guarded (step fuel p) (Meets fuel p) h₀ acts)
    (hrun : exec (step fuel p) h₀ acts = some h) :
    ∃ pool, readPool fuel p h = some pool ∧
      (∀ h₁ size, Midway h h₁ → size ≤ pool.max → ∃ h' m,
        mpAllocBlock fuel h₁ p size = some (h', m) ∧ (m ≠ 0 → ∃ pool' pages q,
          readPool fuel p h' = some pool' ∧ pool'.pages = pages ++ [q] ∧ mpAlignment ∣ m ∧
            q.addr + sizeofNode ≤ m ∧ m + size ≤ q.end_)) ∧
      ∀ acts' h₁, acts.length + acts'.length + 2 < fuel →
        Guarded (step fuel p) (Meets fuel p) h acts' →
        exec (step fuel p) h acts' = some h₁ →
        ∃ h₂ pool', mpResetPool fuel h₁ p = some h₂ ∧ readPool fuel p h₂ = some pool' ∧
          ∀ q ∈ pool.pages.tail, ∃ r ∈ pool'.pages, r.addr = q.addr ∧ r.end_ = q.end_ ∧
            ∀ k ≤ pool'.max, HasRoom r k := by
  obtain ⟨h', s, hrun', htracks⟩ := hnew.exec (Nat.lt_of_succ_lt hfuel) hguard
  obtain rfl := Option.some.inj (hrun'.symm.trans hrun)
  exact ⟨s.pool, htracks.readPool (Nat.lt_of_succ_lt hfuel),
    fun h₁ size hmid hsize => htracks.newPage hmid hfuel hsize,
    fun acts' h₁ hfuel' hguard' hrun₁ => htracks.resetPages hfuel' hguard' hrun₁⟩

/-- A block of `64` bytes in a pool of size `64`, and one that takes a page. -/
theorem newPages_fit_sixtyFour : ∃ h₀ h h' pool' pages q,
    mpCreatePool (blank [4096, 8192]) 64 = some (h₀, 4096) ∧
    exec (step 4 4096) h₀ [.nalloc 64] = some h ∧
    mpAllocBlock 4 h 4096 64 = some (h', 8224) ∧ readPool 4 4096 h' = some pool' ∧
    pool'.pages = pages ++ [q] ∧ q.addr + sizeofNode ≤ 8224 ∧ 8224 + 64 ≤ q.end_ := by
  obtain ⟨⟨h₀, p⟩, hcreate, rfl, hguard, h, hrun, hmax⟩ :
      ∃ r, r ∈ mpCreatePool (blank [4096, 8192]) 64 ∧ r.2 = 4096 ∧
        Guarded (step 4 r.2) (Meets 4 r.2) r.1 [.nalloc 64] ∧
        ∃ h, h ∈ exec (step 4 r.2) r.1 [.nalloc 64] ∧
          (readPool 4 r.2 h).map (·.max) = some 64 := by
    decide +kernel
  obtain ⟨pool, hread, hfits, -⟩ := newPages_fit
    (newPool_blank hcreate (by decide) (by decide)) (by decide) hguard hrun
  rw [hread] at hmax
  obtain ⟨h', m, hblock, hpage⟩ := hfits h 64 (Or.inl rfl) (Option.some.inj hmax).ge
  have hgiven : ((mpCreatePool (blank [4096, 8192]) 64).bind fun r =>
      (exec (step 4 4096) r.1 [.nalloc 64]).bind fun h =>
        (mpAllocBlock 4 h 4096 64).map Prod.snd) = some 8224 := by decide +kernel
  rw [hcreate, Option.bind_some, hrun, Option.bind_some, hblock, Option.map_some] at hgiven
  obtain rfl : m = 8224 := Option.some.inj hgiven
  obtain ⟨pool', pages, q, hread', hpages, -, hlo, hhi⟩ := hpage (by decide)
  exact ⟨h₀, h, h', pool', pages, q, hcreate, hrun, hblock, hread', hpages, hlo, hhi⟩

/-- The third request is rounded up beyond the end of the second page, and `mp_calloc` clears a byte
of `head->end`. Behind a reset, the size of the next page is computed from it. -/
theorem not_newPages_fit : ∃ h₀ h h' pool q,
    mpCreatePool (blank [4256, 4128, 8192]) 72 = some (h₀, 4256) ∧
    h₀.read (nextAt (headAt 4256)) = some 0 ∧
    exec (step 5 4256) h₀ [.alloc 40, .alloc 72, .alloc 1, .calloc 1, .reset, .alloc 40] = some h ∧
    call 5 4256 h (.alloc 72) = some (h', 8224) ∧ readPool 5 4256 h' = some pool ∧
    pool.pages.getLast? = some q ∧ q.addr = 8192 ∧ q.end_ < 8224 + 72 := by
  have hwords : ((mpCreatePool (blank [4256, 4128, 8192]) 72).bind fun r =>
      (exec (step 5 4256) r.1
        [.alloc 40, .alloc 72, .alloc 1, .calloc 1, .reset, .alloc 40]).bind fun h =>
        (call 5 4256 h (.alloc 72)).bind fun r' => (readPool 5 4256 r'.1).bind fun pool =>
          pool.pages.getLast?.map fun q => (r.2, r.1.read (nextAt (headAt 4256)), r'.2, q.addr,
            q.end_)) =
      some (4256, some 0, 8224, 8192, 8264) := by
    decide +kernel
  obtain ⟨⟨h₀, p⟩, hcreate, hrest⟩ := Option.bind_eq_some_iff.mp hwords
  obtain ⟨h, hrun, hrest⟩ := Option.bind_eq_some_iff.mp hrest
  obtain ⟨⟨h', m⟩, hcall, hrest⟩ := Option.bind_eq_some_iff.mp hrest
  obtain ⟨pool, hread, hrest⟩ := Option.bind_eq_some_iff.mp hrest
  obtain ⟨q, hlast, heq⟩ := Option.map_eq_some_iff.mp hrest
  simp only [Prod.mk.injEq] at heq
  obtain ⟨rfl, hnext, rfl, haddr, hend⟩ := heq
  exact ⟨h₀, h, h', pool, q, hcreate, hnext, hrun, hcall, hread, hlast, haddr, by
    rw [hend]
    decide⟩

end MmorpgServer.PagePool.Linked
