import MmorpgServer.PagePool.Memory

/-!
# The large blocks of a pool in memory

A descriptor in memory owns its block as one of the model does, so every large block is freed once.
How deep the calls of `mp_alloc` nest before there is a descriptor is a matter of its size: where it
is a small block two calls are enough, and otherwise only a failure of `malloc` ends them.

Both hold as long as no small request is rounded up beyond the end of its page.

## Main definitions

* `accounted` — the operations with their account

## Main results

* `blocks_freed_once` — every large block has one owner
* `block_lost` — a block that is not freed
* `two_calls_iff` — when two nested calls are enough
* `three_calls` — a pool in which they are not
-/

namespace MmorpgServer.PagePool.Linked

open Bump Machine

variable {S n p size fuel depth : ℕ} {h h₀ : Heap} {s : Sys} {acts : List Act} {acc : Account}

/-! ### Who frees a block -/

/-- The operations with their account, which is read off the memory before and behind them. -/
def accounted (fuel p : ℕ) (st : Heap × Account) (act : Act) : Option (Heap × Account) := do
  let (h, m) ← call fuel p st.1 act
  let s ← view fuel p st.1
  let s' ← view fuel p h
  return (h, st.2.note s act s' m)

/-- A new pool. -/
theorem Tracks.books (h : Tracks S p 0 h₀ s) (hS : 16 ≤ S) : Books p s ⟨0, 0, 0, []⟩ := by
  obtain ⟨tail, hscans⟩ := h.scans
  have hlarge : s.pool.large = [] := List.eq_nil_of_length_eq_zero (Nat.le_zero.mp h.large)
  have htail : tail = [] := by
    have hlength := congrArg List.length hscans.regions.pages
    have hpages := h.pages
    rw [List.length_map, List.length_cons] at hlength
    exact List.eq_nil_of_length_eq_zero (by omega)
  subst htail
  have hmax : sizeofLarge ≤ s.pool.max := by
    rw [h.max]
    exact sizeofLarge_le_maxOf.mpr hS
  exact ⟨hscans.regions.toOwned hmax, by rw [hlarge]; rfl, rfl⟩

/-- The account of a run. -/
theorem exec_accounted (htracks : Tracks S p n h₀ s) (hbooks : Books p s acc)
    (hfuel : n + acts.length + 1 < fuel)
    (hguard : Guarded (step fuel p) (Meets fuel p) h₀ acts) :
    ∃ h acc' s', exec (accounted fuel p) (h₀, acc) acts = some (h, acc') ∧
      Tracks S p (n + acts.length) h s' ∧ Books p s' acc' := by
  induction acts generalizing h₀ s acc n with
  | nil => exact ⟨h₀, acc, s, rfl, htracks, hbooks⟩
  | cons act acts ih =>
    rw [List.length_cons] at hfuel ⊢
    obtain ⟨h₁, s₁, m, hone, hdeep, htracks₁⟩ := htracks.call (by omega) hguard.1
    have hstep := step_of_call hone
    obtain ⟨h, acc', s', hrest, htracks', hbooks'⟩ :=
      ih htracks₁ (hbooks.note hdeep) (by omega) (hguard.2 h₁ hstep)
    rw [Nat.add_right_comm n 1] at htracks'
    refine ⟨h, acc', s', exec_cons_eq_some.mpr ⟨(h₁, acc.note s act s₁ m), ?_, hrest⟩, htracks',
      hbooks'⟩
    -- the account is read off the pool before the call and behind it
    have hview := htracks.view (show n + 1 < fuel by omega)
    have hview₁ := htracks₁.view (show n + 1 + 1 < fuel by omega)
    unfold accounted
    rw [hone]
    simp only [Option.bind_eq_bind, Option.bind_some, hview, hview₁]
    rfl

/-- **Every large block has one owner.** In every run on a pool with `max >= sizeof(mp_large_s)` in
which no small request is rounded up beyond the end of its page, with any failures of the allocator,
no operation faults. In every state of it, each large block that the caller was given and that was
not freed is the `alloc` of one descriptor, the blocks that were given are those that were freed and
these, and the pages that were added are the further pages of the pool. `mp_destory_pool` then
frees, once, the pool, these pages and these blocks, and nothing is left. -/
theorem blocks_freed_once (hS : 16 ≤ S) (hnew : NewPool S p h₀) (hfuel : acts.length + 1 < fuel)
    (hguard : Guarded (step fuel p) (Meets fuel p) h₀ acts) :
    ∃ h acc s, exec (accounted fuel p) (h₀, ⟨0, 0, 0, []⟩) acts = some (h, acc) ∧
      view fuel p h = some s ∧
      (∀ a ∈ acc.lent, (s.pool.large.map (·.alloc)).count a = 1) ∧
      acc.handed = acc.freed + acc.lent ∧
      s.pool.pages.tail.map (·.addr) = acc.pages ∧
      bases s = p ::ₘ (↑acc.pages + acc.lent) ∧ (bases s).Nodup ∧
      ∃ h', mpDestoryPool fuel h p = some h' ∧ h'.live = [] := by
  obtain ⟨s₀, htracks⟩ := hnew.tracks
  rw [← Nat.zero_add acts.length] at hfuel
  obtain ⟨h, acc, s, hrun, htracks', hbooks⟩ :=
    exec_accounted htracks (htracks.books hS) hfuel hguard
  obtain ⟨hlent, hpages, hbases, hnodup⟩ := hbooks.account
  exact ⟨h, acc, _, hrun, htracks'.view hfuel, hlent, hbooks.handed, hpages, hbases, hnodup,
    htracks'.destroy hfuel⟩

/-- A large block that is freed by `mp_free`, one by `mp_reset_pool` and one by `mp_destory_pool`,
whose addresses are the same. -/
theorem blocks_freed_once_three : ∃ h₀ h acc,
    mpCreatePool (blank [4096, 8192, 8192, 8192]) 64 = some (h₀, 4096) ∧
    exec (accounted 7 4096) (h₀, ⟨0, 0, 0, []⟩)
      [.alloc 100, .free 8192, .memalign 100 64, .reset, .nalloc 100] = some (h, acc) ∧
    acc.handed = {8192, 8192, 8192} ∧ acc.freed = {8192, 8192} ∧ acc.lent = {8192} ∧
    ∃ h', mpDestoryPool 7 h 4096 = some h' ∧ h'.live = [] := by
  obtain ⟨⟨h₀, p⟩, hcreate, rfl, hguard⟩ : ∃ r,
      r ∈ mpCreatePool (blank [4096, 8192, 8192, 8192]) 64 ∧ r.2 = 4096 ∧
      Guarded (step 7 r.2) (Meets 7 r.2) r.1
        [.alloc 100, .free 8192, .memalign 100 64, .reset, .nalloc 100] := by
    decide +kernel
  obtain ⟨h, acc, s, hrun, -, -, -, -, -, -, hdestroy⟩ :=
    blocks_freed_once (by decide) (newPool_blank hcreate (by decide) (by decide)) (by decide) hguard
  have hacc : ((mpCreatePool (blank [4096, 8192, 8192, 8192]) 64).bind fun r =>
      (exec (accounted 7 4096) (r.1, ⟨0, 0, 0, []⟩)
        [.alloc 100, .free 8192, .memalign 100 64, .reset, .nalloc 100]).map fun st =>
          (st.2.handed, st.2.freed, st.2.lent)) =
      some ({8192, 8192, 8192}, {8192, 8192}, {8192}) := by decide +kernel
  rw [hcreate, Option.bind_some, hrun, Option.map_some] at hacc
  obtain ⟨hhanded, hrest⟩ := Prod.mk.inj (Option.some.inj hacc)
  obtain ⟨hfreed, hlent⟩ := Prod.mk.inj hrest
  exact ⟨h₀, h, acc, hcreate, hrun, hhanded, hfreed, hlent, hdestroy⟩

/-- The second page has `40` bytes and ends in a partial cell. The third request is rounded up
beyond its end and gets the pool itself. `mp_calloc` clears `pool->large`, and nobody frees the
large block of the first request. -/
theorem block_lost : ∃ h₀ h h', mpCreatePool (blank [4192, 8192, 4096]) 40 = some (h₀, 4192) ∧
    h₀.read (nextAt (headAt 4192)) = some 0 ∧
    exec (step 5 4192) h₀ [.alloc 100, .alloc 40, .calloc 40] = some h ∧
    mpDestoryPool 5 h 4192 = some h' ∧ h'.live.map (·.lo) = [8192] := by
  have hwords : ((mpCreatePool (blank [4192, 8192, 4096]) 40).bind fun r =>
      (exec (step 5 4192) r.1 [.alloc 100, .alloc 40, .calloc 40]).bind fun h =>
        (mpDestoryPool 5 h 4192).map fun h' => (r.2, r.1.read (nextAt (headAt 4192)),
          h'.live.map (·.lo))) = some (4192, some 0, [8192]) := by
    decide +kernel
  obtain ⟨⟨h₀, p⟩, hcreate, hrest⟩ := Option.bind_eq_some_iff.mp hwords
  obtain ⟨h, hrun, hrest⟩ := Option.bind_eq_some_iff.mp hrest
  obtain ⟨h', hdestroy, heq⟩ := Option.map_eq_some_iff.mp hrest
  simp only [Prod.mk.injEq] at heq
  obtain ⟨rfl, hnext, hlive⟩ := heq
  exact ⟨h₀, h, h', hcreate, hnext, hrun, hdestroy, hlive⟩

/-! ### How deep the calls nest -/

/-- `malloc` answers as in the model. -/
theorem Rep.malloc (hrep : Rep p h s) (size : ℕ) :
    (h.malloc size).2 = (PagePool.malloc s size).2 ∧
      Rep p (h.malloc size).1 (PagePool.malloc s size).1 := by
  cases hreq : PagePool.request s 16 size with
  | mk s₁ a =>
    obtain ⟨h₁, hreq', hrep₁⟩ := hrep.request hreq
    have hmalloc : h.malloc size = (h₁, a) := hreq'
    have hmodel : PagePool.malloc s size = (s₁, a) := hreq
    rw [hmalloc, hmodel]
    exact ⟨rfl, hrep₁⟩

/-- Where a descriptor is a large block and there is none, each level asks for one block more. -/
theorem Rep.level (hrep : Rep p h s) (hlarge : s.pool.large = []) (hsize : s.pool.max < size)
    (hgiven : (h.malloc size).2 ≠ 0) : mpAlloc fuel (depth + 1) h p size =
      addLarge (fun h size => mpAlloc fuel depth h p size) (h.malloc size).1 p
        (h.malloc size).2 := by
  obtain ⟨hmax, -, -⟩ := hrep.fields
  obtain ⟨-, -, hfirst⟩ := (hrep.malloc size).2.fields
  rw [malloc_pool, hlarge] at hfirst
  rw [mpAlloc, if_neg (Nat.ne_zero_of_lt hsize), hmax]
  simp only [Option.bind_eq_bind, Option.bind_some]
  rw [if_neg (not_le.mpr hsize)]
  unfold mpAllocLarge
  dsimp only
  rw [if_neg hgiven, hfirst]
  rfl

/-- Two levels that both get a block are not enough. -/
theorem Rep.two_levels (hrep : Rep p h s) (hlarge : s.pool.large = [])
    (hmax : s.pool.max < sizeofLarge) (hsize : s.pool.max < size) (hgiven : (h.malloc size).2 ≠ 0)
    (hgiven' : ((h.malloc size).1.malloc sizeofLarge).2 ≠ 0) : mpAlloc fuel 2 h p size = none := by
  have hpool := malloc_pool s size
  rw [hrep.level hlarge hsize hgiven]
  unfold addLarge
  dsimp only
  rw [(hrep.malloc size).2.level (by rwa [hpool]) (by rwa [hpool]) hgiven']
  rfl

/-- **Two nested calls are enough exactly where no descriptor of a descriptor is made.** In every
state that a pool of any size reaches while no small request is rounded up beyond the end of its
page, a call of `mp_alloc` ends. Two nested calls of it are enough iff a descriptor is a small
block, the request itself is small, or `malloc` fails for the block or for its descriptor. -/
theorem two_calls_iff (hnew : NewPool S p h₀) (hfuel : acts.length + 1 < fuel)
    (hguard : Guarded (step fuel p) (Meets fuel p) h₀ acts)
    (hrun : exec (step fuel p) h₀ acts = some h) (hmeets : Meets fuel p h (.alloc size)) :
    (∃ h' m, mpAlloc fuel (h.answers.length + 2) h p size = some (h', m)) ∧
    ((∃ h' m, mpAlloc fuel 2 h p size = some (h', m)) ↔
      16 ≤ S ∨ size ≤ S ∨ (h.malloc size).2 = 0 ∨
        ((h.malloc size).1.malloc sizeofLarge).2 = 0) := by
  obtain ⟨h', s, hrun', htracks⟩ := hnew.exec hfuel hguard
  obtain rfl := Option.some.inj (hrun'.symm.trans hrun)
  obtain ⟨h₁, s₁, m, hone, hdeep, htracks₁⟩ := htracks.call hfuel hmeets
  refine ⟨⟨h₁, m, hone⟩, ?_⟩
  have hmax := htracks.max
  obtain ⟨hanswer, hrep₁⟩ := htracks.rep.malloc size
  obtain ⟨hanswer', -⟩ := hrep₁.malloc sizeofLarge
  have hsmall : S < 16 → s.pool.max = S := fun hS => by
    rw [hmax, maxOf, if_pos (hS.trans (by decide))]
  constructor
  · rintro ⟨h₂, m₂, htwo⟩
    -- otherwise both levels get a block, and the second one asks for a descriptor again
    by_contra! hboth
    obtain ⟨hS, hsize, hgiven, hgiven'⟩ := hboth
    have hlt : s.pool.max < sizeofLarge := by
      rw [hsmall hS]
      exact hS
    rw [htracks.rep.two_levels (htracks.clean.starved hlt) hlt (by rwa [hsmall hS]) hgiven hgiven']
      at htwo
    cases htwo
  · intro hcond
    have hmodel : sizeofLarge ≤ s.pool.max ∨ size ≤ s.pool.max ∨ ¬ MakesDescriptor s size ∨
        ¬ MakesDescriptor (PagePool.malloc s size).1 sizeofLarge := by
      by_cases hS : 16 ≤ S
      · left
        rw [hmax]
        exact sizeofLarge_le_maxOf.mpr hS
      · rw [hsmall (not_le.mp hS)]
        rcases hcond with h | h | h | h
        · exact absurd h hS
        · exact Or.inr (Or.inl h)
        · exact Or.inr (Or.inr (Or.inl fun hmakes => hmakes.1 (hanswer ▸ h)))
        · exact Or.inr (Or.inr (Or.inr fun hmakes => hmakes.1 (hanswer' ▸ h)))
    have htwo : PagePool.mpAlloc 2 s size = some (s₁, m) :=
      (two_calls s.answers.length hmodel).symm.trans hdeep
    obtain ⟨h₂, hone₂, -⟩ := mpAlloc_follows htracks.rep (htracks.pages.trans_lt hfuel) s₁ m htwo
      htracks₁.rep.laid
    exact ⟨h₂, m, hone₂⟩

/-- In a pool of size `16` a descriptor is a small block. -/
theorem two_calls_iff_small : ∃ h₀ h,
    mpCreatePool (blank [4096, 8192, 12288]) 16 = some (h₀, 4096) ∧
    exec (step 3 4096) h₀ [.nalloc 1] = some h ∧
    ∃ h' m, mpAlloc 3 2 h 4096 100 = some (h', m) := by
  obtain ⟨⟨h₀, p⟩, hcreate, rfl, hguard, h, hrun, hmeets⟩ :
      ∃ r, r ∈ mpCreatePool (blank [4096, 8192, 12288]) 16 ∧ r.2 = 4096 ∧
        Guarded (step 3 r.2) (Meets 3 r.2) r.1 [.nalloc 1] ∧
        ∃ h, h ∈ exec (step 3 r.2) r.1 [.nalloc 1] ∧ Meets 3 r.2 h (.alloc 100) := by
    decide +kernel
  exact ⟨h₀, h, hcreate, hrun, (two_calls_iff (newPool_blank hcreate (by decide) (by decide))
    (by decide) hguard hrun hmeets).2.mpr (Or.inl le_rfl)⟩

/-- In a pool of size `8`, a request of `100` bytes takes a block, a descriptor that is a block of
its own, and a descriptor for that one, for which the allocator has no more memory. -/
theorem three_calls : ∃ h₀, mpCreatePool (blank [4096, 8192, 12288, 16384]) 8 = some (h₀, 4096) ∧
    h₀.read (nextAt (headAt 4096)) = some 0 ∧ mpAlloc 2 2 h₀ 4096 100 = none ∧
    mpAlloc 2 3 h₀ 4096 100 = none ∧ ∃ h, mpAlloc 2 5 h₀ 4096 100 = some (h, 0) := by
  have hwords : (mpCreatePool (blank [4096, 8192, 12288, 16384]) 8).map (fun r =>
      (r.2, r.1.read (nextAt (headAt 4096)), (mpAlloc 2 2 r.1 4096 100).isNone,
        (mpAlloc 2 3 r.1 4096 100).isNone, (mpAlloc 2 5 r.1 4096 100).map Prod.snd)) =
      some (4096, some 0, true, true, some 0) := by decide +kernel
  obtain ⟨⟨h₀, p⟩, hcreate, heq⟩ := Option.map_eq_some_iff.mp hwords
  simp only [Prod.mk.injEq, Option.isNone_iff_eq_none] at heq
  obtain ⟨rfl, hnext, htwo, hthree, hfive⟩ := heq
  obtain ⟨⟨h, m⟩, hrun, rfl⟩ := Option.map_eq_some_iff.mp hfive
  exact ⟨h₀, hcreate, hnext, htwo, hthree, h, hrun⟩

end MmorpgServer.PagePool.Linked
