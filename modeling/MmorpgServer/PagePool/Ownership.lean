import MmorpgServer.PagePool.Regions
import Mathlib.Data.Multiset.OrderedMonoid
import Mathlib.Algebra.Order.Sub.Basic

/-!
# Who owns the blocks of the page pool

What the system allocator has given to a pool is the pool's own region, the further pages, and the
large blocks, each of which one descriptor holds. `mp_free` and `mp_reset_pool` give blocks back, and
`mp_destory_pool` gives back what is left. Where small blocks are does not matter to the descriptors
of the model, but it does to those in memory (`Blocks`).

## Main definitions

* `mpDestoryPool` — the function of the source
* `Owned` — the regions of the allocator, and what the pool knows of them
* `Account` — the large blocks that the caller was given and that were freed, and the pages that
  were added

## Main results

* `deepCall_owned` — what an operation does to the regions
* `Books.note` — the account of one more operation
* `Books.account` — what the account says
-/

namespace MmorpgServer.PagePool

open Bump Machine

variable {S p : ℕ} {s s' s₁ : Sys} {tail blocks : List ℕ} {size m a : ℕ}
  {fit : MpNode → Option ℕ}

/-- `mp_destory_pool` -/
def mpDestoryPool (s : Sys) : Option Sys := do
  let s ← s.pool.large.foldlM (fun s l => free s l.alloc) s
  if s.pool.rest ≠ 0 then none
  let s ← s.pool.pages.tail.foldlM (fun s h => free s h.addr) s
  free s s.pool.addr

/-! ### Regions -/

/-- The pool at `p` has the further pages `tail`. The allocator has given out the pool, these
pages, and `blocks`. -/
structure Owned (p : ℕ) (tail blocks : List ℕ) (s : Sys) : Prop where
  addr : s.pool.addr = p
  pages : s.pool.pages.map (·.addr) = (p + sizeofPool) :: tail
  owned : (s.live.map (·.lo)).Perm (p :: tail ++ blocks)
  nodup : (s.live.map (·.lo)).Nodup
  sound : ∀ r ∈ s.live, 0 < r.lo ∧ 0 < r.len
  max : sizeofLarge ≤ s.pool.max
  current : s.pool.current ∈ s.pool.pages.map (·.addr)
  rest : s.pool.rest = 0

theorem Owned.regions (h : Owned p tail blocks s) : Regions p tail blocks s := { h with }

theorem Regions.toOwned (h : Regions p tail blocks s) (hmax : sizeofLarge ≤ s.pool.max) :
    Owned p tail blocks s :=
  { h with max := hmax }

theorem Owned.bases_nodup (h : Owned p tail blocks s) : (p :: tail ++ blocks).Nodup :=
  h.regions.bases_nodup

/-- A block is not `NULL`. -/
theorem Owned.ne_zero (h : Owned p tail blocks s) (ha : a ∈ p :: tail ++ blocks) : a ≠ 0 :=
  h.regions.ne_zero ha

/-- A request fails, or adds a region. -/
theorem request_owned (h : Owned p tail blocks s) {alignment : ℕ}
    (hreq : request s alignment size = (s', a)) :
    s'.pool = s.pool ∧
      ((a = 0 ∧ Owned p tail blocks s') ∨ (a ≠ 0 ∧ Owned p tail (a :: blocks) s')) := by
  obtain ⟨hpool, hcases⟩ := request_regions h.regions hreq
  have hmax : sizeofLarge ≤ s'.pool.max := by
    rw [hpool]
    exact h.max
  refine ⟨hpool, ?_⟩
  rcases hcases with ⟨ha, h'⟩ | ⟨ha, h'⟩
  · exact Or.inl ⟨ha, h'.toOwned hmax⟩
  · exact Or.inr ⟨ha, h'.toOwned hmax⟩

theorem free_owned (h : Owned p tail (a :: blocks) s) :
    ∃ s', free s a = some s' ∧ s'.pool = s.pool ∧ Owned p tail blocks s' := by
  obtain ⟨s', hfree, hpool, h'⟩ := free_regions h.regions
  exact ⟨s', hfree, hpool, h'.toOwned (by rw [hpool]; exact h.max)⟩

/-! ### Small blocks -/

/-- A small request has been served, perhaps with further pages; the descriptors are as before. -/
def Placed (p : ℕ) (tail blocks : List ℕ) (s : Sys) (r : Option (Sys × ℕ)) : Prop :=
  ∃ s' m new, r = some (s', m) ∧ s'.pool.large = s.pool.large ∧ Owned p (tail ++ new) blocks s'

/-- A small request keeps the regions, wherever the block is placed. -/
theorem allocSmall_owned (h : Owned p tail blocks s) :
    Placed p tail blocks s (allocSmall fit s size) := by
  obtain ⟨s', m, new, hr, hlarge, h'⟩ := allocSmall_regions fit size h.regions
  exact ⟨s', m, new, hr, hlarge, h'.toOwned (by rw [(allocSmall_moves hr).max]; exact h.max)⟩

/-! ### Large blocks -/

/-- A large request has returned the block `m`, which a descriptor holds now, or `NULL`. -/
def Given (p : ℕ) (tail : List ℕ) (s : Sys) (r : Option (Sys × ℕ)) : Prop :=
  ∃ s' m new, r = some (s', m) ∧ Owned p (tail ++ new) (nonnull s'.pool.large) s' ∧
    (nonnull s'.pool.large).Perm ((if m = 0 then [] else [m]) ++ nonnull s.pool.large)

theorem mpAlloc_descriptor_owned {n : ℕ} (h : Owned p tail blocks s) :
    Placed p tail blocks s (mpAlloc (n + 1) s sizeofLarge) := by
  rw [mpAlloc, if_neg (by decide), if_pos h.max]
  exact allocSmall_owned h

/-- A block that the allocator has just given out gets a descriptor, or is given back. -/
theorem addLarge_owned {n : ℕ} (h : Owned p tail (a :: nonnull s.pool.large) s) :
    Given p tail s (addLarge (mpAlloc (n + 1)) s a) := by
  have ha := h.ne_zero (List.mem_append_right _ List.mem_cons_self)
  obtain ⟨s₁, large, new, hr, hlarge, h₁⟩ := mpAlloc_descriptor_owned (n := n) h
  unfold addLarge
  rw [hr]
  simp only [Option.bind_eq_bind, Option.bind_some]
  by_cases hzero : large = 0
  · rw [if_pos hzero]
    obtain ⟨s₂, hfree, hpool, h₂⟩ := free_owned h₁
    rw [hfree]
    refine ⟨s₂, 0, new, rfl, ?_, ?_⟩
    · rwa [hpool, hlarge]
    · rw [hpool, hlarge]
      exact List.Perm.refl _
  · rw [if_neg hzero]
    refine ⟨_, a, new, rfl, ?_, ?_⟩
    · dsimp only
      rw [nonnull_cons_of_ne ha, hlarge]
      exact { h₁ with }
    · dsimp only
      rw [nonnull_cons_of_ne ha, hlarge, if_neg ha]
      exact List.Perm.refl _

/-- A request that fails, when the allocator has been asked. -/
theorem given_failed (hpool : s₁.pool = s.pool) (h : Owned p tail (nonnull s.pool.large) s₁) :
    Given p tail s (some (s₁, 0)) := by
  refine ⟨s₁, 0, [], rfl, ?_, ?_⟩
  · rwa [hpool, List.append_nil]
  · rw [hpool]
    exact List.Perm.refl _

/-- A descriptor is looked for when the allocator has been asked. -/
theorem Given.after {r : Option (Sys × ℕ)} (hpool : s₁.pool = s.pool) (h : Given p tail s₁ r) :
    Given p tail s r := by
  obtain ⟨s₂, m, new, hr, h₂, hperm⟩ := h
  exact ⟨s₂, m, new, hr, h₂, by rwa [hpool] at hperm⟩

theorem mpAllocLarge_owned {n : ℕ} (h : Owned p tail (nonnull s.pool.large) s) :
    Given p tail s (mpAllocLarge (mpAlloc (n + 1)) s size) := by
  unfold mpAllocLarge malloc
  cases hreq : request s 16 size with
  | mk s₁ a =>
    obtain ⟨hpool, ⟨rfl, h₁⟩ | ⟨ha, h₁⟩⟩ := request_owned h hreq
    · exact given_failed hpool h₁
    · dsimp only
      rw [if_neg ha]
      cases hreuse : reuseLarge a 5 s₁.pool.large with
      | some large =>
        have hperm := reuseLarge_perm ha hreuse
        rw [hpool] at hperm
        refine ⟨_, a, [], rfl, ?_, ?_⟩
        · rw [List.append_nil]
          exact { h₁.regions.perm hperm, h₁ with }
        · rw [if_neg ha]
          exact hperm.symm
      | none => exact (addLarge_owned (by rwa [hpool])).after hpool

theorem mpMemalign_owned {n alignment : ℕ} (h : Owned p tail (nonnull s.pool.large) s) :
    Given p tail s (mpMemalign (n + 1) s size alignment) := by
  unfold mpMemalign posixMemalign
  split_ifs with halign
  · cases hreq : request s alignment size with
    | mk s₁ a =>
      obtain ⟨hpool, ⟨rfl, h₁⟩ | ⟨ha, h₁⟩⟩ := request_owned h hreq
      · exact given_failed hpool h₁
      · dsimp only
        rw [if_neg ha]
        exact (addLarge_owned (by rwa [hpool])).after hpool
  · exact given_failed rfl h

/-! ### Giving back -/

theorem mpResetPool_owned (h : Owned p tail (nonnull s.pool.large) s) :
    ∃ s', mpResetPool s = some s' ∧ Owned p tail (nonnull s'.pool.large) s' ∧
      s'.pool.large = [] := by
  obtain ⟨s', hrun, h', hnil⟩ := mpResetPool_regions h.regions
  exact ⟨s', hrun, h'.toOwned (by rw [(mpResetPool_moves hrun).max]; exact h.max), hnil⟩

theorem mpFree_owned (h : Owned p tail (nonnull s.pool.large) s) :
    ∃ s', mpFree s a = some s' ∧ Owned p tail (nonnull s'.pool.large) s' ∧
      (nonnull s'.pool.large).Perm ((nonnull s.pool.large).erase a) := by
  obtain ⟨s', hrun, h', hperm⟩ := mpFree_regions (a := a) h.regions
  exact ⟨s', hrun, h'.toOwned (by rw [(carried_moves.of_free hrun).max]; exact h.max), hperm⟩

theorem mpDestoryPool_regions (h : Regions p tail (nonnull s.pool.large) s) :
    ∃ s', mpDestoryPool s = some s' ∧ s'.live = [] := by
  obtain ⟨s₁, hrun, hpool₁, h₁⟩ := free_large_regions h
  have htail : s₁.pool.pages.tail.map MpNode.addr = tail := by
    rw [List.map_tail, h₁.pages, List.tail_cons]
  have hfilter : tail.filter (· ≠ 0) = tail := List.filter_eq_self.mpr fun b hb => by
    have hmem : b ∈ p :: tail ++ [] := List.mem_append_left _ (List.mem_cons_of_mem _ hb)
    simpa using h₁.ne_zero hmem
  have hperm : (s₁.live.map (·.lo)).Perm
      ((s₁.pool.pages.tail.map MpNode.addr).filter (· ≠ 0) ++ [p]) := by
    rw [htail, hfilter]
    have hp := h₁.owned
    rw [List.append_nil] at hp
    exact hp.trans (List.perm_append_singleton p tail).symm
  obtain ⟨s₂, hpages, hpool₂, hperm₂, -⟩ := free_each MpNode.addr hperm h₁.nodup
  have hp : p ≠ 0 := h₁.ne_zero List.mem_cons_self
  have hnodup₂ : (s₂.live.map (·.lo)).Nodup := hperm₂.nodup_iff.mpr (List.nodup_singleton p)
  obtain ⟨s₃, hfree, -, hlive, -⟩ :=
    free_live hnodup₂ (hperm₂.mem_iff.mpr List.mem_cons_self) hp
  have haddr : s₂.pool.addr = p := by rw [hpool₂, h₁.addr]
  refine ⟨s₃, ?_, ?_⟩
  · unfold mpDestoryPool
    rw [hrun]
    simp only [Option.bind_eq_bind, Option.bind_some]
    rw [if_neg (by rw [h₁.rest]; exact fun hne => hne rfl), hpages, Option.bind_some, haddr]
    exact hfree
  · have hnil := hperm₂.erase p
    rw [List.erase_cons_head, ← hlive] at hnil
    exact List.map_eq_nil_iff.mp hnil.eq_nil

/-! ### The account of a run -/

/-- The addresses of the regions that the allocator has given out. -/
def bases (s : Sys) : Multiset ℕ := s.live.map (·.lo)

/-- The large block that an operation gives to the caller. -/
def given (s : Sys) (m : ℕ) : Act → Multiset ℕ
  | .alloc size | .nalloc size | .calloc size => if s.pool.max < size ∧ m ≠ 0 then {m} else 0
  | .memalign _ _ => if m ≠ 0 then {m} else 0
  | .free _ | .reset => 0

/-- The large blocks that the caller has after an operation. -/
def remaining (s : Sys) (m : ℕ) (lent : Multiset ℕ) : Act → Multiset ℕ
  | .free a => lent.erase a
  | .reset => 0
  | act => given s m act + lent

structure Account where
  /-- the large blocks that were given to the caller so far -/
  handed : Multiset ℕ
  /-- the regions that were given back to the allocator so far -/
  freed : Multiset ℕ
  /-- the large blocks that the caller has -/
  lent : Multiset ℕ
  /-- the pages that were added so far -/
  pages : List ℕ

/-- The account of one more operation. -/
def Account.note (s : Sys) (act : Act) (s' : Sys) (m : ℕ) (acc : Account) : Account where
  handed := given s m act + acc.handed
  freed := (bases s - bases s') + acc.freed
  lent := remaining s m acc.lent act
  pages := acc.pages ++ (s'.pool.pages.drop s.pool.pages.length).map (·.addr)

theorem Owned.bases_eq (h : Owned p tail blocks s) :
    bases s = (↑(p :: tail) : Multiset ℕ) + ↑blocks :=
  Multiset.coe_eq_coe.mpr h.owned

/-- Nothing is given back when the large blocks only become more. -/
theorem Owned.bases_of_more {new : List ℕ} {more : Multiset ℕ}
    (h : Owned p tail (nonnull s.pool.large) s)
    (h' : Owned p (tail ++ new) (nonnull s'.pool.large) s')
    (heq : (↑(nonnull s'.pool.large) : Multiset ℕ) = more + ↑(nonnull s.pool.large)) :
    (bases s - bases s') + ↑(nonnull s'.pool.large) =
      more + (↑(nonnull s.pool.large) : Multiset ℕ) := by
  have hle : bases s ≤ bases s' := by
    rw [h.bases_eq, h'.bases_eq, heq, ← List.cons_append, ← Multiset.coe_add, add_assoc]
    exact add_le_add_right ((Multiset.le_add_left _ _).trans (Multiset.le_add_left _ _)) _
  rw [tsub_eq_zero_of_le hle, zero_add, heq]

/-- When they become fewer, the others are given back. -/
theorem Owned.bases_of_fewer (h : Owned p tail (nonnull s.pool.large) s)
    (h' : Owned p tail (nonnull s'.pool.large) s')
    (hle : (↑(nonnull s'.pool.large) : Multiset ℕ) ≤ ↑(nonnull s.pool.large)) :
    (bases s - bases s') + ↑(nonnull s'.pool.large) =
      0 + (↑(nonnull s.pool.large) : Multiset ℕ) := by
  rw [h.bases_eq, h'.bases_eq, add_tsub_add_eq_tsub_left, tsub_add_cancel_of_le hle, zero_add]

/-- The large blocks after a request that asks for `more`. -/
def Lends (p : ℕ) (tail : List ℕ) (s : Sys) (more : ℕ → Multiset ℕ) (r : Option (Sys × ℕ)) :
    Prop :=
  ∃ s' m new, r = some (s', m) ∧ Owned p (tail ++ new) (nonnull s'.pool.large) s' ∧
    (↑(nonnull s'.pool.large) : Multiset ℕ) = more m + ↑(nonnull s.pool.large)

theorem Placed.lends {r : Option (Sys × ℕ)} (h : Placed p tail (nonnull s.pool.large) s r) :
    Lends p tail s (fun _ => 0) r := by
  obtain ⟨s', m, new, hr, hlarge, h'⟩ := h
  exact ⟨s', m, new, hr, by rwa [hlarge], by rw [hlarge, zero_add]⟩

theorem Given.lends {r : Option (Sys × ℕ)} (h : Given p tail s r) :
    Lends p tail s (fun m => if m ≠ 0 then {m} else 0) r := by
  obtain ⟨s', m, new, hr, h', hperm⟩ := h
  refine ⟨s', m, new, hr, h', ?_⟩
  rw [Multiset.coe_eq_coe.mpr hperm]
  by_cases hm : m = 0 <;> simp [hm]

/-- A request that is small or large. -/
theorem lends_of_size {r : Option (Sys × ℕ)}
    (hsmall : size ≤ s.pool.max → Placed p tail (nonnull s.pool.large) s r)
    (hlarge : s.pool.max < size → Given p tail s r) :
    Lends p tail s (fun m => if s.pool.max < size ∧ m ≠ 0 then {m} else 0) r := by
  by_cases hsize : s.pool.max < size
  · simpa [hsize] using (hlarge hsize).lends
  · simpa [hsize] using (hsmall (not_lt.mp hsize)).lends

theorem mpAlloc_lends {n : ℕ} (size : ℕ) (h : Owned p tail (nonnull s.pool.large) s) :
    Lends p tail s (fun m => if s.pool.max < size ∧ m ≠ 0 then {m} else 0)
      (mpAlloc (n + 2) s size) := by
  apply lends_of_size
  · intro hsize
    rw [mpAlloc]
    split_ifs
    · exact ⟨s, 0, [], rfl, rfl, by rwa [List.append_nil]⟩
    · exact allocSmall_owned h
  · intro hsize
    rw [mpAlloc, if_neg (by omega), if_neg (not_le.mpr hsize)]
    exact mpAllocLarge_owned h

theorem mpNalloc_lends {n : ℕ} (size : ℕ) (h : Owned p tail (nonnull s.pool.large) s) :
    Lends p tail s (fun m => if s.pool.max < size ∧ m ≠ 0 then {m} else 0)
      (mpNalloc (n + 1) s size) := by
  apply lends_of_size
  · intro hsize
    rw [mpNalloc, if_pos hsize]
    exact allocSmall_owned h
  · intro hsize
    rw [mpNalloc, if_neg (not_le.mpr hsize)]
    exact mpAllocLarge_owned h

/-- **What an operation does to the regions.** It does not fault. The pages stay, perhaps with new
ones. The large blocks of the descriptors are those that the caller has, and what the allocator
gets back is what the caller has no more. -/
theorem deepCall_owned (h : Owned p tail (nonnull s.pool.large) s) (act : Act) :
    ∃ s' m new, deepCall s act = some (s', m) ∧
      Owned p (tail ++ new) (nonnull s'.pool.large) s' ∧
      (↑(nonnull s'.pool.large) : Multiset ℕ) = remaining s m ↑(nonnull s.pool.large) act ∧
      (bases s - bases s') + ↑(nonnull s'.pool.large) =
        given s m act + (↑(nonnull s.pool.large) : Multiset ℕ) := by
  cases act with
  | alloc size | calloc size =>
    obtain ⟨s', m, new, hr, h', heq⟩ := mpAlloc_lends size h
    exact ⟨s', m, new, hr, h', heq, h.bases_of_more h' heq⟩
  | nalloc size =>
    obtain ⟨s', m, new, hr, h', heq⟩ := mpNalloc_lends size h
    exact ⟨s', m, new, hr, h', heq, h.bases_of_more h' heq⟩
  | memalign size alignment =>
    obtain ⟨s', m, new, hr, h', heq⟩ := (mpMemalign_owned h).lends
    exact ⟨s', m, new, hr, h', heq, h.bases_of_more h' heq⟩
  | free a =>
    obtain ⟨s', hrun, h', hperm⟩ := mpFree_owned (a := a) h
    have heq : (↑(nonnull s'.pool.large) : Multiset ℕ) =
        (↑(nonnull s.pool.large) : Multiset ℕ).erase a := by
      rw [Multiset.coe_erase]
      exact Multiset.coe_eq_coe.mpr hperm
    refine ⟨s', 0, [], by simp [deepCall, hrun], by rwa [List.append_nil], heq,
      h.bases_of_fewer h' ?_⟩
    rw [heq]
    exact Multiset.erase_le a _
  | reset =>
    obtain ⟨s', hrun, h', hnil⟩ := mpResetPool_owned h
    have heq : (↑(nonnull s'.pool.large) : Multiset ℕ) = 0 := by
      rw [hnil]
      rfl
    refine ⟨s', 0, [], by simp [deepCall, hrun], by rwa [List.append_nil], heq,
      h.bases_of_fewer h' ?_⟩
    rw [heq]
    exact Multiset.zero_le _

/-! ### Runs -/

/-- What holds after every run. -/
structure Books (p : ℕ) (s : Sys) (acc : Account) : Prop where
  owned : Owned p acc.pages (nonnull s.pool.large) s
  lent : acc.lent = ↑(nonnull s.pool.large)
  handed : acc.handed = acc.freed + acc.lent

/-- One more operation. -/
theorem Books.note {acc : Account} {act : Act} (h : Books p s acc)
    (hcall : deepCall s act = some (s', m)) : Books p s' (acc.note s act s' m) := by
  obtain ⟨s₁, m₁, new, hrun, h', hlarge, hgone⟩ := deepCall_owned h.owned act
  obtain ⟨rfl, rfl⟩ := Prod.mk.inj (Option.some.inj (hrun.symm.trans hcall))
  refine ⟨?_, ?_, ?_⟩
  · have hpages := congrArg (List.drop s.pool.pages.length) h'.pages
    have hlength : s.pool.pages.length = ((p + sizeofPool) :: acc.pages).length := by
      rw [← h.owned.pages, List.length_map]
    have hnew : (s₁.pool.pages.drop s.pool.pages.length).map MpNode.addr = new := by
      rw [List.map_drop, hpages, hlength, ← List.cons_append, List.drop_left]
    change Owned p (acc.pages ++ (s₁.pool.pages.drop s.pool.pages.length).map MpNode.addr) _ _
    rwa [hnew]
  · change remaining s m₁ acc.lent act = _
    rw [h.lent]
    exact hlarge.symm
  · change given s m₁ act + acc.handed =
      (bases s - bases s₁ + acc.freed) + remaining s m₁ acc.lent act
    rw [h.handed, h.lent, ← hlarge, add_right_comm, hgone, add_comm acc.freed, add_assoc]

/-- **Every large block has one owner.** Each large block that the caller was given and that was not
freed is the `alloc` of one descriptor, and the pages that were added are the further pages of the
pool. These, the blocks and the pool are what the allocator has given out. -/
theorem Books.account {acc : Account} (h : Books p s acc) :
    (∀ a ∈ acc.lent, (s.pool.large.map (·.alloc)).count a = 1) ∧
      s.pool.pages.tail.map (·.addr) = acc.pages ∧
      bases s = p ::ₘ (↑acc.pages + acc.lent) ∧ (bases s).Nodup := by
  obtain ⟨howned, hlent, -⟩ := h
  refine ⟨fun a ha => ?_, ?_, ?_, howned.nodup⟩
  · rw [hlent, Multiset.mem_coe] at ha
    have hne : a ≠ 0 := by simpa using (List.mem_filter.mp ha).2
    have hcount := List.count_eq_one_of_mem howned.bases_nodup.of_append_right ha
    rwa [nonnull, List.count_filter (by simpa using hne)] at hcount
  · rw [List.map_tail, howned.pages, List.tail_cons]
  · rw [howned.bases_eq, hlent]
    rfl

end MmorpgServer.PagePool
