import MmorpgServer.PagePool.Pages

/-!
# Room in a new page

`mp_alloc_block` does not look whether the request fits into the page that it makes. The size of
the page is that of the head page, `S` bytes behind the header, and `max` is at most `S`, so it
does fit. A reset empties the page, and then there is room for every small block again.

## Main definitions

* `HasRoom` — a page has room for a block, rounded up or not

## Main results

* `newPage_fits` — a new page fits the request
* `reset_hasRoom` — it has room for every small block behind a reset
-/

namespace MmorpgServer.PagePool

open Bump Machine

variable {S : ℕ} {s s' s₁ : Sys} {q : MpNode} {tail blocks : List ℕ} {size m : ℕ}

/-- A block of `size` bytes would be placed between the header of a page and its end. -/
def HasRoom (q : MpNode) (size : ℕ) : Prop :=
  ∀ fit ∈ [fitAligned size, fitLast size], ∃ m ∈ fit q,
    q.addr + sizeofNode ≤ m ∧ m + size ≤ q.end_

/-- An empty page that is aligned. -/
theorem emptyPage_hasRoom (hdvd : mpAlignment ∣ q.addr) (hend : q.end_ = q.addr + (S + sizeofNode))
    (hhalf : q.end_ ≤ 2 ^ 63) (hsize : size ≤ S) : HasRoom (emptyPage q) size := by
  have hlast : (emptyPage q).last = q.addr + sizeofNode := sizeT_of_le (by omega)
  have halign : mpAlignPtr (emptyPage q).last = q.addr + sizeofNode := by
    rw [hlast]
    exact mpAlignPtr_of_dvd (by omega) (Nat.dvd_add hdvd (dvd_refl 32))
  have hroom : ptrDiff q.end_ (q.addr + sizeofNode) = S := by
    rw [ptrDiff_of_le (by omega) hhalf]
    omega
  refine List.forall_mem_cons.mpr ⟨⟨_, if_pos ?_, ?_⟩,
    List.forall_mem_singleton.mpr ⟨_, if_pos ?_, ?_⟩⟩
  · rw [halign]
    exact hroom.ge.trans' hsize
  · rw [halign]
    exact ⟨le_rfl, by change _ ≤ q.end_; omega⟩
  · rw [hlast]
    exact hroom.ge.trans' hsize
  · rw [hlast]
    exact ⟨le_rfl, by change _ ≤ q.end_; omega⟩

/-- **A new page fits the request.** The block is aligned and lies behind the header, and it ends in
the page. -/
theorem newPage_fits (h : Inv S tail blocks s) (hsize : size ≤ s.pool.max)
    (hrun : mpAllocBlock s size = some (s', m)) (hm : m ≠ 0) :
    ∃ q, s'.pool.pages = counted s.pool ++ [q] ∧ mpAlignment ∣ m ∧
      q.addr + sizeofNode ≤ m ∧ m + size ≤ q.end_ := by
  obtain ⟨rfl, -⟩ | ⟨head, node, hhead, ⟨-, hdvd, hhalf, -⟩, rfl, hpool⟩ := mpAllocBlock_given hrun
  · exact absurd rfl hm
  obtain ⟨head', pages, hpages, hpsize⟩ := h.exists_head
  rw [hpages, List.head?_cons] at hhead
  obtain rfl := Option.some.inj hhead
  rw [hpsize] at hhalf hpool
  have hmax := h.max_le
  have hle : node + (32 + S) ≤ 2 ^ 63 :=
    (Nat.add_le_add_left (Nat.le_max_left _ 1) node).trans hhalf
  -- the region is aligned, so the block begins right behind the header
  have hstart : mpAlignPtr (sizeT (node + sizeofNode)) = node + sizeofNode := by
    unfold sizeofNode
    rw [sizeT_of_le (by omega)]
    exact mpAlignPtr_of_dvd (by omega) (Nat.dvd_add hdvd (dvd_refl 32))
  have hend : (newPage node (32 + S) size).end_ = node + (32 + S) := sizeT_of_le hle
  rw [hstart, hpool]
  refine ⟨newPage node (32 + S) size, rfl, Nat.dvd_add hdvd (dvd_refl 32), le_rfl, ?_⟩
  rw [hend]
  unfold sizeofNode
  omega

/-- A page stays where it is. -/
theorem frame_exec {acts : List Act} (hrun : exec deepStep s acts = some s') :
    frame s.pool ⊆ frame s'.pool := by
  refine exec_invariant (I := fun t => frame s.pool ⊆ frame t.pool)
    (fun t act t' hsub hone => ?_) (List.Subset.refl _) hrun
  rcases (deepStep_touches hone).frame with hsame | ⟨head, live, node, -, -, hmore⟩
  · rw [hsame]
    exact hsub
  · rw [hmore]
    exact fun x hx => List.mem_append_left _ (hsub hx)

/-- **A page that was added can be used again.** -/
theorem reset_hasRoom {acts : List Act} (h : Inv S tail blocks s)
    (htail : ∀ a ∈ tail, mpAlignment ∣ a) (hrun : exec deepStep s acts = some s₁)
    (hreset : mpResetPool s₁ = some s') (hmax : s'.pool.max ≤ S) (hq : q ∈ s.pool.pages.tail) :
    ∃ r ∈ s'.pool.pages, r.addr = q.addr ∧ r.end_ = q.end_ ∧ ∀ n ≤ s'.pool.max, HasRoom r n := by
  have hmem : q ∈ s.pool.pages := List.mem_of_mem_tail hq
  -- it is not the head page, but one that was allocated
  have haddr : q.addr ∈ tail := by
    have haddrs := congrArg (fun l => (l.map Prod.fst).tail) h.frame
    rw [List.map_map, List.map_cons, List.map_map, List.tail_cons, ← List.map_tail] at haddrs
    have hid : tail.map (Prod.fst ∘ fun a => (a, a + 32 + S)) = tail := List.map_id _
    exact hid ▸ haddrs ▸ List.mem_map_of_mem hq
  have hend : q.end_ = q.addr + (S + sizeofNode) := by
    have hnew : s.pool.addr + 24 ∉ tail := fun hmem => by
      have hapart := h.apart_of_ne h.first (h.further _ hmem) (by dsimp only; omega)
      unfold Apart at hapart
      dsimp only at hapart
      omega
    rcases h.page_cases hmem with ⟨heq, -⟩ | ⟨-, hend⟩
    · exact absurd (heq ▸ haddr) hnew
    · unfold sizeofNode
      omega
  -- the page is still there, and is emptied
  obtain ⟨p, hp, heq⟩ := List.mem_map.mp (frame_exec hrun (List.mem_map_of_mem hmem))
  obtain ⟨haddr', hend'⟩ := Prod.mk.inj heq
  have hemptied : emptyPage p ∈ s'.pool.pages :=
    mpResetPool_pages hreset ▸ List.mem_map_of_mem hp
  refine ⟨emptyPage p, hemptied, haddr', hend', fun n hn => ?_⟩
  exact emptyPage_hasRoom (haddr' ▸ htail _ haddr) (by rw [haddr', hend', hend])
    (hend' ▸ h.end_le hmem) (hn.trans hmax)

end MmorpgServer.PagePool
