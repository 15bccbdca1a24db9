import MmorpgServer.PagePool.Capacity

/-!
# What an operation does to the pages

Every operation leaves the pages as they are, takes a block from one of them, adds a page, or
empties them all. Of a page that there is, nothing but its free end and its count of failures
ever changes.

## Main definitions

* `Touches` — what an operation does to the pages
* `frame` — where the pages begin and end

## Main results

* `deepStep_touches` — no operation does anything else
* `Touches.frame` — pages stay where they are
-/

namespace MmorpgServer.PagePool

open Bump Machine

variable {s s' : Sys} {pool pool' : MpPool} {q : MpNode} {fit : MpNode → Option ℕ}
  {size m n : ℕ}

/-! ### One operation -/

/-- What an operation does to the pages. -/
inductive Touches (pool pool' : MpPool) : Prop where
  | same (hpages : pool'.pages = pool.pages)
  | placed {pre post : List MpNode} {q : MpNode} {m size : ℕ}
      (hold : pool.pages = pre ++ q :: post) (hplace : m = mpAlignPtr q.last ∨ m = q.last)
      (hsize : size ≤ pool.max)
      (hpages : pool'.pages = pre ++ { q with last := sizeT (m + size) } :: post)
  | added {head : MpNode} {live : List Interval} {node size : ℕ}
      (hhead : pool.pages.head? = some head)
      (hfresh : Fresh live mpAlignment (ptrDiff head.end_ head.addr) node)
      (hsize : size ≤ pool.max)
      (hpages : pool'.pages = counted pool ++ [newPage node (ptrDiff head.end_ head.addr) size])
  | emptied (hpages : pool'.pages = pool.pages.map emptyPage)

/-- A request for a page that is answered gets a fresh region. -/
theorem mpAllocBlock_given (hrun : mpAllocBlock s size = some (s', m)) :
    (m = 0 ∧ s'.pool = s.pool ∧ s'.live = s.live) ∨
      ∃ head node, s.pool.pages.head? = some head ∧
        Fresh s.live mpAlignment (ptrDiff head.end_ head.addr) node ∧
        m = mpAlignPtr (sizeT (node + sizeofNode)) ∧
        s'.pool = addNode s.pool node (ptrDiff head.end_ head.addr) size := by
  obtain ⟨head, s₁, node, hhead, hreq, hcases⟩ := mpAllocBlock_cases hrun
  obtain ⟨answers, hanswer⟩ := request_cases hreq
  rcases hcases with ⟨rfl, rfl, rfl⟩ | ⟨hnode, rfl, rfl⟩
  · obtain ⟨-, rfl⟩ | ⟨⟨hpos, -⟩, -⟩ := hanswer
    · exact Or.inl ⟨rfl, rfl, rfl⟩
    · exact absurd hpos (Nat.lt_irrefl 0)
  · obtain ⟨rfl, -⟩ | ⟨hfresh, rfl⟩ := hanswer
    · exact absurd rfl hnode
    · exact Or.inr ⟨head, node, hhead, hfresh, rfl, rfl⟩

theorem fit_place (hfit : fit = fitAligned size ∨ fit = fitLast size) (h : fit q = some m) :
    m = mpAlignPtr q.last ∨ m = q.last := by
  rcases hfit with rfl | rfl
  · unfold fitAligned at h
    dsimp only at h
    split_ifs at h
    exact Or.inl (Option.some.inj h).symm
  · unfold fitLast at h
    dsimp only at h
    split_ifs at h
    exact Or.inr (Option.some.inj h).symm

theorem allocSmall_touches (hfit : fit = fitAligned size ∨ fit = fitLast size)
    (hsize : size ≤ s.pool.max) (hrun : allocSmall fit s size = some (s', m)) :
    Touches s.pool s'.pool := by
  obtain ⟨pre, q, post, -, hq, hpages, rfl⟩ | ⟨-, hblock⟩ := allocSmall_cases hrun
  · exact .placed hpages (fit_place hfit hq) hsize rfl
  · obtain ⟨-, hpool, -⟩ | ⟨head, node, hhead, hfresh, -, hpool⟩ := mpAllocBlock_given hblock
    · exact .same (by rw [hpool])
    · exact .added hhead hfresh hsize (by rw [hpool]; rfl)

theorem mpResetPool_pages (hrun : mpResetPool s = some s') :
    s'.pool.pages = s.pool.pages.map emptyPage := by
  rw [(mpResetPool_eq_some hrun).2]
  rfl

theorem carried_touches : Carried fun s s' => Touches s.pool s'.pool where
  keep _ hpool := .same (by rw [hpool])
  after h _ hpool := hpool ▸ h
  before h _ hpool := by
    rw [hpool]
    cases h with
    | same hpages => exact .same hpages
    | placed hold hplace hsize hpages => exact .placed hold hplace hsize hpages
    | added hhead hfresh hsize hpages => exact .added hhead hfresh hsize hpages
    | emptied hpages => exact .emptied hpages
  small := allocSmall_touches
  reset hrun := .emptied (mpResetPool_pages hrun)

/-- **What an operation does to the pages.** -/
theorem deepStep_touches {act : Act} (hrun : deepStep s act = some s') : Touches s.pool s'.pool :=
  carried_touches.of_step hrun

/-! ### Where the pages are -/

/-- Where the pages begin and end. -/
def frame (pool : MpPool) : List (ℕ × ℕ) := pool.pages.map fun q => (q.addr, q.end_)

/-- Pages stay where they are, and there is at most one more. -/
theorem Touches.frame (h : Touches pool pool') :
    PagePool.frame pool' = PagePool.frame pool ∨
      ∃ head live node, pool.pages.head? = some head ∧
        Fresh live mpAlignment (ptrDiff head.end_ head.addr) node ∧
        PagePool.frame pool' =
          PagePool.frame pool ++ [(node, sizeT (node + ptrDiff head.end_ head.addr))] := by
  unfold PagePool.frame
  cases h with
  | same hpages => exact Or.inl (by rw [hpages])
  | placed hold _ _ hpages =>
    left
    rw [hold, hpages, List.map_append, List.map_append]
    rfl
  | added hhead hfresh _ hpages =>
    refine Or.inr ⟨_, _, _, hhead, hfresh, ?_⟩
    rw [hpages, List.map_append, counted_frame]
    rfl
  | emptied hpages =>
    left
    rw [hpages, List.map_map]
    rfl

end MmorpgServer.PagePool
