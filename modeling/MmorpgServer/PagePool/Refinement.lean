import MmorpgServer.PagePool.Walks
import MmorpgServer.PagePool.Ownership

/-!
# The pool in memory is the pool of the model

Every operation in memory does what it does on the sequences of the model, as long as what the pool
keeps in memory is apart from each other there.

## Main definitions

* `words` — what a pool keeps in memory
* `Laid` — there is room for it
* `Rep` — it is in memory
* `Follows` — an operation in memory does what one of the model does

## Main results

* `mpAllocBlock_follows` — a new page is linked behind the last one
* `call_follows` — the operations
-/

namespace MmorpgServer.PagePool.Linked

open Bump ByteMemory Words

variable {p size m a c fuel depth alignment : ℕ} {s s' s₁ : Sys} {h h' : Heap}
  {pool : MpPool} {q x : MpNode} {pages pages' pre post : List MpNode} {live : List Interval}
  {fit : MpNode → Option ℕ} {room : ℕ → ℕ → Option ℕ} {ws : List Word}

/-! ### A pool in memory -/

/-- `mp_pool_s` -/
def poolWords (pool : MpPool) : List Word :=
  [(maxAt pool.addr, pool.max), (currentAt pool.addr, pool.current),
    (largeAt pool.addr, firstLarge pool.large)]

/-- What a pool keeps in memory. -/
def words (pool : MpPool) : List Word :=
  poolWords pool ++ (pageWords pool.pages pool.rest ++ largeWords pool.large)

/-- There is room for the words of the pool. -/
structure Laid (s : Sys) : Prop where
  sited : Sited s.live (words s.pool)
  fits : Fits (words s.pool)

/-- The pool is in memory at `p`, and the chain of its pages ends in `NULL`. -/
structure Rep (p : ℕ) (h : Heap) (s : Sys) : Prop where
  live : h.live = s.live
  answers : h.answers.map Prod.fst = s.answers
  addr : s.pool.addr = p
  head : firstPage s.pool.pages 0 = headAt p
  rest : s.pool.rest = 0
  stored : Stored h (words s.pool)

/-- Where an operation of the model returns and there is room for the pool, the one in memory does
the same. -/
def Follows (p : ℕ) (r : Option (Sys × ℕ)) (r' : Option (Heap × ℕ)) : Prop :=
  ∀ s' m, r = some (s', m) → Laid s' → ∃ h', r' = some (h', m) ∧ Rep p h' s'

theorem Rep.laid (hrep : Rep p h s) : Laid s where
  sited := hrep.live ▸ hrep.stored.sited
  fits _ hw := hrep.stored.holds.lt hw

/-- The fields of `mp_pool_s`. -/
theorem Rep.fields (hrep : Rep p h s) : h.read (maxAt p) = some s.pool.max ∧
    h.read (currentAt p) = some s.pool.current ∧
    h.read (largeAt p) = some (firstLarge s.pool.large) := by
  obtain rfl := hrep.addr
  exact ⟨hrep.stored.read (by simp [words, poolWords]),
    hrep.stored.read (by simp [words, poolWords]), hrep.stored.read (by simp [words, poolWords])⟩

theorem Rep.storedPages (hrep : Rep p h s) : Stored h (pageWords s.pool.pages 0) :=
  hrep.rest ▸ hrep.stored.right.left

theorem Rep.storedLarge (hrep : Rep p h s) : Stored h (largeWords s.pool.large) :=
  hrep.stored.right.right

/-- The words of a pool, cut between two pages. -/
theorem words_split (hpages : pool.pages = pre ++ post) :
    words pool = (poolWords pool ++ pageWords pre (firstPage post pool.rest)) ++
      (pageWords post pool.rest ++ largeWords pool.large) := by
  rw [words, hpages, pageWords_append]
  simp only [List.append_assoc]

/-! ### The allocator -/

/-- What is allocated anew does not overlap words that are there. -/
theorem Sited.apart_fresh (hsited : Sited live ws) (hfresh : Fresh live alignment size a) :
    ∀ w ∈ ws, w.1 + 8 ≤ a ∨ a + Nat.max size 1 ≤ w.1 := by
  intro w hw
  by_contra! hmeet
  have hone : 1 ≤ Nat.max size 1 := Nat.le_max_right size 1
  have hapart : ∀ i < 8, ∃ r ∈ live, Apart r ⟨a, Nat.max size 1⟩ ∧ r.lo ≤ w.1 + i ∧
      w.1 + i < r.lo + r.len := fun i hi => by
    obtain ⟨r, hr, hin⟩ := hsited.mapped w hw i hi
    exact ⟨r, hr, hfresh.2.2.2 r hr, hin⟩
  -- the first address that is in both
  rcases Nat.le_total w.1 a with hle | hle
  · obtain ⟨r, -, hr, hin⟩ := hapart (a - w.1) (by omega)
    unfold Apart at hr
    dsimp only at hr
    omega
  · obtain ⟨r, -, hr, hin⟩ := hapart 0 (by omega)
    unfold Apart at hr
    dsimp only at hr
    omega

theorem Rep.request (hrep : Rep p h s) (hreq : request s alignment size = (s', a)) :
    ∃ h', h.request alignment size = (h', a) ∧ Rep p h' s' := by
  have hanswers := hrep.answers
  unfold PagePool.request at hreq
  unfold Heap.request
  cases hasked : h.answers with
  | nil =>
    rw [hasked] at hanswers
    rw [← hanswers] at hreq
    obtain ⟨rfl, rfl⟩ := Prod.mk.inj hreq
    exact ⟨h, rfl, hrep⟩
  | cons answer answers =>
    obtain ⟨b, contents⟩ := answer
    rw [hasked] at hanswers
    rw [← hanswers, List.map_cons] at hreq
    rw [hrep.live]
    dsimp only at hreq ⊢
    split_ifs at hreq ⊢ with hfresh
    · obtain ⟨rfl, rfl⟩ := Prod.mk.inj hreq
      have hsited : Sited (⟨b, Nat.max size 1⟩ :: s.live) (words s.pool) :=
        hrep.laid.sited.mono (List.subset_cons_self _ _)
      exact ⟨_, rfl, ⟨rfl, rfl, hrep.addr, hrep.head, hrep.rest, hsited,
        hrep.stored.holds.paste (hrep.laid.sited.apart_fresh hfresh)⟩⟩
    · obtain ⟨rfl, rfl⟩ := Prod.mk.inj hreq
      exact ⟨_, rfl, ⟨rfl, rfl, hrep.addr, hrep.head, hrep.rest, hrep.laid.sited,
        hrep.stored.holds⟩⟩

theorem Rep.posixMemalign (hrep : Rep p h s)
    (hreq : posixMemalign s alignment size = (s', a)) :
    ∃ h', h.posixMemalign alignment size = (h', a) ∧ Rep p h' s' := by
  unfold PagePool.posixMemalign at hreq
  unfold Heap.posixMemalign
  split_ifs at hreq ⊢
  · exact hrep.request hreq
  · obtain ⟨rfl, rfl⟩ := Prod.mk.inj hreq
    exact ⟨h, rfl, hrep⟩

/-- A block is freed that holds nothing of the pool. -/
theorem Rep.free (hrep : Rep p h s) (hrun : free s a = some s') (hlaid : Laid s') :
    ∃ h', h.free a = some h' ∧ Rep p h' s' := by
  obtain ⟨hpool, hanswers, -⟩ := free_keeps hrun
  refine ⟨_, free_follows hrep.live hrun, ⟨rfl, hanswers ▸ hrep.answers, ?_, ?_, ?_,
    hlaid.sited, ?_⟩⟩
  · rw [hpool, hrep.addr]
  · rw [hpool, hrep.head]
  · rw [hpool, hrep.rest]
  · rw [hpool]
    exact hrep.stored.holds

/-! ### Small requests -/

theorem fromCurrent_cons (hfrom : fromCurrent pool = q :: pages) : q.addr = pool.current := by
  have hhead := List.head?_dropWhile_not (fun q : MpNode => decide (q.addr ≠ pool.current))
    pool.pages
  unfold fromCurrent at hfrom
  rw [hfrom] at hhead
  simpa using hhead

/-- The pages from `pool->current` on. -/
theorem Rep.from (hrep : Rep p h s) (hfrom : fromCurrent s.pool = q :: pages) :
    q.addr = s.pool.current ∧ Stored h (pageWords (q :: pages) 0) ∧
      pages.length < s.pool.pages.length := by
  have hsplit := before_append_from s.pool
  rw [hfrom] at hsplit
  have hst := hrep.storedPages
  rw [← hsplit, pageWords_append] at hst
  refine ⟨fromCurrent_cons hfrom, hst.right, ?_⟩
  rw [← hsplit, List.length_append, List.length_cons]
  omega

/-- The pages from `pool->current` on are other ones now. -/
theorem Rep.walked (hrep : Rep p h s) {mem : Memory}
    (hedits : Edits 8 h.mem (pageWords (fromCurrent s.pool) 0) mem (pageWords pages' 0))
    (haddrs : pages'.map (·.addr) = (fromCurrent s.pool).map (·.addr)) :
    Rep p { h with mem := mem }
      { s with pool := { s.pool with pages := beforeCurrent s.pool ++ pages' } } := by
  have hrest := hrep.rest
  have hwords : words s.pool = (poolWords s.pool ++
      pageWords (beforeCurrent s.pool) (firstPage (fromCurrent s.pool) 0)) ++
        (pageWords (fromCurrent s.pool) 0 ++ largeWords s.pool.large) := by
    rw [words_split (before_append_from s.pool).symm, hrest]
  have hwords' : words { s.pool with pages := beforeCurrent s.pool ++ pages' } =
      (poolWords s.pool ++ pageWords (beforeCurrent s.pool) (firstPage (fromCurrent s.pool) 0)) ++
        (pageWords pages' 0 ++ largeWords s.pool.large) := by
    rw [← firstPage_congr haddrs, ← hrest]
    exact words_split rfl
  have hst := hrep.stored
  rw [hwords] at hst
  refine ⟨hrep.live, hrep.answers, hrep.addr, ?_, hrest, ?_⟩
  · have hall : (beforeCurrent s.pool ++ pages').map (·.addr) = s.pool.pages.map (·.addr) := by
      rw [List.map_append, haddrs, ← List.map_append, before_append_from]
    exact (firstPage_congr hall 0).trans hrep.head
  · have hst' := hst.edits (hedits.embed hst.holds hst.sited.spaced)
    rw [← hwords'] at hst'
    exact hst'

/-- What was handed out does not matter. -/
theorem Rep.handed (hrep : Rep p h s) (handed : List Interval) :
    Rep p h { s with handed := handed } :=
  { hrep with }

/-- Words that have not been written hold something. -/
theorem exists_stored (hsited : Sited h.live ws) :
    ∃ f : ℕ → ℕ, Stored h (ws.map fun w => (w.1, f w.1)) := by
  refine ⟨load h.mem 8, hsited.congr ?_, fun w hw => ?_⟩
  · rw [List.map_map]
    rfl
  · obtain ⟨w', -, rfl⟩ := List.mem_map.mp hw
    rfl

/-- The header of a new page, whose words hold anything before. -/
theorem writeHeader {f : ℕ → ℕ} (hst : Stored h ((pageWords [x] 0).map fun w => (w.1, f w.1)))
    (hfits : Fits (pageWords [x] 0)) :
    ∃ mem₁ mem₂ mem₃ mem₄, h.write (endAt x.addr) x.end_ = some { h with mem := mem₁ } ∧
      Heap.write { h with mem := mem₁ } (nextAt x.addr) 0 = some { h with mem := mem₂ } ∧
      Heap.write { h with mem := mem₂ } (failedAt x.addr) x.failed = some { h with mem := mem₃ } ∧
      Heap.write { h with mem := mem₃ } (lastAt x.addr) x.last = some { h with mem := mem₄ } ∧
      Edits 8 h.mem ((pageWords [x] 0).map fun w => (w.1, f w.1)) mem₄ (pageWords [x] 0) := by
  obtain ⟨mem₁, hwrite₁, hedits₁⟩ := hst.write [(lastAt x.addr, f (lastAt x.addr))]
    (hfits (endAt x.addr, x.end_) (by simp [pageWords]))
  have hst₁ := hst.edits hedits₁
  obtain ⟨mem₂, hwrite₂, hedits₂⟩ := hst₁.write (v := 0)
    [(lastAt x.addr, f (lastAt x.addr)), (endAt x.addr, x.end_)] (by decide)
  have hst₂ := hst₁.edits hedits₂
  obtain ⟨mem₃, hwrite₃, hedits₃⟩ := hst₂.write
    [(lastAt x.addr, f (lastAt x.addr)), (endAt x.addr, x.end_), (nextAt x.addr, 0)]
    (hfits (failedAt x.addr, x.failed) (by simp [pageWords]))
  have hst₃ := hst₂.edits hedits₃
  obtain ⟨mem₄, hwrite₄, hedits₄⟩ := hst₃.write []
    (hfits (lastAt x.addr, x.last) (by simp [pageWords]))
  exact ⟨mem₁, mem₂, mem₃, mem₄, hwrite₁, hwrite₂, hwrite₃, hwrite₄,
    ((hedits₁.trans hedits₂).trans hedits₃).trans hedits₄⟩

/-- The words of a pool with a further page, which has not been linked yet. -/
def withPage (pool : MpPool) (xs : List Word) : List Word :=
  (poolWords pool ++ pageWords (beforeCurrent pool) (firstPage (fromCurrent pool) 0)) ++
    (pageWords (fromCurrent pool) 0 ++ (xs ++ largeWords pool.large))

theorem withPage_nil (hrest : pool.rest = 0) : withPage pool [] = words pool := by
  rw [words_split (before_append_from pool).symm, hrest]
  rfl

/-- A place for a further page. -/
theorem withPage_addrs {node psize : ℕ} (hnew : ws.map Prod.fst = (pageWords [x] 0).map Prod.fst)
    (hx : x = newPage node psize size) :
    (withPage pool ws).map Prod.fst = (words (addNode pool node psize size)).map Prod.fst := by
  have hpages : (pageWords pool.pages 0).map Prod.fst =
      (pageWords (counted pool) x.addr).map Prod.fst := by
    rw [pageWords_addrs (counted_addr pool).symm]
  unfold withPage words addNode
  rw [← hx, pageWords_append, List.append_assoc,
    ← List.append_assoc (pageWords (beforeCurrent pool) _), ← pageWords_append, before_append_from]
  simp only [List.map_append, hpages, hnew, List.append_assoc]
  rfl

/-- The loop of `mp_alloc_block`, the link to the new page, and `pool->current`. -/
theorem Rep.linkPage {psize : ℕ} {h₀ : Heap} (hrep : Rep p h₀ s) (hx : x = newPage a psize size)
    (hst : Stored h (withPage s.pool (pageWords [x] 0)))
    (hfits : Fits (words (addNode s.pool a psize size))) (ha : a < 2 ^ 64)
    (hfuel : s.pool.pages.length < fuel) (hcurrent : fromCurrent s.pool ≠ []) :
    ∃ mem₁ mem₂ mem₃ y, countFailed fuel h s.pool.current s.pool.current =
        some ({ h with mem := mem₁ }, y,
          (PagePool.countFailed (fromCurrent s.pool) s.pool.current).2) ∧
      Heap.write { h with mem := mem₁ } (nextAt y) a = some { h with mem := mem₂ } ∧
      Heap.write { h with mem := mem₂ } (currentAt p)
        (addNode s.pool a psize size).current = some { h with mem := mem₃ } ∧
      Stored { h with mem := mem₃ } (words (addNode s.pool a psize size)) := by
  obtain ⟨q, pages, hfrom⟩ := List.exists_cons_of_ne_nil hcurrent
  obtain ⟨hq, -, hlength⟩ := hrep.from hfrom
  have hwords : words (addNode s.pool a psize size) = poolWords (addNode s.pool a psize size) ++
      (pageWords (counted s.pool ++ [x]) 0 ++ largeWords s.pool.large) := by
    rw [hx]
    rfl
  have hxaddr : x.addr = a := by rw [hx]; rfl
  have haddrs := countFailed_addr (fromCurrent s.pool) s.pool.current
  rw [hwords] at hfits ⊢
  unfold withPage at hst
  -- the failures are counted
  have hst₀ := hst.right.left
  rw [hfrom] at hst₀
  have hwalk : pages.length < fuel := hlength.trans hfuel
  obtain ⟨mem₁, init, y, hsplit, hloop, hedits₁⟩ := countFailed_follows (c := s.pool.current)
    hst₀ (fun r hr => hfits (failedAt r.addr, r.failed) (by
      refine List.mem_append_right _ (List.mem_append_left _ (failed_mem ?_ 0))
      rw [← hfrom] at hr
      exact List.mem_append_left _ (List.mem_append_right _ hr))) hwalk
  rw [← hfrom] at hsplit hloop hedits₁
  have hst₁ := hst.edits (hedits₁.embed hst.holds hst.sited.spaced)
  -- the last page is linked to the new one
  rw [hsplit] at hst₁
  obtain ⟨mem₂, hnext, hedits₂⟩ := hst₁.right.left.linkLast ha
  have hst₂ := hst₁.edits (hedits₂.embed hst₁.holds hst₁.sited.spaced)
  -- the words are those of the pool with the page, but for `pool->current`
  have hpages : pageWords (counted s.pool ++ [x]) 0 =
      pageWords (beforeCurrent s.pool) (firstPage (fromCurrent s.pool) 0) ++
        (pageWords (init ++ [y]) a ++ pageWords [x] 0) := by
    have hfirst : firstPage (init ++ [y]) a = firstPage (init ++ [y]) 0 := by cases init <;> rfl
    unfold counted
    rw [hsplit] at haddrs ⊢
    rw [pageWords_append (beforeCurrent s.pool ++ (init ++ [y])) [x], firstPage, hxaddr,
      pageWords_append (beforeCurrent s.pool) (init ++ [y]) a, List.append_assoc, hfirst,
      firstPage_congr haddrs]
  have hlinked : (poolWords s.pool ++ pageWords (beforeCurrent s.pool)
      (firstPage (fromCurrent s.pool) 0)) ++ (pageWords (init ++ [y]) a ++
        (pageWords [x] 0 ++ largeWords s.pool.large)) =
      [(maxAt s.pool.addr, s.pool.max)] ++ (currentAt s.pool.addr, s.pool.current) ::
        ((largeAt s.pool.addr, firstLarge s.pool.large) ::
          (pageWords (counted s.pool ++ [x]) 0 ++ largeWords s.pool.large)) := by
    rw [hpages]
    simp [poolWords, List.append_assoc]
  rw [hlinked] at hst₂
  obtain ⟨mem₃, hwrite, hedits₃⟩ := hst₂.write (v := (addNode s.pool a psize size).current) _
    (hfits (currentAt s.pool.addr, _) (by simp [poolWords, addNode]))
  refine ⟨mem₁, mem₂, mem₃, y.addr, ?_, hnext, hrep.addr ▸ hwrite, hst₂.edits hedits₃⟩
  rwa [hq] at hloop

/-- There is room for a further page, whose words hold anything. -/
theorem Rep.exists_page {psize : ℕ} (hrep : Rep p h s) (hx : x = newPage a psize size)
    (hsited : Sited s.live (words (addNode s.pool a psize size))) :
    ∃ f : ℕ → ℕ, Stored h (withPage s.pool ((pageWords [x] 0).map fun w => (w.1, f w.1))) := by
  have hall : Sited h.live (withPage s.pool (pageWords [x] 0)) := by
    rw [hrep.live]
    exact hsited.congr (withPage_addrs rfl hx)
  obtain ⟨f, hst⟩ := exists_stored hall.right.right.left
  have haddrs : ((pageWords [x] 0).map fun w => (w.1, f w.1)).map Prod.fst =
      (pageWords [x] 0).map Prod.fst := by
    rw [List.map_map]
    rfl
  refine ⟨f, hall.congr ?_, ?_⟩
  · unfold withPage
    simp only [List.map_append, haddrs]
  · have hold := hrep.stored.holds
    rw [← withPage_nil hrep.rest] at hold
    unfold withPage at hold ⊢
    simp only [holds_append] at hold ⊢
    exact ⟨hold.1, hold.2.1, hst.holds, hold.2.2.2⟩

/-- The head page stays the first one. -/
theorem firstPage_counted (hhead : pool.pages.head? = some q) (x : MpNode) :
    firstPage (counted pool ++ [x]) 0 = q.addr := by
  obtain ⟨pages, hpages⟩ := List.head?_eq_some_iff.mp hhead
  have haddrs := counted_addr pool
  rw [hpages] at haddrs
  cases hcounted : counted pool with
  | nil =>
    rw [hcounted] at haddrs
    cases haddrs
  | cons r rest =>
    rw [hcounted] at haddrs
    exact (List.cons.inj haddrs).1

/-- `mp_alloc_block` is that of the model. -/
theorem mpAllocBlock_follows (hrep : Rep p h s) (hfuel : s.pool.pages.length < fuel)
    (hcurrent : fromCurrent s.pool ≠ []) :
    Follows p (PagePool.mpAllocBlock s size) (mpAllocBlock fuel h p size) := by
  intro s' m hrun hlaid
  obtain ⟨head, s₁, node, hhead, hreq, hcases⟩ := mpAllocBlock_cases hrun
  obtain ⟨pages, hpages⟩ := List.head?_eq_some_iff.mp hhead
  -- the size of the page is read from the head page
  have hst := hrep.storedPages
  rw [hpages] at hst
  have haddr : headAt p = head.addr := by
    rw [← hrep.head, hpages]
    rfl
  obtain ⟨-, hend, -⟩ := hst.page
  obtain ⟨h₁, hreq₁, hrep₁⟩ := hrep.request hreq
  have hmemalign : h.posixMemalign mpAlignment (ptrDiff head.end_ head.addr) = (h₁, node) :=
    (if_pos (by decide)).trans hreq₁
  unfold mpAllocBlock
  rw [haddr, hend]
  simp only [Option.bind_eq_bind, Option.bind_some, hmemalign]
  rcases hcases with ⟨rfl, rfl, rfl⟩ | ⟨hnode, rfl, rfl⟩
  · exact ⟨h₁, if_pos rfl, hrep₁⟩
  · rw [if_neg hnode]
    obtain ⟨-, hpool⟩ := request_asked hreq
    obtain ⟨-, -, -, -, -, hhalf, -⟩ := request_given hreq hnode
    set psize := ptrDiff head.end_ head.addr
    obtain ⟨f, hgarbage⟩ := hrep₁.exists_page rfl hlaid.sited
    have hfits : Fits (pageWords [newPage node psize size] 0) := fun w hw => hlaid.fits w (by
      refine List.mem_append_right _ (List.mem_append_left _ ?_)
      change w ∈ pageWords (counted s₁.pool ++ [newPage node psize size]) 0
      rw [pageWords_append]
      exact List.mem_append_right _ hw)
    -- the header of the new page is written before the loop
    obtain ⟨mem₁, mem₂, mem₃, mem₄, hwrite₁, hwrite₂, hwrite₃, hwrite₄, hedits⟩ :=
      writeHeader hgarbage.right.right.left hfits
    have hst₄ : Stored { h₁ with mem := mem₄ }
        (withPage s₁.pool (pageWords [newPage node psize size] 0)) := by
      unfold withPage at hgarbage ⊢
      rw [← List.append_assoc] at hgarbage ⊢
      exact hgarbage.edits (hedits.embed hgarbage.holds hgarbage.sited.spaced)
    have hread : Heap.read { h₁ with mem := mem₄ } (currentAt p) = some s₁.pool.current := by
      rw [← hrep₁.addr]
      exact hst₄.read (List.mem_append_left _ (by simp [poolWords]))
    rw [← hpool] at hfuel hcurrent
    have hlow : node < 2 ^ 64 := by omega
    obtain ⟨mem₅, mem₆, mem₇, y, hloop, hlink, hset, hst₇⟩ :=
      hrep₁.linkPage rfl hst₄ hlaid.fits hlow hfuel hcurrent
    refine ⟨{ h₁ with mem := mem₇ }, ?_, hrep₁.live, hrep₁.answers, hrep₁.addr, ?_, rfl, hst₇⟩
    · dsimp only [newPage, addNode] at hwrite₁ hwrite₂ hwrite₃ hwrite₄ hset
      simp only [hwrite₁, hwrite₂, hwrite₃, hwrite₄, hread, hloop, hlink, hset, Option.bind_some]
      rfl
    · rw [haddr]
      exact firstPage_counted (hpool ▸ hhead) _

/-- The tests read of a page what those of the model do. -/
def Reads (fit : MpNode → Option ℕ) (room : ℕ → ℕ → Option ℕ) : Prop :=
  ∀ q, fit q = room q.last q.end_

theorem reads_aligned (size : ℕ) : Reads (fitAligned size) (roomAligned size) := fun _ => rfl

theorem reads_last (size : ℕ) : Reads (fitLast size) (roomLast size) := fun _ => rfl

/-- A small request is that of the model. -/
theorem allocSmall_follows (hrep : Rep p h s) (hreads : Reads fit room)
    (hfuel : s.pool.pages.length < fuel) :
    Follows p (PagePool.allocSmall fit s size) (allocSmall fuel room h p size) := by
  intro s' m hrun hlaid
  obtain ⟨-, hcurrent, -⟩ := hrep.fields
  unfold PagePool.allocSmall at hrun
  unfold allocSmall
  rw [hcurrent]
  simp only [Option.bind_eq_bind, Option.bind_some]
  cases hfrom : fromCurrent s.pool with
  | nil =>
    rw [hfrom] at hrun
    cases hrun
  | cons q pages =>
    obtain ⟨hq, hst, hlength⟩ := hrep.from hfrom
    have hloop := scanPages_follows fit room size hreads hst (hlength.trans hfuel)
    rw [hfrom] at hrun
    dsimp only at hrun
    rw [← hq]
    cases hscan : PagePool.scanPages fit size (q :: pages) with
    | none =>
      rw [hscan] at hrun hloop
      dsimp only at hrun hloop
      rw [if_neg (not_not.mpr hrep.rest)] at hrun
      rw [hloop, Option.bind_some]
      refine mpAllocBlock_follows hrep hfuel ?_ s' m hrun hlaid
      rw [hfrom]
      exact List.cons_ne_nil q pages
    | some found =>
      obtain ⟨pages', m'⟩ := found
      rw [hscan] at hrun hloop
      obtain ⟨mem, hone, hedits⟩ := hloop
      obtain ⟨rfl, rfl⟩ := Prod.mk.inj (Option.some.inj hrun)
      refine ⟨{ h with mem := mem }, by rw [hone]; rfl, (Rep.walked hrep ?_ ?_).handed _⟩
      · rw [hfrom]
        exact hedits
      · obtain ⟨pre, x, post, hold, rfl, -, -⟩ := scanPages_eq_some hscan
        rw [hfrom, hold]
        simp

/-! ### Large requests -/

/-- There is room for the pool before it gets more, or before something else is freed. -/
theorem Laid.before (hlaid : Laid s') (hpool : s'.pool = s.pool) (hsub : s'.live ⊆ s.live) :
    Laid s :=
  ⟨hpool ▸ hlaid.sited.mono hsub, hpool ▸ hlaid.fits⟩

/-- There is room for the pool before it gets a descriptor. -/
theorem Laid.descriptor {large : ℕ}
    (hlaid : Laid { s with pool := { s.pool with large := ⟨large, a⟩ :: s.pool.large } }) :
    Laid s where
  sited := by
    have hsub : (largeWords s.pool.large).Sublist (largeWords (⟨large, a⟩ :: s.pool.large)) :=
      (List.sublist_cons_self _ _).trans (List.sublist_cons_self _ _)
    exact (hlaid.sited.sublist ((List.Sublist.refl _).append
      ((List.Sublist.refl _).append hsub))).congr rfl
  fits w hw := by
    have hfits := hlaid.fits
    rcases List.mem_append.mp hw with hw | hw
    · simp only [poolWords, List.mem_cons, List.not_mem_nil, or_false] at hw
      rcases hw with rfl | rfl | rfl
      · exact hfits (maxAt s.pool.addr, s.pool.max) (by simp [words, poolWords])
      · exact hfits (currentAt s.pool.addr, s.pool.current) (by simp [words, poolWords])
      · exact hfits (nextLargeAt large, firstLarge s.pool.large) (by simp [words, largeWords])
    · refine hfits w (List.mem_append_right _ ?_)
      rcases List.mem_append.mp hw with hw | hw
      · exact List.mem_append_left _ hw
      · exact List.mem_append_right _ (List.mem_cons_of_mem _ (List.mem_cons_of_mem _ hw))

/-- The words of a new descriptor are written, and it is linked before the others. -/
theorem Rep.linkLarge {large : ℕ} (hrep : Rep p h s) (ha : a < 2 ^ 64)
    (hlaid : Laid { s with pool := { s.pool with large := ⟨large, a⟩ :: s.pool.large } }) :
    ∃ mem₁ mem₂ mem₃, h.write (allocAt large) a = some { h with mem := mem₁ } ∧
      Heap.read { h with mem := mem₁ } (largeAt p) = some (firstLarge s.pool.large) ∧
      Heap.write { h with mem := mem₁ } (nextLargeAt large) (firstLarge s.pool.large) =
        some { h with mem := mem₂ } ∧
      Heap.write { h with mem := mem₂ } (largeAt p) large = some { h with mem := mem₃ } ∧
      Rep p { h with mem := mem₃ }
        { s with pool := { s.pool with large := ⟨large, a⟩ :: s.pool.large } } := by
  set pool := { s.pool with large := ⟨large, a⟩ :: s.pool.large } with hpool
  set behind := pageWords s.pool.pages s.pool.rest with hbehind
  have hsited : Sited h.live (words pool) := by
    rw [hrep.live]
    exact hlaid.sited
  -- the descriptor holds anything before
  obtain ⟨f, hgarbage⟩ := exists_stored (show Sited h.live [(nextLargeAt large,
    firstLarge s.pool.large), (allocAt large, a)] from hsited.right.right.left)
  have hst : Stored h ((poolWords s.pool ++ behind) ++ (nextLargeAt large, f (nextLargeAt large)) ::
      ((allocAt large, f (allocAt large)) :: largeWords s.pool.large)) := by
    refine ⟨hsited.congr ?_, ?_⟩
    · simp [words, poolWords, largeWords, hpool, hbehind]
    · have hold := hrep.stored.holds
      unfold words at hold
      rw [← List.append_assoc] at hold
      obtain ⟨hbefore, hlarge⟩ := holds_append.mp hold
      exact holds_append.mpr ⟨hbefore, holds_append.mpr ⟨hgarbage.holds, hlarge⟩⟩
  have hfirst : firstLarge s.pool.large < 2 ^ 64 :=
    hlaid.fits (nextLargeAt large, firstLarge s.pool.large) (by simp [words, largeWords, hpool])
  have hlarge : large < 2 ^ 64 := hlaid.fits (largeAt pool.addr, large) (by
    simp [words, poolWords, firstLarge, hpool])
  rw [List.append_cons] at hst
  obtain ⟨mem₁, hwrite₁, hedits₁⟩ := hst.write _ ha
  have hst₁ := hst.edits hedits₁
  rw [← List.append_cons] at hst₁
  have hread := hst₁.read (a := largeAt s.pool.addr) (v := firstLarge s.pool.large)
    (by simp [poolWords])
  obtain ⟨mem₂, hwrite₂, hedits₂⟩ := hst₁.write _ hfirst
  have hst₂ := hst₁.edits hedits₂
  have hwords : (poolWords s.pool ++ behind) ++ (nextLargeAt large, firstLarge s.pool.large) ::
      ((allocAt large, a) :: largeWords s.pool.large) =
      [(maxAt s.pool.addr, s.pool.max), (currentAt s.pool.addr, s.pool.current)] ++
        (largeAt s.pool.addr, firstLarge s.pool.large) ::
          (behind ++ largeWords pool.large) := by
    simp [poolWords, largeWords, hpool]
  rw [hwords] at hst₂
  obtain ⟨mem₃, hwrite₃, hedits₃⟩ := hst₂.write _ hlarge
  rw [hrep.addr] at hread hwrite₃
  exact ⟨mem₁, mem₂, mem₃, hwrite₁, hread, hwrite₂, hwrite₃, hrep.live, hrep.answers, hrep.addr,
    hrep.head, hrep.rest, hst₂.edits hedits₃⟩

/-- A block gets a descriptor as in the model. -/
theorem addLarge_follows {alloc : Sys → ℕ → Option (Sys × ℕ)}
    {alloc' : Heap → ℕ → Option (Heap × ℕ)} (ha : a < 2 ^ 64)
    (halloc : Follows p (alloc s sizeofLarge) (alloc' h sizeofLarge)) :
    Follows p (PagePool.addLarge alloc s a) (addLarge alloc' h p a) := by
  intro s' m hrun hlaid
  obtain ⟨⟨s₁, large⟩, hdesc, hrun⟩ := Option.bind_eq_some_iff.mp hrun
  unfold addLarge
  dsimp only at hrun
  split_ifs at hrun with hlarge
  · -- there is no memory for the descriptor, and the block is given back
    obtain ⟨s₂, hfree, heq⟩ := Option.bind_eq_some_iff.mp hrun
    obtain ⟨rfl, rfl⟩ := Prod.mk.inj (Option.some.inj heq)
    obtain ⟨h₁, hone, hrep₁⟩ := halloc s₁ large hdesc
      (hlaid.before (free_keeps hfree).1 (free_keeps hfree).2.2)
    obtain ⟨h₂, hfree', hrep₂⟩ := hrep₁.free hfree hlaid
    refine ⟨h₂, ?_, hrep₂⟩
    rw [hone]
    simp only [Option.bind_eq_bind, Option.bind_some]
    rw [if_pos hlarge, hfree']
    rfl
  · obtain ⟨rfl, rfl⟩ := Prod.mk.inj (Option.some.inj hrun)
    obtain ⟨h₁, hone, hrep₁⟩ := halloc s₁ large hdesc hlaid.descriptor
    obtain ⟨mem₁, mem₂, mem₃, hwrite₁, hread, hwrite₂, hwrite₃, hrep'⟩ :=
      hrep₁.linkLarge ha hlaid
    refine ⟨_, ?_, hrep'⟩
    rw [hone]
    simp only [Option.bind_eq_bind, Option.bind_some]
    rw [if_neg hlarge, hwrite₁]
    simp only [Option.bind_some, hread, hwrite₂, hwrite₃]
    rfl

/-- The descriptors hold other blocks now. -/
theorem Rep.edited (hrep : Rep p h s) {mem : Memory} {large : List MpLarge}
    (hedits : Edits 8 h.mem (largeWords s.pool.large) mem (largeWords large))
    (haddrs : large.map (·.addr) = s.pool.large.map (·.addr)) :
    Rep p { h with mem := mem } { s with pool := { s.pool with large := large } } := by
  refine ⟨hrep.live, hrep.answers, hrep.addr, hrep.head, hrep.rest, ?_⟩
  have hwords : ∀ l : List MpLarge, firstLarge l = firstLarge s.pool.large →
      words { s.pool with large := l } = (poolWords s.pool ++ pageWords s.pool.pages s.pool.rest) ++
        (largeWords l ++ []) := fun l hl => by
    rw [List.append_nil, List.append_assoc, words, poolWords, poolWords, hl]
  have hst : Stored h (words { s.pool with large := s.pool.large }) := hrep.stored
  rw [hwords _ rfl] at hst
  change Stored _ (words { s.pool with large := large })
  rw [hwords _ (firstLarge_congr haddrs)]
  exact hst.edits (hedits.embed hst.holds hst.sited.spaced)

/-- A large request is that of the model, if a request for a descriptor is. -/
theorem mpAllocLarge_follows {alloc : Sys → ℕ → Option (Sys × ℕ)}
    {alloc' : Heap → ℕ → Option (Heap × ℕ)} (hrep : Rep p h s)
    (halloc : ∀ {s₁ h₁}, Rep p h₁ s₁ → s₁.pool = s.pool →
      Follows p (alloc s₁ sizeofLarge) (alloc' h₁ sizeofLarge)) :
    Follows p (PagePool.mpAllocLarge alloc s size) (mpAllocLarge alloc' h p size) := by
  intro s' m hrun hlaid
  unfold PagePool.mpAllocLarge PagePool.malloc at hrun
  unfold mpAllocLarge Heap.malloc
  cases hreq : PagePool.request s 16 size with
  | mk s₁ a =>
    obtain ⟨h₁, hreq', hrep₁⟩ := hrep.request hreq
    rw [hreq] at hrun
    rw [hreq']
    dsimp only at hrun ⊢
    by_cases ha : a = 0
    · rw [if_pos ha] at hrun ⊢
      obtain ⟨rfl, rfl⟩ := Prod.mk.inj (Option.some.inj hrun)
      exact ⟨h₁, rfl, hrep₁⟩
    rw [if_neg ha] at hrun ⊢
    obtain ⟨-, -, hpool, -, -, hhalf, -⟩ := request_given hreq ha
    have hlow : a < 2 ^ 64 := by omega
    obtain ⟨-, -, hlarge⟩ := hrep₁.fields
    have hloop := reuseLarge_follows (n := 5) hrep₁.storedLarge hlow
    rw [hlarge]
    simp only [Option.bind_eq_bind, Option.bind_some]
    cases hreuse : PagePool.reuseLarge a 5 s₁.pool.large with
    | some large =>
      rw [hreuse] at hrun hloop
      obtain ⟨mem, hone, hedits⟩ := hloop
      obtain ⟨rfl, rfl⟩ := Prod.mk.inj (Option.some.inj hrun)
      rw [hone]
      exact ⟨_, rfl, hrep₁.edited hedits (reuseLarge_addr hreuse)⟩
    | none =>
      rw [hreuse] at hrun hloop
      rw [hloop]
      exact addLarge_follows hlow (halloc hrep₁ hpool) s' m hrun hlaid

/-! ### The operations -/

/-- `mp_alloc` is that of the model, however deep its calls nest. -/
theorem mpAlloc_follows (hrep : Rep p h s) (hfuel : s.pool.pages.length < fuel) :
    Follows p (PagePool.mpAlloc depth s size) (mpAlloc fuel depth h p size) := by
  induction depth generalizing s h size with
  | zero => exact fun _ _ hrun => nomatch hrun
  | succ depth ih =>
    obtain ⟨hmax, -, -⟩ := hrep.fields
    rw [PagePool.mpAlloc, mpAlloc]
    by_cases hzero : size = 0
    · rw [if_pos hzero, if_pos hzero]
      intro s' m hrun _
      obtain ⟨rfl, rfl⟩ := Prod.mk.inj (Option.some.inj hrun)
      exact ⟨h, rfl, hrep⟩
    rw [if_neg hzero, if_neg hzero, hmax]
    simp only [Option.bind_eq_bind, Option.bind_some]
    by_cases hsmall : size ≤ s.pool.max
    · rw [if_pos hsmall, if_pos hsmall]
      exact allocSmall_follows hrep (reads_aligned size) hfuel
    · rw [if_neg hsmall, if_neg hsmall]
      exact mpAllocLarge_follows hrep fun hrep₁ hpool => ih hrep₁ (hpool ▸ hfuel)

theorem mpNalloc_follows (hrep : Rep p h s) (hfuel : s.pool.pages.length < fuel) :
    Follows p (PagePool.mpNalloc depth s size) (mpNalloc fuel depth h p size) := by
  obtain ⟨hmax, -, -⟩ := hrep.fields
  unfold PagePool.mpNalloc mpNalloc
  rw [hmax]
  simp only [Option.bind_eq_bind, Option.bind_some]
  by_cases hsmall : size ≤ s.pool.max
  · rw [if_pos hsmall, if_pos hsmall]
    exact allocSmall_follows hrep (reads_last size) hfuel
  · rw [if_neg hsmall, if_neg hsmall]
    exact mpAllocLarge_follows hrep fun hrep₁ hpool => mpAlloc_follows hrep₁ (hpool ▸ hfuel)

theorem mpMemalign_follows (hrep : Rep p h s) (hfuel : s.pool.pages.length < fuel) :
    Follows p (PagePool.mpMemalign depth s size alignment)
      (mpMemalign fuel depth h p size alignment) := by
  intro s' m hrun hlaid
  unfold PagePool.mpMemalign at hrun
  unfold mpMemalign
  cases hreq : PagePool.posixMemalign s alignment size with
  | mk s₁ a =>
    obtain ⟨h₁, hreq', hrep₁⟩ := hrep.posixMemalign hreq
    rw [hreq] at hrun
    rw [hreq']
    dsimp only at hrun ⊢
    by_cases ha : a = 0
    · rw [if_pos ha] at hrun ⊢
      obtain ⟨rfl, rfl⟩ := Prod.mk.inj (Option.some.inj hrun)
      exact ⟨h₁, rfl, hrep₁⟩
    rw [if_neg ha] at hrun ⊢
    have hpool := (posixMemalign_asked hreq).2
    have hlow : a < 2 ^ 64 := by
      unfold PagePool.posixMemalign at hreq
      split_ifs at hreq
      · obtain ⟨-, -, -, -, -, hhalf, -⟩ := request_given hreq ha
        omega
      · exact absurd (Prod.mk.inj hreq).2.symm ha
    exact addLarge_follows hlow (mpAlloc_follows hrep₁ (hpool ▸ hfuel)) s' m hrun hlaid

/-- What `mp_calloc` clears is none of the words of the pool. -/
def Clears (s' : Sys) (m size : ℕ) : Prop :=
  m ≠ 0 → Mapped s'.live m size ∧ ∀ w ∈ words s'.pool, w.1 + 8 ≤ m ∨ m + size ≤ w.1

theorem mpCalloc_follows (hrep : Rep p h s) (hfuel : s.pool.pages.length < fuel)
    (hrun : PagePool.mpCalloc depth s size = some (s', m)) (hlaid : Laid s')
    (hclears : Clears s' m size) : ∃ h', mpCalloc fuel depth h p size = some (h', m) ∧
      Rep p h' s' := by
  obtain ⟨h₁, hone, hrep₁⟩ := mpAlloc_follows hrep hfuel s' m hrun hlaid
  unfold mpCalloc
  rw [hone]
  simp only [Option.bind_eq_bind, Option.bind_some]
  by_cases hm : m = 0
  · rw [if_pos hm]
    exact ⟨h₁, by rw [hm]; rfl, hrep₁⟩
  · rw [if_neg hm]
    obtain ⟨hmapped, hapart⟩ := hclears hm
    have hset : h₁.memset m size = some { h₁ with mem := paste h₁.mem (fun _ => 0) m size } :=
      if_pos (hrep₁.live ▸ hmapped)
    rw [hset]
    exact ⟨_, rfl, hrep₁.live, hrep₁.answers, hrep₁.addr, hrep₁.head, hrep₁.rest,
      hrep₁.stored.sited, hrep₁.stored.holds.paste hapart⟩

theorem mpFree_follows (hrep : Rep p h s) (hfuel : s.pool.large.length < fuel)
    (hrun : PagePool.mpFree s a = some s') (hlaid : Laid s') :
    ∃ h', mpFree fuel h p a = some h' ∧ Rep p h' s' := by
  obtain ⟨-, -, hlarge⟩ := hrep.fields
  unfold PagePool.mpFree at hrun
  unfold mpFree
  rw [hlarge]
  simp only [Option.bind_eq_bind, Option.bind_some]
  cases hclear : PagePool.clearLarge a s.pool.large with
  | none =>
    rw [hclear] at hrun
    obtain rfl := Option.some.inj hrun
    exact ⟨h, clearLarge_ends hrep.storedLarge hfuel hclear, hrep⟩
  | some large =>
    rw [hclear] at hrun
    obtain ⟨s₁, hfree, heq⟩ := Option.bind_eq_some_iff.mp hrun
    obtain rfl := Option.some.inj heq
    obtain ⟨hpool, -, -⟩ := free_keeps hfree
    have haddrs := clearLarge_addr hclear
    -- the descriptors are not in the block that is freed
    have hsited : Sited s₁.live (largeWords s.pool.large) :=
      hlaid.sited.right.right.congr (largeWords_addrs haddrs).symm
    obtain ⟨mem, hone, hedits⟩ := clearLarge_follows hrep.storedLarge hsited
      (free_follows hrep.live hfree) hfuel hclear
    have hlaid₁ : Laid s₁ := by
      refine ⟨hlaid.sited.congr ?_, hpool ▸ hrep.laid.fits⟩
      rw [hpool]
      unfold words
      simp only [List.map_append, largeWords_addrs haddrs]
      rfl
    obtain ⟨h₁, hfree₁, hrep₁⟩ := hrep.free hfree hlaid₁
    obtain rfl := Option.some.inj ((free_follows hrep.live hfree).symm.trans hfree₁)
    exact ⟨_, hone, hrep₁.edited (hpool.symm ▸ hedits) (hpool.symm ▸ haddrs)⟩

/-- The descriptors are not in the blocks that are freed when all of them are. -/
def FreesBlocks (s : Sys) : Prop :=
  ∀ s', s.pool.large.foldlM (fun s l => PagePool.free s l.alloc) s = some s' → Laid s'

/-- All blocks are freed. -/
theorem Rep.freeAll (hrep : Rep p h s) (hfuel : s.pool.large.length < fuel)
    (hrun : s.pool.large.foldlM (fun s l => PagePool.free s l.alloc) s = some s')
    (hlaid : Laid s') :
    freeLarge fuel h (firstLarge s.pool.large) = some { h with live := s'.live } ∧
      Rep p { h with live := s'.live } s' := by
  obtain ⟨hpool, hanswers, -⟩ := freeAll_keeps MpLarge.alloc hrun
  have hsited : Sited s'.live (largeWords s.pool.large) := hpool ▸ hlaid.sited.right.right
  refine ⟨freeLarge_follows hrep.storedLarge.holds hrep.live hrun hsited hfuel, rfl,
    hanswers ▸ hrep.answers, hpool ▸ hrep.addr, hpool ▸ hrep.head, hpool ▸ hrep.rest,
    hlaid.sited, ?_⟩
  rw [hpool]
  exact hrep.stored.holds

theorem mpResetPool_follows (hrep : Rep p h s) (hfuel : s.pool.pages.length < fuel)
    (hfuel' : s.pool.large.length < fuel) (hrun : PagePool.mpResetPool s = some s')
    (hfrees : FreesBlocks s) : ∃ h', mpResetPool fuel h p = some h' ∧ Rep p h' s' := by
  obtain ⟨s₁, hfree, hrun⟩ := Option.bind_eq_some_iff.mp hrun
  obtain ⟨hpool, -, -⟩ := freeAll_keeps MpLarge.alloc hfree
  obtain ⟨hone, hrep₁⟩ := hrep.freeAll hfuel' hfree (hfrees s₁ hfree)
  obtain ⟨-, -, hlarge⟩ := hrep.fields
  dsimp only at hrun
  rw [if_neg (not_not.mpr hrep₁.rest)] at hrun
  obtain rfl := Option.some.inj hrun
  -- the list of descriptors is emptied
  have hst : Stored { h with live := s₁.live } ([(maxAt p, s₁.pool.max), (currentAt p,
      s₁.pool.current)] ++ (largeAt p, firstLarge s₁.pool.large) ::
        (pageWords s₁.pool.pages 0 ++ largeWords s₁.pool.large)) := by
    have hstored := hrep₁.stored
    unfold words at hstored
    rw [hrep₁.rest] at hstored
    rw [← hrep₁.addr]
    exact hstored
  obtain ⟨mem₁, hwrite, hedits₁⟩ := hst.write (v := 0) _ (by decide)
  have hst₁ := hst.edits hedits₁
  have hpages := hst₁.right.tail.left
  obtain ⟨mem₂, hloop, hedits₂⟩ := resetPages_follows hpages (hpool ▸ hfuel)
  have hst₂ : Stored { h with mem := mem₁, live := s₁.live } ([(maxAt p, s₁.pool.max),
      (currentAt p, s₁.pool.current), (largeAt p, 0)] ++ (pageWords s₁.pool.pages 0 ++ [])) := by
    rw [List.append_nil]
    exact Stored.left (show Stored _ ([_, _, _] ++ _ ++ _) from hst₁)
  rw [hrep₁.head] at hloop
  refine ⟨{ h with mem := mem₂, live := s₁.live }, ?_, rfl, hrep₁.answers, hrep₁.addr, ?_, ?_, ?_⟩
  · unfold mpResetPool
    rw [hlarge]
    simp only [Option.bind_eq_bind, Option.bind_some]
    rw [hone, Option.bind_some, hwrite, Option.bind_some]
    exact hloop
  · refine (firstPage_congr ?_ 0).trans hrep₁.head
    rw [List.map_map]
    rfl
  · exact hrep₁.rest
  · have hst₃ := hst₂.edits (hedits₂.embed hst₂.holds hst₂.sited.spaced)
    unfold words poolWords
    dsimp only
    rw [hrep₁.rest, hrep₁.addr]
    exact hst₃

/-! ### One operation -/

/-- There is room for what an operation leaves behind, and in between. -/
structure Roomy (s : Sys) (act : Act) (s' : Sys) (m : ℕ) : Prop where
  laid : Laid s'
  clears : ∀ size, act = .calloc size → Clears s' m size
  frees : act = .reset → FreesBlocks s

/-- **An operation in memory is the operation of the model.** -/
theorem call_follows {act : Act} (hrep : Rep p h s) (hfuel : s.pool.pages.length < fuel)
    (hfuel' : s.pool.large.length < fuel) (hrun : deepCall s act = some (s', m))
    (hroomy : Roomy s act s' m) : ∃ h', call fuel p h act = some (h', m) ∧ Rep p h' s' := by
  have hlength : h.answers.length = s.answers.length := by
    rw [← hrep.answers, List.length_map]
  unfold call
  rw [hlength]
  cases act with
  | alloc size => exact mpAlloc_follows hrep hfuel s' m hrun hroomy.laid
  | nalloc size => exact mpNalloc_follows hrep hfuel s' m hrun hroomy.laid
  | calloc size => exact mpCalloc_follows hrep hfuel hrun hroomy.laid (hroomy.clears size rfl)
  | memalign size alignment => exact mpMemalign_follows hrep hfuel s' m hrun hroomy.laid
  | free a =>
    obtain ⟨s₁, hone, heq⟩ := Option.map_eq_some_iff.mp hrun
    obtain ⟨rfl, rfl⟩ := Prod.mk.inj heq
    obtain ⟨h', hone', hrep'⟩ := mpFree_follows hrep hfuel' hone hroomy.laid
    exact ⟨h', congrArg (Option.map (·, 0)) hone', hrep'⟩
  | reset =>
    obtain ⟨s₁, hone, heq⟩ := Option.map_eq_some_iff.mp hrun
    obtain ⟨rfl, rfl⟩ := Prod.mk.inj heq
    obtain ⟨h', hone', hrep'⟩ := mpResetPool_follows hrep hfuel hfuel' hone (hroomy.frees rfl)
    exact ⟨h', congrArg (Option.map (·, 0)) hone', hrep'⟩

/-- `mp_destory_pool` frees what that of the model does. -/
theorem mpDestoryPool_follows (hrep : Rep p h s) (hfuel : s.pool.pages.length < fuel)
    (hfuel' : s.pool.large.length < fuel) (hrun : PagePool.mpDestoryPool s = some s')
    (hfrees : FreesBlocks s) (hnodup : (s.pool.pages.map (·.addr)).Nodup)
    (hregions : ∀ s₁, s.pool.large.foldlM (fun s l => PagePool.free s l.alloc) s = some s₁ →
      ∀ r ∈ s.pool.pages.tail, ∃ R ∈ s₁.live, R.lo = r.addr ∧ sizeofNode ≤ R.len) :
    ∃ h', mpDestoryPool fuel h p = some h' ∧ h'.live = s'.live := by
  obtain ⟨s₁, hfree, hrun⟩ := Option.bind_eq_some_iff.mp hrun
  obtain ⟨hpool, -, -⟩ := freeAll_keeps MpLarge.alloc hfree
  obtain ⟨hone, hrep₁⟩ := hrep.freeAll hfuel' hfree (hfrees s₁ hfree)
  obtain ⟨-, -, hlarge⟩ := hrep.fields
  dsimp only at hrun
  rw [if_neg (not_not.mpr hrep₁.rest)] at hrun
  obtain ⟨s₂, hpages, hlast⟩ := Option.bind_eq_some_iff.mp hrun
  -- the way from `pool->head->next` on
  have hst := hrep₁.storedPages
  have hhead := hrep₁.head
  obtain ⟨q, pages, hcons⟩ : ∃ q pages, s₁.pool.pages = q :: pages := by
    refine List.exists_cons_of_ne_nil fun hnil => ?_
    rw [hnil] at hhead
    change 0 = p + sizeofPool at hhead
    unfold sizeofPool at hhead
    omega
  rw [hcons] at hst hhead hpages
  obtain ⟨-, -, hnext, -, -, hrest⟩ := hst.page
  rw [show q.addr = headAt p from hhead] at hnext
  rw [hpool] at hcons
  rw [hcons] at hnodup hfuel
  have hloop := freePages_follows hrest.holds (fun r hr => ⟨hrest.addr_pos hr,
    hregions s₁ hfree r (by rw [hcons]; exact hr)⟩) (List.nodup_cons.mp hnodup).2 rfl hpages
    (Nat.lt_of_succ_lt hfuel)
  have haddr : s₂.pool.addr = p := by
    rw [(freeAll_keeps MpNode.addr hpages).1, hrep₁.addr]
  refine ⟨{ h with live := s'.live }, ?_, rfl⟩
  unfold mpDestoryPool
  rw [hlarge]
  simp only [Option.bind_eq_bind, Option.bind_some]
  rw [hone, Option.bind_some, hnext, Option.bind_some, hloop, Option.bind_some]
  exact free_follows (h := { h with live := s₂.live }) rfl (haddr ▸ hlast)

end MmorpgServer.PagePool.Linked
