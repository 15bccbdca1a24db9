import MmorpgServer.PagePool.Model
import MmorpgServer.Lib.ByteMemory

/-!
# The page pool in memory

The functions of `ngx_page_pool.h` on a memory of bytes: `mp_pool_s`, the headers of the pages and
the descriptors of large blocks are read and written where they are, and so is the memory that
`mp_calloc` clears. Memory that the allocator gives out holds anything. To read or write what is not
allocated is a fault, and so is to free it. A loop gets fuel, one unit for each page or descriptor,
and to run out of it is a fault.

`Model` has the same functions on sequences of pages and descriptors that nothing else writes.

## Main definitions

* `Heap` — the memory, what of it is allocated, and what the allocator will propose
* `mpCreatePool`, `mpAlloc`, `mpNalloc`, `mpCalloc`, `mpMemalign`, `mpFree`, `mpResetPool`,
  `mpDestoryPool` — the functions of the source
* `call`, `step` — the machine of one pool
-/

namespace MmorpgServer.PagePool.Linked

open Bump ByteMemory

/-! ### Memory -/

/-- The environment of a pool. -/
structure Heap where
  mem : Memory
  /-- the memory that is allocated -/
  live : List Interval
  /-- the addresses that the allocator will propose, and what is there -/
  answers : List (ℕ × Memory)

/-- All of the `n` bytes from `a` on are allocated. -/
def Mapped (live : List Interval) (a n : ℕ) : Prop :=
  ∀ i < n, ∃ r ∈ live, r.lo ≤ a + i ∧ a + i < r.lo + r.len

instance (live : List Interval) (a n : ℕ) : Decidable (Mapped live a n) :=
  inferInstanceAs (Decidable (∀ i < n, ∃ r ∈ live, r.lo ≤ a + i ∧ a + i < r.lo + r.len))

/-- The pointer or `size_t` at `a` -/
def Heap.read (h : Heap) (a : ℕ) : Option ℕ :=
  if Mapped h.live a 8 then some (load h.mem 8 a) else none

/-- Write it. -/
def Heap.write (h : Heap) (a v : ℕ) : Option Heap :=
  if Mapped h.live a 8 then some { h with mem := store h.mem 8 a v } else none

/-- `memset(a, 0, n)` -/
def Heap.memset (h : Heap) (a n : ℕ) : Option Heap :=
  if Mapped h.live a n then some { h with mem := paste h.mem (fun _ => 0) a n } else none

/-- Ask the allocator; `0` is a failure. -/
def Heap.request (h : Heap) (alignment size : ℕ) : Heap × ℕ :=
  match h.answers with
  | [] => (h, 0)
  | (a, contents) :: answers =>
    if Fresh h.live alignment size a then
      ({ mem := paste h.mem contents a (Nat.max size 1)
         live := ⟨a, Nat.max size 1⟩ :: h.live
         answers := answers }, a)
    else ({ h with answers := answers }, 0)

/-- `malloc` -/
def Heap.malloc (h : Heap) (size : ℕ) : Heap × ℕ := h.request 16 size

/-- `posix_memalign` -/
def Heap.posixMemalign (h : Heap) (alignment size : ℕ) : Heap × ℕ :=
  if alignment &&& (alignment - 1) = 0 ∧ 8 ∣ alignment ∧ 0 < alignment then
    h.request alignment size
  else (h, 0)

/-- `free` -/
def Heap.free (h : Heap) (a : ℕ) : Option Heap :=
  if a = 0 then some h
  else if a ∈ h.live.map (·.lo) then some { h with live := h.live.filter fun r => r.lo ≠ a }
  else none

/-! ### Fields -/

-- `mp_pool_s`
def maxAt (pool : ℕ) : ℕ := pool
def currentAt (pool : ℕ) : ℕ := pool + 8
def largeAt (pool : ℕ) : ℕ := pool + 16
def headAt (pool : ℕ) : ℕ := pool + sizeofPool

-- `mp_node_s`
def lastAt (p : ℕ) : ℕ := p
def endAt (p : ℕ) : ℕ := p + 8
def nextAt (p : ℕ) : ℕ := p + 16
def failedAt (p : ℕ) : ℕ := p + 24

-- `mp_large_s`
def nextLargeAt (l : ℕ) : ℕ := l
def allocAt (l : ℕ) : ℕ := l + 8

/-! ### Small blocks -/

/-- The test of `mp_alloc` whether a page has room, and where. -/
def roomAligned (size last end_ : ℕ) : Option ℕ :=
  let m := mpAlignPtr last
  if ptrDiff end_ m ≥ size then some m else none

/-- The test of `mp_nalloc`. -/
def roomLast (size last end_ : ℕ) : Option ℕ :=
  let m := last
  if ptrDiff end_ m ≥ size then some m else none

/-- The loop over the pages from `p` on: the first one that passes the test takes the block. -/
def scanPages (room : ℕ → ℕ → Option ℕ) (size : ℕ) :
    (fuel : ℕ) → Heap → (p : ℕ) → Option (Option (Heap × ℕ))
  | 0, _, _ => none
  | fuel + 1, h, p => do
    let last ← h.read (lastAt p)
    let end_ ← h.read (endAt p)
    match room last end_ with
    | some m =>
      let h ← h.write (lastAt p) (sizeT (m + size))
      return some (h, m)
    | none =>
      let next ← h.read (nextAt p)
      if next = 0 then return none else scanPages room size fuel h next

/-- The loop of `mp_alloc_block`, with the page where it stops and the local `current` -/
def countFailed : (fuel : ℕ) → Heap → (p current : ℕ) → Option (Heap × ℕ × ℕ)
  | 0, _, _, _ => none
  | fuel + 1, h, p, current => do
    let next ← h.read (nextAt p)
    if next = 0 then return (h, p, current)
    else
      let failed ← h.read (failedAt p)
      let h ← h.write (failedAt p) (sizeT (failed + 1))
      countFailed fuel h next (if failed > 4 then next else current)

/-- `mp_alloc_block` -/
def mpAllocBlock (fuel : ℕ) (h : Heap) (pool size : ℕ) : Option (Heap × ℕ) := do
  let end_ ← h.read (endAt (headAt pool))
  let psize := ptrDiff end_ (headAt pool)
  let (h, new) := h.posixMemalign mpAlignment psize
  if new = 0 then return (h, 0)
  else
    let h ← h.write (endAt new) (sizeT (new + psize))
    let h ← h.write (nextAt new) 0
    let h ← h.write (failedAt new) 0
    let m := mpAlignPtr (sizeT (new + sizeofNode))
    let h ← h.write (lastAt new) (sizeT (m + size))
    let current ← h.read (currentAt pool)
    let (h, p, current) ← countFailed fuel h current current
    let h ← h.write (nextAt p) new
    let h ← h.write (currentAt pool) (if current = 0 then new else current)
    return (h, m)

/-- The small branch of `mp_alloc` and `mp_nalloc`. -/
def allocSmall (fuel : ℕ) (room : ℕ → ℕ → Option ℕ) (h : Heap) (pool size : ℕ) :
    Option (Heap × ℕ) := do
  let current ← h.read (currentAt pool)
  match ← scanPages room size fuel h current with
  | some r => return r
  | none => mpAllocBlock fuel h pool size

/-! ### Large blocks -/

/-- The loop of `mp_alloc_large` over the first `n` descriptors. Behind the last of them `next` is
not read. -/
def reuseLarge (a : ℕ) : (n : ℕ) → Heap → (large : ℕ) → Option (Option Heap)
  | 0, _, _ => some none
  | n + 1, h, large =>
    if large = 0 then some none
    else do
      let alloc ← h.read (allocAt large)
      if alloc = 0 then
        let h ← h.write (allocAt large) a
        return some h
      else if n = 0 then return none
      else
        let next ← h.read (nextLargeAt large)
        reuseLarge a n h next

/-- Make a descriptor for the block `a`, or free the block; `mp_alloc` is an argument. -/
def addLarge (alloc : Heap → ℕ → Option (Heap × ℕ)) (h : Heap) (pool a : ℕ) :
    Option (Heap × ℕ) := do
  let (h, large) ← alloc h sizeofLarge
  if large = 0 then
    let h ← h.free a
    return (h, 0)
  else
    let h ← h.write (allocAt large) a
    let first ← h.read (largeAt pool)
    let h ← h.write (nextLargeAt large) first
    let h ← h.write (largeAt pool) large
    return (h, a)

/-- `mp_alloc_large` -/
def mpAllocLarge (alloc : Heap → ℕ → Option (Heap × ℕ)) (h : Heap) (pool size : ℕ) :
    Option (Heap × ℕ) := do
  let (h, a) := h.malloc size
  if a = 0 then return (h, 0)
  else
    let large ← h.read (largeAt pool)
    match ← reuseLarge a 5 h large with
    | some h => return (h, a)
    | none => addLarge alloc h pool a

/-- `mp_alloc`, with at most `depth` nested calls -/
def mpAlloc (fuel : ℕ) : (depth : ℕ) → Heap → (pool size : ℕ) → Option (Heap × ℕ)
  | 0, _, _, _ => none
  | depth + 1, h, pool, size =>
    if size = 0 then some (h, 0)
    else do
      let max ← h.read (maxAt pool)
      if size ≤ max then allocSmall fuel (roomAligned size) h pool size
      else mpAllocLarge (fun h size => mpAlloc fuel depth h pool size) h pool size

/-! ### The other functions -/

/-- `mp_create_pool`; the result `0` is `NULL`. -/
def mpCreatePool (h : Heap) (size : ℕ) : Option (Heap × ℕ) := do
  let (h, p) := h.posixMemalign mpAlignment (sizeT (size + sizeofPool + sizeofNode))
  if p = 0 then return (h, 0)
  else
    let h ← h.write (maxAt p) (if size < mpMaxAllocFromPool then size else mpMaxAllocFromPool)
    let h ← h.write (currentAt p) (headAt p)
    let h ← h.write (largeAt p) 0
    let last := sizeT (p + sizeofPool + sizeofNode)
    let h ← h.write (lastAt (headAt p)) last
    let h ← h.write (endAt (headAt p)) (sizeT (last + size))
    -- `next` of the head page stays what it is
    let h ← h.write (failedAt (headAt p)) 0
    return (h, p)

/-- `mp_nalloc` -/
def mpNalloc (fuel depth : ℕ) (h : Heap) (pool size : ℕ) : Option (Heap × ℕ) := do
  let max ← h.read (maxAt pool)
  if size ≤ max then allocSmall fuel (roomLast size) h pool size
  else mpAllocLarge (fun h size => mpAlloc fuel depth h pool size) h pool size

/-- `mp_calloc` -/
def mpCalloc (fuel depth : ℕ) (h : Heap) (pool size : ℕ) : Option (Heap × ℕ) := do
  let (h, p) ← mpAlloc fuel depth h pool size
  if p = 0 then return (h, 0)
  else
    let h ← h.memset p size
    return (h, p)

/-- `mp_memalign` -/
def mpMemalign (fuel depth : ℕ) (h : Heap) (pool size alignment : ℕ) : Option (Heap × ℕ) :=
  let (h, a) := h.posixMemalign alignment size
  if a = 0 then some (h, 0)
  else addLarge (fun h size => mpAlloc fuel depth h pool size) h pool a

/-- The loop of `mp_free` from the descriptor `l` on -/
def clearLarge (a : ℕ) : (fuel : ℕ) → Heap → (l : ℕ) → Option Heap
  | 0, _, _ => none
  | fuel + 1, h, l =>
    if l = 0 then some h
    else do
      let alloc ← h.read (allocAt l)
      if alloc = a then
        let h ← h.free alloc
        h.write (allocAt l) 0
      else
        let next ← h.read (nextLargeAt l)
        clearLarge a fuel h next

/-- `mp_free` -/
def mpFree (fuel : ℕ) (h : Heap) (pool a : ℕ) : Option Heap := do
  let large ← h.read (largeAt pool)
  clearLarge a fuel h large

/-- The first loop of `mp_reset_pool` and `mp_destory_pool`, which passes `NULL` over as `free` does
-/
def freeLarge : (fuel : ℕ) → Heap → (l : ℕ) → Option Heap
  | 0, _, _ => none
  | fuel + 1, h, l =>
    if l = 0 then some h
    else do
      let alloc ← h.read (allocAt l)
      let h ← h.free alloc
      let next ← h.read (nextLargeAt l)
      freeLarge fuel h next

/-- The second loop of `mp_reset_pool` -/
def resetPages : (fuel : ℕ) → Heap → (p : ℕ) → Option Heap
  | 0, _, _ => none
  | fuel + 1, h, p =>
    if p = 0 then some h
    else do
      let h ← h.write (lastAt p) (sizeT (p + sizeofNode))
      let next ← h.read (nextAt p)
      resetPages fuel h next

/-- `mp_reset_pool` -/
def mpResetPool (fuel : ℕ) (h : Heap) (pool : ℕ) : Option Heap := do
  let large ← h.read (largeAt pool)
  let h ← freeLarge fuel h large
  let h ← h.write (largeAt pool) 0
  resetPages fuel h (headAt pool)

/-- The second loop of `mp_destory_pool` -/
def freePages : (fuel : ℕ) → Heap → (p : ℕ) → Option Heap
  | 0, _, _ => none
  | fuel + 1, h, p =>
    if p = 0 then some h
    else do
      let next ← h.read (nextAt p)
      let h ← h.free p
      freePages fuel h next

/-- `mp_destory_pool` -/
def mpDestoryPool (fuel : ℕ) (h : Heap) (pool : ℕ) : Option Heap := do
  let large ← h.read (largeAt pool)
  let h ← freeLarge fuel h large
  let next ← h.read (nextAt (headAt pool))
  let h ← freePages fuel h next
  h.free pool

/-! ### The machine -/

/-- An operation on a pool, with what it returns, `0` when it returns nothing. The calls of
`mp_alloc` nest as deep as they need: each of them asks the allocator. -/
def call (fuel pool : ℕ) (h : Heap) : Act → Option (Heap × ℕ)
  | .alloc size => mpAlloc fuel (h.answers.length + 2) h pool size
  | .nalloc size => mpNalloc fuel (h.answers.length + 1) h pool size
  | .calloc size => mpCalloc fuel (h.answers.length + 2) h pool size
  | .memalign size alignment => mpMemalign fuel (h.answers.length + 1) h pool size alignment
  | .free a => (mpFree fuel h pool a).map (·, 0)
  | .reset => (mpResetPool fuel h pool).map (·, 0)

def step (fuel pool : ℕ) (h : Heap) (act : Act) : Option Heap :=
  (call fuel pool h act).map Prod.fst

end MmorpgServer.PagePool.Linked
