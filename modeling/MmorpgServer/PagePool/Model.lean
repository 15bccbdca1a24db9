import MmorpgServer.Lib.Bump
import Mathlib.Data.Nat.Bitwise

/-!
# The page pool of `ngx_page_pool.h`

A translation of `mp_pool_s` for a 64-bit target. An address is a number below `2 ^ 64` and
`0` is `NULL`; address arithmetic is modulo `2 ^ 64`. The page chain is a list, the head
first, together with what the `next` field of its last page holds; a chain that is followed
beyond its last page without meeting `NULL` is a fault. The descriptors of large blocks are
records of their own. `malloc` and `posix_memalign` return what the environment proposes if
it is fresh memory, and fail otherwise.

Pages and descriptors are not in the memory of the blocks here. `Linked` has the same functions on
memory, with the stores into headers and descriptors and the bytes that `mp_calloc` clears. A run
there is one of this model while no small request is rounded up beyond the end of its page.

Functions of the source return `none` for a fault and for a recursion that is too deep.

## Main definitions

* `MpNode`, `MpLarge`, `MpPool`, `Sys` — the data
* `mpCreatePool`, `mpAlloc`, `mpNalloc`, `mpCalloc`, `mpMemalign`, `mpFree`, `mpResetPool`
* `Act`, `step` — the machine of one pool
-/

namespace MmorpgServer.PagePool

open Bump

/-! ### Constants -/

def mpAlignment : ℕ := 32
def mpPageSize : ℕ := 4096
def mpMaxAllocFromPool : ℕ := mpPageSize - 1
def sizeofPool : ℕ := 24
def sizeofNode : ℕ := 32
def sizeofLarge : ℕ := 16

/-! ### `size_t` -/

/-- The value of a `size_t` expression. -/
def sizeT (x : ℕ) : ℕ := x % 2 ^ 64

/-- `(size_t)(a - b)` for two pointers -/
def ptrDiff (a b : ℕ) : ℕ := sizeT (a + 2 ^ 64 - b)

/-- `mp_align_ptr` with `MP_ALIGNMENT` -/
def mpAlignPtr (p : ℕ) : ℕ := sizeT (p + (mpAlignment - 1)) / mpAlignment * mpAlignment

/-! ### Data -/

/-- `mp_node_s` at an address; the field `next` is the order of the chain -/
structure MpNode where
  addr : ℕ
  last : ℕ
  end_ : ℕ
  failed : ℕ
  deriving DecidableEq

/-- `mp_large_s` at an address; the field `next` is the order of the list -/
structure MpLarge where
  addr : ℕ
  alloc : ℕ
  deriving DecidableEq

/-- `mp_pool_s` at an address, with the page chain -/
structure MpPool where
  addr : ℕ
  max : ℕ
  current : ℕ
  large : List MpLarge
  pages : List MpNode
  /-- the field `next` of the last page -/
  rest : ℕ

/-- A pool and its environment. -/
structure Sys where
  pool : MpPool
  /-- the memory that is allocated -/
  live : List Interval
  /-- the addresses that the allocator will propose, `0` for a failure -/
  answers : List ℕ
  /-- the small blocks handed out since the last reset -/
  handed : List Interval

/-! ### The system allocator -/

/-- A proposal is taken if it is memory that nobody uses, at least one byte of it, in the lower
half of the address space. -/
def Fresh (live : List Interval) (alignment size a : ℕ) : Prop :=
  0 < a ∧ alignment ∣ a ∧ a + Nat.max size 1 ≤ 2 ^ 63 ∧
    ∀ r ∈ live, Apart r ⟨a, Nat.max size 1⟩

instance (live : List Interval) (alignment size a : ℕ) : Decidable (Fresh live alignment size a) :=
  inferInstanceAs (Decidable (_ ∧ _ ∧ _ ∧ _))

/-- Ask the allocator; `0` is a failure. -/
def request (s : Sys) (alignment size : ℕ) : Sys × ℕ :=
  match s.answers with
  | [] => (s, 0)
  | a :: answers =>
    if Fresh s.live alignment size a then
      ({ s with live := ⟨a, Nat.max size 1⟩ :: s.live, answers := answers }, a)
    else ({ s with answers := answers }, 0)

/-- `malloc` -/
def malloc (s : Sys) (size : ℕ) : Sys × ℕ := request s 16 size

/-- `posix_memalign`, which refuses an alignment that is not a power of two and a multiple of
the size of a pointer -/
def posixMemalign (s : Sys) (alignment size : ℕ) : Sys × ℕ :=
  if alignment &&& (alignment - 1) = 0 ∧ 8 ∣ alignment ∧ 0 < alignment then
    request s alignment size
  else (s, 0)

/-- `free`; to free what is not allocated is a fault -/
def free (s : Sys) (a : ℕ) : Option Sys :=
  if a = 0 then some s
  else if a ∈ s.live.map (·.lo) then some { s with live := s.live.filter fun r => r.lo ≠ a }
  else none

/-! ### Small blocks -/

/-- The test of `mp_alloc` whether a page has room, and where. -/
def fitAligned (size : ℕ) (p : MpNode) : Option ℕ :=
  let m := mpAlignPtr p.last
  if ptrDiff p.end_ m ≥ size then some m else none

/-- The test of `mp_nalloc`. -/
def fitLast (size : ℕ) (p : MpNode) : Option ℕ :=
  let m := p.last
  if ptrDiff p.end_ m ≥ size then some m else none

/-- The loop over the pages: the first one that passes the test takes the block. -/
def scanPages (fit : MpNode → Option ℕ) (size : ℕ) : List MpNode → Option (List MpNode × ℕ)
  | [] => none
  | p :: pages =>
    match fit p with
    | some m => some ({ p with last := sizeT (m + size) } :: pages, m)
    | none => (scanPages fit size pages).map fun r => (p :: r.1, r.2)

/-- The pages before `pool->current`. -/
def beforeCurrent (pool : MpPool) : List MpNode :=
  pool.pages.takeWhile fun p => p.addr ≠ pool.current

/-- The pages from `pool->current` on. -/
def fromCurrent (pool : MpPool) : List MpNode :=
  pool.pages.dropWhile fun p => p.addr ≠ pool.current

/-- The loop of `mp_alloc_block` that counts a failure on all pages but the last one. -/
def countFailed : List MpNode → ℕ → List MpNode × ℕ
  | p :: q :: pages, current =>
    let r := countFailed (q :: pages) (if p.failed > 4 then q.addr else current)
    ({ p with failed := p.failed + 1 } :: r.1, r.2)
  | pages, current => (pages, current)

/-- `mp_alloc_block` -/
def mpAllocBlock (s : Sys) (size : ℕ) : Option (Sys × ℕ) := do
  let head ← s.pool.pages.head?
  let psize := ptrDiff head.end_ head.addr
  let (s, node) := posixMemalign s mpAlignment psize
  if node = 0 then
    return (s, 0)
  let m := mpAlignPtr (sizeT (node + sizeofNode))
  let new : MpNode :=
    { addr := node, last := sizeT (m + size), end_ := sizeT (node + psize), failed := 0 }
  -- the loop stops at the last page, behind which the new one is linked
  let counted := countFailed (fromCurrent s.pool) s.pool.current
  let pool := { s.pool with
    pages := beforeCurrent s.pool ++ counted.1 ++ [new]
    current := if counted.2 = 0 then node else counted.2
    rest := 0 }
  return ({ s with pool := pool, handed := ⟨m, size⟩ :: s.handed }, m)

/-- The small branch of `mp_alloc` and `mp_nalloc`. -/
def allocSmall (fit : MpNode → Option ℕ) (s : Sys) (size : ℕ) : Option (Sys × ℕ) :=
  match fromCurrent s.pool with
  | [] => none
  | p :: pages =>
    match scanPages fit size (p :: pages) with
    | some (pages, m) =>
      some ({ s with
        pool := { s.pool with pages := beforeCurrent s.pool ++ pages }
        handed := ⟨m, size⟩ :: s.handed }, m)
    | none => if s.pool.rest ≠ 0 then none else mpAllocBlock s size

/-! ### Large blocks -/

/-- The loop of `mp_alloc_large` over the first descriptors: put the block into one that is
empty. -/
def reuseLarge (a : ℕ) : ℕ → List MpLarge → Option (List MpLarge)
  | n + 1, l :: large =>
    if l.alloc = 0 then some ({ l with alloc := a } :: large)
    else (reuseLarge a n large).map (l :: ·)
  | _, _ => none

/-- Make a descriptor for the block `a`, or free the block; `mp_alloc` is an argument. -/
def addLarge (alloc : Sys → ℕ → Option (Sys × ℕ)) (s : Sys) (a : ℕ) : Option (Sys × ℕ) := do
  let (s, large) ← alloc s sizeofLarge
  if large = 0 then
    let s ← free s a
    return (s, 0)
  return ({ s with pool := { s.pool with large := ⟨large, a⟩ :: s.pool.large } }, a)

/-- `mp_alloc_large`. Its loop looks at five descriptors. -/
def mpAllocLarge (alloc : Sys → ℕ → Option (Sys × ℕ)) (s : Sys) (size : ℕ) : Option (Sys × ℕ) :=
  let (s, a) := malloc s size
  if a = 0 then some (s, 0)
  else
    match reuseLarge a 5 s.pool.large with
    | some large => some ({ s with pool := { s.pool with large := large } }, a)
    | none => addLarge alloc s a

/-- `mp_alloc`, with at most `fuel` nested calls -/
def mpAlloc : ℕ → Sys → ℕ → Option (Sys × ℕ)
  | 0, _, _ => none
  | fuel + 1, s, size =>
    if size = 0 then some (s, 0)
    else if size ≤ s.pool.max then allocSmall (fitAligned size) s size
    else mpAllocLarge (mpAlloc fuel) s size

/-! ### The other functions -/

/-- `mp_create_pool`. `next` is what the memory holds where `head->next` will be. -/
def mpCreatePool (answers : List ℕ) (next size : ℕ) : Option Sys :=
  let pool : MpPool := { addr := 0, max := 0, current := 0, large := [], pages := [], rest := 0 }
  let (s, p) := posixMemalign { pool := pool, live := [], answers := answers, handed := [] }
    mpAlignment (sizeT (size + sizeofPool + sizeofNode))
  if p = 0 then none
  else
    let last := sizeT (p + sizeofPool + sizeofNode)
    some { s with pool := {
      addr := p
      max := if size < mpMaxAllocFromPool then size else mpMaxAllocFromPool
      current := p + sizeofPool
      large := []
      pages := [{ addr := p + sizeofPool, last := last, end_ := sizeT (last + size), failed := 0 }]
      rest := next } }

/-- `mp_nalloc` -/
def mpNalloc (fuel : ℕ) (s : Sys) (size : ℕ) : Option (Sys × ℕ) :=
  if size ≤ s.pool.max then allocSmall (fitLast size) s size
  else mpAllocLarge (mpAlloc fuel) s size

/-- `mp_calloc`. The block has no contents here; it is cleared in `Linked.mpCalloc`. -/
def mpCalloc (fuel : ℕ) (s : Sys) (size : ℕ) : Option (Sys × ℕ) := mpAlloc fuel s size

/-- `mp_memalign` -/
def mpMemalign (fuel : ℕ) (s : Sys) (size alignment : ℕ) : Option (Sys × ℕ) :=
  let (s, a) := posixMemalign s alignment size
  if a = 0 then some (s, 0) else addLarge (mpAlloc fuel) s a

/-- The loop of `mp_free`: empty the first descriptor of the block. -/
def clearLarge (a : ℕ) : List MpLarge → Option (List MpLarge)
  | [] => none
  | l :: large =>
    if l.alloc = a then some ({ l with alloc := 0 } :: large) else (clearLarge a large).map (l :: ·)

/-- `mp_free` -/
def mpFree (s : Sys) (a : ℕ) : Option Sys :=
  match clearLarge a s.pool.large with
  | none => some s
  | some large => do
    let s ← free s a
    return { s with pool := { s.pool with large := large } }

/-- `mp_reset_pool` -/
def mpResetPool (s : Sys) : Option Sys := do
  let s ← s.pool.large.foldlM (fun s l => free s l.alloc) s
  if s.pool.rest ≠ 0 then none
  return { s with
    pool := { s.pool with
      large := []
      pages := s.pool.pages.map fun h => { h with last := sizeT (h.addr + sizeofNode) } }
    handed := [] }

/-! ### The machine -/

/-- An operation. A call of `mp_alloc` for a descriptor is the only one that is nested. -/
inductive Act where
  | alloc (size : ℕ)
  | nalloc (size : ℕ)
  | calloc (size : ℕ)
  | memalign (size alignment : ℕ)
  | free (a : ℕ)
  | reset

def step (s : Sys) : Act → Option Sys
  | .alloc size => (mpAlloc 2 s size).map Prod.fst
  | .nalloc size => (mpNalloc 1 s size).map Prod.fst
  | .calloc size => (mpCalloc 2 s size).map Prod.fst
  | .memalign size alignment => (mpMemalign 1 s size alignment).map Prod.fst
  | .free a => mpFree s a
  | .reset => mpResetPool s

end MmorpgServer.PagePool
