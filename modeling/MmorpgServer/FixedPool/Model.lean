import MmorpgServer.Lib.Bump
import MmorpgServer.Lib.ByteMemory

/-!
# The block allocator of `page_pool.cpp`

A translation of `CAllocator` for a 64-bit target. The free blocks are a list that is threaded
through the blocks themselves: the first eight bytes of a free block hold the address of the next
one. An address is a number below `2 ^ 64` and `0` is `NULL`. What `malloc` returns is an argument;
it is memory that was not given out before. A link that lies elsewhere than in memory of `malloc`
cannot be read or written: such a call is a fault, and has no result.

## Main definitions

* `CAllocator`, `Sys` — the allocator, the memory, and what was given out
* `Mapped` — where a link can be read and written
* `allocate`, `deallocate` — the functions of the source
* `Act`, `Allowed`, `step` — the machine
-/

namespace MmorpgServer.FixedPool

open Bump ByteMemory

/-! ### Data -/

/-- The value of an expression of type `size_t`, or of a pointer. -/
def sizeT (x : ℕ) : ℕ := x % 2 ^ 64

/-- `sizeof(obj)` -/
def sizeofObj : ℕ := 8

/-- `CAllocator`; the count is an `int` that is not negative. -/
structure CAllocator where
  freePosi : ℕ
  trunkCount : ℕ

/-- An allocator and its environment. -/
structure Sys where
  pool : CAllocator
  memory : Memory
  /-- what `malloc` has given out -/
  chunks : List Interval
  /-- the blocks that are handed out -/
  live : List ℕ

/-- An allocator without memory. -/
def start (trunkCount : ℕ) (memory : Memory) : Sys := ⟨⟨0, trunkCount⟩, memory, [], []⟩

/-- The link at `p` lies in memory that `malloc` has given out. -/
def Mapped (chunks : List Interval) (p : ℕ) : Prop :=
  ∃ c ∈ chunks, c.lo ≤ p ∧ p + sizeofObj ≤ c.lo + c.len

instance (chunks : List Interval) (p : ℕ) : Decidable (Mapped chunks p) :=
  inferInstanceAs (Decidable (∃ c ∈ chunks, _))

/-- `p->next` -/
def next (s : Sys) (p : ℕ) : Option ℕ :=
  if Mapped s.chunks p then some (load s.memory sizeofObj p) else none

/-- `p->next = q` -/
def setNext (s : Sys) (p q : ℕ) : Option Sys :=
  if Mapped s.chunks p then some { s with memory := store s.memory sizeofObj p q } else none

/-! ### Functions -/

/-- The loop of `allocate` with `n` rounds to go, and where `tmplink` is behind it -/
def linkCells (size : ℕ) : (n : ℕ) → Sys → (tmplink : ℕ) → Option (Sys × ℕ)
  | 0, s, tmplink => some (s, tmplink)
  | n + 1, s, tmplink => do
    let s ← setNext s tmplink (sizeT (tmplink + size))
    let tmplink ← next s tmplink
    linkCells size n s tmplink

/-- `allocate` with an empty free list: a chunk of memory, cut into linked blocks -/
def refill (s : Sys) (size answer : ℕ) : Option Sys := do
  let realsize := sizeT (s.pool.trunkCount * size)
  let s := { s with
    pool.freePosi := answer
    chunks := ⟨answer, Nat.max realsize 1⟩ :: s.chunks }
  let (s, tmplink) ← linkCells size (s.pool.trunkCount - 1) s answer
  setNext s tmplink 0

/-- `allocate`; `answer` is what `malloc` returns if it is called. -/
def allocate (s : Sys) (size answer : ℕ) : Option Sys := do
  let s ← (if s.pool.freePosi = 0 then refill s size answer else some s)
  let tmplink := s.pool.freePosi
  let q ← next s tmplink
  some { s with pool.freePosi := q, live := tmplink :: s.live }

/-- `deallocate` -/
def deallocate (s : Sys) (phead : ℕ) : Option Sys := do
  let s ← setNext s phead s.pool.freePosi
  some { s with pool.freePosi := phead, live := s.live.erase phead }

/-! ### The machine -/

/-- What the users of an allocator do. -/
inductive Act where
  | allocate (answer : ℕ)
  | deallocate (phead : ℕ)
  /-- a byte of a block is written by the one who has it -/
  | write (a : ℕ) (byte : UInt8)

/-- Memory that nobody uses, at least one byte of it. -/
def Fresh (chunks : List Interval) (size a : ℕ) : Prop :=
  0 < a ∧ a + Nat.max size 1 ≤ 2 ^ 64 ∧ ∀ r ∈ chunks, Apart r ⟨a, Nat.max size 1⟩

instance (chunks : List Interval) (size a : ℕ) : Decidable (Fresh chunks size a) :=
  inferInstanceAs (Decidable (_ ∧ _ ∧ _))

/-- What `malloc` returns is fresh, and only blocks that are handed out are given back or
written. -/
def Allowed (size : ℕ) (s : Sys) : Act → Prop
  | .allocate answer =>
    s.pool.freePosi = 0 → Fresh s.chunks (sizeT (s.pool.trunkCount * size)) answer
  | .deallocate phead => phead ∈ s.live
  | .write a _ => ∃ p ∈ s.live, p ≤ a ∧ a < p + size

instance (size : ℕ) (s : Sys) : (act : Act) → Decidable (Allowed size s act)
  | .allocate _ => inferInstanceAs (Decidable (_ → _))
  | .deallocate _ => inferInstanceAs (Decidable (_ ∈ _))
  | .write _ _ => inferInstanceAs (Decidable (∃ p ∈ s.live, _))

/-- What an act does with blocks of one size -/
def perform (size : ℕ) (s : Sys) : Act → Option Sys
  | .allocate answer => allocate s size answer
  | .deallocate phead => deallocate s phead
  | .write a byte => some { s with memory := Function.update s.memory a byte }

/-- A step with blocks of one size -/
def step (size : ℕ) (s : Sys) (act : Act) : Option Sys :=
  if Allowed size s act then perform size s act else none

end MmorpgServer.FixedPool
