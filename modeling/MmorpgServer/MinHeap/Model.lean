import Mathlib.Data.List.Basic
import Mathlib.Data.Int.Basic
import Mathlib.Logic.Function.Basic
import Mathlib.Algebra.Ring.Int.Defs
import Mathlib.Algebra.Ring.Nat

/-!
# The heap timer of `minheap.cc`

A translation of `MinHeapTimer`. Nodes live in a memory of their own, where `new` takes
addresses that were never used and `delete` empties the cell, so that a use of a deleted node
is a fault. Every function that follows a pointer or indexes `_heap` is partial: `none` is a
fault, or a loop that was given too few rounds.

## Main definitions

* `shiftDown`, `shiftUp`, `delNode` — the private functions of the source
* `addTimer`, `delTimer`, `expireTimer` — the public ones
* `Act`, `step` — the machine: one timer object, with the clock read in each step, beside
  other timer objects that draw from the same `_count`
-/

namespace MmorpgServer.MinHeap

/-- The address of a node. -/
abbrev NodePtr := ℕ

/-- `TimerNode`; `cb` is `none` for `NULL` -/
structure TimerNode (H : Type) where
  idx : ℕ
  id : Int32
  expire : UInt32
  cb : Option H

/-- `MinHeapTimer`, with the static `_count` and the memory of the nodes -/
structure MinHeapTimer (H : Type) where
  heap : List NodePtr
  /-- `std::map<int, TimerNode*>` -/
  map : List (Int32 × NodePtr)
  count : Int32
  node : NodePtr → Option (TimerNode H)
  /-- the address that the next `new` returns -/
  fresh : NodePtr

variable {H : Type}

/-! ### `std::map` -/

/-- `insert` leaves an entry with the same key as it is. -/
def mapInsert (map : List (Int32 × NodePtr)) (id : Int32) (p : NodePtr) :
    List (Int32 × NodePtr) :=
  if (map.lookup id).isSome then map else (id, p) :: map

def mapErase (map : List (Int32 × NodePtr)) (id : Int32) : List (Int32 × NodePtr) :=
  map.filter fun e => e.1 ≠ id

/-! ### Accesses -/

/-- The value of an `int` expression. -/
def int (x : ℤ) : ℤ := x.bmod (2 ^ 32)

/-- The node at a position of `_heap`. -/
def nodeAt (t : MinHeapTimer H) (i : ℕ) : Option (TimerNode H) :=
  t.heap[i]?.bind t.node

/-- `_lessThan` -/
def lessThan (t : MinHeapTimer H) (lhs rhs : ℕ) : Option Bool := do
  let l ← nodeAt t lhs
  let r ← nodeAt t rhs
  return decide (l.expire < r.expire)

/-- `std::swap(_heap[i], _heap[j])` -/
def swap (t : MinHeapTimer H) (i j : ℕ) : Option (MinHeapTimer H) := do
  let p ← t.heap[i]?
  let q ← t.heap[j]?
  return { t with heap := (t.heap.set i q).set j p }

/-- `_heap[i]->idx = idx` -/
def setIdx (t : MinHeapTimer H) (i idx : ℕ) : Option (MinHeapTimer H) := do
  let p ← t.heap[i]?
  let n ← t.node p
  return { t with node := Function.update t.node p (some { n with idx := idx }) }

/-- The three statements with which both sifts exchange two nodes. -/
def exchange (t : MinHeapTimer H) (i j : ℕ) : Option (MinHeapTimer H) := do
  let t ← swap t i j
  let t ← setIdx t i i
  setIdx t j j

/-! ### `MinHeapTimer` -/

/-- The variable `min` of `_shiftDown`: the left child, or the right one if it lies before the
last position and the left one is not less. -/
def minChild (t : MinHeapTimer H) (last left : ℤ) : Option ℕ :=
  let right := left + 1
  if right < last then
    (lessThan t left.toNat right.toNat).map fun less => if less then left.toNat else right.toNat
  else some left.toNat

/-- The rounds of `_shiftDown`: the position where it ends, with the heap it leaves. -/
def shiftDownLoop : ℕ → MinHeapTimer H → ℕ → Option (MinHeapTimer H × ℕ)
  | 0, _, _ => none
  | fuel + 1, t, idx => do
    let last : ℤ := int (t.heap.length : ℤ) - 1
    let left : ℤ := int (2 * idx + 1)
    -- `left` is negative when the `int` overflowed
    if left ≥ last ∨ left < 0 then
      return (t, idx)
    let min ← minChild t last left
    if !(← lessThan t min idx) then
      return (t, idx)
    let t ← exchange t idx min
    shiftDownLoop fuel t min

/-- `_shiftDown`. The position grows in each round. -/
def shiftDown (t : MinHeapTimer H) (pos : ℕ) : Option (MinHeapTimer H × Bool) := do
  let (t, idx) ← shiftDownLoop (t.heap.length + 1) t pos
  return (t, decide (idx > pos))

def shiftUpLoop : ℕ → MinHeapTimer H → ℕ → Option (MinHeapTimer H)
  | 0, _, _ => none
  | fuel + 1, t, pos => do
    let parent := (pos - 1) / 2
    if parent = pos then
      return t
    if !(← lessThan t pos parent) then
      return t
    let t ← exchange t parent pos
    shiftUpLoop fuel t parent

/-- `_shiftUp`. The position shrinks in each round. -/
def shiftUp (t : MinHeapTimer H) (pos : ℕ) : Option (MinHeapTimer H) :=
  shiftUpLoop (pos + 1) t pos

/-- `_heap.pop_back()` -/
def popBack (t : MinHeapTimer H) : Option (MinHeapTimer H) :=
  if t.heap = [] then none else some { t with heap := t.heap.dropLast }

/-- The body of the `if` of `_delNode`: put the last node into a position. -/
def moveLast (t : MinHeapTimer H) (idx last : ℕ) : Option (MinHeapTimer H) := do
  let t ← swap t idx last
  let t ← setIdx t idx idx
  let (t, moved) ← shiftDown t idx
  if moved then some t else shiftUp t idx

/-- The `if` of `_delNode`. -/
def toLast (t : MinHeapTimer H) (idx last : ℕ) : Option (MinHeapTimer H) :=
  if idx ≠ last then moveLast t idx last else some t

/-- `_delNode` -/
def delNode (t : MinHeapTimer H) (p : NodePtr) : Option (MinHeapTimer H) := do
  let last := t.heap.length - 1
  let n ← t.node p
  let idx := n.idx
  let t ← toLast t idx last
  let t ← popBack t
  let n ← t.node p
  return { t with map := mapErase t.map n.id, node := Function.update t.node p none }

/-- `AddTimer`, with the value of `current_time()` -/
def addTimer (t : MinHeapTimer H) (currentTime expire : UInt32) (cb : Option H) :
    Option (MinHeapTimer H × Int32) := do
  let timeout := currentTime + expire
  let p := t.fresh
  let id := t.count + 1
  let n : TimerNode H := { idx := t.heap.length, id := id, expire := timeout, cb := cb }
  let t := { t with
    heap := t.heap ++ [p]
    count := id
    node := Function.update t.node p (some n)
    fresh := p + 1 }
  let t ← shiftUp t (t.heap.length - 1)
  return ({ t with map := mapInsert t.map id p }, id)

/-- `DelTimer` -/
def delTimer (t : MinHeapTimer H) (id : Int32) : Option (MinHeapTimer H × Bool) :=
  match t.map.lookup id with
  | none => some (t, false)
  | some p => do
    let t ← delNode t p
    return (t, true)

/-- The loop that prints `idx`, `id` and `expire` of every node: it reads them all. -/
def touch (t : MinHeapTimer H) : Option Unit :=
  if t.heap.all fun p => (t.node p).isSome then some () else none

/-- `if (node->cb) node->cb(node)` -/
def invoke (callback : H → NodePtr → MinHeapTimer H → Option (MinHeapTimer H))
    (t : MinHeapTimer H) (p : NodePtr) (n : TimerNode H) : Option (MinHeapTimer H) :=
  match n.cb with
  | some cb => callback cb p t
  | none => some t

/-- The loop of `ExpireTimer`, with what the callbacks do to the timer. The nodes that fired
are returned as they were passed to their callbacks. -/
def expireLoop (callback : H → NodePtr → MinHeapTimer H → Option (MinHeapTimer H))
    (now : UInt32) : ℕ → MinHeapTimer H → Option (MinHeapTimer H × List (TimerNode H))
  | 0, _ => none
  | fuel + 1, t => do
    let p ← t.heap[0]?
    let n ← t.node p
    if now < n.expire then
      return (t, [])
    touch t
    let t ← invoke callback t p n
    let t ← delNode t p
    if t.heap = [] then
      return (t, [n])
    let (t, fired) ← expireLoop callback now fuel t
    return (t, n :: fired)

/-- `ExpireTimer` with at most `fuel` rounds of its loop -/
def expireTimer (callback : H → NodePtr → MinHeapTimer H → Option (MinHeapTimer H))
    (fuel : ℕ) (currentTime : UInt32) (t : MinHeapTimer H) :
    Option (MinHeapTimer H × List (TimerNode H)) :=
  if t.heap = [] then some (t, []) else expireLoop callback currentTime fuel t

/-- The constructor. The static `_count` is what other timers left. -/
def MinHeapTimer.new (count : Int32) : MinHeapTimer H where
  heap := []
  map := []
  count := count
  node := fun _ => none
  fresh := 0

/-! ### The machine -/

inductive Act (H : Type) where
  | add (currentTime expire : UInt32) (cb : Option H)
  | del (id : Int32)
  /-- `ExpireTimer` with callbacks that do not touch the timer: a round for every node -/
  | expire (currentTime : UInt32)
  /-- another `MinHeapTimer` adds a timer -/
  | elsewhere

/-- The step creates a timer. -/
def Act.creates : Act H → Bool
  | .add .. => true
  | .elsewhere => true
  | _ => false

def step (t : MinHeapTimer H) : Act H → Option (MinHeapTimer H)
  | .add currentTime expire cb => (addTimer t currentTime expire cb).map Prod.fst
  | .del id => (delTimer t id).map Prod.fst
  | .expire currentTime =>
    (expireTimer (fun _ _ t => some t) t.heap.length currentTime t).map Prod.fst
  | .elsewhere => some { t with count := t.count + 1 }

end MmorpgServer.MinHeap
