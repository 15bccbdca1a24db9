import Mathlib.Data.Int.Basic
import Mathlib.Data.List.Basic
import Mathlib.Logic.Function.Basic

/-!
# The skip list of `skiplist.c`

A translation of `zskiplist` on a memory of nodes. `malloc` takes addresses that were never
used and `free` empties the cell, so that a use of a freed node, a `NULL` that is followed
and an index beyond a node's `level` array are faults: every function is partial, and `none`
is a fault. The outcome of `zslRandomLevel` is an argument of `zslInsert`. The `int` in which
`zskiplist` counts its nodes is an integer without a bound, so runs that hold `2 ^ 31` nodes are
not those of the source.

## Main definitions

* `zslCreate`, `zslInsert`, `zslMin`, `zslDeleteHead`, `zslDelete`, `zslFree`, `zslPrint`
* `Act`, `step` — the machine of one list
-/

namespace MmorpgServer.SkipList

def zskiplistMaxlevel : ℕ := 32

/-- The address of a node. -/
abbrev NodePtr := ℕ

/-- `zskiplistNode`; `level` holds the `forward` pointers, as many as the node was created
with -/
structure ZskiplistNode (H : Type) where
  score : UInt64
  handler : H
  level : List (Option NodePtr)

/-- `zskiplist`, with the memory of the nodes -/
structure Zskiplist (H : Type) where
  header : NodePtr
  /-- an `int` that does not overflow -/
  length : ℤ
  level : ℕ
  node : NodePtr → Option (ZskiplistNode H)
  /-- the address that the next `malloc` returns -/
  fresh : NodePtr

/-- The array `update`. -/
abbrev Update := ℕ → Option NodePtr

variable {H : Type}

/-! ### Accesses -/

/-- `p->level[i].forward` -/
def forward (z : Zskiplist H) (i : ℕ) (p : NodePtr) : Option (Option NodePtr) :=
  (z.node p).bind fun n => n.level[i]?

/-- `p->level[i].forward = f` -/
def setForward (z : Zskiplist H) (p : NodePtr) (i : ℕ) (f : Option NodePtr) :
    Option (Zskiplist H) :=
  (z.node p).bind fun n =>
    if i < n.level.length then
      some { z with node := Function.update z.node p (some { n with level := n.level.set i f }) }
    else none

/-- `p->score` -/
def score (z : Zskiplist H) (p : NodePtr) : Option UInt64 := (z.node p).map (·.score)

/-! ### The functions of the source -/

/-- `zslCreateNode`. The pointers that `malloc` leaves undefined are written by the caller
before they are read. -/
def zslCreateNode (z : Zskiplist H) (level : ℕ) (score : UInt64) (func : H) :
    Zskiplist H × NodePtr :=
  ({ z with
      node := Function.update z.node z.fresh (some ⟨score, func, List.replicate level none⟩)
      fresh := z.fresh + 1 }, z.fresh)

/-- `zslCreate` -/
def zslCreate (defaultHandler : H) : Zskiplist H where
  header := 0
  length := 0
  level := 1
  node := Function.update (fun _ => none) 0
    (some ⟨0, defaultHandler, List.replicate zskiplistMaxlevel none⟩)
  fresh := 1

/-- The inner `while` loop of a search on one level. `s` is the score that is searched, `none`
when it is read from a freed node; a level has no more nodes than were ever allocated. -/
def advance (z : Zskiplist H) (s : Option UInt64) (i : ℕ) : ℕ → NodePtr → Option NodePtr
  | 0, _ => none
  | fuel + 1, x => do
    match ← forward z i x with
    | none => return x
    | some y =>
      if (← score z y) < (← s) then
        advance z s i fuel y
      else
        return x

/-- The search of `zslInsert` and `zslDelete`, from level `i - 1` down to `0`. -/
def search (z : Zskiplist H) (s : Option UInt64) : ℕ → NodePtr → Update →
    Option (NodePtr × Update)
  | 0, x, update => some (x, update)
  | i + 1, x, update => do
    let x ← advance z s i z.fresh x
    search z s i x (Function.update update i (some x))

/-- The two statements that link `x` into level `i`. -/
def linkAt (x : NodePtr) (update : Update) (z : Zskiplist H) (i : ℕ) : Option (Zskiplist H) := do
  let u ← update i
  let f ← forward z i u
  let z ← setForward z x i f
  setForward z u i (some x)

/-- `zslInsert`, with the outcome of `zslRandomLevel` -/
def zslInsert (z : Zskiplist H) (s : UInt64) (func : H) (level : ℕ) :
    Option (Zskiplist H × NodePtr) := do
  let (_, update) ← search z (some s) z.level z.header fun _ => none
  let update : Update := fun i =>
    -- levels that were not in use start at the header
    if z.level ≤ i ∧ i < level then some z.header else update i
  let (z, x) := zslCreateNode { z with level := max z.level level } level s func
  let z ← (List.range level).foldlM (linkAt x update) z
  return ({ z with length := z.length + 1 }, x)

/-- `zslMin` -/
def zslMin (z : Zskiplist H) : Option (Option NodePtr) := forward z 0 z.header

/-- Unlink `x` from level `i` if it follows `u` there. -/
def unlinkAt (x u : NodePtr) (z : Zskiplist H) (i : ℕ) : Option (Zskiplist H) := do
  let f ← forward z i u
  if f = some x then
    let g ← forward z i x
    setForward z u i g
  else
    return z

/-- The `while` loop that lowers `zsl->level`. -/
def shrink (z : Zskiplist H) : ℕ → Option ℕ
  | level + 2 => do
    match ← forward z (level + 1) z.header with
    | none => shrink z (level + 1)
    | some _ => return level + 2
  | level => some level

/-- The common end of `zslDeleteHead` and `zslDeleteNode`. -/
def dropLevels (z : Zskiplist H) : Option (Zskiplist H) := do
  let level ← shrink z z.level
  return { z with level := level, length := z.length - 1 }

/-- `zslDeleteHead`. It does not free the node. -/
def zslDeleteHead (z : Zskiplist H) : Option (Zskiplist H) := do
  match ← zslMin z with
  | none => return z
  | some x =>
    let z ← (List.range z.level).reverse.foldlM (unlinkAt x z.header) z
    dropLevels z

/-- `zslDeleteNode` -/
def zslDeleteNode (z : Zskiplist H) (x : NodePtr) (update : Update) : Option (Zskiplist H) := do
  let z ← (List.range z.level).foldlM (fun z i => do unlinkAt x (← update i) z i) z
  dropLevels z

/-- `free` -/
def free (z : Zskiplist H) (x : NodePtr) : Zskiplist H :=
  { z with node := Function.update z.node x none }

/-- `zslDelete`. The score of `zn` is read only when there is a node to compare it with. -/
def zslDelete (z : Zskiplist H) (zn : NodePtr) : Option (Zskiplist H) := do
  let s := score z zn
  let (x, update) ← search z s z.level z.header fun _ => none
  match ← forward z 0 x with
  | none => return z
  | some x =>
    if (← s) = (← score z x) then
      let z ← zslDeleteNode z x update
      return free z x
    else
      return z

/-- The loop of `zslFree`: `next` is read before the node is freed. -/
def freeLoop : ℕ → Zskiplist H → Option NodePtr → Option (Zskiplist H)
  | _, z, none => some z
  | 0, _, some _ => none
  | fuel + 1, z, some node => do
    let next ← forward z 0 node
    freeLoop fuel (free z node) next

/-- `zslFree`, up to the `free` of the record of the list itself -/
def zslFree (z : Zskiplist H) : Option (Zskiplist H) := do
  let node ← forward z 0 z.header
  freeLoop z.fresh (free z z.header) node

/-- The loop of `zslPrint`, standing at `x` with `n` nodes to go. -/
def printLoop (z : Zskiplist H) : ℕ → Option NodePtr → Option (List UInt64)
  | 0, _ => some []
  | n + 1, x => do
    let x ← x
    let s ← score z x
    let rest ← printLoop z n (← forward z 0 x)
    return s :: rest

/-- `zslPrint`: the scores it prints -/
def zslPrint (z : Zskiplist H) : Option (List UInt64) := do
  printLoop z z.length.toNat (← forward z 0 z.header)

/-! ### The machine -/

inductive Act (H : Type) where
  /-- `zslInsert`, with the outcome of `zslRandomLevel` -/
  | insert (s : UInt64) (func : H) (level : ℕ)
  | deleteHead
  | delete (zn : NodePtr)

def step (z : Zskiplist H) : Act H → Option (Zskiplist H)
  | .insert s func level =>
    if 1 ≤ level ∧ level ≤ zskiplistMaxlevel then (zslInsert z s func level).map Prod.fst
    else none
  | .deleteHead => zslDeleteHead z
  | .delete zn => zslDelete z zn

end MmorpgServer.SkipList
