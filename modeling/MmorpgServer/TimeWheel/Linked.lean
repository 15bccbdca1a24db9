import MmorpgServer.TimeWheel.Model

/-!
# The lists of `timerwheel.c` in memory

The same functions once more, on the cells themselves: a list is the `next` field of the node
that is embedded in it and a pointer to the last node, which is the embedded one when the list
is empty. `malloc` returns a cell with any contents, and `free` takes it away, so that a use of
a freed node, a second `free` and an index beyond the arrays are faults: every function is
partial, and `none` is a fault.

## Main definitions

* `Addr` — the node of an allocation, or the one embedded in a list
* `linkClear`, `link`, `addNode`, `moveList`, `timerShift`, `takeDue`, `clearTimer` — the
  functions of the source
* `State`, `Act`, `step` — the machine, with the callbacks between the accesses of
  `dispatch_list`
-/

namespace MmorpgServer.TimeWheel.Linked

/-! ### Data -/

/-- `struct timer_node` -/
structure TimerNode (H : Type*) extends TimeWheel.TimerNode H where
  next : Option NodeId

/-- The address of a `struct timer_node`. -/
inductive Addr where
  /-- `&list->head` -/
  | head (list : Slot)
  | node (n : NodeId)
  deriving DecidableEq

/-- `struct link_list`; of its `head`, only the field `next` is used -/
structure LinkList where
  next : Option NodeId
  tail : Addr

/-- `struct timer`, with the memory its nodes live in -/
structure STimer (H : Type*) where
  list : Slot → LinkList
  time : UInt32
  node : NodeId → Option (TimerNode H)

variable {H : Type*}

/-! ### Accesses -/

/-- The index of the list is within the bounds of its array. -/
def InBounds : Slot → Prop
  | .near i => i < timeNear
  | .level level idx => level < 4 ∧ idx < timeLevel

instance : DecidablePred InBounds
  | .near i => inferInstanceAs (Decidable (i < timeNear))
  | .level level idx => inferInstanceAs (Decidable (level < 4 ∧ idx < timeLevel))

/-- `p->next = n` -/
def setNext (T : STimer H) (n : Option NodeId) : Addr → Option (STimer H)
  | .head list =>
    some { T with list := Function.update T.list list { T.list list with next := n } }
  | .node p => do
    let v ← T.node p
    return { T with node := Function.update T.node p (some { v with next := n }) }

/-- `free` -/
def free (T : STimer H) (n : NodeId) : Option (STimer H) := do
  let _ ← T.node n
  return { T with node := Function.update T.node n none }

/-! ### Lists -/

/-- `link_clear` -/
def linkClear (T : STimer H) (list : Slot) : Option NodeId × STimer H :=
  ((T.list list).next, { T with list := Function.update T.list list ⟨none, .head list⟩ })

/-- `link` -/
def link (T : STimer H) (list : Slot) (n : NodeId) : Option (STimer H) := do
  let T ← setNext T (some n) (T.list list).tail
  let T := { T with list := Function.update T.list list { T.list list with tail := .node n } }
  setNext T none (.node n)

/-- `add_node` -/
def addNode (T : STimer H) (n : NodeId) : Option (STimer H) := do
  let v ← T.node n
  let time := v.expire
  let currentTime := T.time
  let msec := time - currentTime
  if msec < UInt32.ofNat timeNear then
    link T (.near (time &&& timeNearMask).toNat) n
  else if msec < UInt32.ofNat (1 <<< levelShift 1) then
    link T (.level 0 (time >>> UInt32.ofNat (levelShift 0) &&& timeLevelMask).toNat) n
  else if msec < UInt32.ofNat (1 <<< levelShift 2) then
    link T (.level 1 (time >>> UInt32.ofNat (levelShift 1) &&& timeLevelMask).toNat) n
  else if msec < UInt32.ofNat (1 <<< levelShift 3) then
    link T (.level 2 (time >>> UInt32.ofNat (levelShift 2) &&& timeLevelMask).toNat) n
  else
    link T (.level 3 (time >>> UInt32.ofNat (levelShift 3) &&& timeLevelMask).toNat) n

/-- The loop of `move_list`. -/
def moveLoop : (fuel : ℕ) → STimer H → Option NodeId → Option (STimer H)
  | _, T, none => some T
  | 0, _, some _ => none
  | fuel + 1, T, some current => do
    let v ← T.node current
    let T ← addNode T current
    moveLoop fuel T v.next

/-- `move_list` -/
def moveList (fuel : ℕ) (T : STimer H) (level idx : ℕ) : Option (STimer H) :=
  if InBounds (.level level idx) then
    let r := linkClear T (.level level idx)
    moveLoop fuel r.2 r.1
  else none

/-- `timer_shift` -/
def timerShift (fuel : ℕ) (T : STimer H) : Option (STimer H) :=
  let ct := T.time + 1
  let T := { T with time := ct }
  if ct = 0 then
    moveList fuel T 3 0
  else
    match shiftLoop ct 5 timeNear (ct >>> UInt32.ofNat timeNearShift) 0 with
    | some (some (i, idx)) => moveList fuel T i idx
    | some none => some T
    | none => none

/-- One evaluation of the condition of the loop in `timer_execute`. -/
def takeDue (T : STimer H) : Option (NodeId × STimer H) :=
  let idx := (T.time &&& timeNearMask).toNat
  match linkClear T (.near idx) with
  | (none, _) => none
  | (some current, T') => some (current, T')

/-- The loop of `clear_timer` over the nodes of a list, with the nodes it frees. -/
def freeLoop : (fuel : ℕ) → STimer H → Option NodeId → Option (List NodeId × STimer H)
  | _, T, none => some ([], T)
  | 0, _, some _ => none
  | fuel + 1, T, some temp => do
    let v ← T.node temp
    let T ← free T temp
    let (freed, T) ← freeLoop fuel T v.next
    return (temp :: freed, T)

/-- The loops of `clear_timer` over lists. -/
def clearLists (fuel : ℕ) : List Slot → STimer H → Option (List NodeId × STimer H)
  | [], T => some ([], T)
  | list :: lists, T => do
    let (freed, T) ← freeLoop fuel T (T.list list).next
    let (rest, T) ← clearLists fuel lists (linkClear T list).2
    return (freed ++ rest, T)

/-- `clear_timer` -/
def clearTimer (fuel : ℕ) (T : STimer H) : Option (List NodeId × STimer H) :=
  clearLists fuel allSlots T

/-! ### The machine -/

/-- Where the ticker is: outside `timer_update`, or in `dispatch_list` with the lock released,
at the head of its loop or in the callback of the node `temp`. -/
inductive Ticker where
  | idle
  | dispatching (phase : Phase) (current : Option NodeId)
  | calling (phase : Phase) (temp : NodeId) (current : Option NodeId)
  deriving DecidableEq

/-- The state between critical sections. -/
structure State (H : Type*) where
  wheel : STimer H
  ticker : Ticker
  /-- the node the next `malloc` returns -/
  fresh : NodeId

/-- A step of the machine. -/
inductive Act (H : Type*) where
  /-- `add_timer` by any thread or callback, with what `malloc` left in the cell -/
  | add (time : Int32) (func : H) (threadid : Int32) (cell : TimerNode H)
  /-- `del_timer` by any thread or callback -/
  | del (n : NodeId)
  /-- the ticker enters `timer_update` -/
  | update
  /-- `dispatch_list` goes to the next node of the batch and tests `cancel` -/
  | dispatch
  /-- the callback, if there was one, returns, and the node is freed -/
  | release
  /-- the batch is done: the ticker takes the lock again -/
  | resume
  /-- `clear_timer` by any thread or callback -/
  | clear

/-- From the second `timer_execute` on, the lock being held. -/
def executeAfter (T : STimer H) : Ticker × STimer H :=
  match takeDue T with
  | some (current, T') => (.dispatching .after (some current), T')
  | none => (.idle, T)

/-- From the first `timer_execute` on, the lock being held. -/
def executeBefore (fuel : ℕ) (T : STimer H) : Option (Ticker × STimer H × List Event) :=
  match takeDue T with
  | some (current, T') => some (.dispatching .before (some current), T', [])
  | none => do
    let r := executeAfter (← timerShift fuel T)
    return (r.1, r.2, [.tick])

/-- The node that `malloc` returned, its fields written but for `cancel` and `next`. -/
def writeNode (T : STimer H) (n : NodeId) (time : Int32) (func : H) (threadid : Int32)
    (cell : TimerNode H) : STimer H :=
  let v := { cell with expire := time.toUInt32 + T.time, callback := func, id := threadid }
  { T with node := Function.update T.node n (some v) }

/-- `del_timer` -/
def delTimer (T : STimer H) (n : NodeId) : Option (STimer H) := do
  let v ← T.node n
  return { T with node := Function.update T.node n (some { v with cancel := 1 }) }

/-- One step; `none` when the step is not enabled, or faults. No list is longer than the number
of nodes that were allocated. -/
def step (s : State H) : Act H → Option (State H × List Event)
  | .add time func threadid cell => do
    let n := s.fresh
    let T := writeNode s.wheel n time func threadid cell
    if time ≤ 0 then
      return ({ s with wheel := ← free T n, fresh := n + 1 }, [.immediate n, .freed n])
    else
      return ({ s with wheel := ← addNode T n, fresh := n + 1 }, [.added n time])
  | .del n => do
    return ({ s with wheel := ← delTimer s.wheel n }, [])
  | .update =>
    match s.ticker with
    | .idle => do
      let r ← executeBefore s.fresh s.wheel
      return ({ s with ticker := r.1, wheel := r.2.1 }, .update :: r.2.2)
    | _ => none
  | .dispatch =>
    match s.ticker with
    | .dispatching phase (some temp) => do
      let v ← s.wheel.node temp
      return ({ s with ticker := .calling phase temp v.next }, [.dispatched temp (v.cancel == 0)])
    | _ => none
  | .release =>
    match s.ticker with
    | .calling phase temp current => do
      return ({ s with wheel := ← free s.wheel temp, ticker := .dispatching phase current },
        [.freed temp])
    | _ => none
  | .resume =>
    match s.ticker with
    | .dispatching .before none => do
      let r ← executeBefore s.fresh s.wheel
      return ({ s with ticker := r.1, wheel := r.2.1 }, r.2.2)
    | .dispatching .after none =>
      let r := executeAfter s.wheel
      some ({ s with ticker := r.1, wheel := r.2 }, [])
    | _ => none
  | .clear => do
    let r ← clearTimer s.fresh s.wheel
    return ({ s with wheel := r.2 }, r.1.map .freed)

/-- `init_timer` -/
def initTimer (H : Type*) : State H where
  wheel := { list := fun list => ⟨none, .head list⟩, time := 0, node := fun _ => none }
  ticker := .idle
  fresh := 0

end MmorpgServer.TimeWheel.Linked
