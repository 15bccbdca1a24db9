import MmorpgServer.Lib.Machine
import Mathlib.Logic.Function.Basic

/-!
# The time wheel of `timerwheel.c`

A translation of `s_timer_t` and of its operations. A list of the wheel is named by its
address (`Slot`), a node by the allocation that made it. The memory of a node is whatever
`malloc` returned until a field is written; `add_timer` writes every field but `cancel`.

The code runs as a machine whose steps are the critical sections of `TI->lock` (and the
single accesses made without it): other threads, and the callbacks that `dispatch_list`
runs, act between them.

## Main definitions

* `addNode`, `moveList`, `shiftLoop`, `timerShift`, `takeDue`, `clearTimer` — the functions
  of the source, on the wheel
* `State`, `Act`, `Event`, `step` — the machine: `add_timer` and `del_timer` by anyone,
  `timer_update` by the one ticker
-/

namespace MmorpgServer.TimeWheel

/-! ### Constants of `timewheel.h` -/

def timeNearShift : ℕ := 8
def timeNear : ℕ := 1 <<< timeNearShift
def timeLevelShift : ℕ := 6
def timeLevel : ℕ := 1 <<< timeLevelShift
def timeNearMask : UInt32 := UInt32.ofNat (timeNear - 1)
def timeLevelMask : UInt32 := UInt32.ofNat (timeLevel - 1)

/-! ### Data -/

/-- The address of a node: the number of the `malloc` that returned it. -/
abbrev NodeId := ℕ

/-- `struct timer_node`; the field `next` is the order of the list that holds the node -/
structure TimerNode (H : Type*) where
  expire : UInt32
  callback : H
  cancel : UInt8
  id : Int32

/-- The address of a list: `&near[i]` or `&t[level][idx]`. -/
inductive Slot where
  | near (i : ℕ)
  | level (level idx : ℕ)
  deriving DecidableEq

/-- `struct timer`: its lists and its clock, with the memory its nodes live in -/
structure STimer (H : Type*) where
  list : Slot → List NodeId
  time : UInt32
  node : NodeId → TimerNode H

variable {H : Type*}

namespace STimer

/-- `link_clear`: the nodes of the list and the wheel with the list emptied -/
def linkClear (T : STimer H) (list : Slot) : List NodeId × STimer H :=
  (T.list list, { T with list := Function.update T.list list [] })

/-- `link`: append at the tail -/
def link (T : STimer H) (list : Slot) (n : NodeId) : STimer H :=
  { T with list := Function.update T.list list (T.list list ++ [n]) }

/-- Store a node's fields. -/
def setNode (T : STimer H) (n : NodeId) (v : TimerNode H) : STimer H :=
  { T with node := Function.update T.node n v }

end STimer

/-- The shift of level `k`: `TIME_NEAR_SHIFT + k * TIME_LEVEL_SHIFT`. -/
def levelShift (k : ℕ) : ℕ := timeNearShift + k * timeLevelShift

/-- `add_node` -/
def addNode (T : STimer H) (n : NodeId) : STimer H :=
  let time := (T.node n).expire
  let currentTime := T.time
  let msec := time - currentTime
  if msec < UInt32.ofNat timeNear then
    T.link (.near (time &&& timeNearMask).toNat) n
  else if msec < UInt32.ofNat (1 <<< levelShift 1) then
    T.link (.level 0 (time >>> UInt32.ofNat (levelShift 0) &&& timeLevelMask).toNat) n
  else if msec < UInt32.ofNat (1 <<< levelShift 2) then
    T.link (.level 1 (time >>> UInt32.ofNat (levelShift 1) &&& timeLevelMask).toNat) n
  else if msec < UInt32.ofNat (1 <<< levelShift 3) then
    T.link (.level 2 (time >>> UInt32.ofNat (levelShift 2) &&& timeLevelMask).toNat) n
  else
    T.link (.level 3 (time >>> UInt32.ofNat (levelShift 3) &&& timeLevelMask).toNat) n

/-- `move_list` -/
def moveList (T : STimer H) (level idx : ℕ) : STimer H :=
  let r := T.linkClear (.level level idx)
  r.1.foldl addNode r.2

/-- The `while` loop of `timer_shift`: the level and index of the list it moves, `some none`
when it ends without moving one, `none` when `fuel` rounds are not enough. -/
def shiftLoop (ct : UInt32) : (fuel mask : ℕ) → (time : UInt32) → (i : ℕ) →
    Option (Option (ℕ × ℕ))
  | 0, _, _, _ => none
  | fuel + 1, mask, time, i =>
    -- the `while` condition; an index that is not `0` ends the loop with its `break`
    if ct &&& UInt32.ofNat (mask - 1) = 0 then
      let idx := time &&& timeLevelMask
      if idx ≠ 0 then some (some (i, idx.toNat))
      else
        shiftLoop ct fuel (mask <<< timeLevelShift) (time >>> UInt32.ofNat timeLevelShift) (i + 1)
    else some none

/-- `timer_shift`. Five rounds are enough for every clock value, see `shiftLoop_eq`. -/
def timerShift (T : STimer H) : STimer H :=
  let ct := T.time + 1
  let T := { T with time := ct }
  if ct = 0 then
    moveList T 3 0
  else
    match shiftLoop ct 5 timeNear (ct >>> UInt32.ofNat timeNearShift) 0 with
    | some (some (i, idx)) => moveList T i idx
    | _ => T

/-- One evaluation of the condition of the loop in `timer_execute`: the detached batch, if
the due list is not empty. -/
def takeDue (T : STimer H) : Option (List NodeId × STimer H) :=
  let idx := (T.time &&& timeNearMask).toNat
  match T.list (.near idx) with
  | [] => none
  | _ :: _ => some (T.linkClear (.near idx))

/-- The lists that `clear_timer` walks, in its order. -/
def allSlots : List Slot :=
  (List.range timeNear).map .near ++
    (List.range 4).flatMap fun i => (List.range timeLevel).map (.level i)

/-- `clear_timer`: the nodes it frees and the wheel it leaves -/
def clearTimer (T : STimer H) : List NodeId × STimer H :=
  (allSlots.flatMap T.list,
    { T with list := fun a => if a ∈ allSlots then [] else T.list a })

/-! ### The machine -/

/-- The two calls of `timer_execute` in `timer_update`. -/
inductive Phase where
  | before
  | after
  deriving DecidableEq

/-- Where the ticker is: outside `timer_update`, or in `dispatch_list` with the rest of its
batch and the lock released. -/
inductive Ticker where
  | idle
  | dispatching (phase : Phase) (batch : List NodeId)
  deriving DecidableEq

/-- The state between critical sections. -/
structure State (H : Type*) where
  wheel : STimer H
  ticker : Ticker
  /-- the node the next `malloc` returns -/
  fresh : NodeId

/-- A step of the machine. -/
inductive Act (H : Type*) where
  /-- `add_timer` by any thread or callback -/
  | add (time : Int32) (func : H) (threadid : Int32)
  /-- `del_timer` by any thread or callback -/
  | del (n : NodeId)
  /-- the ticker enters `timer_update` -/
  | update
  /-- `dispatch_list` handles the next node of the batch -/
  | dispatch
  /-- the batch is done: the ticker takes the lock again -/
  | resume
  /-- `clear_timer` -/
  | clear

/-- What an observer sees. -/
inductive Event where
  /-- `add_timer` filed the node with the given delay -/
  | added (n : NodeId) (time : Int32)
  /-- `add_timer` ran the callback itself, the delay not being positive -/
  | immediate (n : NodeId)
  /-- `timer_update` was entered -/
  | update
  /-- `++T->time` -/
  | tick
  /-- `dispatch_list` handled the node and invoked its callback or not -/
  | dispatched (n : NodeId) (invoked : Bool)
  | freed (n : NodeId)
  deriving DecidableEq

/-- From the second `timer_execute` on, the lock being held. -/
def executeAfter (T : STimer H) : Ticker × STimer H :=
  match takeDue T with
  | some (batch, T') => (.dispatching .after batch, T')
  | none => (.idle, T)

/-- From the first `timer_execute` on, the lock being held. -/
def executeBefore (T : STimer H) : Ticker × STimer H × List Event :=
  match takeDue T with
  | some (batch, T') => (.dispatching .before batch, T', [])
  | none =>
    let r := executeAfter (timerShift T)
    (r.1, r.2, [.tick])

/-- The node that `malloc` returned, its fields written but for `cancel`. -/
def writeNode (T : STimer H) (n : NodeId) (time : Int32) (func : H) (threadid : Int32) :
    STimer H :=
  T.setNode n { T.node n with expire := time.toUInt32 + T.time, callback := func, id := threadid }

/-- `del_timer` -/
def delTimer (T : STimer H) (n : NodeId) : STimer H :=
  T.setNode n { T.node n with cancel := 1 }

/-- One step; `none` when the step is not enabled. -/
def step (s : State H) : Act H → Option (State H × List Event)
  | .add time func threadid =>
    let n := s.fresh
    let T := writeNode s.wheel n time func threadid
    if time ≤ 0 then
      some ({ s with wheel := T, fresh := n + 1 }, [.immediate n, .freed n])
    else
      some ({ s with wheel := addNode T n, fresh := n + 1 }, [.added n time])
  | .del n =>
    some ({ s with wheel := delTimer s.wheel n }, [])
  | .update =>
    match s.ticker with
    | .idle =>
      let r := executeBefore s.wheel
      some ({ s with ticker := r.1, wheel := r.2.1 }, .update :: r.2.2)
    | .dispatching _ _ => none
  | .dispatch =>
    match s.ticker with
    | .dispatching phase (n :: batch) =>
      some ({ s with ticker := .dispatching phase batch },
        [.dispatched n ((s.wheel.node n).cancel == 0), .freed n])
    | _ => none
  | .resume =>
    match s.ticker with
    | .dispatching .before [] =>
      let r := executeBefore s.wheel
      some ({ s with ticker := r.1, wheel := r.2.1 }, r.2.2)
    | .dispatching .after [] =>
      let r := executeAfter s.wheel
      some ({ s with ticker := r.1, wheel := r.2 }, [])
    | _ => none
  | .clear =>
    match s.ticker with
    | .idle =>
      let r := clearTimer s.wheel
      some ({ s with wheel := r.2 }, r.1.map .freed)
    | .dispatching _ _ => none

/-- `init_timer`, on memory with arbitrary contents -/
def initTimer (memory : NodeId → TimerNode H) : State H where
  wheel := { list := fun _ => [], time := 0, node := memory }
  ticker := .idle
  fresh := 0

end MmorpgServer.TimeWheel
