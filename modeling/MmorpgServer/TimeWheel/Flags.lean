import MmorpgServer.TimeWheel.Representation

/-!
# The cancel flags do not steer the wheel

No function that works on the lists reads or writes the field `cancel`: the flags may be exchanged
before the function or after it. `add_timer` leaves in the flag what `malloc` left there, and
`del_timer` writes it. So one step takes two wheels that differ in their flags, and in what `malloc`
returns, to two such wheels.

## Main definitions

* `STimer.recancel` — the wheel with other flags
* `SameButCell` — labels that differ in what `malloc` left in the cell
* `flagsAfter` — the flags after a step

## Main results

* `step_recancel` — a step does the same whatever the flags are
-/

namespace MmorpgServer.TimeWheel.Linked

variable {H : Type*} {T T' : STimer H} {c : NodeId → UInt8} {fuel : ℕ} {n : NodeId} {list : Slot}

/-- The wheel with the flags `c`. -/
def STimer.recancel (c : NodeId → UInt8) (T : STimer H) : STimer H :=
  { T with node := fun n => (T.node n).map fun v => { v with cancel := c n } }

@[simp] theorem recancel_list : (T.recancel c).list = T.list := rfl

@[simp] theorem recancel_time : (T.recancel c).time = T.time := rfl

@[simp] theorem recancel_node :
    (T.recancel c).node n = (T.node n).map fun v => { v with cancel := c n } := rfl

theorem STimer.ext {T T' : STimer H} (hlist : T.list = T'.list) (htime : T.time = T'.time)
    (hnode : ∀ n, T.node n = T'.node n) : T = T' := by
  cases T
  cases T'
  obtain rfl := funext hnode
  subst hlist htime
  rfl

/-- To write a node, then exchange the flags, is to exchange the flags of the others, then to write
the node with its new flag. -/
theorem recancel_write {c' : NodeId → UInt8} (hc : ∀ m, m ≠ n → c' m = c m)
    (v : Option (TimerNode H)) :
    STimer.recancel c' { T with node := Function.update T.node n v } =
      { T.recancel c with
        node := Function.update (T.recancel c).node n
          (v.map fun v => { v with cancel := c' n }) } := by
  refine STimer.ext rfl rfl fun m => ?_
  by_cases hm : m = n
  · subst hm
    simp [STimer.recancel]
  · simp [STimer.recancel, hm, hc m hm]

theorem recancel_update (v : Option (TimerNode H)) :
    STimer.recancel c { T with node := Function.update T.node n v } =
      { T.recancel c with
        node := Function.update (T.recancel c).node n
          (v.map fun v => { v with cancel := c n }) } :=
  recancel_write (fun _ _ => rfl) v

/-! ### Functions on lists -/

theorem setNext_recancel (p : Option NodeId) (a : Addr) :
    setNext (T.recancel c) p a = (setNext T p a).map (STimer.recancel c) := by
  cases a with
  | head list => rfl
  | node n =>
    cases hv : T.node n with
    | none => simp [setNext, hv]
    | some v => simp [setNext, hv, recancel_update]

theorem free_recancel : free (T.recancel c) n = (free T n).map (STimer.recancel c) := by
  cases hv : T.node n with
  | none => simp [free, hv]
  | some v => simp [free, hv, recancel_update]

theorem link_recancel : link (T.recancel c) list n = (link T list n).map (STimer.recancel c) := by
  unfold link
  rw [recancel_list, setNext_recancel]
  cases setNext T (some n) (T.list list).tail with
  | none => rfl
  | some T₁ => exact setNext_recancel (T := { T₁ with
      list := Function.update T₁.list list { T₁.list list with tail := .node n } }) none (.node n)

theorem addNode_recancel : addNode (T.recancel c) n = (addNode T n).map (STimer.recancel c) := by
  cases hv : T.node n with
  | none => simp [addNode, hv]
  | some v =>
    rw [addNode_eq_link hv, ← link_recancel]
    exact addNode_eq_link (v := { v with cancel := c n }) (by simp [hv])

theorem moveLoop_recancel (current : Option NodeId) :
    moveLoop fuel (T.recancel c) current = (moveLoop fuel T current).map (STimer.recancel c) := by
  induction fuel generalizing T current with
  | zero => cases current <;> rfl
  | succ fuel ih =>
    cases current with
    | none => rfl
    | some current =>
      cases hv : T.node current with
      | none => simp [moveLoop, hv]
      | some v =>
        simp only [moveLoop, recancel_node, hv, addNode_recancel, Option.map_some,
          Option.bind_eq_bind, Option.bind_some]
        cases addNode T current with
        | none => rfl
        | some T' => exact ih v.next

theorem moveList_recancel (level idx : ℕ) :
    moveList fuel (T.recancel c) level idx =
      (moveList fuel T level idx).map (STimer.recancel c) := by
  unfold moveList
  split
  · exact moveLoop_recancel (T := (linkClear T (.level level idx)).2) _
  · rfl

theorem timerShift_recancel :
    timerShift fuel (T.recancel c) = (timerShift fuel T).map (STimer.recancel c) := by
  unfold timerShift
  dsimp only [recancel_time]
  split
  · exact moveList_recancel (T := { T with time := T.time + 1 }) 3 0
  · split
    · exact moveList_recancel (T := { T with time := T.time + 1 }) _ _
    · rfl
    · rfl

theorem takeDue_recancel :
    takeDue (T.recancel c) = (takeDue T).map fun r => (r.1, r.2.recancel c) := by
  unfold takeDue linkClear
  dsimp only [recancel_time, recancel_list]
  cases (T.list (.near (T.time &&& timeNearMask).toNat)).next <;> rfl

theorem executeAfter_recancel :
    executeAfter (T.recancel c) = ((executeAfter T).1, (executeAfter T).2.recancel c) := by
  unfold executeAfter
  rw [takeDue_recancel]
  cases takeDue T <;> rfl

theorem executeBefore_recancel :
    executeBefore fuel (T.recancel c) =
      (executeBefore fuel T).map fun r => (r.1, r.2.1.recancel c, r.2.2) := by
  unfold executeBefore
  rw [takeDue_recancel]
  cases takeDue T with
  | some r => rfl
  | none =>
    rw [timerShift_recancel]
    cases timerShift fuel T with
    | none => rfl
    | some T' => simp [executeAfter_recancel]

theorem freeLoop_recancel (current : Option NodeId) :
    freeLoop fuel (T.recancel c) current =
      (freeLoop fuel T current).map fun r => (r.1, r.2.recancel c) := by
  induction fuel generalizing T current with
  | zero => cases current <;> rfl
  | succ fuel ih =>
    cases current with
    | none => rfl
    | some temp =>
      cases hv : T.node temp with
      | none => simp [freeLoop, hv]
      | some v =>
        simp only [freeLoop, recancel_node, hv, free_recancel, Option.map_some,
          Option.bind_eq_bind, Option.bind_some]
        cases free T temp with
        | none => rfl
        | some T' =>
          simp only [Option.map_some, Option.bind_some, ih]
          cases freeLoop fuel T' v.next <;> rfl

theorem clearLists_recancel (lists : List Slot) :
    clearLists fuel lists (T.recancel c) =
      (clearLists fuel lists T).map fun r => (r.1, r.2.recancel c) := by
  induction lists generalizing T with
  | nil => rfl
  | cons list lists ih =>
    simp only [clearLists, recancel_list, freeLoop_recancel, Option.bind_eq_bind]
    cases freeLoop fuel T (T.list list).next with
    | none => rfl
    | some r =>
      have hclear : (linkClear (r.2.recancel c) list).2 = (linkClear r.2 list).2.recancel c := rfl
      simp only [Option.map_some, Option.bind_some, hclear, ih]
      cases clearLists fuel lists (linkClear r.2 list).2 <;> rfl

/-! ### Steps -/

/-- What `malloc` left in the field `next` is overwritten by `link`. -/
theorem link_next (v : TimerNode H) (p : Option NodeId) :
    link { T with node := Function.update T.node n (some { v with next := p }) } list n =
      link { T with node := Function.update T.node n (some v) } list n := by
  unfold link
  dsimp only
  cases (T.list list).tail with
  | head a => simp [setNext]
  | node m =>
    by_cases hm : m = n
    · subst hm
      simp [setNext]
    · cases hw : T.node m with
      | none => simp [setNext, hm, hw]
      | some w =>
        -- the predecessor is written between the two writes to the new node
        simp [setNext, hm, hw, Ne.symm hm, Function.update_comm hm]

/-- The state with the flags `c`. -/
def State.recancel (c : NodeId → UInt8) (s : State H) : State H :=
  { s with wheel := s.wheel.recancel c }

/-- The same step, but for what `malloc` left in the cell. -/
inductive SameButCell : Act H → Act H → Prop where
  | add (time : Int32) (func : H) (threadid : Int32) (cell cell' : TimerNode H) :
      SameButCell (.add time func threadid cell) (.add time func threadid cell')
  | del (n : NodeId) : SameButCell (.del n) (.del n)
  | update : SameButCell .update .update
  | dispatch : SameButCell .dispatch .dispatch
  | release : SameButCell .release .release
  | resume : SameButCell .resume .resume
  | clear : SameButCell .clear .clear

theorem SameButCell.refl (a : Act H) : SameButCell a a := by
  cases a <;> constructor

/-- The flags after a step: `add_timer` does not write the flag of its node. -/
def flagsAfter (c : NodeId → UInt8) (fresh : NodeId) : Act H → NodeId → UInt8
  | .add _ _ _ cell => Function.update c fresh cell.cancel
  | .del n => Function.update c n 1
  | _ => c

/-- The state after a step. -/
def after (s : State H) (a : Act H) : Option (State H) := (step s a).map Prod.fst

theorem add_recancel (time : Int32) (func : H) (threadid : Int32) (cell cell' : TimerNode H) :
    addNode (writeNode (T.recancel c) n time func threadid cell') n =
      (addNode (writeNode T n time func threadid cell) n).map
        (STimer.recancel (Function.update c n cell'.cancel)) := by
  set v : TimerNode H :=
    { cell' with expire := time.toUInt32 + T.time, callback := func, id := threadid } with hv
  have hwrite : (writeNode T n time func threadid cell).recancel
      (Function.update c n cell'.cancel) =
      { T.recancel c with
        node := Function.update (T.recancel c).node n (some { v with next := cell.next }) } := by
    unfold writeNode
    rw [recancel_write fun m hm => Function.update_of_ne hm _ c]
    simp [hv]
  have hcell : (writeNode (T.recancel c) n time func threadid cell').node n = some v := by
    simp [writeNode, hv]
  rw [← addNode_recancel, hwrite, addNode_eq_link hcell,
    addNode_eq_link (v := { v with next := cell.next }) (by simp)]
  exact (link_next v cell.next).symm

theorem free_writeNode (time : Int32) (func : H) (threadid : Int32) (cell : TimerNode H) :
    free (writeNode T n time func threadid cell) n =
      some { T with node := Function.update T.node n none } := by
  simp [free, writeNode]

/-- **A step does the same whatever the flags are**, and whatever `malloc` left in the cell. -/
theorem step_recancel {s : State H} {a a' : Act H} (hlabel : SameButCell a a') :
    after (s.recancel c) a' = (after s a).map (State.recancel (flagsAfter c s.fresh a')) := by
  cases hlabel with
  | add time func threadid cell cell' =>
    by_cases htime : time ≤ 0
    · have hgone : ∀ b : UInt8, STimer.recancel (Function.update c s.fresh b)
          { s.wheel with node := Function.update s.wheel.node s.fresh none } =
          { s.wheel.recancel c with
            node := Function.update (s.wheel.recancel c).node s.fresh none } := fun b =>
        recancel_write (fun m hm => Function.update_of_ne hm b c) none
      simp [after, step, htime, free_writeNode, State.recancel, flagsAfter, hgone]
    · simp only [after, step, htime, if_false, State.recancel, add_recancel time func threadid cell]
      cases addNode (writeNode s.wheel s.fresh time func threadid cell) s.fresh <;> rfl
  | del n =>
    cases hv : s.wheel.node n with
    | none => simp [after, step, delTimer, State.recancel, hv]
    | some v =>
      have hwrite : STimer.recancel (Function.update c n 1)
          { s.wheel with node := Function.update s.wheel.node n (some { v with cancel := 1 }) } =
          { s.wheel.recancel c with
            node := Function.update (s.wheel.recancel c).node n
              (some { v with cancel := 1 }) } := by
        rw [recancel_write fun m hm => Function.update_of_ne hm 1 c]
        simp
      simp [after, step, delTimer, State.recancel, hv, flagsAfter, hwrite]
  | update =>
    simp only [after, step, State.recancel, executeBefore_recancel]
    cases s.ticker with
    | idle => cases executeBefore s.fresh s.wheel <;> rfl
    | dispatching | calling => rfl
  | dispatch =>
    simp only [after, step, State.recancel]
    cases s.ticker with
    | idle | calling => rfl
    | dispatching phase current =>
      cases current with
      | none => rfl
      | some temp =>
        dsimp only [recancel_node]
        cases s.wheel.node temp <;> rfl
  | release =>
    simp only [after, step, State.recancel]
    cases s.ticker with
    | idle | dispatching => rfl
    | calling phase temp current =>
      dsimp only
      rw [free_recancel]
      cases free s.wheel temp <;> rfl
  | resume =>
    simp only [after, step, State.recancel]
    cases s.ticker with
    | idle | calling => rfl
    | dispatching phase current =>
      cases current with
      | some temp => cases phase <;> rfl
      | none =>
        cases phase with
        | before =>
          dsimp only
          rw [executeBefore_recancel]
          cases executeBefore s.fresh s.wheel <;> rfl
        | after =>
          dsimp only
          rw [executeAfter_recancel]
          rfl
  | clear =>
    simp only [after, step, State.recancel, clearTimer, clearLists_recancel]
    cases clearLists s.fresh allSlots s.wheel <;> rfl

end MmorpgServer.TimeWheel.Linked
