import MmorpgServer.TimeWheel.Model
import MmorpgServer.Lib.Trace

/-!
# The spin lock of `timerwheel.c`

The same program once more with `TI->lock` and with the stacks of its threads. User code is the
program outside and the callbacks: it calls `add_timer` and `del_timer` as it likes, and a thread
outside of all calls may call `timer_update`. A callback is invoked from two places:
`dispatch_list` has released the lock, `add_timer` with a delay that is not positive has not. The
lock is not recursive: a thread that holds it and comes to `spinlock_lock` spins forever.

## Main definitions

* `Frame` — a call in progress, and where it is
* `State`, `Act`, `step` — the machine
* `Outside`, `Nonpositive` — user code that may call `add_timer`, and a delay for which the
  callback is invoked at once

## Main results

* `never_self_locks_iff` — when no thread locks twice, and when no callback runs with the lock held
* `self_lock` — a callback that adds a timer
-/

namespace MmorpgServer.TimeWheel.Lock

open Machine Trace

variable {H : Type*}

/-- The number of a thread. -/
abbrev Tid := ℕ

/-! ### The machine -/

/-- A call in progress, and where it is. -/
inductive Frame (H : Type*) where
  /-- in the callback of the node `n` -/
  | callback (n : NodeId)
  /-- `add_timer`, at `spinlock_lock` -/
  | adding (n : NodeId) (time : Int32) (func : H) (threadid : Int32)
  /-- `add_timer`, with the lock -/
  | filing (n : NodeId) (time : Int32) (func : H) (threadid : Int32)
  /-- `add_timer`, with the lock, at the callback that it invokes -/
  | invoking (n : NodeId)
  /-- `timer_update`, at `spinlock_lock` -/
  | updating
  /-- the loop of `timer_execute`, with the lock -/
  | executing (phase : Phase)
  /-- `dispatch_list`, with the rest of its batch -/
  | dispatching (phase : Phase) (batch : List NodeId)
  /-- `dispatch_list`, at the callback that it invokes -/
  | calling (phase : Phase) (batch : List NodeId)
  /-- the loop of `timer_execute`, at `spinlock_lock` -/
  | relocking (phase : Phase)

structure State (H : Type*) where
  wheel : STimer H
  /-- `TI->lock`, with the thread that set it -/
  lock : Option Tid
  stack : Tid → List (Frame H)
  fresh : NodeId

/-- What is seen of a run. -/
inductive Event where
  /-- thread `i` comes to `spinlock_lock`, and has the lock already or not -/
  | locks (i : Tid) (held : Bool)
  /-- thread `i` invokes the callback of a node, and has the lock or not -/
  | invokes (i : Tid) (n : NodeId) (held : Bool)
  deriving DecidableEq

/-- Thread `i` has the lock. -/
def State.holds (s : State H) (i : Tid) : Bool := decide (s.lock = some i)

/-- Thread `i` goes on with the stack `stack`. -/
def State.go (s : State H) (i : Tid) (stack : List (Frame H)) : State H :=
  { s with stack := Function.update s.stack i stack }

inductive Act (H : Type*) where
  /-- user code calls `add_timer`; it comes to `spinlock_lock` -/
  | add (i : Tid) (time : Int32) (func : H) (threadid : Int32)
  /-- user code calls `del_timer` -/
  | del (i : Tid) (n : NodeId)
  /-- the program outside calls `timer_update` -/
  | update (i : Tid)
  /-- the callback that runs in thread `i` returns -/
  | ret (i : Tid)
  /-- thread `i` gets the lock for which it spins -/
  | lock (i : Tid)
  /-- thread `i` goes on in the code of the wheel -/
  | run (i : Tid)

/-- User code runs: the program outside, or a callback. -/
def user : List (Frame H) → Bool
  | [] | .callback _ :: _ => true
  | _ => false

/-- Thread `i` goes on in the code of the wheel. -/
def run (s : State H) (i : Tid) : Option (State H × List Event) :=
  match s.stack i with
  | .filing n time func threadid :: st =>
    let T := writeNode s.wheel n time func threadid
    if time ≤ 0 then
      some ({ s.go i (.callback n :: .invoking n :: st) with wheel := T },
        [.invokes i n (s.holds i)])
    else some ({ s.go i st with wheel := addNode T n, lock := none }, [])
  | .invoking _ :: st => some ({ s.go i st with lock := none }, [])
  | .executing phase :: st =>
    match takeDue s.wheel with
    | some (batch, T) =>
      some ({ s.go i (.dispatching phase batch :: st) with wheel := T, lock := none }, [])
    | none =>
      match phase with
      | .before => some ({ s.go i (.executing .after :: st) with wheel := timerShift s.wheel }, [])
      | .after => some ({ s.go i st with lock := none }, [])
  | .dispatching phase (n :: batch) :: st =>
    if (s.wheel.node n).cancel = 0 then
      some (s.go i (.callback n :: .calling phase batch :: st), [.invokes i n (s.holds i)])
    else some (s.go i (.dispatching phase batch :: st), [])
  | .dispatching phase [] :: st => some (s.go i (.relocking phase :: st), [.locks i (s.holds i)])
  | .calling phase batch :: st => some (s.go i (.dispatching phase batch :: st), [])
  | _ => none

/-- One step; `none` when the step is not enabled. -/
def step (s : State H) : Act H → Option (State H × List Event)
  | .add i time func threadid =>
    if user (s.stack i) then
      some ({ s.go i (.adding s.fresh time func threadid :: s.stack i) with fresh := s.fresh + 1 },
        [.locks i (s.holds i)])
    else none
  | .del i n => if user (s.stack i) then some ({ s with wheel := delTimer s.wheel n }, []) else none
  | .update i =>
    match s.stack i with
    | [] => some (s.go i [.updating], [.locks i (s.holds i)])
    | _ => none
  | .ret i =>
    match s.stack i with
    | .callback _ :: st => some (s.go i st, [])
    | _ => none
  | .lock i =>
    -- `__sync_lock_test_and_set` returns the old value, and the loop ends when it is zero
    if s.lock = none then
      match s.stack i with
      | .adding n time func threadid :: st =>
        some ({ s.go i (.filing n time func threadid :: st) with lock := some i }, [])
      | .updating :: st => some ({ s.go i (.executing .before :: st) with lock := some i }, [])
      | .relocking phase :: st =>
        some ({ s.go i (.executing phase :: st) with lock := some i }, [])
      | _ => none
    else none
  | .run i => run s i

/-- `init_timer`, on memory with arbitrary contents, before any thread has called -/
def initTimer (memory : NodeId → TimerNode H) : State H where
  wheel := { list := fun _ => [], time := 0, node := memory }
  lock := none
  stack := fun _ => []
  fresh := 0

/-! ### Where a thread is -/

variable {s s' : State H} {a : Act H} {evs tr : List Event} {i : Tid} {stack : List (Frame H)}
  {held : Bool}

/-- User code that runs without the lock: the program outside, or a callback that `dispatch_list`
invoked. -/
inductive Free : List (Frame H) → Prop where
  | outside : Free []
  | dispatched (n : NodeId) (phase : Phase) (batch : List NodeId) :
      Free [.callback n, .calling phase batch]

/-- Where a thread may be, and whether it has the lock there. -/
inductive Place : List (Frame H) → Bool → Prop where
  | free {st : List (Frame H)} (h : Free st) : Place st false
  | adding (n : NodeId) (time : Int32) (func : H) (threadid : Int32) {st : List (Frame H)}
      (h : Free st) : Place (.adding n time func threadid :: st) false
  | filing (n : NodeId) (time : Int32) (func : H) (threadid : Int32) {st : List (Frame H)}
      (h : Free st) : Place (.filing n time func threadid :: st) true
  | immediate (n m : NodeId) {st : List (Frame H)} (h : Free st) :
      Place (.callback n :: .invoking m :: st) true
  | invoking (n : NodeId) {st : List (Frame H)} (h : Free st) : Place (.invoking n :: st) true
  | updating : Place [.updating] false
  | executing (phase : Phase) : Place [.executing phase] true
  | dispatching (phase : Phase) (batch : List NodeId) : Place [.dispatching phase batch] false
  | calling (phase : Phase) (batch : List NodeId) : Place [.calling phase batch] false
  | relocking (phase : Phase) : Place [.relocking phase] false

/-- Every thread is at such a place, and the lock is as the place says. -/
def Inv (s : State H) : Prop := ∀ i, Place (s.stack i) (s.holds i)

theorem inv_init (memory : NodeId → TimerNode H) : Inv (initTimer memory) := fun _ =>
  .free .outside

/-- User code that holds the lock is in a callback that `add_timer` invoked. -/
theorem Place.user_free (h : Place stack held) (huser : user stack = true)
    (hinvoking : ∀ n, .invoking n ∉ stack) : held = false ∧ Free stack := by
  cases h with
  | free h => exact ⟨rfl, h⟩
  | immediate n m => exact absurd (List.mem_cons_of_mem _ List.mem_cons_self) (hinvoking m)
  | adding | filing | invoking | updating | executing | dispatching | calling | relocking =>
    cases huser

theorem Free.not_invoking (h : Free stack) (n : NodeId) : .invoking n ∉ stack := by
  cases h <;> simp

/-- Thread `i` moves, and for the others nothing has changed. -/
theorem Inv.move (h : Inv s) (hstack : s'.stack = Function.update s.stack i stack)
    (hplace : Place stack (s'.holds i)) (hothers : ∀ j ≠ i, s'.holds j = s.holds j) : Inv s' := by
  intro j
  rw [hstack]
  by_cases hj : j = i
  · subst hj
    rw [Function.update_self]
    exact hplace
  · rw [Function.update_of_ne hj, hothers j hj]
    exact h j

/-- Thread `i` gives the lock back. -/
theorem holds_unlocked (hheld : s.holds i = true) (hlock : s'.lock = none) :
    s'.holds i = false ∧ ∀ j ≠ i, s'.holds j = s.holds j := by
  have howner : s.lock = some i := of_decide_eq_true hheld
  refine ⟨by simp [State.holds, hlock], fun j hj => ?_⟩
  simp [State.holds, hlock, howner, Ne.symm hj]

/-- Thread `i` gets the lock. -/
theorem holds_locked (s' : State H) (hfree : s.lock = none) (hlock : s'.lock = some i) :
    s'.holds i = true ∧ ∀ j ≠ i, s'.holds j = s.holds j := by
  refine ⟨by simp [State.holds, hlock], fun j hj => ?_⟩
  simp [State.holds, hlock, hfree, Ne.symm hj]

/-! ### Locking twice -/

/-- A thread that comes to `spinlock_lock` does not have the lock. -/
def Event.Unlocked : Event → Prop
  | .locks _ held => held = false
  | .invokes .. => True

/-- `add_timer` is not called by a callback that `add_timer` invoked. -/
def NotNested (s : State H) : Act H → Prop
  | .add i .. => ∀ n, .invoking n ∉ s.stack i
  | _ => True

/-- What thread `i` does to its stack in the code of the wheel, and whether it gives the lock
back. -/
inductive Goes (i : Tid) (held : Bool) :
    List (Frame H) → List (Frame H) → Bool → List Event → Prop where
  | immediate (n : NodeId) (time : Int32) (func : H) (threadid : Int32) (st : List (Frame H))
      (h : time ≤ 0) :
      Goes i held (.filing n time func threadid :: st) (.callback n :: .invoking n :: st) false
        [.invokes i n held]
  | file (n : NodeId) (time : Int32) (func : H) (threadid : Int32) (st : List (Frame H)) :
      Goes i held (.filing n time func threadid :: st) st true []
  | invoked (n : NodeId) (st : List (Frame H)) : Goes i held (.invoking n :: st) st true []
  | batch (phase : Phase) (batch : List NodeId) (st : List (Frame H)) :
      Goes i held (.executing phase :: st) (.dispatching phase batch :: st) true []
  | shift (phase : Phase) (st : List (Frame H)) :
      Goes i held (.executing phase :: st) (.executing .after :: st) false []
  | finish (phase : Phase) (st : List (Frame H)) : Goes i held (.executing phase :: st) st true []
  | call (phase : Phase) (n : NodeId) (batch : List NodeId) (st : List (Frame H)) :
      Goes i held (.dispatching phase (n :: batch) :: st)
        (.callback n :: .calling phase batch :: st) false [.invokes i n held]
  | skip (phase : Phase) (n : NodeId) (batch : List NodeId) (st : List (Frame H)) :
      Goes i held (.dispatching phase (n :: batch) :: st) (.dispatching phase batch :: st) false []
  | relock (phase : Phase) (st : List (Frame H)) :
      Goes i held (.dispatching phase [] :: st) (.relocking phase :: st) false [.locks i held]
  | next (phase : Phase) (batch : List NodeId) (st : List (Frame H)) :
      Goes i held (.calling phase batch :: st) (.dispatching phase batch :: st) false []

theorem run_goes (hrun : run s i = some (s', evs)) : ∃ stack unlocks,
    Goes i (s.holds i) (s.stack i) stack unlocks evs ∧
      s'.stack = Function.update s.stack i stack ∧ s'.lock = if unlocks then none else s.lock := by
  unfold run at hrun
  split at hrun
  · rename_i n time func threadid st hst
    dsimp only at hrun
    split_ifs at hrun with htime
    · obtain ⟨rfl, rfl⟩ := Prod.mk.inj (Option.some.inj hrun)
      exact ⟨_, false, hst ▸ .immediate n time func threadid st htime, rfl, rfl⟩
    · obtain ⟨rfl, rfl⟩ := Prod.mk.inj (Option.some.inj hrun)
      exact ⟨_, true, hst ▸ .file n time func threadid st, rfl, rfl⟩
  · rename_i n st hst
    obtain ⟨rfl, rfl⟩ := Prod.mk.inj (Option.some.inj hrun)
    exact ⟨_, true, hst ▸ .invoked n st, rfl, rfl⟩
  · rename_i phase st hst
    split at hrun
    · rename_i batch T _
      obtain ⟨rfl, rfl⟩ := Prod.mk.inj (Option.some.inj hrun)
      exact ⟨_, true, hst ▸ .batch phase batch st, rfl, rfl⟩
    · split at hrun
      · obtain ⟨rfl, rfl⟩ := Prod.mk.inj (Option.some.inj hrun)
        exact ⟨_, false, hst ▸ .shift .before st, rfl, rfl⟩
      · obtain ⟨rfl, rfl⟩ := Prod.mk.inj (Option.some.inj hrun)
        exact ⟨_, true, hst ▸ .finish .after st, rfl, rfl⟩
  · rename_i phase n batch st hst
    split_ifs at hrun
    · obtain ⟨rfl, rfl⟩ := Prod.mk.inj (Option.some.inj hrun)
      exact ⟨_, false, hst ▸ .call phase n batch st, rfl, rfl⟩
    · obtain ⟨rfl, rfl⟩ := Prod.mk.inj (Option.some.inj hrun)
      exact ⟨_, false, hst ▸ .skip phase n batch st, rfl, rfl⟩
  · rename_i phase st hst
    obtain ⟨rfl, rfl⟩ := Prod.mk.inj (Option.some.inj hrun)
    exact ⟨_, false, hst ▸ .relock phase st, rfl, rfl⟩
  · rename_i phase batch st hst
    obtain ⟨rfl, rfl⟩ := Prod.mk.inj (Option.some.inj hrun)
    exact ⟨_, false, hst ▸ .next phase batch st, rfl, rfl⟩
  · cases hrun

/-- A thread goes from place to place. It comes to `spinlock_lock` without the lock, and it gives
the lock back only if it has it. -/
theorem Goes.place {stack' : List (Frame H)} {unlocks : Bool}
    (h : Goes i held stack stack' unlocks evs) (hplace : Place stack held) :
    Place stack' (held && !unlocks) ∧ (unlocks = true → held = true) ∧ ∀ e ∈ evs, e.Unlocked := by
  cases h with
  | immediate n time func threadid st htime =>
    cases hplace with
    | free hfree => cases hfree
    | filing _ _ _ _ hfree => exact ⟨.immediate n n hfree, by simp, by simp [Event.Unlocked]⟩
  | file n time func threadid st =>
    cases hplace with
    | free hfree => cases hfree
    | filing _ _ _ _ hfree => exact ⟨.free hfree, by simp, by simp⟩
  | invoked n st =>
    cases hplace with
    | free hfree => cases hfree
    | invoking _ hfree => exact ⟨.free hfree, by simp, by simp⟩
  | batch phase batch st =>
    cases hplace with
    | free hfree => cases hfree
    | executing => exact ⟨.dispatching phase batch, by simp, by simp⟩
  | shift phase st =>
    cases hplace with
    | free hfree => cases hfree
    | executing => exact ⟨.executing .after, by simp, by simp⟩
  | finish phase st =>
    cases hplace with
    | free hfree => cases hfree
    | executing => exact ⟨.free .outside, by simp, by simp⟩
  | call phase n batch st =>
    cases hplace with
    | free hfree => cases hfree
    | dispatching =>
      exact ⟨.free (.dispatched n phase batch), by simp, by simp [Event.Unlocked]⟩
  | skip phase n batch st =>
    cases hplace with
    | free hfree => cases hfree
    | dispatching => exact ⟨.dispatching phase batch, by simp, by simp⟩
  | relock phase st =>
    cases hplace with
    | free hfree => cases hfree
    | dispatching => exact ⟨.relocking phase, by simp, by simp [Event.Unlocked]⟩
  | next phase batch st =>
    cases hplace with
    | free hfree => cases hfree
    | calling => exact ⟨.dispatching phase batch, by simp, by simp⟩

theorem run_inv (h : Inv s) (hrun : run s i = some (s', evs)) :
    Inv s' ∧ ∀ e ∈ evs, e.Unlocked := by
  obtain ⟨stack, unlocks, hgoes, hstack, hlock⟩ := run_goes hrun
  obtain ⟨hplace, hheld, hevs⟩ := hgoes.place (h i)
  refine ⟨?_, hevs⟩
  cases unlocks with
  | false =>
    have hsame : s'.holds = s.holds := by
      funext j
      simp [State.holds, hlock]
    exact h.move hstack (by simpa [hsame] using hplace) fun j _ => congrFun hsame j
  | true =>
    obtain ⟨hnone, hothers⟩ := holds_unlocked (hheld rfl) hlock
    exact h.move hstack (by simpa [hnone] using hplace) hothers

/-- What a thread that spins does to its stack when it gets the lock. -/
inductive Acquires : List (Frame H) → List (Frame H) → Prop where
  | add (n : NodeId) (time : Int32) (func : H) (threadid : Int32) (st : List (Frame H)) :
      Acquires (.adding n time func threadid :: st) (.filing n time func threadid :: st)
  | update (st : List (Frame H)) : Acquires (.updating :: st) (.executing .before :: st)
  | relock (phase : Phase) (st : List (Frame H)) :
      Acquires (.relocking phase :: st) (.executing phase :: st)

theorem step_acquires (hstep : step s (.lock i) = some (s', evs)) :
    s.lock = none ∧ evs = [] ∧ ∃ stack, Acquires (s.stack i) stack ∧
      s'.stack = Function.update s.stack i stack ∧ s'.lock = some i := by
  dsimp only [step] at hstep
  split_ifs at hstep with hfree
  split at hstep
  · rename_i n time func threadid st hst
    obtain ⟨rfl, rfl⟩ := Prod.mk.inj (Option.some.inj hstep)
    exact ⟨hfree, rfl, _, hst ▸ .add n time func threadid st, rfl, rfl⟩
  · rename_i st hst
    obtain ⟨rfl, rfl⟩ := Prod.mk.inj (Option.some.inj hstep)
    exact ⟨hfree, rfl, _, hst ▸ .update st, rfl, rfl⟩
  · rename_i phase st hst
    obtain ⟨rfl, rfl⟩ := Prod.mk.inj (Option.some.inj hstep)
    exact ⟨hfree, rfl, _, hst ▸ .relock phase st, rfl, rfl⟩
  · cases hstep

theorem Acquires.place {stack' : List (Frame H)} (h : Acquires stack stack')
    (hplace : Place stack false) : Place stack' true := by
  cases h with
  | add n time func threadid st =>
    cases hplace with
    | free hfree => cases hfree
    | adding _ _ _ _ hfree => exact .filing n time func threadid hfree
  | update st =>
    cases hplace with
    | free hfree => cases hfree
    | updating => exact .executing .before
  | relock phase st =>
    cases hplace with
    | free hfree => cases hfree
    | relocking => exact .executing phase

/-- A thread that spins gets the lock when it is free. -/
theorem lock_inv (h : Inv s) (hstep : step s (.lock i) = some (s', evs)) : Inv s' ∧ evs = [] := by
  obtain ⟨hfree, rfl, stack, hacquires, hstack, hlock⟩ := step_acquires hstep
  obtain ⟨hheld, hothers⟩ := holds_locked s' hfree hlock
  have hfalse : s.holds i = false := by simp [State.holds, hfree]
  have hplace := hacquires.place (hfalse ▸ h i)
  exact ⟨h.move hstack (hheld ▸ hplace) hothers, rfl⟩

/-- **A step that does not call `add_timer` from a callback that `add_timer` invoked** keeps every
thread at its place, and no thread that has the lock comes to `spinlock_lock`. -/
theorem step_inv (h : Inv s) (hguard : NotNested s a) (hstep : step s a = some (s', evs)) :
    Inv s' ∧ ∀ e ∈ evs, e.Unlocked := by
  cases a with
  | add i time func threadid =>
    dsimp only [step] at hstep
    split_ifs at hstep with huser
    obtain ⟨hheld, hfree⟩ := (h i).user_free huser hguard
    obtain ⟨rfl, rfl⟩ := Prod.mk.inj (Option.some.inj hstep)
    refine ⟨h.move rfl ?_ fun _ _ => rfl, by simp [Event.Unlocked, hheld]⟩
    exact hheld ▸ .adding s.fresh time func threadid hfree
  | del i n =>
    dsimp only [step] at hstep
    split_ifs at hstep
    obtain ⟨rfl, rfl⟩ := Prod.mk.inj (Option.some.inj hstep)
    exact ⟨h, by simp⟩
  | update i =>
    have hplace := h i
    dsimp only [step] at hstep
    split at hstep
    · rename_i hst
      rw [hst] at hplace
      obtain ⟨hheld, -⟩ := hplace.user_free rfl fun n => List.not_mem_nil
      obtain ⟨rfl, rfl⟩ := Prod.mk.inj (Option.some.inj hstep)
      refine ⟨h.move rfl ?_ fun _ _ => rfl, by simp [Event.Unlocked, hheld]⟩
      exact hheld ▸ .updating
    · cases hstep
  | ret i =>
    have hplace := h i
    dsimp only [step] at hstep
    split at hstep
    · rename_i n st hst
      obtain ⟨rfl, rfl⟩ := Prod.mk.inj (Option.some.inj hstep)
      rw [hst] at hplace
      refine ⟨h.move rfl ?_ fun _ _ => rfl, by simp⟩
      change Place st (s.holds i)
      generalize s.holds i = held at hplace
      cases hplace with
      | free hfree =>
        cases hfree with
        | dispatched n phase batch => exact .calling phase batch
      | immediate _ m hfree => exact .invoking m hfree
    · cases hstep
  | lock i =>
    obtain ⟨hinv, rfl⟩ := lock_inv h hstep
    exact ⟨hinv, by simp⟩
  | run i => exact run_inv h hstep

/-- If user code that calls `add_timer` does not have the lock, it is in no callback that
`add_timer` invoked. -/
theorem notNested_of_unlocked (h : Inv s) (hstep : step s a = some (s', evs))
    (hunlocked : ∀ e ∈ evs, e.Unlocked) : NotNested s a := by
  cases a with
  | add i time func threadid =>
    dsimp only [step] at hstep
    split_ifs at hstep with huser
    obtain ⟨rfl, rfl⟩ := Prod.mk.inj (Option.some.inj hstep)
    have hheld : s.holds i = false := hunlocked _ List.mem_cons_self
    have hplace := h i
    rw [hheld] at hplace
    intro n
    generalize s.stack i = stack at hplace huser
    cases hplace with
    | free hfree => exact hfree.not_invoking n
    | adding | updating | dispatching | calling | relocking => cases huser
  | del | update | ret | lock | run => trivial

/-! ### Callbacks with the lock -/

/-- A callback is invoked without the lock. -/
def Event.Released : Event → Prop
  | .locks .. => True
  | .invokes _ _ held => held = false

/-- No `add_timer` that has the lock was given a delay that is not positive. -/
def Delayed (s : State H) : Act H → Prop
  | .run i => ∀ n time func threadid st, s.stack i = .filing n time func threadid :: st → 0 < time
  | _ => True

/-- No callback runs that `add_timer` invoked. -/
def NoneInvoked (s : State H) : Prop := ∀ i n, .invoking n ∉ s.stack i

theorem NoneInvoked.move (h : NoneInvoked s) (hstack : s'.stack = Function.update s.stack i stack)
    (hsub : ∀ n, .invoking n ∈ stack → .invoking n ∈ s.stack i) : NoneInvoked s' := by
  intro j n
  rw [hstack]
  by_cases hj : j = i
  · subst hj
    rw [Function.update_self]
    exact fun hmem => h j n (hsub n hmem)
  · rw [Function.update_of_ne hj]
    exact h j n

theorem Acquires.invoking {stack' : List (Frame H)} {n : NodeId} (h : Acquires stack stack')
    (hn : .invoking n ∈ stack') : .invoking n ∈ stack := by
  cases h <;> simpa using hn

theorem notNested_of_noneInvoked (h : NoneInvoked s) : NotNested s a := by
  cases a with
  | add i time func threadid => exact h i
  | del | update | ret | lock | run => trivial

/-- A callback that `dispatch_list` invokes is invoked without the lock. -/
theorem Goes.released {stack' : List (Frame H)} {unlocks : Bool}
    (h : Goes i held stack stack' unlocks evs) (hplace : Place stack held)
    (hdelayed : ∀ n time func threadid st, stack = .filing n time func threadid :: st → 0 < time) :
    (∀ n, .invoking n ∈ stack' → .invoking n ∈ stack) ∧ ∀ e ∈ evs, e.Released := by
  cases h with
  | immediate n time func threadid st htime =>
    exact absurd (hdelayed n time func threadid st rfl) (Int32.not_lt.mpr htime)
  | call phase n batch st =>
    cases hplace with
    | free hfree => cases hfree
    | dispatching => exact ⟨by simp, by simp [Event.Released]⟩
  | relock phase st => exact ⟨by simp, by simp [Event.Released]⟩
  | file | invoked | finish => exact ⟨fun n hn => List.mem_cons_of_mem _ hn, by simp⟩
  | batch | shift | skip | next => exact ⟨by simp, by simp⟩

/-- Where every delay is positive, the callbacks are those that `dispatch_list` invokes, without
the lock. -/
theorem step_noneInvoked (hinv : Inv s) (h : NoneInvoked s) (hguard : Delayed s a)
    (hstep : step s a = some (s', evs)) : NoneInvoked s' ∧ ∀ e ∈ evs, e.Released := by
  cases a with
  | add i time func threadid =>
    dsimp only [step] at hstep
    split_ifs at hstep
    obtain ⟨rfl, rfl⟩ := Prod.mk.inj (Option.some.inj hstep)
    exact ⟨h.move (i := i) rfl (by simp), by simp [Event.Released]⟩
  | del i n =>
    dsimp only [step] at hstep
    split_ifs at hstep
    obtain ⟨rfl, rfl⟩ := Prod.mk.inj (Option.some.inj hstep)
    exact ⟨h, by simp⟩
  | update i =>
    dsimp only [step] at hstep
    split at hstep
    · obtain ⟨rfl, rfl⟩ := Prod.mk.inj (Option.some.inj hstep)
      exact ⟨h.move (i := i) rfl (by simp), by simp [Event.Released]⟩
    · cases hstep
  | ret i =>
    dsimp only [step] at hstep
    split at hstep
    · rename_i n st hst
      obtain ⟨rfl, rfl⟩ := Prod.mk.inj (Option.some.inj hstep)
      exact ⟨h.move (i := i) rfl (by simp +contextual [hst]), by simp⟩
    · cases hstep
  | lock i =>
    obtain ⟨-, rfl, stack, hacquires, hstack, -⟩ := step_acquires hstep
    exact ⟨h.move hstack fun n hn => hacquires.invoking hn, by simp⟩
  | run i =>
    obtain ⟨stack, unlocks, hgoes, hstack, -⟩ := run_goes hstep
    obtain ⟨hsub, hevs⟩ := hgoes.released (hinv i) hguard
    exact ⟨h.move hstack hsub, hevs⟩

/-- A callback that is invoked without the lock is not invoked by `add_timer`. -/
theorem delayed_of_released (h : Inv s) (hstep : step s a = some (s', evs))
    (hreleased : ∀ e ∈ evs, e.Released) : Delayed s a := by
  cases a with
  | run i =>
    intro n time func threadid st hst
    by_contra htime
    have hplace := h i
    have hheld : s.holds i = false := by
      have hstep' : run s i = some (s', evs) := hstep
      unfold run at hstep'
      rw [hst] at hstep'
      dsimp only at hstep'
      rw [if_pos (Int32.not_lt.mp htime)] at hstep'
      obtain ⟨-, rfl⟩ := Prod.mk.inj (Option.some.inj hstep')
      exact hreleased _ List.mem_cons_self
    rw [hst, hheld] at hplace
    cases hplace with
    | free hfree => cases hfree
  | add | del | update | ret | lock => trivial

/-! ### Runs -/

/-- **When the wheel never locks itself.** In a run of threads and of callbacks, nested to any
depth, no thread comes to `spinlock_lock` with the lock iff no callback that `add_timer` invoked
calls `add_timer`. And every callback is invoked without the lock iff no `add_timer` was given a
delay that is not positive. -/
theorem never_self_locks_iff {memory : NodeId → TimerNode H} {acts : List (Act H)} {s : State H}
    {tr : List Event} (hrun : exec (traced step) (initTimer memory, []) acts = some (s, tr)) :
    ((∀ i held, .locks i held ∈ tr → held = false) ↔
      Guarded (traced step) (fun st => NotNested st.1) (initTimer memory, []) acts) ∧
    ((∀ i n held, .invokes i n held ∈ tr → held = false) ↔
      Guarded (traced step) (fun st => Delayed st.1) (initTimer memory, []) acts) := by
  have hlocks : (∀ i held, .locks i held ∈ tr → held = false) ↔
      Checked (fun _ => Event.Unlocked) [] tr := by
    rw [checked_forall]
    constructor
    · rintro h (⟨i, held⟩ | ⟨i, n, held⟩) he
      · exact h i held he
      · trivial
    · exact fun h i held he => h _ he
  have hinvokes : (∀ i n held, .invokes i n held ∈ tr → held = false) ↔
      Checked (fun _ => Event.Released) [] tr := by
    rw [checked_forall]
    constructor
    · rintro h (⟨i, held⟩ | ⟨i, n, held⟩) he
      · trivial
      · exact h i n held he
    · exact fun h i n held he => h _ he
  have hinit := inv_init memory
  constructor
  · rw [hlocks]
    refine checked_iff_guarded (I := fun s _ => Inv s) ?_ ?_ hinit (by simpa using hrun)
    · intro s tr a s' evs hinv hguard hstep
      obtain ⟨hinv', hevs⟩ := step_inv hinv hguard hstep
      exact ⟨hinv', checked_forall.mpr hevs⟩
    · exact fun s tr a s' evs hinv hstep hevs =>
        notNested_of_unlocked hinv hstep (checked_forall.mp hevs)
  · rw [hinvokes]
    refine checked_iff_guarded (I := fun s _ => Inv s ∧ NoneInvoked s) ?_ ?_
      ⟨hinit, fun _ _ => List.not_mem_nil⟩ (by simpa using hrun)
    · rintro s tr a s' evs ⟨hinv, hnone⟩ hguard hstep
      obtain ⟨hinv', -⟩ := step_inv hinv (notNested_of_noneInvoked hnone) hstep
      obtain ⟨hnone', hevs⟩ := step_noneInvoked hinv hnone hguard hstep
      exact ⟨⟨hinv', hnone'⟩, checked_forall.mpr hevs⟩
    · exact fun s tr a s' evs hinv hstep hevs =>
        delayed_of_released hinv.1 hstep (checked_forall.mp hevs)

/-- A timer whose callback adds the next one. -/
theorem never_self_locks_iff_rearm : ∃ s tr,
    exec (traced step) (initTimer fun _ => ⟨0, (), 0, 0⟩, [])
      [.add 0 1 () 7, .lock 0, .run 0, .update 1, .lock 1, .run 1, .run 1, .run 1, .add 1 1 () 7,
        .lock 1, .run 1, .ret 1, .run 1, .run 1, .lock 1, .run 1] = some (s, tr) ∧
    tr = [.locks 0 false, .locks 1 false, .invokes 1 0 false, .locks 1 false, .locks 1 false] ∧
    ((∀ i held, .locks i held ∈ tr → held = false) ↔
      Guarded (traced step) (fun st => NotNested st.1) (initTimer fun _ => ⟨0, (), 0, 0⟩, [])
        [.add 0 1 () 7, .lock 0, .run 0, .update 1, .lock 1, .run 1, .run 1, .run 1,
          .add 1 1 () 7, .lock 1, .run 1, .ret 1, .run 1, .run 1, .lock 1, .run 1]) :=
  ⟨_, _, rfl, rfl, (never_self_locks_iff rfl).1⟩

/-- A timer without a delay whose callback adds a timer: the thread spins on its own lock. -/
theorem self_lock :
    ¬ (∀ (acts : List (Act Unit)) (s : State Unit) (tr : List Event),
      exec (traced step) (initTimer fun _ => ⟨0, (), 0, 0⟩, []) acts = some (s, tr) →
      (∀ i held, .locks i held ∈ tr → held = false) ∧
        ∀ i n held, .invokes i n held ∈ tr → held = false) := by
  intro h
  have hnever := h [.add 0 0 () 7, .lock 0, .run 0, .add 0 1 () 7] _ _ rfl
  exact absurd (hnever.1 0 true (by decide)) (by decide)

end MmorpgServer.TimeWheel.Lock
