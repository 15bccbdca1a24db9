import Mathlib.Data.Int.Basic
import Mathlib.Data.List.Basic
import Mathlib.Logic.Function.Basic

/-!
# The thread pool of `test_ThreadPool.cpp`

A translation of `threadpool_add_job`, `threadpool_function` and `threadpool_destroy`, with
any number of producers, `thread_num` workers and one thread that destroys the pool. A thread
is where it next takes the mutex, and a step is all that it does until it gives the mutex up,
by unlocking it or by waiting on a condition variable. A thread that waits is asleep until it
is woken by a signal or a broadcast, or for no reason at all.

The jobs are cells of a memory and the queue is a list of them, linked by `next`. The pool is
`none` when it has been freed. A thread that uses a pool or a job that has been freed has no
step.

## Main definitions

* `Job`, `Threadpool`, `Sys` — the data and the threads
* `threadpoolInit`, `threadpoolAddJob`, `threadpoolFunction`, `threadpoolDestroy`
* `Act`, `Event`, `step` — the machine, and what is seen of it
-/

namespace MmorpgServer.ThreadPool

/-! ### Data -/

/-- A pointer to a job; `none` is `NULL`. -/
abbrev JobPtr := Option ℕ

/-- `struct job`; `work` is `callback_function` with its `arg` -/
structure Job (J : Type) where
  work : J
  next : JobPtr

/-- `struct threadpool`, without the objects of the thread library -/
structure Threadpool where
  threadNum : ℕ
  queueMaxNum : ℤ
  head : JobPtr
  tail : JobPtr
  queueCurNum : ℤ
  queueClose : Bool
  poolClose : Bool

/-- A thread that may call `threadpool_add_job`. -/
inductive Producer (J : Type) where
  /-- not in the function -/
  | out
  /-- before `pthread_mutex_lock` -/
  | entering (work : J)
  /-- waiting on `queue_not_full` -/
  | asleep (work : J)
  /-- woken, before the mutex is taken again -/
  | woken (work : J)

/-- A thread in `threadpool_function`. -/
inductive Worker where
  /-- before `pthread_mutex_lock` -/
  | idle
  /-- waiting on `queue_not_empty` -/
  | asleep
  /-- woken, before the mutex is taken again -/
  | woken
  /-- in the callback of `pjob` -/
  | running (pjob : ℕ)
  /-- after `pthread_exit` -/
  | exited
  deriving DecidableEq

/-- The thread that calls `threadpool_destroy`. -/
inductive Destroyer where
  /-- before `pthread_mutex_lock` -/
  | out
  /-- waiting on `queue_empty` -/
  | asleep
  /-- woken, before the mutex is taken again -/
  | woken
  /-- before the broadcast on `queue_not_empty` -/
  | closed
  /-- before the broadcast on `queue_not_full` -/
  | calling
  /-- in the loop over `pthread_join`, at thread `i` -/
  | joining (i : ℕ)
  | returned (ret : ℤ)
  deriving DecidableEq

/-- The pool, the memory of its jobs and the threads. -/
structure Sys (J : Type) where
  pool : Option Threadpool
  heap : ℕ → Option (Job J)
  producers : ℕ → Producer J
  workers : List Worker
  destroyer : Destroyer

/-- What is seen of a run. -/
inductive Event (J : Type) where
  /-- `threadpool_add_job` returns in producer `i` -/
  | addJob (i : ℕ) (work : J) (ret : ℤ)
  /-- worker `w` takes a job out of the queue -/
  | dequeue (w : ℕ) (work : J)
  /-- the callback returns in worker `w` -/
  | complete (w : ℕ) (work : J)
  /-- `queue_close` is set -/
  | close

variable {J : Type}

/-! ### Condition variables -/

def Producer.wake : Producer J → Producer J
  | .asleep work => .woken work
  | p => p

def Worker.wake : Worker → Worker
  | .asleep => .woken
  | w => w

def Destroyer.wake : Destroyer → Destroyer
  | .asleep => .woken
  | d => d

/-- `pthread_cond_broadcast(&(pool->queue_not_full))` -/
def broadcastNotFull (s : Sys J) : Sys J :=
  { s with producers := fun i => (s.producers i).wake }

/-- `pthread_cond_broadcast(&(pool->queue_not_empty))` -/
def broadcastNotEmpty (s : Sys J) : Sys J :=
  { s with workers := s.workers.map Worker.wake }

/-- `pthread_cond_signal(&(pool->queue_empty))`; one thread at most waits there -/
def signalEmpty (s : Sys J) : Sys J :=
  { s with destroyer := s.destroyer.wake }

/-! ### `threadpool_add_job` -/

def setProducer (s : Sys J) (i : ℕ) (p : Producer J) : Sys J :=
  { s with producers := Function.update s.producers i p }

/-- `malloc` of a job; an address that is in use is no answer of it -/
def malloc (s : Sys J) (answer : JobPtr) : JobPtr :=
  match answer with
  | some a => if (s.heap a).isNone then some a else none
  | none => none

/-- Link the cell `pjob` into the queue. -/
def enqueue (s : Sys J) (pool : Threadpool) (pjob : ℕ) (work : J) : Option (Sys J) := do
  let s := { s with heap := Function.update s.heap pjob (some ⟨work, none⟩) }
  match pool.head with
  | none =>
    let pool := { pool with
      head := some pjob, tail := some pjob, queueCurNum := pool.queueCurNum + 1 }
    return broadcastNotEmpty { s with pool := some pool }
  | some _ =>
    let tail ← pool.tail
    let last ← s.heap tail
    let pool := { pool with tail := some pjob, queueCurNum := pool.queueCurNum + 1 }
    return { s with
      heap := Function.update s.heap tail (some { last with next := some pjob })
      pool := some pool }

/-- `threadpool_add_job` from a point where the mutex is taken -/
def threadpoolAddJob (s : Sys J) (i : ℕ) (work : J) (answer : JobPtr) :
    Option (Sys J × List (Event J)) := do
  let pool ← s.pool
  -- the loop around `pthread_cond_wait` tests its condition again after every wake-up
  if pool.queueCurNum = pool.queueMaxNum ∧ ¬ (pool.queueClose ∨ pool.poolClose) then
    return (setProducer s i (.asleep work), [])
  else if pool.queueClose ∨ pool.poolClose then
    return (setProducer s i .out, [.addJob i work (-1)])
  else
    match malloc s answer with
    | none => return (setProducer s i .out, [.addJob i work (-1)])
    | some pjob =>
      let s ← enqueue s pool pjob work
      return (setProducer s i .out, [.addJob i work 0])

/-! ### `threadpool_function` -/

def setWorker (s : Sys J) (w : ℕ) (worker : Worker) : Sys J :=
  { s with workers := s.workers.set w worker }

/-- The wake-ups of a worker that has left `cur` jobs in the queue. -/
def afterDequeue (s : Sys J) (queueMaxNum cur : ℤ) : Sys J :=
  let s := if cur = 0 then signalEmpty s else s
  if cur = queueMaxNum - 1 then broadcastNotFull s else s

/-- `threadpool_function` from a point where the mutex is taken. A job that is `NULL` or freed
faults here and not at its call. -/
def threadpoolFunction (s : Sys J) (w : ℕ) : Option (Sys J × List (Event J)) := do
  let pool ← s.pool
  if pool.queueCurNum = 0 ∧ ¬ pool.poolClose then
    return (setWorker s w .asleep, [])
  else if pool.poolClose then
    return (setWorker s w .exited, [])
  else
    -- the count is written before the queue, and `head` is set to `next` unless it was the last
    let cur := pool.queueCurNum - 1
    let pjob ← pool.head
    let job ← s.heap pjob
    let pool := if cur = 0 then { pool with head := none, tail := none, queueCurNum := cur }
      else { pool with head := job.next, queueCurNum := cur }
    let s := afterDequeue { s with pool := some pool } pool.queueMaxNum cur
    return (setWorker s w (.running pjob), [.dequeue w job.work])

/-- The callback returns, and the job is freed. -/
def finishJob (s : Sys J) (w pjob : ℕ) : Option (Sys J × List (Event J)) := do
  let job ← s.heap pjob
  let s := { s with heap := Function.update s.heap pjob none }
  return (setWorker s w .idle, [.complete w job.work])

/-! ### `threadpool_destroy` -/

def setDestroyer (s : Sys J) (d : Destroyer) : Sys J := { s with destroyer := d }

/-- The loop that waits for the queue to be empty. -/
def waitEmpty (s : Sys J) : Option (Sys J) := do
  let pool ← s.pool
  if pool.queueCurNum ≠ 0 then
    return setDestroyer s .asleep
  else
    return setDestroyer { s with pool := some { pool with poolClose := true } } .closed

/-- The loop that frees the jobs of the queue, `n` of them at most. -/
def freeJobs : ℕ → (ℕ → Option (Job J)) → JobPtr → Option (ℕ → Option (Job J))
  | _, heap, none => some heap
  | 0, _, some _ => none
  | n + 1, heap, some p => do
    let job ← heap p
    freeJobs n (Function.update heap p none) job.next

/-- The loop over `pthread_join`, and what follows it. -/
def joinThread (s : Sys J) (i : ℕ) : Option (Sys J) := do
  let pool ← s.pool
  if i < pool.threadNum then
    if s.workers[i]? = some .exited then
      return setDestroyer s (.joining (i + 1))
    else none
  else
    let heap ← freeJobs pool.queueCurNum.toNat s.heap pool.head
    return setDestroyer { s with heap := heap, pool := none } (.returned 0)

/-- The next step of `threadpool_destroy`. -/
def threadpoolDestroy (s : Sys J) : Option (Sys J × List (Event J)) := do
  match s.destroyer with
  | .out =>
    let pool ← s.pool
    if pool.queueClose ∨ pool.poolClose then
      return (setDestroyer s (.returned (-1)), [])
    else
      let s ← waitEmpty { s with pool := some { pool with queueClose := true } }
      return (s, [.close])
  | .asleep => none
  | .woken => (waitEmpty s).map (·, [])
  | .closed => return (setDestroyer (broadcastNotEmpty s) .calling, [])
  | .calling => return (setDestroyer (broadcastNotFull s) (.joining 0), [])
  | .joining i => (joinThread s i).map (·, [])
  | .returned _ => none

/-! ### The machine -/

/-- `threadpool_init`, with all threads created -/
def threadpoolInit (J : Type) (threadNum : ℕ) (queueMaxNum : ℤ) : Sys J where
  pool := some
    { threadNum := threadNum, queueMaxNum := queueMaxNum, head := none, tail := none,
      queueCurNum := 0, queueClose := false, poolClose := false }
  heap := fun _ => none
  producers := fun _ => .out
  workers := List.replicate threadNum .idle
  destroyer := .out

inductive Act (J : Type) where
  /-- producer `i` calls `threadpool_add_job` -/
  | call (i : ℕ) (work : J)
  /-- producer `i` takes the mutex; `answer` is for its `malloc` -/
  | add (i : ℕ) (answer : JobPtr)
  /-- worker `w` takes the mutex -/
  | work (w : ℕ)
  /-- the callback returns in worker `w` -/
  | finish (w : ℕ)
  /-- the next step of `threadpool_destroy` -/
  | destroy
  /-- a thread wakes up for no reason -/
  | wakeProducer (i : ℕ)
  | wakeWorker (w : ℕ)
  | wakeDestroyer

def step (s : Sys J) : Act J → Option (Sys J × List (Event J))
  | .call i work =>
    match s.producers i with
    | .out => some (setProducer s i (.entering work), [])
    | _ => none
  | .add i answer =>
    match s.producers i with
    | .entering work | .woken work => threadpoolAddJob s i work answer
    | _ => none
  | .work w =>
    match s.workers[w]? with
    | some .idle | some .woken => threadpoolFunction s w
    | _ => none
  | .finish w =>
    match s.workers[w]? with
    | some (.running pjob) => finishJob s w pjob
    | _ => none
  | .destroy => threadpoolDestroy s
  | .wakeProducer i => some (setProducer s i (s.producers i).wake, [])
  | .wakeWorker w => (s.workers[w]?).map fun worker => (setWorker s w worker.wake, [])
  | .wakeDestroyer => some (signalEmpty s, [])

end MmorpgServer.ThreadPool
