import MmorpgServer.ConnPool.Clients

/-!
# The connection pool of `DBPool.cpp`

A translation of `CDBPool` with any number of clients, each a thread. A step of a client is all
that it does while it has the mutex; a connection is made within such a step, and whether that
succeeds is part of the label. The members of the pool are `none` when it has been destroyed.

## Main definitions

* `CDBPool`, `Sys` — the pool, its connections and its clients
* `init`, `getDBConn`, `relDBConn`, `destroy`
* `Act`, `step` — the machine
-/

namespace MmorpgServer.ConnPool.DB

open CondVar

def minDbConnCnt : ℤ := 2

/-- `CDBPool`, without the data for the server -/
structure CDBPool where
  dbCurConnCnt : ℤ
  dbMaxConnCnt : ℤ
  freeList : List ConnPtr
  usedList : List ConnPtr
  abortRequest : Bool

/-- What a client in `GetDBConn` remembers: its argument, and whether its wait has timed out,
which only a wait with a limit does. -/
structure Call where
  timeoutMs : ℤ
  expired : Bool
  timed : expired → 0 ≤ timeoutMs
  deriving DecidableEq

structure Sys where
  pool : Option CDBPool
  /-- the connection objects that exist -/
  live : List ℕ
  clients : List (Waiter Call)
  held : Held

/-! ### Construction -/

/-- The constructor -/
def create (clients : ℕ) (maxConnCnt : ℤ) : Sys where
  pool := some
    { dbCurConnCnt := minDbConnCnt, dbMaxConnCnt := maxConnCnt, freeList := [], usedList := [],
      abortRequest := false }
  live := []
  clients := List.replicate clients .out
  held := []

/-- The loop of `Init`, with `n` connections to go. -/
def initLoop (pool : CDBPool) (live : List ℕ) :
    ℕ → List Attempt → Option (CDBPool × List ℕ × ℤ)
  | 0, _ => some (pool, live, 0)
  | _ + 1, [] => none
  | n + 1, t :: attempts =>
    -- `new` returns no object that exists
    if t.conn ∈ live then none
    else if t.ret ≠ 0 then some (pool, live, t.ret)
    else
      initLoop { pool with freeList := pool.freeList ++ [some t.conn] } (t.conn :: live) n attempts

/-- The loop puts what it makes at the end of the free list. -/
theorem initLoop_makes {pool pool' : CDBPool} {live live' : List ℕ} {n : ℕ}
    {attempts : List Attempt} {ret : ℤ}
    (hrun : initLoop pool live n attempts = some (pool', live', ret)) :
    ∃ made, Makes live n attempts made ∧
      pool' = { pool with freeList := pool.freeList ++ made.map some } ∧
      live' = made.reverse ++ live ∧ (ret = 0 → made.length = n) ∧
      (ret ≠ 0 → made.length < n) := by
  obtain ⟨made, hmakes, rfl, hrest⟩ := @exists_makes CDBPool initLoop
    (fun pool conn => { pool with freeList := pool.freeList ++ [some conn] }) (fun t => t.ret)
    (fun _ _ _ => rfl) (fun _ _ _ => rfl) (fun _ _ _ _ _ => rfl) (fun _ hne => hne)
    _ _ _ _ _ _ _ hrun
  refine ⟨made, hmakes, ?_, hrest⟩
  clear hmakes hrest hrun
  induction made generalizing pool with
  | nil => simp
  | cons conn made ih =>
    rw [List.foldl_cons, ih]
    simp

/-- `Init`, with what it returns -/
def init (s : Sys) (attempts : List Attempt) : Option (Sys × ℤ) := do
  let pool ← s.pool
  let (pool, live, ret) ← initLoop pool s.live pool.dbCurConnCnt.toNat attempts
  return ({ s with pool := some pool, live := live }, ret)

/-! ### `GetDBConn` -/

def setClient (s : Sys) (i : ℕ) (w : Waiter Call) : Sys := { s with clients := s.clients.set i w }

/-- `GetDBConn` returns `NULL`. -/
def getNull (s : Sys) (i : ℕ) : Option (Sys × List Event) :=
  some (setClient s i .out, [.got i none])

/-- The end of `GetDBConn`: the first free connection. To take it from an empty list is a
fault. -/
def takeFront (s : Sys) (pool : CDBPool) (i : ℕ) : Option (Sys × List Event) :=
  match pool.freeList with
  | [] => none
  | conn :: freeList =>
    let pool := { pool with freeList := freeList, usedList := pool.usedList ++ [conn] }
    some (setClient { s with pool := some pool, held := hold s.held i conn } i .out,
      [.got i conn])

/-- `GetDBConn` when it has waited. -/
def afterWait (s : Sys) (pool : CDBPool) (i : ℕ) (call : Call) : Option (Sys × List Event) :=
  if 0 ≤ call.timeoutMs ∧ pool.freeList = [] then getNull s i
  else if pool.abortRequest then getNull s i
  else takeFront s pool i

/-- The loop of `wait` and `wait_for`: go on if the predicate holds or the time is over. -/
def waitLoop (s : Sys) (pool : CDBPool) (i : ℕ) (call : Call) : Option (Sys × List Event) :=
  -- the predicate is tested before the first wait and after every wake-up
  if pool.freeList ≠ [] ∨ pool.abortRequest ∨ call.expired then afterWait s pool i call
  else some (setClient s i (.asleep call), [])

/-- The branch of `GetDBConn` that makes a connection. -/
def grow (s : Sys) (pool : CDBPool) (i : ℕ) (t : Attempt) : Option (Sys × List Event) :=
  if t.conn ∈ s.live then none
  else if t.ret ≠ 0 then getNull s i
  else
    let pool := { pool with
      freeList := pool.freeList ++ [some t.conn], dbCurConnCnt := pool.dbCurConnCnt + 1 }
    takeFront { s with live := t.conn :: s.live } pool i

/-- `GetDBConn` from its start -/
def getDBConn (s : Sys) (i : ℕ) (call : Call) (t : Attempt) : Option (Sys × List Event) := do
  let pool ← s.pool
  if pool.abortRequest then getNull s i
  else if pool.freeList = [] then
    if pool.dbCurConnCnt ≥ pool.dbMaxConnCnt then waitLoop s pool i call
    else grow s pool i t
  else takeFront s pool i

/-- `GetDBConn` when the mutex has been taken again -/
def resumeWait (s : Sys) (i : ℕ) (call : Call) : Option (Sys × List Event) := do
  let pool ← s.pool
  waitLoop s pool i call

/-! ### `RelDBConn` and the destructor -/

/-- `RelDBConn`; `k` is the client that is woken -/
def relDBConn (s : Sys) (i : ℕ) (conn : ConnPtr) (k : ℕ) : Option (Sys × List Event) := do
  let pool ← s.pool
  let held := unhold s.held i conn
  -- a connection that is free already is not released again; only a log entry is made
  if listed pool.freeList conn then
    return ({ s with held := held }, [.rel i conn])
  else
    let pool := { pool with
      usedList := pool.usedList.filter (· ≠ conn), freeList := pool.freeList ++ [conn] }
    let clients ← notifyOne s.clients k
    return ({ s with pool := some pool, clients := clients, held := held }, [.rel i conn])

/-- The loop of the destructor over the free list. To delete what does not exist is a fault. -/
def deleteAll : List ConnPtr → List ℕ → Option (List ℕ)
  | [], live => some live
  | none :: freeList, live => deleteAll freeList live
  | some a :: freeList, live => if a ∈ live then deleteAll freeList (live.erase a) else none

/-- The body of the destructor -/
def destroy (s : Sys) : Option (Sys × List Event) := do
  let pool ← s.pool
  let live ← deleteAll pool.freeList s.live
  let pool := { pool with abortRequest := true, freeList := [] }
  return ({ s with pool := some pool, live := live, clients := notifyAll s.clients }, [])

/-! ### The machine -/

inductive Act where
  /-- client `i` calls `GetDBConn` -/
  | call (i : ℕ) (timeoutMs : ℤ)
  /-- client `i` takes the mutex; `t` is for the connection that it may make -/
  | get (i : ℕ) (t : Attempt)
  /-- the time of a `wait_for` is over -/
  | timeout (i : ℕ)
  /-- client `i` wakes up for no reason -/
  | spurious (i : ℕ)
  /-- client `i` calls `RelDBConn`, which may wake client `k` -/
  | rel (i : ℕ) (conn : ConnPtr) (k : ℕ)
  /-- the body of the destructor -/
  | destroy
  /-- the members of the pool are destroyed -/
  | finish

def step (s : Sys) : Act → Option (Sys × List Event)
  | .call i timeoutMs =>
    match s.clients[i]? with
    | some .out => some (setClient s i (.entering ⟨timeoutMs, false, nofun⟩), [])
    | _ => none
  | .get i t =>
    match s.clients[i]? with
    | some (.entering call) => getDBConn s i call t
    | some (.woken call) => resumeWait s i call
    | _ => none
  | .timeout i =>
    match s.clients[i]? with
    | some (.asleep call) | some (.woken call) =>
      if h : 0 ≤ call.timeoutMs then
        some (setClient s i (.woken ⟨call.timeoutMs, true, fun _ => h⟩), [])
      else none
    | _ => none
  | .spurious i =>
    match s.clients[i]? with
    | some (.asleep call) => some (setClient s i (.woken call), [])
    | _ => none
  | .rel i conn k =>
    match s.clients[i]? with
    | some .out => relDBConn s i conn k
    | _ => none
  | .destroy => destroy s
  | .finish => s.pool.map fun _ => ({ s with pool := none }, [])

end MmorpgServer.ConnPool.DB
