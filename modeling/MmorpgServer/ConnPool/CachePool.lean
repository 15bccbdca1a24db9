import MmorpgServer.ConnPool.Clients

/-!
# The connection pool of `CachePool.cpp`

A translation of `CachePool`, in the same terms as `DBPool`. `GetCacheConn` is one loop that
waits without a limit, and connections that are in use are not listed.

## Main definitions

* `CachePool`, `Sys` — the pool, its connections and its clients
* `init`, `getCacheConn`, `relCacheConn`
* `Act`, `step` — the machine
-/

namespace MmorpgServer.ConnPool.Cache

open CondVar

def minCacheConnCnt : ℤ := 2

/-- `CachePool`, without the data for the server -/
structure CachePool where
  curConnCnt : ℤ
  maxConnCnt : ℤ
  freeList : List ConnPtr

structure Sys where
  pool : CachePool
  /-- the connection objects that exist -/
  live : List ℕ
  clients : List (Waiter Unit)
  held : Held

/-! ### Construction -/

/-- The constructor -/
def create (clients : ℕ) (maxConnCnt : ℤ) : Sys where
  pool := { curConnCnt := minCacheConnCnt, maxConnCnt := maxConnCnt, freeList := [] }
  live := []
  clients := List.replicate clients .out
  held := []

/-- The loop of `Init`, with `n` connections to go. -/
def initLoop (pool : CachePool) (live : List ℕ) :
    ℕ → List Attempt → Option (CachePool × List ℕ × ℤ)
  | 0, _ => some (pool, live, 0)
  | _ + 1, [] => none
  | n + 1, t :: attempts =>
    if t.conn ∈ live then none
    else if t.ret ≠ 0 then some (pool, live, 1)
    else
      initLoop { pool with freeList := pool.freeList ++ [some t.conn] } (t.conn :: live) n attempts

/-- The loop puts what it makes at the end of the free list. -/
theorem initLoop_makes {pool pool' : CachePool} {live live' : List ℕ} {n : ℕ}
    {attempts : List Attempt} {ret : ℤ}
    (hrun : initLoop pool live n attempts = some (pool', live', ret)) :
    ∃ made, Makes live n attempts made ∧
      pool' = { pool with freeList := pool.freeList ++ made.map some } ∧
      live' = made.reverse ++ live ∧ (ret = 0 → made.length = n) ∧
      (ret ≠ 0 → made.length < n) := by
  obtain ⟨made, hmakes, rfl, hrest⟩ := @exists_makes CachePool initLoop
    (fun pool conn => { pool with freeList := pool.freeList ++ [some conn] }) (fun _ => 1)
    (fun _ _ _ => rfl) (fun _ _ _ => rfl) (fun _ _ _ _ _ => rfl) (fun _ _ => one_ne_zero)
    _ _ _ _ _ _ _ hrun
  refine ⟨made, hmakes, ?_, hrest⟩
  clear hmakes hrest hrun
  induction made generalizing pool with
  | nil => simp
  | cons conn made ih =>
    rw [List.foldl_cons, ih]
    simp

/-- `Init`, with what it returns -/
def init (s : Sys) (attempts : List Attempt) : Option (Sys × ℤ) := do
  let (pool, live, ret) ← initLoop s.pool s.live s.pool.curConnCnt.toNat attempts
  return ({ s with pool := pool, live := live }, ret)

/-! ### `GetCacheConn` and `RelCacheConn` -/

def setClient (s : Sys) (i : ℕ) (w : Waiter Unit) : Sys := { s with clients := s.clients.set i w }

/-- The end of `GetCacheConn`: the first free connection. To take it from an empty list is a
fault. -/
def takeFront (s : Sys) (pool : CachePool) (i : ℕ) : Option (Sys × List Event) :=
  match pool.freeList with
  | [] => none
  | conn :: freeList =>
    let s := { s with pool := { pool with freeList := freeList }, held := hold s.held i conn }
    some (setClient s i .out, [.got i conn])

/-- The branch of `GetCacheConn` that makes a connection. The loop ends then, since the free
list is not empty. -/
def grow (s : Sys) (i : ℕ) (t : Attempt) : Option (Sys × List Event) :=
  if t.conn ∈ s.live then none
  else if t.ret ≠ 0 then some (setClient s i .out, [.got i none])
  else
    let pool := { s.pool with
      freeList := s.pool.freeList ++ [some t.conn], curConnCnt := s.pool.curConnCnt + 1 }
    takeFront { s with live := t.conn :: s.live } pool i

/-- The loop of `GetCacheConn`, entered with the mutex -/
def getCacheConn (s : Sys) (i : ℕ) (t : Attempt) : Option (Sys × List Event) :=
  if s.pool.freeList = [] then
    if s.pool.curConnCnt ≥ s.pool.maxConnCnt then some (setClient s i (.asleep ()), [])
    else grow s i t
  else takeFront s s.pool i

/-- `RelCacheConn`; `k` is the client that is woken -/
def relCacheConn (s : Sys) (i : ℕ) (conn : ConnPtr) (k : ℕ) : Option (Sys × List Event) := do
  let pool := if listed s.pool.freeList conn then s.pool
    else { s.pool with freeList := s.pool.freeList ++ [conn] }
  -- the source signals in either case
  let clients ← notifyOne s.clients k
  return ({ s with pool := pool, clients := clients, held := unhold s.held i conn }, [.rel i conn])

/-! ### The machine -/

inductive Act where
  /-- client `i` calls `GetCacheConn` -/
  | call (i : ℕ)
  /-- client `i` takes the mutex; `t` is for the connection that it may make -/
  | get (i : ℕ) (t : Attempt)
  /-- client `i` wakes up for no reason -/
  | spurious (i : ℕ)
  /-- client `i` calls `RelCacheConn`, which may wake client `k` -/
  | rel (i : ℕ) (conn : ConnPtr) (k : ℕ)

def step (s : Sys) : Act → Option (Sys × List Event)
  | .call i =>
    match s.clients[i]? with
    | some .out => some (setClient s i (.entering ()), [])
    | _ => none
  | .get i t =>
    match s.clients[i]? with
    | some (.entering _) | some (.woken _) => getCacheConn s i t
    | _ => none
  | .spurious i =>
    match s.clients[i]? with
    | some (.asleep call) => some (setClient s i (.woken call), [])
    | _ => none
  | .rel i conn k =>
    match s.clients[i]? with
    | some .out => relCacheConn s i conn k
    | _ => none

end MmorpgServer.ConnPool.Cache
