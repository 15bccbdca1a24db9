import MmorpgServer.Lib.Session

/-!
# Transactions of `CDBConn` in `DBPool.cpp`

A translation of `Init`, `StartTransaction`, `ExecuteUpdate`, `Commit` and `Rollback` over the
client library of MySQL, which is a parameter: its functions are those that the source calls,
and what the source relies on is stated in terms of the session that the server has.

## Main definitions

* `MysqlClient`, `MysqlClient.Lawful` — the library, and what it is documented to do
* `init`, `startTransaction`, `executeUpdate`, `commit`, `rollback`
* `transaction` — the calls of one transaction, with connections lost in between
-/

namespace MmorpgServer.DBConn

open Sql

/-- The client library and the server behind it. What the network and the server do is an
argument: whether the server can be reached, and how it replies. -/
structure MysqlClient (U : Type) where
  Handle : Type
  /-- `mysql_options` with `MYSQL_OPT_RECONNECT` -/
  setReconnect : Handle → Bool → Handle
  /-- `mysql_real_connect`; a failure is `false` -/
  realConnect : Handle → Bool → Handle × Bool
  /-- `mysql_ping` -/
  ping : Handle → Bool → Handle
  /-- `mysql_real_query` -/
  realQuery : Handle → Stmt U → Reply → Handle × ℤ
  /-- `mysql_affected_rows` -/
  affectedRows : Handle → ℤ
  /-- the connection is lost -/
  disconnect : Handle → Handle
  /-- the session of the handle, and what was committed in its sessions -/
  db : Handle → Db U
  /-- the option `MYSQL_OPT_RECONNECT` -/
  reconnect : Handle → Bool

/-- The documented behaviour of the library. -/
structure MysqlClient.Lawful {U : Type} (c : MysqlClient U) : Prop where
  setReconnect_reconnect : ∀ h b, c.reconnect (c.setReconnect h b) = b
  realConnect_reconnect : ∀ h r, c.reconnect (c.realConnect h r).1 = c.reconnect h
  ping_reconnect : ∀ h r, c.reconnect (c.ping h r) = c.reconnect h
  realQuery_reconnect : ∀ h q r, c.reconnect (c.realQuery h q r).1 = c.reconnect h
  disconnect_reconnect : ∀ h, c.reconnect (c.disconnect h) = c.reconnect h
  /-- a lost session discards its open transaction -/
  disconnect_db : ∀ h, c.db (c.disconnect h) = (c.db h).disconnect
  /-- `mysql_ping` silently opens a new session in autocommit mode -/
  ping_db : ∀ h r, c.reconnect h = true → c.db (c.ping h r) = (c.db h).ping r
  realQuery_db : ∀ h q r, c.db (c.realQuery h q r).1 = ((c.db h).query q r).1
  realQuery_ret : ∀ h q r, (c.realQuery h q r).2 = 0 ↔ ((c.db h).query q r).2 = true
  affectedRows_ok : ∀ h q n, (c.db h).session ≠ .lost →
    c.affectedRows (c.realQuery h q (.ok n)).1 = n

variable {U : Type} (c : MysqlClient U)

/-! ### The functions of the source -/

/-- `CDBConn::Init`; `h` is what `mysql_init` returns, and `none` is `NULL`. -/
def init (h : Option c.Handle) (reachable : Bool) : Option c.Handle × ℤ :=
  match h with
  | none => (none, 1)
  | some h =>
    -- the option that makes `mysql_ping` reconnect, set before the connection is made
    let h := c.setReconnect h true
    let (h, connected) := c.realConnect h reachable
    if connected then (some h, 0) else (some h, 2)

/-- A function of `CDBConn` that runs a fixed statement, with what it returns. -/
def runStatement (q : Stmt U) (h : c.Handle) (e : Env) : c.Handle × Bool :=
  let h := c.ping h e.reachable
  let (h, ret) := c.realQuery h q e.reply
  -- a nonzero return of `mysql_real_query` is an error
  if ret ≠ 0 then (h, false) else (h, true)

/-- `StartTransaction` -/
def startTransaction (h : c.Handle) (e : Env) : c.Handle × Bool := runStatement c .start h e

/-- `Commit` -/
def commit (h : c.Handle) (e : Env) : c.Handle × Bool := runStatement c .commit h e

/-- `Rollback` -/
def rollback (h : c.Handle) (e : Env) : c.Handle × Bool := runStatement c .rollback h e

/-- `ExecuteUpdate` -/
def executeUpdate (h : c.Handle) (sql : U) (careAffectedRows : Bool) (e : Env) :
    c.Handle × Bool :=
  let h := c.ping h e.reachable
  let (h, ret) := c.realQuery h (.update sql) e.reply
  if ret ≠ 0 then (h, false)
  else if c.affectedRows h > 0 then (h, true)
  else if careAffectedRows then (h, false)
  else (h, true)

/-! ### Transactions -/

/-- What happens between two calls. -/
def between (h : c.Handle) (e : Env) : c.Handle := if e.lost then c.disconnect h else h

/-- One call of `ExecuteUpdate`. -/
structure Issue (U : Type) where
  sql : U
  careAffectedRows : Bool
  env : Env

/-- A sequence of calls of `ExecuteUpdate`, with what they return. -/
def executeUpdates (h : c.Handle) : List (Issue U) → c.Handle × List Bool
  | [] => (h, [])
  | x :: xs =>
    let r := executeUpdate c (between c h x.env) x.sql x.careAffectedRows x.env
    let rest := executeUpdates r.1 xs
    (rest.1, r.2 :: rest.2)

/-- How a transaction ends. -/
inductive Ending where
  | commit
  | rollback

/-- What the calls of a transaction return. -/
structure Outcome (U : Type) where
  started : Bool
  updated : List Bool
  ended : Bool
  /-- the batches that were committed after `StartTransaction` -/
  batches : List (List U)

/-- `StartTransaction`, the updates, and `Commit` or `Rollback`. -/
def transaction (h : c.Handle) (e₀ : Env) (xs : List (Issue U)) (ending : Ending) (e₁ : Env) :
    Outcome U :=
  let (h₁, started) := startTransaction c (between c h e₀) e₀
  let (h₂, updated) := executeUpdates c h₁ xs
  let (h₃, ended) := match ending with
    | .commit => commit c (between c h₂ e₁) e₁
    | .rollback => rollback c (between c h₂ e₁) e₁
  { started := started
    updated := updated
    ended := ended
    batches := (c.db h₃).committed.drop (c.db h₁).committed.length }

end MmorpgServer.DBConn
