import MmorpgServer.Redis.Hiredis
import Mathlib.Logic.Function.Basic

/-!
# The connection of `CachePool.cpp`

A translation of `CacheConn`. Every operation calls `Init`, which makes a connection if there is
none, sends one command, and drops the connection if no reply comes. What the clock shows, whether
the server can be reached and what it replies are arguments.

## Main definitions

* `CacheConn`, `Env`, `Event` — the object, what its environment does, and what is seen
* `init`, `deInit` — the connection
* `operation`, and the data operations by their names
* `Call`, `step` — the machine
-/

namespace MmorpgServer.Redis

/-! ### Data -/

/-- `CacheConn`, with the number of connections that `redisConnectWithTimeout` has returned -/
structure CacheConn where
  pContext : Option RedisContext
  lastConnectTime : UInt64
  dbIndex : UInt16
  password : Bytes
  made : ℕ

/-- What `redisConnectWithTimeout` returns. -/
inductive Connect where
  | null
  /-- a connection with an error -/
  | failed
  | connected
  deriving DecidableEq

/-- What the environment does in one call. -/
structure Env where
  /-- `time(NULL)` -/
  time : UInt64
  connect : Connect
  /-- the reply to `AUTH` -/
  auth : Option Reply
  /-- the reply to `SELECT` -/
  select : Option Reply
  /-- the reply to the command of the operation -/
  answer : Option Reply

/-- What is seen of a run. -/
inductive Event where
  /-- `redisConnectWithTimeout` returns the connection -/
  | connect (c : ℕ)
  /-- `AUTH` on the connection, and whether it was accepted -/
  | auth (c : ℕ) (ok : Bool)
  /-- `SELECT` of a database on the connection, and whether it was accepted -/
  | select (c : ℕ) (db : Int32) (ok : Bool)
  /-- `Init` returns with this connection -/
  | init (c : Option ℕ) (ret : ℤ)
  /-- the command of an operation is sent -/
  | data (c : ℕ) (argv : List Bytes)
  /-- `redisFree` -/
  | free (c : ℕ)
  deriving DecidableEq

/-- The constructor -/
def create (dbIndex : UInt16) (password : Bytes) : CacheConn where
  pContext := none
  lastConnectTime := 0
  dbIndex := dbIndex
  password := password
  made := 0

/-! ### The connection -/

/-- The command `AUTH` in `Init`, and whether the source goes on. A password is so short that the
length of the command is an `int`. -/
def authenticate (password : Bytes) (c : RedisContext) (answer : Option Reply) :
    Option (RedisContext × Bool) := do
  let (c, reply, _) ← redisCommand c (formatArguments (bytes "AUTH %s") [.str password]) answer
  match reply with
  | none => return (c, false)
  | some reply =>
    if reply.isError then return (c, false) else return ({ c with authed := true }, true)

theorem authenticate_spec {password : Bytes} {c c' : RedisContext} {answer : Option Reply}
    {ok : Bool} (h : authenticate password c answer = some (c', ok)) :
    c'.id = c.id ∧ c'.selected = c.selected ∧ c'.authed = (ok || c.authed) := by
  unfold authenticate at h
  obtain ⟨⟨c₁, reply, sent⟩, hcmd, h⟩ := Option.bind_eq_some_iff.mp h
  obtain ⟨hid, hauthed, hselected, -⟩ := redisCommand_spec hcmd
  cases reply with
  | none =>
    cases h
    exact ⟨hid, hselected, hauthed⟩
  | some reply =>
    dsimp only at h
    split at h <;> cases h
    · exact ⟨hid, hselected, hauthed⟩
    · exact ⟨hid, hselected, rfl⟩

/-- The command `SELECT` in `Init`, with what `Init` returns. It is the database `0`, whatever
the index of the object. -/
def selectDb (c : RedisContext) (answer : Option Reply) : Option (RedisContext × ℤ) := do
  let (c, reply, _) ← redisCommand c (formatArguments (bytes "SELECT %d") [.int 0]) answer
  match reply with
  | none => return (c, 2)
  | some reply => if reply.isOk then return ({ c with selected := some 0 }, 0) else return (c, 2)

theorem selectDb_spec {c c' : RedisContext} {ret : ℤ} {answer : Option Reply}
    (h : selectDb c answer = some (c', ret)) (hnone : c.selected = none) :
    c'.id = c.id ∧ c'.authed = c.authed ∧ (ret = 0 ↔ c'.selected ≠ none) := by
  unfold selectDb at h
  obtain ⟨⟨c₁, reply, sent⟩, hcmd, h⟩ := Option.bind_eq_some_iff.mp h
  obtain ⟨hid, hauthed, hselected, -⟩ := redisCommand_spec hcmd
  cases reply with
  | none =>
    cases h
    exact ⟨hid, hauthed, by simp [hselected, hnone]⟩
  | some reply =>
    dsimp only at h
    split at h <;> cases h
    · exact ⟨hid, hauthed, by simp⟩
    · exact ⟨hid, hauthed, by simp [hselected, hnone]⟩

/-- The rest of `Init`, with a connection that was made -/
def handshake (password : Bytes) (c : RedisContext) (e : Env) :
    Option (RedisContext × ℤ × List Event) := do
  if password = [] then
    let (c, ret) ← selectDb c e.select
    return (c, ret, [.select c.id 0 (ret = 0)])
  else
    let (c, ok) ← authenticate password c e.auth
    if ok then
      let (c, ret) ← selectDb c e.select
      return (c, ret, [.auth c.id true, .select c.id 0 (ret = 0)])
    else
      -- the source returns with the connection in place, here and after `SELECT`
      return (c, -1, [.auth c.id false])

/-- `Init`, with what it returns -/
def init (s : CacheConn) (e : Env) : Option (CacheConn × ℤ × List Event) :=
  match s.pContext with
  | some c => some (s, 0, [.init (some c.id) 0])
  | none =>
    if e.time < s.lastConnectTime + 1 then some (s, 1, [.init none 1])
    else
      let s := { s with lastConnectTime := e.time }
      match e.connect with
      | .null => some (s, 1, [.init none 1])
      | .failed =>
        some ({ s with made := s.made + 1 }, 1, [.connect s.made, .free s.made, .init none 1])
      | .connected => do
        let (c, ret, evs) ← handshake s.password ⟨s.made, false, false, none⟩ e
        return ({ s with pContext := some c, made := s.made + 1 }, ret,
          .connect s.made :: evs ++ [.init (some c.id) ret])

/-- `DeInit`, which is also the body of the destructor -/
def deInit (s : CacheConn) : CacheConn × List Event :=
  match s.pContext with
  | some c => ({ s with pContext := none }, [.free c.id])
  | none => (s, [])

/-! ### Operations -/

/-- What the operations have in common: `fail` is returned when `Init` fails or no reply comes,
and `result` is what becomes of a reply. Without a command, the operation ends behind `Init`. -/
def operation {α : Type} (fail : α) (cmd : Option Formatted) (result : Reply → Option α)
    (s : CacheConn) (e : Env) : Option (CacheConn × α × List Event) := do
  let (s, ret, evs) ← init s e
  if ret ≠ 0 then return (s, fail, evs)
  else
    match cmd with
    | none => return (s, fail, evs)
    | some cmd =>
      let c ← s.pContext
      let (c, reply, sent) ← redisCommand c cmd e.answer
      let evs := evs ++ (sent.map (Event.data c.id)).toList
      match reply with
      | none => return ({ s with pContext := none }, fail, evs ++ [.free c.id])
      | some reply =>
        let r ← result reply
        return ({ s with pContext := some c }, r, evs)

/-- An operation with a format. -/
def command {α : Type} (fmt : String) (args : List Arg) (fail : α) (result : Reply → Option α) :
    CacheConn → Env → Option (CacheConn × α × List Event) :=
  operation fail (some (redisvFormatCommand (bytes fmt) args)) result

/-- `ret_value.append(reply->str, reply->len)` -/
def append (reply : Reply) : Option Bytes := some reply.str

/-- The same for a reply of type `REDIS_REPLY_STRING` -/
def appendString : Reply → Option Bytes
  | .string str => some str
  | _ => some []

/-- `reply->integer` -/
def integer (reply : Reply) : Option Int64 := some reply.long

/-- The contents of a `map<string, string>` -/
abbrev StrMap := Bytes → Option Bytes

/-! #### Strings -/

def get (key : Bytes) := command "GET %s" [.str key] [] appendString

def set (key value : Bytes) := command "SET %s %s" [.str key, .str value] [] append

def setex (key : Bytes) (timeout : Int32) (value : Bytes) :=
  command "SETEX %s %d %s" [.str key, .int timeout, .str value] [] append

/-- The loop of `mget` over the elements, the first being number `i`. -/
def mgetLoop (keys : List Bytes) : (element : List Reply) → (i : ℕ) → StrMap → Option StrMap
  | [], _, retValue => some retValue
  | .string str :: element, i, retValue => do
    let key ← keys[i]?
    mgetLoop keys element (i + 1) (Function.update retValue key (some (cstr str)))
  | _ :: element, i, retValue => mgetLoop keys element (i + 1) retValue

/-- `mget`. The keys are part of the format. -/
def mget (keys : List Bytes) (retValue : StrMap) :=
  let strKey := (bytes " ").intercalate keys
  let cmd := if keys = [] ∨ strKey = [] then none
    else some (redisvFormatCommand (bytes "MGET " ++ strKey) [])
  operation (false, retValue) cmd fun
    | .array element => do return (true, ← mgetLoop keys element 0 retValue)
    | _ => some (true, retValue)

def incr (key : Bytes) := command "INCR %s" [.str key] (-1) integer

def decr (key : Bytes) := command "DECR %s" [.str key] (-1) integer

def incrBy (key : Bytes) (value : Int64) :=
  command "INCRBY %s %ld" [.str key, .long value] (-1) integer

/-! #### Keys -/

def isExists (key : Bytes) :=
  command "EXISTS %s" [.str key] false fun reply => some (reply.long ≠ 0 : Bool)

def del (key : Bytes) := command "DEL %s" [.str key] 0 integer

/-! #### Hashes -/

def hdel (key field : Bytes) := command "HDEL %s %s" [.str key, .str field] 0 integer

def hget (key field : Bytes) := command "HGET %s %s" [.str key, .str field] [] appendString

/-- `insert` of the pairs of a reply; a key that is in the map keeps its value. -/
def insertPairs : List Reply → StrMap → StrMap
  | field :: value :: element, m =>
    insertPairs element
      (if m field.str = none then Function.update m field.str (some value.str) else m)
  | _, m => m

def hgetAll (key : Bytes) (retValue : StrMap) :=
  command "HGETALL %s" [.str key] (false, retValue) fun
    | .array element =>
      some (true, if element.length % 2 = 0 then insertPairs element retValue else retValue)
    | _ => some (true, retValue)

def hset (key field value : Bytes) :=
  command "HSET %s %s %s" [.str key, .str field, .str value] (-1) integer

def hincrBy (key field : Bytes) (value : Int64) :=
  command "HINCRBY %s %s %ld" [.str key, .str field, .long value] (-1) integer

/-- `hmset`; `hash` are the entries of the map, in its order. -/
def hmset (key : Bytes) (hash : List (Bytes × Bytes)) :=
  let argv := bytes "HMSET" :: key :: hash.flatMap fun p => [p.1, p.2]
  operation [] (some (redisAppendCommandArgv argv)) append

/-- `push_back` of the elements of a reply -/
def pushAll (retValue : List Bytes) : Reply → Option (Bool × List Bytes)
  | .array element => some (true, retValue ++ element.map Reply.str)
  | _ => some (true, retValue)

def hmget (key : Bytes) (fields retValue : List Bytes) :=
  operation (false, retValue) (some (redisAppendCommandArgv (bytes "HMGET" :: key :: fields)))
    (pushAll retValue)

/-! #### Lists -/

def lpush (key value : Bytes) := command "LPUSH %s %s" [.str key, .str value] (-1) integer

def rpush (key value : Bytes) := command "RPUSH %s %s" [.str key, .str value] (-1) integer

def llen (key : Bytes) := command "LLEN %s" [.str key] (-1) integer

def lrange (key : Bytes) (start stop : Int64) (retValue : List Bytes) :=
  command "LRANGE %s %d %d" [.str key, .long start, .long stop] (false, retValue)
    (pushAll retValue)

def flushdb :=
  command "FLUSHDB" [] false fun
    | .string str => some (str.take 2 = bytes "OK" : Bool)
    | _ => some false

/-! ### The machine -/

/-- A call of a function of the object. -/
inductive Call where
  | init
  | deInit
  | get (key : Bytes)
  | set (key value : Bytes)
  | setex (key : Bytes) (timeout : Int32) (value : Bytes)
  | mget (keys : List Bytes) (retValue : StrMap)
  | incr (key : Bytes)
  | decr (key : Bytes)
  | incrBy (key : Bytes) (value : Int64)
  | isExists (key : Bytes)
  | del (key : Bytes)
  | hdel (key field : Bytes)
  | hget (key field : Bytes)
  | hgetAll (key : Bytes) (retValue : StrMap)
  | hset (key field value : Bytes)
  | hincrBy (key field : Bytes) (value : Int64)
  | hmset (key : Bytes) (hash : List (Bytes × Bytes))
  | hmget (key : Bytes) (fields retValue : List Bytes)
  | lpush (key value : Bytes)
  | rpush (key value : Bytes)
  | llen (key : Bytes)
  | lrange (key : Bytes) (start stop : Int64) (retValue : List Bytes)
  | flushdb

/-- What a call leaves behind, without what it returns -/
def after {α : Type} (r : Option (CacheConn × α × List Event)) : Option (CacheConn × List Event) :=
  r.map fun r => (r.1, r.2.2)

/-- A call, and what the environment does in it. -/
def step (s : CacheConn) (act : Call × Env) : Option (CacheConn × List Event) :=
  let e := act.2
  match act.1 with
  | .init => after (init s e)
  | .deInit => some (deInit s)
  | .get key => after (get key s e)
  | .set key value => after (set key value s e)
  | .setex key timeout value => after (setex key timeout value s e)
  | .mget keys retValue => after (mget keys retValue s e)
  | .incr key => after (incr key s e)
  | .decr key => after (decr key s e)
  | .incrBy key value => after (incrBy key value s e)
  | .isExists key => after (isExists key s e)
  | .del key => after (del key s e)
  | .hdel key field => after (hdel key field s e)
  | .hget key field => after (hget key field s e)
  | .hgetAll key retValue => after (hgetAll key retValue s e)
  | .hset key field value => after (hset key field value s e)
  | .hincrBy key field value => after (hincrBy key field value s e)
  | .hmset key hash => after (hmset key hash s e)
  | .hmget key fields retValue => after (hmget key fields retValue s e)
  | .lpush key value => after (lpush key value s e)
  | .rpush key value => after (rpush key value s e)
  | .llen key => after (llen key s e)
  | .lrange key start stop retValue => after (lrange key start stop retValue s e)
  | .flushdb => after (flushdb s e)

end MmorpgServer.Redis
