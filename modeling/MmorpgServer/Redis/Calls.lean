import MmorpgServer.Redis.Model

/-!
# Calls and what they return

The data operations of `CacheConn` return strings, numbers, truth values and containers. `Result`
has all of them, so that a statement can be about every operation. What distinguishes the
operations is what they send, what they return without a reply, and what they make of a reply.

## Main definitions

* `Result`, `run` — what a call returns, and a call
* `Call.fail`, `Call.cmd`, `Call.result` — what distinguishes the operations

## Main results

* `step_eq_run` — the machine makes these calls
* `run_eq_operation` — a data operation is determined by what distinguishes it
* `step_cases` — what a call does
* `operation_sent`, `operation_unready` — an operation with a connection, and without one
* `operation_not_sent` — an operation without a command
-/

namespace MmorpgServer.Redis

/-- What a call returns. A map or a list is the container of the caller behind the call. -/
inductive Result where
  | unit
  | code (ret : ℤ)
  | str (s : Bytes)
  | long (n : Int64)
  | bool (b : Bool)
  | map (ok : Bool) (m : StrMap)
  | list (ok : Bool) (l : List Bytes)

/-- A call whose value is made a `Result` -/
def returns {α : Type} (wrap : α → Result) (r : Option (CacheConn × α × List Event)) :
    Option (CacheConn × Result × List Event) :=
  r.map fun r => (r.1, wrap r.2.1, r.2.2)

/-- A bool that is returned with the map of the caller -/
def mapResult (r : Bool × StrMap) : Result := .map r.1 r.2

/-- A bool that is returned with the list of the caller -/
def listResult (r : Bool × List Bytes) : Result := .list r.1 r.2

/-- A call, with what it returns -/
def run (s : CacheConn) (act : Call × Env) : Option (CacheConn × Result × List Event) :=
  let e := act.2
  match act.1 with
  | .init => returns .code (init s e)
  | .deInit => some ((deInit s).1, .unit, (deInit s).2)
  | .get key => returns .str (get key s e)
  | .set key value => returns .str (set key value s e)
  | .setex key timeout value => returns .str (setex key timeout value s e)
  | .mget keys retValue => returns mapResult (mget keys retValue s e)
  | .incr key => returns .long (incr key s e)
  | .decr key => returns .long (decr key s e)
  | .incrBy key value => returns .long (incrBy key value s e)
  | .isExists key => returns .bool (isExists key s e)
  | .del key => returns .long (del key s e)
  | .hdel key field => returns .long (hdel key field s e)
  | .hget key field => returns .str (hget key field s e)
  | .hgetAll key retValue => returns mapResult (hgetAll key retValue s e)
  | .hset key field value => returns .long (hset key field value s e)
  | .hincrBy key field value => returns .long (hincrBy key field value s e)
  | .hmset key hash => returns .str (hmset key hash s e)
  | .hmget key fields retValue => returns listResult (hmget key fields retValue s e)
  | .lpush key value => returns .long (lpush key value s e)
  | .rpush key value => returns .long (rpush key value s e)
  | .llen key => returns .long (llen key s e)
  | .lrange key start stop retValue => returns listResult (lrange key start stop retValue s e)
  | .flushdb => returns .bool (flushdb s e)

/-- The machine makes these calls. -/
theorem step_eq_run (s : CacheConn) (act : Call × Env) :
    step s act = (run s act).map fun r => (r.1, r.2.2) := by
  have hafter : ∀ {α : Type} (wrap : α → Result) (r : Option (CacheConn × α × List Event)),
      after r = (returns wrap r).map fun r => (r.1, r.2.2) := by
    intro α wrap r
    cases r <;> rfl
  obtain ⟨call, e⟩ := act
  cases call <;> first | exact hafter _ _ | rfl

/-! ### What distinguishes the operations -/

/-- The operation is one on data: neither `Init` nor `DeInit`. -/
def Call.IsData : Call → Prop
  | .init | .deInit => False
  | _ => True

/-- What an operation returns when there is no connection, or no reply comes -/
def Call.fail : Call → Result
  | .init | .deInit => .unit
  | .get _ | .set _ _ | .setex _ _ _ | .hget _ _ | .hmset _ _ => .str []
  | .mget _ retValue | .hgetAll _ retValue => .map false retValue
  | .hmget _ _ retValue | .lrange _ _ _ retValue => .list false retValue
  | .isExists _ | .flushdb => .bool false
  | .del _ | .hdel _ _ => .long 0
  | .incr _ | .decr _ | .incrBy _ _ | .hset _ _ _ | .hincrBy _ _ _ | .lpush _ _ | .rpush _ _
  | .llen _ => .long (-1)

/-- What an operation gives to the library -/
def Call.cmd : Call → Option Formatted
  | .init | .deInit => none
  | .mget keys _ =>
    if keys = [] ∨ (bytes " ").intercalate keys = [] then none
    else some (redisvFormatCommand (bytes "MGET " ++ (bytes " ").intercalate keys) [])
  | .get key => some (assemble [bytes "GET", cstr key])
  | .set key value => some (assemble [bytes "SET", cstr key, cstr value])
  | .setex key timeout value =>
    some (assemble [bytes "SETEX", cstr key, decimal timeout.toInt, cstr value])
  | .incr key => some (assemble [bytes "INCR", cstr key])
  | .decr key => some (assemble [bytes "DECR", cstr key])
  | .incrBy key value => some (assemble [bytes "INCRBY", cstr key, decimal value.toInt])
  | .isExists key => some (assemble [bytes "EXISTS", cstr key])
  | .del key => some (assemble [bytes "DEL", cstr key])
  | .hdel key field => some (assemble [bytes "HDEL", cstr key, cstr field])
  | .hget key field => some (assemble [bytes "HGET", cstr key, cstr field])
  | .hgetAll key _ => some (assemble [bytes "HGETALL", cstr key])
  | .hset key field value => some (assemble [bytes "HSET", cstr key, cstr field, cstr value])
  | .hincrBy key field value =>
    some (assemble [bytes "HINCRBY", cstr key, cstr field, decimal value.toInt])
  | .hmset key hash =>
    some (assembleSds ((bytes "HMSET" :: key :: hash.flatMap fun p => [p.1, p.2]).map cstr))
  | .hmget key fields _ => some (assembleSds ((bytes "HMGET" :: key :: fields).map cstr))
  | .lpush key value => some (assemble [bytes "LPUSH", cstr key, cstr value])
  | .rpush key value => some (assemble [bytes "RPUSH", cstr key, cstr value])
  | .llen key => some (assemble [bytes "LLEN", cstr key])
  | .lrange key start stop _ =>
    some (assemble
      [bytes "LRANGE", cstr key, decimal start.toInt32.toInt, decimal stop.toInt32.toInt])
  | .flushdb => some (assemble [bytes "FLUSHDB"])

/-- What an operation makes of a reply -/
def Call.result : Call → Reply → Option Result
  | .init, _ | .deInit, _ => none
  | .get _, reply | .hget _ _, reply => (appendString reply).map .str
  | .set _ _, reply | .setex _ _ _, reply | .hmset _ _, reply => (append reply).map .str
  | .mget keys retValue, .array element =>
    (mgetLoop keys element 0 retValue).map fun m => .map true m
  | .mget _ retValue, _ => some (.map true retValue)
  | .hgetAll _ retValue, .array element =>
    some (.map true (if element.length % 2 = 0 then insertPairs element retValue else retValue))
  | .hgetAll _ retValue, _ => some (.map true retValue)
  | .hmget _ _ retValue, reply | .lrange _ _ _ retValue, reply =>
    (pushAll retValue reply).map listResult
  | .isExists _, reply => some (.bool (reply.long ≠ 0))
  | .flushdb, .string str => some (.bool (str.take 2 = bytes "OK"))
  | .flushdb, _ => some (.bool false)
  | .incr _, reply | .decr _, reply | .incrBy _ _, reply | .del _, reply | .hdel _ _, reply
  | .hset _ _ _, reply | .hincrBy _ _ _, reply | .lpush _ _, reply | .rpush _ _, reply
  | .llen _, reply => (integer reply).map .long

section Operation

variable {α : Type} {fail : α} {cmd : Option Formatted} {result : Reply → Option α}
  {s s' s₁ : CacheConn} {c : RedisContext} {e : Env} {ret : ℤ} {evs evs₁ : List Event} {call : Call}
  {argv : List Bytes}

/-- An operation whose value is made another one is an operation with that value. -/
theorem returns_operation {wrap : α → Result} {fail' : Result} {cmd' : Option Formatted}
    {result' : Reply → Option Result} (hfail : wrap fail = fail') (hcmd : cmd = cmd')
    (hresult : ∀ reply, (result reply).map wrap = result' reply) :
    returns wrap (operation fail cmd result s e) = operation fail' cmd' result' s e := by
  subst hfail hcmd
  obtain rfl : (fun reply => (result reply).map wrap) = result' := funext hresult
  unfold operation
  cases init s e with
  | none => rfl
  | some r =>
    obtain ⟨s₁, ret, evs⟩ := r
    simp only [Option.bind_eq_bind, Option.bind_some]
    split_ifs with hret
    · rfl
    · cases cmd with
      | none => rfl
      | some cmd =>
        cases s₁.pContext with
        | none => rfl
        | some c =>
          simp only [Option.bind_some]
          cases redisCommand c cmd e.answer with
          | none => rfl
          | some r =>
            obtain ⟨c', reply, sent⟩ := r
            cases reply with
            | none => rfl
            | some reply =>
              simp only [Option.bind_some]
              cases result reply <;> rfl

/-- Every data operation is determined by what it sends, and what it makes of a reply. -/
theorem run_eq_operation (h : call.IsData) (s : CacheConn) (e : Env) :
    run s (call, e) = operation call.fail call.cmd call.result s e := by
  cases call with
  | init => exact h.elim
  | deInit => exact h.elim
  | mget keys retValue =>
    show returns mapResult (operation _ _ _ s e) = _
    refine returns_operation rfl rfl fun reply => ?_
    cases reply with
    | array element =>
      show Option.map mapResult (Option.bind (mgetLoop keys element 0 retValue) _) = _
      cases hloop : mgetLoop keys element 0 retValue <;> simp [Call.result, hloop, mapResult]
    | _ => rfl
  | _ =>
    simp only [run, get, set, setex, incr, decr, incrBy, isExists, del, hdel, hget, hgetAll, hset,
      hincrBy, hmset, hmget, lpush, rpush, llen, lrange, flushdb, command]
    apply returns_operation
    · rfl
    · rfl
    · intro reply
      cases reply <;> rfl

/-! ### Steps -/

/-- What an operation does behind `Init`: nothing; or it sends a command, perhaps, on the
connection of the object, and keeps it or drops it. -/
theorem operation_cases {r : α} (h : operation fail cmd result s e = some (s', r, evs)) :
    ∃ s₁ ret evs₁, init s e = some (s₁, ret, evs₁) ∧ ((s' = s₁ ∧ evs = evs₁) ∨
      ∃ c, ret = 0 ∧ s₁.pContext = some c ∧ ∃ sent : Option (List Bytes),
        (s' = s₁ ∧ evs = evs₁ ++ (sent.map (Event.data c.id)).toList) ∨
        (s' = { s₁ with pContext := none } ∧
          evs = evs₁ ++ (sent.map (Event.data c.id)).toList ++ [.free c.id])) := by
  obtain ⟨⟨s₁, ret, evs₁⟩, hinit, h⟩ := Option.bind_eq_some_iff.mp h
  refine ⟨s₁, ret, evs₁, hinit, ?_⟩
  dsimp only at h
  split_ifs at h with hret
  · cases h
    exact Or.inl ⟨rfl, rfl⟩
  · cases cmd with
    | none =>
      cases h
      exact Or.inl ⟨rfl, rfl⟩
    | some cmd =>
      obtain ⟨c, hctx, h⟩ := Option.bind_eq_some_iff.mp h
      obtain ⟨⟨c', reply, sent⟩, hcmd, h⟩ := Option.bind_eq_some_iff.mp h
      obtain ⟨hid, -, -, hkept⟩ := redisCommand_spec hcmd
      refine Or.inr ⟨c, not_not.mp hret, hctx, sent, ?_⟩
      rw [← hid]
      cases reply with
      | none =>
        cases h
        exact Or.inr ⟨rfl, rfl⟩
      | some reply =>
        obtain ⟨r', -, h⟩ := Option.bind_eq_some_iff.mp h
        cases h
        -- a reply leaves the connection as it was
        obtain rfl : c' = c := hkept (by simp)
        exact Or.inl ⟨by rw [← hctx], rfl⟩

/-- A call is `DeInit`, or `Init`, or `Init` and what an operation does behind it. -/
theorem step_cases {act : Call × Env} (hone : step s act = some (s', evs)) :
    (act.1 = .deInit ∧ deInit s = (s', evs)) ∨
      act.1 ≠ .deInit ∧ ∃ s₁ ret evs₁, init s act.2 = some (s₁, ret, evs₁) ∧
        ((s' = s₁ ∧ evs = evs₁) ∨
        ∃ c, ret = 0 ∧ s₁.pContext = some c ∧ ∃ sent : Option (List Bytes),
          (s' = s₁ ∧ evs = evs₁ ++ (sent.map (Event.data c.id)).toList) ∨
          (s' = { s₁ with pContext := none } ∧
            evs = evs₁ ++ (sent.map (Event.data c.id)).toList ++ [.free c.id])) := by
  rw [step_eq_run] at hone
  obtain ⟨⟨u, r, evs'⟩, hrun, heq⟩ := Option.map_eq_some_iff.mp hone
  cases heq
  obtain ⟨call, e⟩ := act
  by_cases hdata : call.IsData
  · rw [run_eq_operation hdata] at hrun
    refine Or.inr ⟨?_, operation_cases hrun⟩
    rintro rfl
    exact hdata
  · cases call with
    | init =>
      obtain ⟨⟨s₁, ret, evs₁⟩, hinit, heq⟩ := Option.map_eq_some_iff.mp hrun
      cases heq
      exact Or.inr ⟨nofun, s₁, ret, evs₁, hinit, Or.inl ⟨rfl, rfl⟩⟩
    | deInit =>
      cases hrun
      exact Or.inl ⟨rfl, rfl⟩
    | _ => exact absurd trivial hdata

/-! ### With and without a connection -/

/-- When `Init` succeeds with a connection that has seen no error, the command is sent. -/
theorem operation_sent (hinit : init s e = some (s₁, 0, evs))
    (hctx : s₁.pContext = some c) (herr : c.err = false) :
    operation fail (some (.ok argv)) result s e =
      match e.answer with
      | none => some ({ s₁ with pContext := none }, fail,
          evs ++ [.data c.id argv, .free c.id])
      | some reply => (result reply).map fun r => (s₁, r, evs ++ [.data c.id argv]) := by
  obtain ⟨pContext, lastConnectTime, dbIndex, password, made⟩ := s₁
  obtain rfl : pContext = some c := hctx
  unfold operation
  rw [hinit]
  cases hanswer : e.answer with
  | none => simp [redisCommand, herr]
  | some reply => cases hresult : result reply <;> simp [redisCommand, herr, hresult]

/-- Without a command that is well-formed, an operation fails if it returns, and sends nothing. -/
theorem operation_not_sent {r : α} (hinit : init s e = some (s₁, 0, evs₁))
    (hcmd : ∀ argv, cmd ≠ some (.ok argv))
    (h : operation fail cmd result s e = some (s', r, evs)) :
    r = fail ∧ (evs = evs₁ ∨ ∃ c, evs = evs₁ ++ [.free c]) := by
  unfold operation at h
  simp only [hinit, Option.bind_eq_bind, Option.bind_some, ne_eq, not_true_eq_false, if_false] at h
  cases cmd with
  | none =>
    cases h
    exact ⟨rfl, .inl rfl⟩
  | some cmd =>
    obtain ⟨c', -, h⟩ := Option.bind_eq_some_iff.mp h
    cases cmd with
    | ok argv => exact absurd rfl (hcmd argv)
    | invalid | memory =>
      cases h
      exact ⟨rfl, .inr ⟨c'.id, by simp⟩⟩
    | undefined => cases h

/-- With a connection that is there, `Init` succeeds. -/
theorem init_ready (hctx : s.pContext = some c) :
    init s e = some (s, 0, [.init (some c.id) 0]) := by
  unfold init
  rw [hctx]

/-- When `Init` fails, nothing is sent. -/
theorem operation_unready (hinit : init s e = some (s', ret, evs)) (hret : ret ≠ 0) :
    operation fail cmd result s e = some (s', fail, evs) := by
  unfold operation
  rw [hinit]
  simp only [Option.bind_eq_bind, Option.bind_some, if_pos hret]
  rfl

end Operation

end MmorpgServer.Redis
