import MmorpgServer.Redis.Context
import MmorpgServer.Redis.DictMap

/-!
# The asynchronous client of `async.c`

A program registers a callback with every command that it sends, and an event loop calls the
client when the socket is ready. Each reply is given to the callback that waits first. A callback
may itself send commands, disconnect, and free the connection.

## Main definitions

* `RedisAsyncContext` — `redisAsyncContext`
* `redisAsyncCommand` — a command and its callback
* `Session`, `Session.step` — a connection in an event loop, callback by callback
-/

namespace MmorpgServer.Redis.Async

open Wire

/-! ### Strings of C -/

/-- `strchr`: the string from the first such byte on -/
def strchr : Bytes → UInt8 → Option Bytes
  | [], _ => none
  | b :: s, c => if b = c then some (b :: s) else if b = 0 then none else strchr s c

/-- `strncasecmp(s, t, n) == 0`, for a string `t` of `n` bytes without `NUL` -/
def hasPrefixCase (s t : Bytes) : Bool := (s.take t.length).map tolower = t.map tolower

/-- `strcasecmp(s, t) == 0` -/
def eqCase (s t : Bytes) : Bool :=
  (s.takeWhile (· ≠ 0)).map tolower = (t.takeWhile (· ≠ 0)).map tolower

/-- The sign of a number, and what is behind it -/
def numberSign : Bytes → Bool × Bytes
  | 45 :: s => (true, s)
  | 43 :: s => (false, s)
  | s => (false, s)

/-- `strtol` in base ten -/
def strtol (s : Bytes) : ℤ :=
  let (negative, s) := numberSign (s.dropWhile isspace)
  let n : ℤ := Decimal.value (s.takeWhile fun b => 48 ≤ b && b ≤ 57)
  if negative then max (-n) (-2 ^ 63) else min n (2 ^ 63 - 1)

/-- `nextArgument`: the string from an argument on, its length, and what is behind it. The result
is `some none` for `NULL`. -/
def nextArgument (start : Bytes) : Option (Option (Bytes × ℕ × Bytes)) :=
  match if start.head? = some 36 then some start else strchr start 36 with
  | none => some none
  | some p =>
    let len := toInt (strtol p.tail)
    match strchr p 13 with
    | none => none
    | some p =>
      if len < 0 ∨ p.length < 2 + len.toNat + 2 then none
      else some (some (p.drop 2, len.toNat, p.drop (2 + len.toNat + 2)))

/-- An argument is not empty. -/
theorem nextArgument_length_lt {start str next : Bytes} {len : ℕ}
    (h : nextArgument start = some (some (str, len, next))) : next.length < start.length := by
  have hstrchr : ∀ {s p : Bytes} {c : UInt8}, strchr s c = some p → p.length ≤ s.length := by
    intro s p c hp
    induction s with
    | nil => exact absurd hp (by simp [strchr])
    | cons b s ih =>
      rw [strchr] at hp
      split at hp
      · rw [← Option.some.inj hp]
      · split at hp
        · exact absurd hp (by simp)
        · exact (ih hp).trans (Nat.le_succ _)
  unfold nextArgument at h
  split at h
  · exact absurd h (by simp)
  · next p hp =>
    have hle : p.length ≤ start.length := by
      split at hp
      · rw [Option.some.inj hp]
      · exact hstrchr hp
    dsimp only at h
    split at h
    · exact absurd h (by simp)
    · next p' hp' =>
      have hle' := hstrchr hp'
      split at h
      · exact absurd h (by simp)
      · next hfits =>
        obtain ⟨-, -, rfl⟩ := by simpa using h
        rw [List.length_drop]
        omega

/-! ### Callbacks and contexts -/

/-- `redisCallback`, with the number of a function -/
structure RedisCallback where
  fn : Option ℕ
  /-- an `int` that does not overflow: fewer than `2 ^ 31` subscriptions wait to be confirmed -/
  pendingSubs : ℤ
  privdata : ℕ
  deriving DecidableEq

/-- `redisAsyncContext`. The flags are those of its `redisContext`. -/
structure RedisAsyncContext where
  c : Wire.RedisContext
  connected : Bool
  disconnecting : Bool
  freeing : Bool
  inCallback : Bool
  subscribed : Bool
  monitoring : Bool
  err : Option ErrType
  errstr : Bytes
  /-- whether the event loop waits until it can read, and until it can write -/
  reading : Bool
  writing : Bool
  onConnect : Bool
  onDisconnect : Bool
  replies : List RedisCallback
  invalid : List RedisCallback
  channels : Dict Bytes RedisCallback
  patterns : Dict Bytes RedisCallback
  /-- an address that `malloc` has not given yet -/
  fresh : ℕ

/-- `redisAsyncInitialize`, for a connection that does not block -/
def redisAsyncInitialize : RedisAsyncContext where
  c := redisContextInit false
  connected := false
  disconnecting := false
  freeing := false
  inCallback := false
  subscribed := false
  monitoring := false
  err := none
  errstr := []
  reading := false
  writing := false
  onConnect := false
  onDisconnect := false
  replies := []
  invalid := []
  channels := dictCreate
  patterns := dictCreate
  fresh := 0

/-- `redisAsyncSetConnectCallback` -/
def redisAsyncSetConnectCallback (ac : RedisAsyncContext) : RedisAsyncContext × Bool :=
  if ac.onConnect then (ac, false) else ({ ac with onConnect := true, writing := true }, true)

/-- `redisAsyncSetDisconnectCallback` -/
def redisAsyncSetDisconnectCallback (ac : RedisAsyncContext) : RedisAsyncContext × Bool :=
  if ac.onDisconnect then (ac, false) else ({ ac with onDisconnect := true }, true)

/-! ### Commands -/

/-- A callback is registered for one channel, or one pattern. -/
def subscribe (ac : RedisAsyncContext) (pvariant : Bool) (sname : Bytes) (cb : RedisCallback) :
    Option RedisAsyncContext :=
  if pvariant then
    (dictReplace callbackDict ac.patterns sname cb ac.fresh).map fun res =>
      { ac with patterns := res.1, fresh := ac.fresh + 1 }
  else
    (dictReplace callbackDict ac.channels sname cb ac.fresh).map fun res =>
      { ac with channels := res.1, fresh := ac.fresh + 1 }

/-- The loop of `__redisAsyncCommand` over the channels of a subscription. The callback keeps what
was counted for the channels in front. -/
def subscribeLoop (ac : RedisAsyncContext) (pvariant : Bool) (cb : RedisCallback) (p : Bytes) :
    Option RedisAsyncContext :=
  match _h : nextArgument p with
  | none => none
  | some none => some ac
  | some (some (astr, alen, next)) =>
    let sname := astr.take alen
    let cb :=
      match dictFind callbackDict (if pvariant then ac.patterns else ac.channels) sname with
      | some de => { cb with pendingSubs := de.val.pendingSubs + 1 }
      | none => cb
    (subscribe ac pvariant sname cb).bind fun ac => subscribeLoop ac pvariant cb next
termination_by p.length
decreasing_by exact nextArgument_length_lt _h

/-- `__redisAsyncCommand`; the flag is `REDIS_OK`. -/
def redisAsyncFormattedCommand (ac : RedisAsyncContext) (fn : Option ℕ) (privdata : ℕ)
    (cmd : Bytes) : Option (RedisAsyncContext × Bool) :=
  if ac.disconnecting || ac.freeing then some (ac, false)
  else
    let cb : RedisCallback := ⟨fn, 1, privdata⟩
    match nextArgument cmd with
    | none | some none => none
    | some (some (cstr, _, p)) =>
      let hasnext := p.head? = some 36
      let pvariant : Bool := cstr.head?.map tolower = some 112
      let cstr := if pvariant then cstr.tail else cstr
      let append (ac : RedisAsyncContext) : RedisAsyncContext × Bool :=
        ({ ac with c := { ac.c with obuf := ac.c.obuf ++ cmd }, writing := true }, true)
      if hasnext ∧ hasPrefixCase cstr (bytes "subscribe\r\n") then
        (subscribeLoop { ac with subscribed := true } pvariant cb p).map append
      else if hasPrefixCase cstr (bytes "unsubscribe\r\n") then
        if ac.subscribed then some (append ac) else some (ac, false)
      else if hasPrefixCase cstr (bytes "monitor\r\n") then
        some (append { ac with monitoring := true, replies := ac.replies ++ [cb] })
      else if ac.subscribed then some (append { ac with invalid := ac.invalid ++ [cb] })
      else some (append { ac with replies := ac.replies ++ [cb] })

/-- `redisvAsyncCommand` and `redisAsyncCommandArgv` -/
def redisAsyncCommand (ac : RedisAsyncContext) (fn : Option ℕ) (privdata : ℕ) :
    Formatted → Option (RedisAsyncContext × Bool)
  | .ok argv => redisAsyncFormattedCommand ac fn privdata (wire argv)
  | .invalid | .memory => some (ac, false)
  | .undefined => none

/-- `__redisGetSubscribeCallback`: the callback for a message, `none` where an assertion fails -/
def redisGetSubscribeCallback (ac : RedisAsyncContext) (reply : ReplyObject)
    (dstcb : RedisCallback) : Option (RedisAsyncContext × RedisCallback) :=
  match reply with
  | .array (some (.string .string stype) :: some (.string .string sname) :: element) =>
    let pvariant : Bool := stype.head?.map tolower = some 112
    let kind := if pvariant then stype.tail else stype
    let callbacks := if pvariant then ac.patterns else ac.channels
    let update (callbacks : Dict Bytes RedisCallback) : RedisAsyncContext :=
      if pvariant then { ac with patterns := callbacks } else { ac with channels := callbacks }
    match dictFind callbackDict callbacks sname with
    | none => some (ac, dstcb)
    | some de =>
      let cb := if eqCase kind (bytes "subscribe") then
        { de.val with pendingSubs := de.val.pendingSubs - 1 } else de.val
      let callbacks := dictSetHashVal callbacks de.addr cb
      if eqCase kind (bytes "unsubscribe") then
        let ac := update (if cb.pendingSubs = 0 then
          (dictDelete callbackDict callbacks sname).1 else callbacks)
        match element with
        | some (.integer n) :: _ =>
          let last : Bool := n = 0 ∧ ac.channels.used = 0 ∧ ac.patterns.used = 0
          some ({ ac with subscribed := ac.subscribed && !last }, cb)
        | _ => none
      else some (update callbacks, cb)
  | .array _ => none
  | _ =>
    match ac.invalid with
    | cb :: invalid => some ({ ac with invalid }, cb)
    | [] => some (ac, dstcb)

/-! ### The event loop -/

/-- What a program asks of the client -/
inductive UserCall where
  | command (fn : Option ℕ) (privdata : ℕ) (cmd : Formatted)
  | disconnect
  | free
  deriving DecidableEq

/-- Which callbacks are run when a connection is freed -/
inductive Stage where
  | replies
  | invalid
  | channels (it : DictIterator)
  | patterns (it : DictIterator)
  deriving DecidableEq

/-- Where the client is: out of its functions, in the loop of `redisProcessCallbacks`, or in
`__redisAsyncFree`. What is undefined, or fails an assertion, is a crash. -/
inductive Phase where
  | idle
  | processing (cb : RedisCallback)
  | teardown (stage : Stage)
  | freed
  | crashed
  deriving DecidableEq

/-- A connection in an event loop, with what went over its socket, the commands that it took, and
what it did with their callbacks -/
structure Session where
  ac : RedisAsyncContext
  phase : Phase
  sent : Bytes
  received : Bytes
  /-- the commands that were taken -/
  commands : List (List Bytes)
  /-- the callbacks of these commands -/
  callbacks : List RedisCallback
  /-- the replies that were read -/
  given : List ReplyObject
  /-- the callbacks that no longer wait, with their replies -/
  answered : List (RedisCallback × Option ReplyObject)
  /-- the calls of callbacks -/
  runs : List (RedisCallback × Option ReplyObject)
  /-- the status for the callback that is told of the disconnection -/
  disconnected : Option Bool

/-- What `getsockopt` says of a connection that was started -/
inductive SocketCheck where
  | ok
  | inProgress (strerror : Bytes)
  | failed (strerror : Bytes)
  deriving DecidableEq

inductive Label where
  /-- the program calls the client -/
  | call (call : UserCall)
  | setConnectCallback
  | setDisconnectCallback
  /-- the socket is readable, or writable; the script is that of the connect callback -/
  | handleRead (check : SocketCheck) (res : ReadResult) (script : List UserCall)
  | handleWrite (check : SocketCheck) (res : WriteResult) (script : List UserCall)
  /-- the client goes on, with at most one callback -/
  | turn (script : List UserCall)
  deriving DecidableEq

namespace Session

def start : Session := ⟨redisAsyncInitialize, .idle, [], [], [], [], [], [], [], none⟩

/-- `__redisAsyncDisconnect` -/
def redisAsyncDisconnectNow (s : Session) : Session :=
  if s.phase = .crashed then s
  else
    let ac := { s.ac with err := s.ac.c.err, errstr := s.ac.c.errstr }
    if ac.err = none then
      if ac.replies = [] then { s with ac, phase := .teardown .replies }
      else { s with ac, phase := .crashed }
    else { s with ac := { ac with disconnecting := true }, phase := .teardown .replies }

/-- `redisAsyncDisconnect` -/
def redisAsyncDisconnect (s : Session) : Session :=
  let s := { s with ac := { s.ac with disconnecting := true } }
  if !s.ac.inCallback ∧ s.ac.replies = [] then s.redisAsyncDisconnectNow else s

/-- `redisAsyncFree` -/
def redisAsyncFree (s : Session) : Session :=
  let s := { s with ac := { s.ac with freeing := true } }
  if !s.ac.inCallback then { s with phase := .teardown .replies } else s

/-- A call of the program -/
def call (s : Session) : UserCall → Session
  | .command fn privdata cmd =>
    match redisAsyncCommand s.ac fn privdata cmd with
    | none => { s with phase := .crashed }
    | some (ac, false) => { s with ac }
    | some (ac, true) =>
      { s with
        ac
        commands := s.commands ++ Link.appended cmd
        callbacks := s.callbacks ++ [⟨fn, 1, privdata⟩] }
  | .disconnect => s.redisAsyncDisconnect
  | .free => s.redisAsyncFree

/-- `__redisRunCallback`, with what the callback does -/
def redisRunCallback (s : Session) (cb : RedisCallback) (reply : Option ReplyObject)
    (script : List UserCall) : Session :=
  if cb.fn = none then s
  else
    let s := { s with ac := { s.ac with inCallback := true }, runs := s.runs ++ [(cb, reply)] }
    let s := script.foldl call s
    { s with ac := { s.ac with inCallback := false } }

/-- The connect callback and the disconnect callback run without `REDIS_IN_CALLBACK`. The client
goes on behind them, and it must not have been freed. -/
def runOutside (s : Session) (script : List UserCall) : Session :=
  let s' := script.foldl call s
  if s'.phase = s.phase then s' else { s' with phase := .crashed }

/-- `__redisAsyncHandleConnect`; the flag says that the connection is established. -/
def redisAsyncHandleConnect (s : Session) (check : SocketCheck) (script : List UserCall) :
    Session × Bool :=
  if s.ac.connected then (s, true)
  else
    match check with
    | .ok =>
      let s := { s with ac := { s.ac with connected := true } }
      (if s.ac.onConnect then s.runOutside script else s, true)
    | .inProgress strerror =>
      ({ s with ac := { s.ac with c := redisSetError s.ac.c (some .io) strerror } }, false)
    | .failed strerror =>
      let s := { s with ac := { s.ac with c := redisSetError s.ac.c (some .io) strerror } }
      let s := if s.ac.onConnect then s.runOutside script else s
      (s.redisAsyncDisconnectNow, false)

/-- `redisAsyncHandleRead`, up to the loop of `redisProcessCallbacks` -/
def redisAsyncHandleRead (s : Session) (check : SocketCheck) (res : ReadResult)
    (script : List UserCall) : Session :=
  match s.redisAsyncHandleConnect check script with
  | (s, false) => s
  | (s, true) =>
    if s.phase = .crashed then s
    else
      let s' := { s with received := s.received ++ Link.arrived s.ac.c res }
      match redisBufferRead s.ac.c res with
      | (c, false) => redisAsyncDisconnectNow { s' with ac := { s.ac with c } }
      | (c, true) =>
        { s' with ac := { s.ac with c, reading := true }, phase := .processing ⟨none, 0, 0⟩ }

/-- `redisAsyncHandleWrite`, where the socket writes no more than it is given -/
def redisAsyncHandleWrite (s : Session) (check : SocketCheck) (res : WriteResult)
    (script : List UserCall) : Option Session :=
  match s.redisAsyncHandleConnect check script with
  | (s, false) => some s
  | (s, true) =>
    if s.phase = .crashed then some s
    else if Link.writable s.ac.c res = false then none
    else
      let s' := { s with sent := s.sent ++ Link.taken s.ac.c res }
      match redisBufferWrite s.ac.c res with
      | (c, none) => some (redisAsyncDisconnectNow { s' with ac := { s.ac with c } })
      | (c, some done) =>
        some { s' with ac := { s.ac with c, writing := !done, reading := true } }

/-- The callback is run, and the loop of `redisProcessCallbacks` goes on unless the connection is
to be freed. -/
def deliver (s : Session) (cb : RedisCallback) (reply : ReplyObject) (script : List UserCall) :
    Session :=
  if cb.fn = none then { s with phase := .processing cb }
  else
    let s := s.redisRunCallback cb (some reply) script
    if s.phase = .crashed then s
    else if s.ac.freeing then { s with phase := .teardown .replies }
    else { s with phase := .processing cb }

/-- The loop of `redisProcessCallbacks`, once; `cb` is its local variable. -/
def redisProcessCallbacks (s : Session) (cb : RedisCallback) (script : List UserCall) : Session :=
  match redisGetReplyFromReader s.ac.c with
  | (c, _, false) => redisAsyncDisconnectNow { s with ac := { s.ac with c } }
  | (c, none, true) =>
    let s := { s with ac := { s.ac with c } }
    if s.ac.disconnecting ∧ s.ac.c.obuf.length = 0 ∧ s.ac.replies = [] then
      s.redisAsyncDisconnectNow
    else if s.ac.monitoring then
      { s with ac := { s.ac with replies := s.ac.replies ++ [cb] }, phase := .idle }
    else { s with phase := .idle }
  | (c, some reply, true) =>
    let s := { s with ac := { s.ac with c }, given := s.given ++ [reply] }
    match s.ac.replies with
    | cb :: replies =>
      deliver { s with ac := { s.ac with replies }, answered := s.answered ++ [(cb, some reply)] }
        cb reply script
    | [] =>
      match reply with
      | .string .error str =>
        redisAsyncDisconnectNow { s with ac := { s.ac with
          c := redisSetError c (some .other) (str.takeWhile (· ≠ 0)) } }
      | reply =>
        if s.ac.subscribed then
          match redisGetSubscribeCallback s.ac reply cb with
          | none => { s with phase := .crashed }
          | some (ac, cb) => deliver { s with ac } cb reply script
        else if s.ac.monitoring then s.deliver cb reply script
        else { s with phase := .crashed }

/-- The end of `__redisAsyncFree` -/
def freeSelf (s : Session) (script : List UserCall) : Session :=
  if s.ac.onDisconnect ∧ s.ac.connected then
    let s := { s with disconnected := some (s.ac.freeing || s.ac.err = none) }
    let s := s.runOutside script
    if s.phase = .crashed then s else { s with phase := .freed }
  else { s with phase := .freed }

/-- The loop of `__redisAsyncFree` over one of the tables, once, with what is done behind it -/
def freeEntry (s : Session)
    (next : Option (DictIterator × Option (DictEntry Bytes RedisCallback)))
    (stage : DictIterator → Stage) (behind : Session) (script : List UserCall) : Session :=
  match next with
  | none => { s with phase := .crashed }
  | some (it, some de) =>
    redisRunCallback { s with phase := .teardown (stage it) } de.val none script
  | some (_, none) => behind

/-- `__redisAsyncFree`, one callback at a time -/
def redisAsyncFreeNow (s : Session) (stage : Stage) (script : List UserCall) : Session :=
  match stage with
  | .replies =>
    match s.ac.replies with
    | cb :: replies =>
      redisRunCallback { s with
        ac := { s.ac with replies }
        answered := s.answered ++ [(cb, none)] } cb none script
    | [] => { s with phase := .teardown .invalid }
  | .invalid =>
    match s.ac.invalid with
    | cb :: invalid => redisRunCallback { s with ac := { s.ac with invalid } } cb none script
    | [] => { s with phase := .teardown (.channels dictGetIterator) }
  | .channels it =>
    s.freeEntry (dictNext s.ac.channels it) .channels
      { s with phase := .teardown (.patterns dictGetIterator) } script
  | .patterns it => s.freeEntry (dictNext s.ac.patterns it) .patterns (s.freeSelf script) script

/-- One step of the event loop, `none` where it is not enabled -/
def step (s : Session) : Label → Option Session
  | .call call => if s.phase = .idle then some (s.call call) else none
  | .setConnectCallback =>
    if s.phase = .idle then some { s with ac := (redisAsyncSetConnectCallback s.ac).1 } else none
  | .setDisconnectCallback =>
    if s.phase = .idle then some { s with ac := (redisAsyncSetDisconnectCallback s.ac).1 } else none
  | .handleRead check res script =>
    if s.phase = .idle ∧ Link.readable res = true then
      some (s.redisAsyncHandleRead check res script)
    else none
  | .handleWrite check res script =>
    if s.phase = .idle then s.redisAsyncHandleWrite check res script else none
  | .turn script =>
    match s.phase with
    | .processing cb => some (s.redisProcessCallbacks cb script)
    | .teardown stage => some (s.redisAsyncFreeNow stage script)
    | _ => none

end Session

end MmorpgServer.Redis.Async
