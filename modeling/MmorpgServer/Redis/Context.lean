import MmorpgServer.Redis.Wire

/-!
# A connection and its socket

Commands are put into the output buffer of a connection, and from there they go to the socket,
as many bytes at a time as it takes. What the socket gives is fed to the parser. A blocking call
that asks for a reply writes until the buffer is empty, and then reads until there is a reply.

## Main definitions

* `RedisContext` — `redisContext`
* `redisBufferWrite`, `redisBufferRead` — one call of `write` and of `read`
* `Link`, `Link.step` — a connection between such calls, with what went over the socket
-/

namespace MmorpgServer.Redis.Wire

/-- `redisContext`, without what concerns how it was connected -/
structure RedisContext where
  err : Option ErrType
  errstr : Bytes
  /-- `REDIS_BLOCK` -/
  block : Bool
  obuf : Bytes
  reader : RedisReader

/-- A connection that was made -/
def redisContextInit (block : Bool) : RedisContext := ⟨none, [], block, [], redisReaderCreate⟩

/-- `__redisSetError` -/
def redisSetError (c : RedisContext) (type : Option ErrType) (str : Bytes) : RedisContext :=
  { c with err := type, errstr := str.take 127 }

/-- `errno` -/
inductive Errno where
  | eagain
  | eintr
  | other
  deriving DecidableEq

/-- What `write` returns: how many bytes were written, or an error and its text -/
inductive WriteResult where
  | written (n : ℕ)
  | failed (errno : Errno) (strerror : Bytes)
  deriving DecidableEq

/-- What `read` returns: bytes, no bytes at the end of the stream, or an error and its text -/
inductive ReadResult where
  | data (buf : Bytes)
  | failed (errno : Errno) (strerror : Bytes)
  deriving DecidableEq

/-- A call that was interrupted is tried again, and one that would block on a socket that does
not. -/
def tryAgain (c : RedisContext) (errno : Errno) : Bool :=
  (errno = .eagain && !c.block) || errno = .eintr

/-- `redisBufferWrite`: whether the output buffer is empty, `none` for `REDIS_ERR`. The socket is
not called when there is nothing to write. -/
def redisBufferWrite (c : RedisContext) (res : WriteResult) : RedisContext × Option Bool :=
  if c.err ≠ none then (c, none)
  else if c.obuf.length > 0 then
    match res with
    | .failed errno strerror =>
      if tryAgain c errno then (c, some (c.obuf.length = 0))
      else (redisSetError c (some .io) strerror, none)
    | .written n =>
      let c :=
        if n > 0 then
          if (n : ℤ) = toInt c.obuf.length then { c with obuf := [] }
          else { c with obuf := sdsrange c.obuf n (-1) }
        else c
      (c, some (c.obuf.length = 0))
  else (c, some true)

/-- `redisBufferRead`; the flag is `REDIS_OK`. -/
def redisBufferRead (c : RedisContext) (res : ReadResult) : RedisContext × Bool :=
  if c.err ≠ none then (c, false)
  else
    match res with
    | .failed errno strerror =>
      if tryAgain c errno then (c, true) else (redisSetError c (some .io) strerror, false)
    | .data [] => (redisSetError c (some .eof) (bytes "Server closed the connection"), false)
    | .data (b :: buf) =>
      match redisReaderFeed c.reader (b :: buf) with
      | (r, true) => ({ c with reader := r }, true)
      | (r, false) => (redisSetError { c with reader := r } r.err r.errstr, false)

/-- `redisGetReplyFromReader`: the reply, and `REDIS_OK` -/
def redisGetReplyFromReader (c : RedisContext) : RedisContext × Option ReplyObject × Bool :=
  match redisReaderGetReply c.reader with
  | (r, reply, true) => ({ c with reader := r }, reply, true)
  | (r, _, false) => (redisSetError { c with reader := r } r.err r.errstr, none, false)

/-- `redisvAppendCommand` and `redisAppendCommandArgv`: a command is put into the output buffer.
Only what is undefined has no outcome. -/
def redisAppendCommand (c : RedisContext) : Formatted → Option (RedisContext × Bool)
  | .ok argv => some ({ c with obuf := c.obuf ++ wire argv }, true)
  | .invalid => some (redisSetError c (some .other) (bytes "Invalid format string"), false)
  | .memory => some (redisSetError c (some .oom) (bytes "Out of memory"), false)
  | .undefined => none

/-! ### Between the calls of the socket -/

/-- Where the caller is: out of `redisGetReply`, or in one of its loops -/
inductive Phase where
  | idle
  | writing
  | reading
  deriving DecidableEq

/-- A connection with the bytes that went over its socket, the commands that were put into its
output buffer, and the replies that it gave -/
structure Link where
  context : RedisContext
  phase : Phase
  sent : Bytes
  received : Bytes
  commands : List (List Bytes)
  given : List ReplyObject

inductive Label where
  /-- a command is appended -/
  | append (cmd : Formatted)
  /-- `redisGetReply` is called -/
  | getReply
  /-- `redisBufferWrite` is called, by the loop of `redisGetReply` or from outside -/
  | write (res : WriteResult)
  /-- `redisBufferRead` is called -/
  | read (res : ReadResult)
  deriving DecidableEq

namespace Link

def start (block : Bool) : Link := ⟨redisContextInit block, .idle, [], [], [], []⟩

/-- A reply is asked for, in `redisGetReply`, which returns unless it has to wait in the phase
`next`. -/
def ask (w : Link) (next : Phase) : Link :=
  match redisGetReplyFromReader w.context with
  | (c, _, false) => { w with context := c, phase := .idle }
  | (c, none, true) => { w with context := c, phase := if c.block then next else .idle }
  | (c, some reply, true) =>
    { w with context := c, phase := .idle, given := w.given ++ [reply] }

/-- The command that goes into the output buffer -/
def appended : Formatted → List (List Bytes)
  | .ok argv => [argv]
  | _ => []

/-- The bytes that `write` takes from the output buffer -/
def taken (c : RedisContext) : WriteResult → Bytes
  | .written n => if c.err = none then c.obuf.take n else []
  | .failed _ _ => []

/-- The bytes that `read` gives -/
def arrived (c : RedisContext) : ReadResult → Bytes
  | .data buf => if c.err = none then buf else []
  | .failed _ _ => []

/-- The socket writes no more than it is given. -/
def writable (c : RedisContext) : WriteResult → Bool
  | .written n => n ≤ c.obuf.length
  | .failed _ _ => true

/-- The socket reads no more than fits into the buffer of `redisBufferRead`. -/
def readable : ReadResult → Bool
  | .data buf => buf.length ≤ 1024 * 16
  | .failed _ _ => true

def step (w : Link) : Label → Option Link
  | .append cmd =>
    if w.phase = .idle then
      (redisAppendCommand w.context cmd).map fun res =>
        { w with
          context := res.1
          commands := w.commands ++ appended cmd }
    else none
  | .getReply => if w.phase = .idle then some (w.ask .writing) else none
  | .write res =>
    if w.phase = .reading ∨ writable w.context res = false then none
    else
      let w' := { w with sent := w.sent ++ taken w.context res }
      match redisBufferWrite w.context res with
      | (c, none) => some { w' with context := c, phase := .idle }
      | (c, some done) =>
        some { w' with context := c,
                       phase := if w.phase = .writing ∧ done then .reading else w.phase }
  | .read res =>
    if w.phase = .writing ∨ readable res = false then none
    else
      let w' := { w with received := w.received ++ arrived w.context res }
      match redisBufferRead w.context res with
      | (c, false) => some { w' with context := c, phase := .idle }
      | (c, true) =>
        if w.phase = .reading then some ({ w' with context := c }.ask .reading)
        else some { w' with context := c }

end Link

end MmorpgServer.Redis.Wire
