import Mathlib.Algebra.Ring.Nat
import Mathlib.Data.Int.Basic
import Mathlib.Data.List.Basic

/-!
# The client library of `CachePool.cpp`

What `hiredis.c` does for its callers: a command is made from a format and arguments, or from a
vector of arguments, it is written to the connection, and the reply is read. A connection that
has seen an error writes nothing any more. The replies of the server are arguments, and a reply
that never comes is `none`.

## Main definitions

* `Reply` — `redisReply`
* `totlen` — the length of a command
* `redisvFormatCommand`, `redisAppendCommandArgv` — the arguments of a command
* `RedisContext`, `redisCommand` — a connection, and a command on it
-/

namespace MmorpgServer.Redis

/-! ### Strings -/

/-- The bytes of a `std::string`. -/
abbrev Bytes := List UInt8

/-- A literal of the source. -/
def bytes (s : String) : Bytes := s.toList.map fun c => UInt8.ofNat c.toNat

/-- What is seen of a string through `c_str()`: it ends at the first zero byte. -/
def cstr (s : Bytes) : Bytes := s.takeWhile (· ≠ 0)

/-- An integer as `%d` prints it. -/
def decimal (n : ℤ) : Bytes := bytes (Int.repr n)

/-! ### Replies -/

/-- `redisReply`, by its `type` -/
inductive Reply where
  | string (str : Bytes)
  | array (element : List Reply)
  | integer (n : Int64)
  | nil
  | status (str : Bytes)
  | error (str : Bytes)

/-- `reply->str` with `reply->len`: no bytes where the reply has none. -/
def Reply.str : Reply → Bytes
  | .string str | .status str | .error str => str
  | _ => []

/-- `reply->integer`, which is `0` where the reply has none -/
def Reply.long : Reply → Int64
  | .integer n => n
  | _ => 0

def Reply.isError : Reply → Bool
  | .error _ => true
  | _ => false

/-- A status that begins with `OK`. -/
def Reply.isOk : Reply → Bool
  | .status str => str.take 2 = bytes "OK"
  | _ => false

/-! ### Commands -/

/-- A variable argument. -/
inductive Arg where
  | str (s : Bytes)
  | int (n : Int32)
  | long (n : Int64)

inductive Formatted where
  /-- the arguments of the command -/
  | ok (argv : List Bytes)
  /-- `Invalid format string` -/
  | invalid
  /-- `Out of memory` -/
  | memory
  /-- an argument is read that was not passed, or the format is read behind its end, or the length
  of the command wraps around -/
  | undefined
  deriving DecidableEq

/-- What follows the flags, the width and the precision of a conversion. -/
def skipFlags (fmt : Bytes) : Bytes :=
  let isDigit : UInt8 → Bool := (· ∈ bytes "0123456789")
  let p := (fmt.dropWhile (· ∈ bytes "#0-+ ")).dropWhile isDigit
  if p.take 1 = bytes "." then (p.drop 1).dropWhile isDigit else p

/-- A conversion of an integer, a length modifier being behind it. -/
def isInteger (p : Bytes) : Bool := (p.take 1).any (· ∈ bytes "diouxX")

/-- `p` begins like a conversion of `printf` that reads an argument. The search for the character
finds the end of the string too. -/
def readsArgument (p : Bytes) : Bool :=
  if p = [] ∨ isInteger p then true
  else if (p.take 1).any (· ∈ bytes "eEfFgGaA") then true
  else if p.take 2 = bytes "hh" ∨ p.take 2 = bytes "ll" then isInteger (p.drop 2)
  else if p.take 1 = bytes "h" ∨ p.take 1 = bytes "l" then isInteger (p.drop 1)
  else false

/-- What stands behind a `%`. -/
inductive Conversion where
  | str
  | percent
  | int
  | long
  /-- a conversion that reads an argument, and that no call with arguments uses -/
  | other
  | invalid

def conversion (fmt : Bytes) : Conversion :=
  if fmt.take 1 = bytes "s" then .str
  else if fmt.take 1 = bytes "b" then .other
  else if fmt.take 1 = bytes "%" then .percent
  else if fmt.take 1 = bytes "d" then .int
  else if fmt.take 2 = bytes "ld" then .long
  else if readsArgument (skipFlags fmt) then .other
  else .invalid

/-- The loop of `redisvFormatCommand`; `skip` characters belong to the last conversion. -/
def formatLoop : (fmt : Bytes) → (skip : ℕ) → List Arg → (curarg : Bytes) → (touched : Bool) →
    (argv : List Bytes) → Formatted
  | [], _, _, curarg, touched, argv => .ok (if touched then argv ++ [curarg] else argv)
  | _ :: fmt, skip + 1, args, curarg, touched, argv => formatLoop fmt skip args curarg touched argv
  | c :: fmt, 0, args, curarg, touched, argv =>
    -- a `%` at the end is an ordinary character
    if [c] = bytes "%" ∧ fmt ≠ [] then
      match conversion fmt, args with
      | .str, .str s :: args => formatLoop fmt 1 args (curarg ++ cstr s) true argv
      | .percent, args => formatLoop fmt 1 args (curarg ++ bytes "%") true argv
      | .int, .int n :: args => formatLoop fmt 1 args (curarg ++ decimal n.toInt) true argv
      -- a `long` that is read as an `int` is cut off
      | .int, .long n :: args =>
        formatLoop fmt 1 args (curarg ++ decimal n.toInt32.toInt) true argv
      | .long, .long n :: args => formatLoop fmt 2 args (curarg ++ decimal n.toInt) true argv
      | .invalid, _ => .invalid
      | _, _ => .undefined
    else if [c] = bytes " " then
      if touched then formatLoop fmt 0 args [] false (argv ++ [curarg])
      else formatLoop fmt 0 args curarg touched argv
    else formatLoop fmt 0 args (curarg ++ [c]) true argv

/-- The arguments that a format makes -/
def formatArguments (fmt : Bytes) (args : List Arg) : Formatted :=
  formatLoop (cstr fmt) 0 args [] false []

/-! ### The length of a command -/

/-- The loop of `countDigits` -/
@[semireducible] def countDigitsLoop (v result : ℕ) : ℕ :=
  if v < 10 then result
  else if v < 100 then result + 1
  else if v < 1000 then result + 2
  else if v < 10000 then result + 3
  else countDigitsLoop (v / 10000) (result + 4)
termination_by v
decreasing_by omega

/-- `countDigits` -/
def countDigits (v : ℕ) : ℕ := countDigitsLoop v 1

/-- `bulklen` -/
def bulklen (len : ℕ) : ℕ := 1 + countDigits len + 2 + len + 2

/-- The length of a command, as the formatting functions compute it, before it is made an `int` -/
def totlen (argv : List Bytes) : ℕ :=
  argv.foldl (fun n arg => n + bulklen arg.length) (1 + countDigits argv.length + 2)

/-- The rest of `redisvFormatCommand` and of `redisFormatCommandArgv`, which put the arguments
together behind `malloc(totlen+1)`. The length is an `int`: a negative one is more memory than there
is, and one that has become positive again is less than the command needs. -/
def assemble (argv : List Bytes) : Formatted :=
  if totlen argv + 1 < 2 ^ 31 then .ok argv
  else if 2 ^ 31 ≤ (totlen argv + 1) % 2 ^ 32 then .memory
  else .undefined

/-- `redisvFormatCommand` -/
def redisvFormatCommand (fmt : Bytes) (args : List Arg) : Formatted :=
  match formatArguments fmt args with
  | .ok argv => assemble argv
  | failed => failed

/-- What `redisAppendCommandArgv` makes of arguments. Their length is an `int`: a negative one is
more memory than there is for the output buffer, as long as its sum with what `sdsMakeRoomFor`
reserves and with a header does not wrap around. -/
def assembleSds (argv : List Bytes) : Formatted :=
  if totlen argv < 2 ^ 31 then .ok argv
  else if totlen argv + 2 ^ 20 + 18 < 2 ^ 32 ∨ totlen argv = 2 ^ 32 - 1 then .memory
  else .undefined

/-- `redisAppendCommandArgv` without lengths of the arguments -/
def redisAppendCommandArgv (argv : List Bytes) : Formatted := assembleSds (argv.map cstr)

/-! ### Connections -/

/-- `redisContext`: its number among those that were ever made, whether it has seen an error,
and the session that the server has for it. -/
structure RedisContext where
  id : ℕ
  err : Bool
  /-- `AUTH` was accepted -/
  authed : Bool
  /-- the database of the last `SELECT` that was accepted -/
  selected : Option Int32
  deriving DecidableEq

/-- `redisCommand` and `redisCommandArgv`: the reply, `none` for `NULL`, and the command if it
was written. Only what is undefined has no outcome. -/
def redisCommand (c : RedisContext) (cmd : Formatted) (answer : Option Reply) :
    Option (RedisContext × Option Reply × Option (List Bytes)) :=
  match cmd with
  | .undefined => none
  | .invalid | .memory => some ({ c with err := true }, none, none)
  | .ok argv =>
    if c.err then some (c, none, none)
    else
      match answer with
      | none => some ({ c with err := true }, none, some argv)
      | some reply => some (c, some reply, some argv)

/-- A command changes nothing but the error flag, and that only if no reply comes. -/
theorem redisCommand_spec {c c' : RedisContext} {cmd : Formatted} {answer reply : Option Reply}
    {sent : Option (List Bytes)} (h : redisCommand c cmd answer = some (c', reply, sent)) :
    c'.id = c.id ∧ c'.authed = c.authed ∧ c'.selected = c.selected ∧ (reply ≠ none → c' = c) := by
  unfold redisCommand at h
  cases cmd with
  | undefined => cases h
  | invalid | memory =>
    cases h
    simp
  | ok argv =>
    cases herr : c.err with
    | true =>
      simp only [herr, if_true] at h
      cases h
      simp
    | false =>
      cases answer <;> simp only [herr, Bool.false_eq_true, if_false] at h <;> cases h <;> simp

end MmorpgServer.Redis
