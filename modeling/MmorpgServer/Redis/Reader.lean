import MmorpgServer.Redis.Sds

/-!
# The protocol parser of `read.c`

The bytes that arrive on a connection are put into a buffer, and replies are read from it. The
reader keeps a stack of tasks, one for each array that it is in, and builds the reply piece by
piece with the functions of `hiredis.c`. Memory never runs out here.

## Main definitions

* `RedisReader` — `redisReader`
* `ReplyObject` — `redisReply`, with elements that are not there yet
* `string2ll`, `processItem` — a number, and an item of a reply
* `redisReaderFeed`, `redisReaderGetReply` — bytes arrive, and a reply is asked for

## Main results

* `processItem_advances` — an item that is read is taken from the buffer
-/

namespace MmorpgServer.Redis

/-! ### Objects -/

/-- `REDIS_REPLY_…` -/
inductive ReplyType where
  | string
  | array
  | integer
  | nil
  | status
  | error
  deriving DecidableEq

/-- `redisReply`. An element that has not been read is `NULL`. -/
inductive ReplyObject where
  | string (type : ReplyType) (str : Bytes)
  | integer (n : Int64)
  | nil
  | array (element : List (Option ReplyObject))

/-- `parent->element[task->idx] = r`: the object is put where the path of indices leads. -/
def ReplyObject.attach (r : ReplyObject) : List ℕ → ReplyObject → ReplyObject
  | [i], .array element => .array (element.set i (some r))
  | i :: path, .array element => .array (element.modify i (Option.map (r.attach path)))
  | _, obj => obj

/-! ### The reader -/

/-- `REDIS_ERR_…` -/
inductive ErrType where
  | io
  | other
  | eof
  | protocol
  | oom
  deriving DecidableEq

/-- `redisReadTask`. The type `-1` is `none`. The object of a task is where the indices of the
tasks lead in the reply, and its parent is behind it on the stack. -/
structure RedisReadTask where
  type : Option ReplyType
  elements : ℤ
  idx : ℤ
  deriving DecidableEq

/-- `redisReader` -/
structure RedisReader where
  err : Option ErrType
  errstr : Bytes
  buf : Bytes
  pos : ℕ
  /-- the tasks up to `ridx`, the current one first: `ridx` is `-1` where there is none -/
  rstack : List RedisReadTask
  reply : Option ReplyObject

/-- `redisReaderCreateWithFunctions` -/
def redisReaderCreate : RedisReader := ⟨none, [], [], 0, [], none⟩

namespace RedisReader

/-- What has not been read of the buffer. -/
def unread (r : RedisReader) : Bytes := r.buf.drop r.pos

/-- `__redisReaderSetError` -/
def setError (r : RedisReader) (type : ErrType) (str : Bytes) : RedisReader :=
  { r with err := some type, errstr := str.take 127, buf := [], pos := 0, rstack := [],
           reply := none }

end RedisReader

/-- A hexadecimal digit. -/
def hexDigit (n : ℕ) : UInt8 := if n < 10 then UInt8.ofNat (48 + n) else UInt8.ofNat (87 + n)

/-- `chrtos` -/
def chrtos (b : UInt8) : Bytes :=
  if b = byte '\\' ∨ b = byte '"' then bytes "\"\\" ++ [b] ++ bytes "\""
  else if b = byte '\n' then bytes "\"\\n\""
  else if b = byte '\r' then bytes "\"\\r\""
  else if b = byte '\t' then bytes "\"\\t\""
  else if b = 7 then bytes "\"\\a\""
  else if b = 8 then bytes "\"\\b\""
  else if 32 ≤ b ∧ b ≤ 126 then bytes "\"" ++ [b] ++ bytes "\""
  else bytes "\"\\x" ++ [hexDigit (b.toNat / 16), hexDigit (b.toNat % 16)] ++ bytes "\""

/-- The text of `__redisReaderSetErrorProtocolByte` -/
def protocolByte (b : UInt8) : Bytes :=
  bytes "Protocol error, got " ++ chrtos b ++ bytes " as reply type byte"

/-! ### Lines and numbers -/

/-- The loop of `seekNewline`, at the position `pos` -/
def seekFrom (pos len : ℤ) : Bytes → Option ℤ
  | a :: b :: s =>
    if pos < len then
      if a = byte '\r' ∧ b = byte '\n' then some pos else seekFrom (pos + 1) len (b :: s)
    else none
  | _ => none

/-- `seekNewline`: the position of the line break. Positions are `int`s here. -/
def seekNewline (s : Bytes) : Option ℤ := seekFrom 0 (toInt ((s.length : ℤ) - 1)) s

/-- The loop of `string2ll` over the digits behind the first one -/
def string2llLoop (v : ℕ) : Bytes → Option ℕ
  | [] => some v
  | b :: p =>
    if byte '0' ≤ b ∧ b ≤ byte '9' then
      if v > (2 ^ 64 - 1) / 10 then none
      else
        let d := (b - byte '0').toNat
        if v * 10 > 2 ^ 64 - 1 - d then none else string2llLoop (v * 10 + d) p
    else none

/-- `string2ll` -/
def string2ll (s : Bytes) : Option Int64 :=
  match s with
  | [] => none
  | b :: p =>
    if p = [] ∧ b = byte '0' then some 0
    else
      let negative := b = byte '-'
      match if negative then p else s with
      | [] => none
      | c :: q =>
        if byte '1' ≤ c ∧ c ≤ byte '9' then
          (string2llLoop (c - byte '0').toNat q).bind fun v =>
            if negative then
              if v > 2 ^ 63 then none else some (Int64.ofInt (-v))
            else
              if v > 2 ^ 63 - 1 then none else some (Int64.ofInt v)
        else none

/-! ### Items -/

/-- `moveToNextTask` -/
def moveToNextTask : List RedisReadTask → List RedisReadTask
  | cur :: prv :: tasks =>
    if cur.idx = prv.elements - 1 then moveToNextTask (prv :: tasks)
    else { type := none, elements := -1, idx := cur.idx + 1 } :: prv :: tasks
  | _ => []

namespace RedisReader

variable (r : RedisReader)

/-- Where the object of the current task belongs: the indices of the tasks above the root. -/
def path : List ℕ := (r.rstack.dropLast.map fun task => task.idx.toNat).reverse

/-- The object of the current task is made, and put into its parent; without a parent it is the
reply. -/
def create (obj : ReplyObject) : RedisReader :=
  { r with reply := if r.path = [] then some obj else r.reply.map (obj.attach r.path) }

/-- `moveToNextTask` -/
def next : RedisReader := { r with rstack := moveToNextTask r.rstack }

/-- `readLine` -/
def readLine : Option (Bytes × RedisReader) :=
  (seekNewline r.unread).map fun len =>
    (r.unread.take len.toNat, { r with pos := r.pos + len.toNat + 2 })

/-- `processLineItem`, for a task of the given type. The flag is `REDIS_OK`. -/
def processLineItem (type : ReplyType) : RedisReader × Bool :=
  match r.readLine with
  | none => (r, false)
  | some (p, r) =>
    if type = .integer then
      match string2ll p with
      | none => (r.setError .protocol (bytes "Bad integer value"), false)
      | some v => ((r.create (.integer v)).next, true)
    else ((r.create (.string type p)).next, true)

/-- `processBulkItem` -/
def processBulkItem : RedisReader × Bool :=
  match seekNewline r.unread with
  | none => (r, false)
  | some s =>
    let bytelen := s.toNat + 2
    match string2ll (r.unread.take s.toNat) with
    | none => (r.setError .protocol (bytes "Bad bulk string length"), false)
    | some len =>
      if len < -1 then (r.setError .protocol (bytes "Bulk string length out of range"), false)
      else if len = -1 then (({ r with pos := r.pos + bytelen }.create .nil).next, true)
      else
        let n := len.toInt.toNat
        let str := (r.unread.drop bytelen).take n
        let bytelen := bytelen + n + 2
        if r.pos + bytelen ≤ r.buf.length then
          (({ r with pos := r.pos + bytelen }.create (.string .string str)).next, true)
        else (r, false)

/-- `processMultiBulkItem` -/
def processMultiBulkItem : RedisReader × Bool :=
  -- the current task has the index 8
  if r.rstack.length = 9 then
    (r.setError .protocol (bytes "No support for nested multi bulk replies with depth > 7"), false)
  else
    match r.readLine with
    | none => (r, false)
    | some (p, r) =>
      match string2ll p with
      | none => (r.setError .protocol (bytes "Bad multi-bulk length"), false)
      | some elements =>
        if elements < -1 ∨ elements > 2 ^ 31 - 1 then
          (r.setError .protocol (bytes "Multi-bulk length out of range"), false)
        else if elements = -1 then ((r.create .nil).next, true)
        else
          let n := elements.toInt
          let r := r.create (.array (List.replicate n.toNat none))
          if n > 0 then
            match r.rstack with
            | [] => (r, true)
            | cur :: tasks =>
              ({ r with rstack := ⟨none, -1, 0⟩ :: { cur with elements := n } :: tasks }, true)
          else (r.next, true)

/-- The type that a byte announces -/
def typeOf (b : UInt8) : Option ReplyType :=
  if b = byte '-' then some .error
  else if b = byte '+' then some .status
  else if b = byte ':' then some .integer
  else if b = byte '$' then some .string
  else if b = byte '*' then some .array
  else none

/-- The end of `processItem`: the type of the item is known. -/
def processTyped : ReplyType → RedisReader × Bool
  | .string => r.processBulkItem
  | .array => r.processMultiBulkItem
  | .nil => (r, false)
  | type => r.processLineItem type

/-- `processItem` -/
def processItem : RedisReader × Bool :=
  match r.rstack with
  | [] => (r, false)
  | cur :: tasks =>
    match cur.type with
    | some type => r.processTyped type
    | none =>
      match r.unread with
      | [] => (r, false)
      | p :: _ =>
        match typeOf p with
        | none => ({ r with pos := r.pos + 1 }.setError .protocol (protocolByte p), false)
        | some type =>
          { r with
            pos := r.pos + 1
            rstack := { cur with type := some type } :: tasks }.processTyped type

end RedisReader

/-! ### An item that is read is taken from the buffer -/

/-- A line break that is found is in the buffer. -/
theorem seekFrom_spec {len : ℤ} : ∀ {s : Bytes} {pos q : ℤ}, seekFrom pos len s = some q →
    pos ≤ q ∧ (q - pos).toNat + 2 ≤ s.length
  | a :: b :: s, pos, q, h => by
    rw [seekFrom] at h
    split_ifs at h with hpos hbreak
    · obtain rfl := Option.some.inj h
      simp
    · obtain ⟨hle, hlen⟩ := seekFrom_spec h
      simp only [List.length_cons] at hlen ⊢
      omega

theorem seekNewline_spec {s : Bytes} {q : ℤ} (h : seekNewline s = some q) :
    0 ≤ q ∧ q.toNat + 2 ≤ s.length := by
  have hspec := seekFrom_spec h
  rwa [Int.sub_zero] at hspec

namespace RedisReader

variable {r r' : RedisReader}

theorem length_unread (r : RedisReader) : r.unread.length = r.buf.length - r.pos :=
  List.length_drop

@[simp] theorem create_buf (obj : ReplyObject) : (r.create obj).buf = r.buf := rfl

@[simp] theorem create_pos (obj : ReplyObject) : (r.create obj).pos = r.pos := rfl

@[simp] theorem create_rstack (obj : ReplyObject) : (r.create obj).rstack = r.rstack := rfl

@[simp] theorem create_err (obj : ReplyObject) : (r.create obj).err = r.err := rfl

@[simp] theorem next_buf : r.next.buf = r.buf := rfl

@[simp] theorem next_pos : r.next.pos = r.pos := rfl

@[simp] theorem next_err : r.next.err = r.err := rfl

@[simp] theorem setError_err (type : ErrType) (str : Bytes) :
    (r.setError type str).err = some type := rfl

theorem readLine_eq_some {p : Bytes} (h : r.readLine = some (p, r')) :
    ∃ n : ℕ, seekNewline r.unread = some (n : ℤ) ∧ n + 2 ≤ r.unread.length ∧
      p = r.unread.take n ∧ r' = { r with pos := r.pos + n + 2 } := by
  obtain ⟨q, hseek, heq⟩ := Option.map_eq_some_iff.mp h
  obtain ⟨rfl, rfl⟩ := Prod.mk.inj heq
  obtain ⟨hnonneg, hlen⟩ := seekNewline_spec hseek
  exact ⟨q.toNat, by rw [hseek, Int.toNat_of_nonneg hnonneg], hlen, rfl, rfl⟩

/-- What an item does to the buffer, if it is read -/
structure Advances (r r' : RedisReader) : Prop where
  buf : r'.buf = r.buf
  lt : r.pos < r'.pos
  le : r'.pos ≤ r.buf.length

theorem Advances.length_lt (h : Advances r r') : r'.unread.length < r.unread.length := by
  obtain ⟨hbuf, hlt, hle⟩ := h
  rw [length_unread, length_unread, hbuf]
  omega

theorem readLine_advances {p : Bytes} (h : r.readLine = some (p, r')) : Advances r r' := by
  obtain ⟨n, -, hlen, -, rfl⟩ := readLine_eq_some h
  rw [length_unread] at hlen
  exact ⟨rfl, by dsimp only; omega, by dsimp only; omega⟩

theorem processLineItem_advances {type : ReplyType} (h : (r.processLineItem type).2 = true) :
    Advances r (r.processLineItem type).1 := by
  unfold processLineItem at h ⊢
  cases hline : r.readLine with
  | none => simp [hline] at h
  | some q =>
    have hadv := readLine_advances hline
    simp only [hline] at h ⊢
    split_ifs at h ⊢ with htype
    · split at h
      · exact absurd h (by simp)
      · exact ⟨hadv.buf, hadv.lt, hadv.le⟩
    · exact ⟨hadv.buf, hadv.lt, hadv.le⟩

theorem processBulkItem_advances (h : r.processBulkItem.2 = true) :
    Advances r r.processBulkItem.1 := by
  unfold processBulkItem at h ⊢
  cases hseek : seekNewline r.unread with
  | none => simp [hseek] at h
  | some q =>
    obtain ⟨hnonneg, hlen⟩ := seekNewline_spec hseek
    rw [length_unread] at hlen
    simp only [hseek] at h ⊢
    split at h
    · exact absurd h (by simp)
    · split_ifs at h ⊢ with hrange hnil hfits
      · exact ⟨rfl, by simp only [next_pos, create_pos]; omega,
          by simp only [next_pos, create_pos]; omega⟩
      · exact ⟨rfl, by simp only [next_pos, create_pos]; omega,
          by simp only [next_pos, create_pos]; omega⟩

theorem processMultiBulkItem_advances (h : r.processMultiBulkItem.2 = true) :
    Advances r r.processMultiBulkItem.1 := by
  unfold processMultiBulkItem at h ⊢
  split_ifs at h ⊢ with hdepth
  cases hline : r.readLine with
  | none => simp [hline] at h
  | some q =>
    have hadv := readLine_advances hline
    simp only [hline] at h ⊢
    split at h
    · exact absurd h (by simp)
    · split_ifs at h ⊢
      · exact ⟨hadv.buf, hadv.lt, hadv.le⟩
      · split <;> exact ⟨hadv.buf, hadv.lt, hadv.le⟩
      · exact ⟨hadv.buf, hadv.lt, hadv.le⟩

theorem processTyped_advances {type : ReplyType} (h : (r.processTyped type).2 = true) :
    Advances r (r.processTyped type).1 := by
  cases type with
  | string => exact processBulkItem_advances h
  | array => exact processMultiBulkItem_advances h
  | nil => exact absurd h (by simp [processTyped])
  | integer | status | error => exact processLineItem_advances h

theorem processItem_advances (h : r.processItem.2 = true) : Advances r r.processItem.1 := by
  unfold processItem at h ⊢
  cases hstack : r.rstack with
  | nil => simp [hstack] at h
  | cons cur tasks =>
    simp only [hstack] at h ⊢
    split at h
    · exact processTyped_advances h
    · split at h
      · exact absurd h (by simp)
      · split at h
        · exact absurd h (by simp)
        · obtain ⟨hbuf, hlt, hle⟩ := processTyped_advances h
          exact ⟨hbuf, by dsimp only at hlt; omega, hle⟩

/-- The loop of `redisReaderGetReply` -/
def processItems (r : RedisReader) : RedisReader :=
  if r.rstack = [] then r
  else
    match _h : r.processItem with
    | (r', false) => r'
    | (r', true) => processItems r'
termination_by r.unread.length
decreasing_by
  have hadv := processItem_advances (r := r) (by rw [_h])
  rw [_h] at hadv
  exact hadv.length_lt

end RedisReader

/-! ### Bytes arrive, and a reply is asked for -/

/-- The root task. -/
def RedisReadTask.root : RedisReadTask := { type := none, elements := -1, idx := -1 }

/-- `redisReaderFeed`; the flag is `REDIS_OK`. Where the buffer is empty it may be replaced by
another one that is empty. -/
def redisReaderFeed (r : RedisReader) (buf : Bytes) : RedisReader × Bool :=
  if r.err ≠ none then (r, false) else ({ r with buf := r.buf ++ buf }, true)

/-- Part of the buffer is discarded when at least 1k was consumed. -/
def RedisReader.discard (r : RedisReader) : RedisReader :=
  if 1024 ≤ r.pos then { r with buf := sdsrange r.buf r.pos (-1), pos := 0 } else r

/-- `redisReaderGetReply`: the reply is `none` for `NULL`. -/
def redisReaderGetReply (r : RedisReader) : RedisReader × Option ReplyObject × Bool :=
  if r.err ≠ none then (r, none, false)
  else if r.buf.length = 0 then (r, none, true)
  else
    let r := if r.rstack = [] then { r with rstack := [.root] } else r
    let r := r.processItems
    if r.err ≠ none then (r, none, false)
    else
      let r := r.discard
      if r.rstack = [] then ({ r with reply := none }, r.reply, true) else (r, none, true)

end MmorpgServer.Redis
