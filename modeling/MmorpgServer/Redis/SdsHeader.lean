import MmorpgServer.Redis.Sds
import MmorpgServer.Lib.Block

/-!
# Dynamic strings in memory

A string of `sds.c` is a block of memory: a header, whose kind is chosen by the size, the bytes of
the string, a zero byte, and room to grow. The header knows the length, and but for the smallest
kind how many bytes there is room for. What is written to a block is checked here: a function is not
defined where it writes behind the end of the block, reads there, or fails an assertion.

## Main definitions

* `Sds` — the fields of the header and the bytes behind it
* `sdsnewlen`, `sdsMakeRoomFor`, `sdsRemoveFreeSpace` — the functions that allocate
* `sdscatlen`, `sdscpylen`, `sdsgrowzero`, `sdsIncrLen`, `sdsrange`, `sdstrim` — some that write
* `SdsCall`, `Sds.call` — a call of any of them
-/

namespace MmorpgServer.Redis.Header

open Block

/-! ### The header -/

/-- `SDS_TYPE_5` and so on -/
inductive SdsType where
  | t5 | t8 | t16 | t32 | t64
  deriving DecidableEq

/-- `sdsHdrSize` -/
def sdsHdrSize : SdsType → ℕ
  | .t5 => 1
  | .t8 => 3
  | .t16 => 5
  | .t32 => 9
  | .t64 => 17

/-- How many bits the header has for a length -/
def SdsType.bits : SdsType → ℕ
  | .t5 => 5
  | .t8 => 8
  | .t16 => 16
  | .t32 => 32
  | .t64 => 64

/-- `sdsReqType` -/
def sdsReqType (stringSize : ℕ) : SdsType :=
  if stringSize < 32 then .t5
  else if stringSize < 0xff then .t8
  else if stringSize < 0xffff then .t16
  else if stringSize < 0xffffffff then .t32
  else .t64

/-- A string: the fields of its header, and the bytes of the block from `s` on. A header of type
`t5` has no field `alloc`. -/
structure Sds where
  type : SdsType
  len : ℕ
  alloc : ℕ
  buf : Bytes

/-- `sdslen` -/
def sdslen (s : Sds) : ℕ := s.len

/-- `sdsavail`; the difference is that of a `size_t`. -/
def sdsavail (s : Sds) : ℕ :=
  if s.type = .t5 then 0 else (s.alloc + 2 ^ 64 - s.len) % 2 ^ 64

/-- `sdsalloc` -/
def sdsalloc (s : Sds) : ℕ := if s.type = .t5 then s.len else s.alloc

/-- `sdssetlen` -/
def sdssetlen (s : Sds) (newlen : ℕ) : Sds := { s with len := newlen % 2 ^ s.type.bits }

/-- `sdssetalloc` -/
def sdssetalloc (s : Sds) (newlen : ℕ) : Sds :=
  if s.type = .t5 then s else { s with alloc := newlen % 2 ^ s.type.bits }

/-- Write to the bytes of a string. -/
def Sds.put (s : Sds) (i : ℕ) (t : Bytes) : Option Sds :=
  (write s.buf i t).map fun buf => { s with buf }

/-! ### Allocation

The answer of the allocator is an argument: the contents of a new block, or `none` for `NULL`. The
results of the functions are `some none` for `NULL`. -/

/-- How many bytes of a block are behind a header of the type; its size is a `size_t`. -/
def behindHeader (type : SdsType) (n : ℕ) : ℕ :=
  (sdsHdrSize type + n + 1) % 2 ^ 64 - sdsHdrSize type

/-- `sdsnewlen` -/
def sdsnewlen (mem : Option (ℕ → UInt8)) (init : Option Bytes) (initlen : ℕ) :
    Option (Option Sds) :=
  let type := sdsReqType initlen
  let type := if type = .t5 ∧ initlen = 0 then .t8 else type
  match mem with
  | none => some none
  | some fill => do
    let buf := resize (if init = none then fun _ => 0 else fill) (behindHeader type initlen) []
    let s := sdssetalloc (sdssetlen ⟨type, 0, 0, buf⟩ initlen) initlen
    let s ← match init with
      | none => some s
      | some t => if t.length < initlen then none else s.put 0 (t.take initlen)
    let s ← s.put initlen [0]
    return some s

/-- `SDS_MAX_PREALLOC` -/
def sdsMaxPrealloc : ℕ := 1024 * 1024

/-- A string moves to a block of the type, with room for `n` bytes. -/
def Sds.move (s : Sds) (fill : ℕ → UInt8) (type : SdsType) (n : ℕ) : Option Sds :=
  if s.type = type then
    -- `s_realloc`
    some (sdssetalloc { s with buf := resize fill (behindHeader type n) s.buf } n)
  else if s.len + 1 ≤ s.buf.length then do
    let new : Sds := ⟨type, 0, 0, resize fill (behindHeader type n) []⟩
    let new ← new.put 0 (s.buf.take (s.len + 1))
    return sdssetalloc (sdssetlen new s.len) n
  else none

/-- `sdsMakeRoomFor` -/
def sdsMakeRoomFor (mem : Option (ℕ → UInt8)) (s : Sds) (addlen : ℕ) : Option (Option Sds) :=
  if sdsavail s ≥ addlen then some (some s)
  else
    let newlen := (sdslen s + addlen) % 2 ^ 64
    let newlen :=
      (if newlen < sdsMaxPrealloc then newlen * 2 else newlen + sdsMaxPrealloc) % 2 ^ 64
    let type := sdsReqType newlen
    let type := if type = .t5 then .t8 else type
    match mem with
    | none => some none
    | some fill => (s.move fill type newlen).map some

/-- `sdsRemoveFreeSpace` -/
def sdsRemoveFreeSpace (mem : Option (ℕ → UInt8)) (s : Sds) : Option (Option Sds) :=
  match mem with
  | none => some none
  | some fill => (s.move fill (sdsReqType (sdslen s)) (sdslen s)).map some

/-! ### Writing -/

/-- `sdscatlen` -/
def sdscatlen (mem : Option (ℕ → UInt8)) (s : Sds) (t : Bytes) : Option (Option Sds) := do
  let curlen := sdslen s
  match ← sdsMakeRoomFor mem s t.length with
  | none => return none
  | some s =>
    let s ← s.put curlen t
    let s := sdssetlen s (curlen + t.length)
    let s ← s.put (curlen + t.length) [0]
    return some s

/-- `sdscpylen` -/
def sdscpylen (mem : Option (ℕ → UInt8)) (s : Sds) (t : Bytes) : Option (Option Sds) :=
  let grown :=
    if sdsalloc s < t.length then sdsMakeRoomFor mem s (t.length - sdslen s) else some (some s)
  grown.bind fun
    | none => some none
    | some s => do
      let s ← s.put 0 t
      let s ← s.put t.length [0]
      return some (sdssetlen s t.length)

/-- `sdsgrowzero` -/
def sdsgrowzero (mem : Option (ℕ → UInt8)) (s : Sds) (len : ℕ) : Option (Option Sds) := do
  let curlen := sdslen s
  if len ≤ curlen then return some s
  else
    match ← sdsMakeRoomFor mem s (len - curlen) with
    | none => return none
    | some s =>
      let s ← s.put curlen (List.replicate (len - curlen + 1) 0)
      return some (sdssetlen s len)

/-- What `sdsIncrLen` asserts -/
def incrAsserted (s : Sds) (incr : ℤ) : Bool :=
  if s.type = .t5 then
    (incr > 0 ∧ s.len + incr < 32) ∨ (incr < 0 ∧ (s.len : ℤ) ≥ -incr)
  else (incr ≥ 0 ∧ (s.alloc : ℤ) - s.len ≥ incr) ∨ (incr < 0 ∧ (s.len : ℤ) ≥ -incr)

/-- `sdsIncrLen` -/
def sdsIncrLen (s : Sds) (incr : ℤ) : Option Sds :=
  if incrAsserted s incr then
    let s := sdssetlen s (s.len + incr).toNat
    s.put s.len [0]
  else none

/-- `sdsrange` -/
def sdsrange (s : Sds) (start stop : ℤ) : Option Sds :=
  let len : ℤ := sdslen s
  if len = 0 then some s
  else
    let start := if start < 0 then max (toInt (len + start)) 0 else start
    let stop := if stop < 0 then max (toInt (len + stop)) 0 else stop
    let newlen := if start > stop then 0 else (stop - start).toNat + 1
    let (start, newlen) :=
      if newlen ≠ 0 then
        if start ≥ toInt len then (start, 0)
        else if stop ≥ toInt len then
          let stop := toInt (len - 1)
          (start, if start > stop then 0 else (stop - start).toNat + 1)
        else (start, newlen)
      else (0, newlen)
    do
      let s ← if start ≠ 0 ∧ newlen ≠ 0 then
          if start.toNat + newlen ≤ s.buf.length then
            s.put 0 ((s.buf.drop start.toNat).take newlen)
          else none
        else some s
      let s ← s.put newlen [0]
      return sdssetlen s newlen

/-- `strchr(cset, b)` finds something; the zero byte is found at the end of the set. -/
def inSet (cset : Bytes) (b : UInt8) : Bool := b ∈ cset || b = 0

/-- The first loop of `sdstrim`, with what is left of the string -/
def trimStart (cset : Bytes) : (u : Bytes) → ℕ
  | [] => 0
  | b :: u => if inSet cset b then trimStart cset u + 1 else 0

/-- The second loop of `sdstrim` -/
def trimEnd (cset u : Bytes) (sp : ℕ) : (ep : ℕ) → ℕ
  | 0 => 0
  | ep + 1 => if ep + 1 > sp ∧ inSet cset (u.getD (ep + 1) 0) then trimEnd cset u sp ep else ep + 1

/-- `sdstrim` -/
def sdstrim (s : Sds) (cset : Bytes) : Option Sds :=
  if s.buf.length < sdslen s then none
  else do
    let u := s.buf.take (sdslen s)
    let sp := trimStart (cstr cset) u
    let ep := trimEnd (cstr cset) u sp (sdslen s - 1)
    -- behind an empty string, `ep` points in front of it
    let len := if sdslen s = 0 ∨ sp > ep then 0 else ep - sp + 1
    let s ← if sp ≠ 0 then s.put 0 ((s.buf.drop sp).take len) else some s
    let s ← s.put len [0]
    return sdssetlen s len

/-- `sdsclear` -/
def sdsclear (s : Sds) : Option Sds := (sdssetlen s 0).put 0 [0]

/-- `sdsupdatelen`; `strlen` is an `int` here. -/
def sdsupdatelen (s : Sds) : Option Sds :=
  if 0 ∈ s.buf then
    let reallen := toInt (cstr s.buf).length
    some (sdssetlen s (reallen % 2 ^ 64).toNat)
  else none

/-- The loops that change the first `n` characters in their places -/
def mapBytes (f : UInt8 → UInt8) (s : Sds) (n : ℕ) : Option Sds :=
  if n ≤ s.buf.length then s.put 0 ((s.buf.take n).map f) else none

/-- `toupper` -/
def toupper (b : UInt8) : UInt8 := if 97 ≤ b ∧ b ≤ 122 then b - 32 else b

/-- `sdstolower`; the length is an `int` here. -/
def sdstolower (s : Sds) : Option Sds := mapBytes tolower s (toInt (sdslen s)).toNat

/-- `sdstoupper`, likewise -/
def sdstoupper (s : Sds) : Option Sds := mapBytes toupper s (toInt (sdslen s)).toNat

/-- The byte that takes the place of another one: that of the first match in `fromSet` -/
def mapChar : (fromSet toSet : Bytes) → UInt8 → UInt8
  | c :: fromSet, d :: toSet, b => if b = c then d else mapChar fromSet toSet b
  | _, _, b => b

/-- `sdsmapchars`, for sets of the same length -/
def sdsmapchars (s : Sds) (fromSet toSet : Bytes) : Option Sds :=
  mapBytes (mapChar fromSet toSet) s (sdslen s)

/-! ### Calls -/

inductive SdsCall where
  | catlen (mem : Option (ℕ → UInt8)) (t : Bytes)
  | cpylen (mem : Option (ℕ → UInt8)) (t : Bytes)
  | growzero (mem : Option (ℕ → UInt8)) (len : ℕ)
  | makeRoomFor (mem : Option (ℕ → UInt8)) (addlen : ℕ)
  | removeFreeSpace (mem : Option (ℕ → UInt8))
  /-- The program writes behind the end of the string, and calls `sdsIncrLen`. -/
  | append (t : Bytes)
  /-- `sdsIncrLen(s, -n)` -/
  | cut (n : ℕ)
  | range (start stop : ℤ)
  | trim (cset : Bytes)
  | clear
  | updatelen
  | tolower
  | toupper
  | mapchars (fromSet toSet : Bytes)

/-- What a call gives -/
def Sds.result (s : Sds) : SdsCall → Option (Option Sds)
  | .catlen mem t => sdscatlen mem s t
  | .cpylen mem t => sdscpylen mem s t
  | .growzero mem len => sdsgrowzero mem s len
  | .makeRoomFor mem addlen => sdsMakeRoomFor mem s addlen
  | .removeFreeSpace mem => sdsRemoveFreeSpace mem s
  | .append t => ((s.put (sdslen s) t).bind fun s => sdsIncrLen s t.length).map some
  | .cut n => (sdsIncrLen s (-n)).map some
  | .range start stop => (sdsrange s start stop).map some
  | .trim cset => (sdstrim s cset).map some
  | .clear => (sdsclear s).map some
  | .updatelen => (sdsupdatelen s).map some
  | .tolower => (sdstolower s).map some
  | .toupper => (sdstoupper s).map some
  | .mapchars fromSet toSet => (sdsmapchars s fromSet toSet).map some

/-- A call, and whether it has succeeded: otherwise the block is that of before. -/
def Sds.call (s : Sds) (c : SdsCall) : Option (Sds × List (SdsCall × Bool)) :=
  (s.result c).map fun
    | some s' => (s', [(c, true)])
    | none => (s, [(c, false)])

end MmorpgServer.Redis.Header
