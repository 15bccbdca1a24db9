import MmorpgServer.Redis.Sds
import MmorpgServer.Lib.Buckets
import MmorpgServer.Lib.Machine
import Mathlib.Data.Nat.Bitwise

/-!
# The hash table of `dict.c`

A table of chains that doubles when there are as many entries as chains. The asynchronous client
keeps its subscriptions in two of them. Memory never runs out here.

## Main definitions

* `Dict` — `dict`, with `dictExpand`, `dictAdd`, `dictReplace`, `dictDelete`, `dictFind`
* `DictIterator`, `dictNext` — the walk over all entries
* `Dict.Valid` — the invariant
-/

namespace MmorpgServer.Redis

open Buckets

variable {α β : Type}

/-! ### Types -/

/-- `dictEntry` at its address; the chain says which one is next. -/
structure DictEntry (α β : Type) where
  addr : ℕ
  key : α
  val : β
  deriving DecidableEq

/-- `dictType`: the comparison tells whether keys are equal. Values are copied. -/
structure DictType (α : Type) where
  hashFunction : α → UInt32
  keyCompare : α → α → Bool
  keyCompare_iff : ∀ k k', keyCompare k k' = true ↔ k = k'

structure Dict (α β : Type) where
  table : List (List (DictEntry α β))
  size : ℕ
  sizemask : ℕ
  used : ℕ
  deriving DecidableEq

structure DictIterator where
  index : ℤ
  entry : Option ℕ
  nextEntry : Option ℕ
  deriving DecidableEq

/-- `dictGenHashFunction` -/
def dictGenHashFunction (buf : Bytes) : UInt32 :=
  buf.foldl (fun hash c => ((hash <<< 5) + hash) + c.toUInt32) 5381

/-- `callbackDict` of `async.c`, whose keys are strings: they are compared byte by byte when their
lengths are equal. -/
def callbackDict : DictType Bytes where
  hashFunction := dictGenHashFunction
  keyCompare key1 key2 :=
    key1.length = key2.length && key1.take key1.length == key2.take key1.length
  keyCompare_iff key1 key2 := by
    rw [Bool.and_eq_true, decide_eq_true_iff, beq_iff_eq, List.take_length]
    constructor
    · rintro ⟨hlen, heq⟩
      rwa [hlen, List.take_length] at heq
    · rintro rfl
      exact ⟨rfl, List.take_length.symm⟩

/-- `LONG_MAX` -/
def longMax : ℕ := 2 ^ 63 - 1

/-- The loop of `_dictNextPower`; `i` is never `0`. -/
def nextPowerLoop (size i : ℕ) : ℕ :=
  if i ≥ size ∨ i = 0 then i else nextPowerLoop size (i * 2)
termination_by size - i

/-- `_dictNextPower` -/
def dictNextPower (size : ℕ) : ℕ := if size ≥ longMax then longMax else nextPowerLoop size 4

/-- `dictCreate` -/
def dictCreate : Dict α β := ⟨[], 0, 0, 0⟩

variable (type : DictType α)

/-- The index of a key, for a mask -/
def DictType.slot (mask : ℕ) (key : α) : ℕ := (type.hashFunction key).toNat &&& mask

/-- The loop of `dictExpand` over the old chains; `used` counts the entries that were not moved. -/
def dictExpandLoop (mask : ℕ) :
    List (List (DictEntry α β)) → List (List (DictEntry α β)) → ℕ →
      List (List (DictEntry α β)) × ℕ
  | [], table, used => (table, used)
  | he :: chains, table, used =>
    if used > 0 then
      dictExpandLoop mask chains (pushEach (fun e => type.slot mask e.key) table he)
        (used - he.length)
    else (table, used)

/-- `dictExpand`; the flag is `DICT_OK`, and there is no outcome where the assertion fails. -/
def dictExpand (ht : Dict α β) (size : ℕ) : Option (Dict α β × Bool) :=
  let realsize := dictNextPower size
  if ht.used > size then some (ht, false)
  else
    let n := dictExpandLoop type (realsize - 1) ht.table (List.replicate realsize []) ht.used
    if n.2 = 0 then some (⟨n.1, realsize, realsize - 1, ht.used⟩, true) else none

/-- `_dictExpandIfNeeded` -/
def dictExpandIfNeeded (ht : Dict α β) : Option (Dict α β × Bool) :=
  if ht.size = 0 then dictExpand type ht 4
  else if ht.used = ht.size then dictExpand type ht (ht.size * 2 % 2 ^ 64)
  else some (ht, true)

/-- The entry of a key in the chain of an index -/
def Dict.search (ht : Dict α β) (h : ℕ) (key : α) : Option (DictEntry α β) :=
  (chain ht.table h).find? fun he => type.keyCompare key he.key

/-- `_dictKeyIndex`, which returns an `int` -/
def dictKeyIndex (ht : Dict α β) (key : α) : Option (Dict α β × ℤ) :=
  (dictExpandIfNeeded type ht).map fun res =>
    if res.2 = false then (res.1, -1)
    else
      let h := type.slot res.1.sizemask key
      if (res.1.search type h key).isSome then (res.1, -1) else (res.1, toInt h)

/-- `dictAdd`, with the address of the new entry; there is no entry at a negative index. -/
def dictAdd (ht : Dict α β) (key : α) (val : β) (addr : ℕ) : Option (Dict α β × Bool) :=
  (dictKeyIndex type ht key).bind fun res =>
    if res.2 = -1 then some (res.1, false)
    else if res.2 < 0 then none
    else
      some ({ res.1 with
        table := res.1.table.modify res.2.toNat (⟨addr, key, val⟩ :: ·)
        used := res.1.used + 1 }, true)

/-- `dictFind` -/
def dictFind (ht : Dict α β) (key : α) : Option (DictEntry α β) :=
  if ht.size = 0 then none else ht.search type (type.slot ht.sizemask key) key

/-- `dictSetHashVal` for the entry at an address -/
def dictSetHashVal (ht : Dict α β) (addr : ℕ) (val : β) : Dict α β :=
  { ht with table := ht.table.map fun c => c.map fun he =>
      if he.addr = addr then { he with val } else he }

/-- `dictReplace`; the flag says that the key was added. -/
def dictReplace (ht : Dict α β) (key : α) (val : β) (addr : ℕ) : Option (Dict α β × Bool) :=
  (dictAdd type ht key val addr).bind fun res =>
    if res.2 then some (res.1, true)
    else (dictFind type res.1 key).map fun entry => (dictSetHashVal res.1 entry.addr val, false)

/-- `dictDelete`; the flag is `DICT_OK`. -/
def dictDelete (ht : Dict α β) (key : α) : Dict α β × Bool :=
  if ht.size = 0 then (ht, false)
  else
    let h := type.slot ht.sizemask key
    if (ht.search type h key).isSome then
      ({ ht with
        table := ht.table.modify h fun c => c.eraseP fun de => type.keyCompare key de.key
        used := ht.used - 1 }, true)
    else (ht, false)

/-! ### Iterators -/

/-- `dictGetIterator` -/
def dictGetIterator : DictIterator := ⟨-1, none, none⟩

/-- An entry at an address, and the address behind it -/
def entryAt (addr : ℕ) : List (DictEntry α β) → Option (DictEntry α β × Option ℕ)
  | [] => none
  | he :: c => if he.addr = addr then some (he, c.head?.map DictEntry.addr) else entryAt addr c

/-- An entry of the table at an address, and the address behind it; there is nothing at an address
that was freed. -/
def Dict.deref (ht : Dict α β) (addr : ℕ) : Option (DictEntry α β × Option ℕ) :=
  ht.table.findSome? (entryAt addr)

/-- `dictNext` -/
def dictNext (ht : Dict α β) (iter : DictIterator) :
    Option (DictIterator × Option (DictEntry α β)) :=
  if iter.entry = none then
    let index := iter.index + 1
    if index ≥ toInt ht.size then some ({ iter with index }, none)
    else
      match (chain ht.table index.toNat).head? with
      | none => dictNext ht { iter with index, entry := none }
      | some he => (ht.deref he.addr).map fun res => (⟨index, some he.addr, res.2⟩, some res.1)
  else
    match iter.nextEntry with
    | none => dictNext ht { iter with entry := none }
    | some addr => (ht.deref addr).map fun res => (⟨iter.index, some addr, res.2⟩, some res.1)
termination_by 2 * (toInt ht.size - iter.index).toNat + if iter.entry = none then 0 else 1
decreasing_by
  · rw [if_pos trivial]
    omega
  · next hentry =>
    rw [if_pos trivial, if_neg hentry]
    exact Nat.add_lt_add_left Nat.zero_lt_one _

end MmorpgServer.Redis
