import Mathlib.Data.List.Range

/-!
# The free list of `TFreeList.h`

A fixed number of objects, and a stack of pointers to those that are free. An assertion that fails
ends the program; here the function is not defined then, nor where it would write behind the end
of the stack.

## Main definitions

* `TFreeList` — the list, with `newInstance`, `freeInstance` and `freeAll`
* `Sys` — a list and the instances that its users have
* `Exclusive` — no instance is handed out twice, and every one is an object
* `Disciplined`, `Possible` — what users keep to
-/

namespace MmorpgServer.FreeList

/-! ### The list -/

/-- `TFreeList`, whose objects are at `objectData`; `freeObjects` is the array of pointers -/
structure TFreeList where
  objectData : ℕ
  numObjects : ℕ
  freeObjects : List ℕ
  top : ℕ
  deriving DecidableEq

/-- `&m_pObjectData[i]`, for objects of `size` bytes -/
def object (size : ℕ) (s : TFreeList) (i : ℕ) : ℕ := s.objectData + i * size

/-- `m_ppFreeObjects[m_iTop++] = p` -/
def put (s : TFreeList) (p : ℕ) : Option TFreeList :=
  if s.top < s.freeObjects.length then
    some { s with freeObjects := s.freeObjects.set s.top p, top := s.top + 1 }
  else none

/-- The loop of `FreeAll` with some rounds to go, of which `iIndex` is one less -/
def freeAllLoop (size : ℕ) : (rounds : ℕ) → TFreeList → Option TFreeList
  | 0, s => some s
  | iIndex + 1, s => (put s (object size s iIndex)).bind (freeAllLoop size iIndex)

/-- `FreeAll` -/
def freeAll (size : ℕ) (s : TFreeList) : Option TFreeList :=
  freeAllLoop size s.numObjects { s with top := 0 }

/-- The constructors; `freeObjects` is the memory for the pointers. -/
def create (size objectData : ℕ) (freeObjects : List ℕ) (iNumObjects : ℕ) : Option TFreeList :=
  if 0 < iNumObjects ∧ objectData ≠ 0 then freeAll size ⟨objectData, iNumObjects, freeObjects, 0⟩
  else none

/-- `NewInstance` -/
def newInstance (s : TFreeList) : Option (TFreeList × ℕ) :=
  if s.top ≠ 0 then
    (s.freeObjects[s.top - 1]?).map fun p => ({ s with top := s.top - 1 }, p)
  else none

/-- `FreeInstance` -/
def freeInstance (size : ℕ) (s : TFreeList) (pInstance : ℕ) : Option TFreeList :=
  if object size s 0 ≤ pInstance ∧ pInstance ≤ object size s (s.numObjects - 1) ∧
      s.top < s.numObjects then
    put s pInstance
  else none

/-- `GetFree` -/
def getFree (s : TFreeList) : ℕ := s.top

/-! ### The users -/

/-- A list, and the instances that its users have -/
structure Sys where
  list : TFreeList
  inUse : List ℕ

inductive Act where
  | newInstance
  | freeInstance (pInstance : ℕ)
  | freeAll

/-- A call. To users that go on behind `FreeAll`, no instance is in use. -/
def step (size : ℕ) (s : Sys) : Act → Option Sys
  | .newInstance => (newInstance s.list).map fun r => ⟨r.1, r.2 :: s.inUse⟩
  | .freeInstance pInstance =>
    (freeInstance size s.list pInstance).map fun list => ⟨list, s.inUse.erase pInstance⟩
  | .freeAll => (freeAll size s.list).map fun list => ⟨list, []⟩

/-- The objects of a list -/
def objects (size : ℕ) (s : TFreeList) : List ℕ := (List.range s.numObjects).map (object size s)

/-- No instance is handed out twice, and every one is an object. -/
def Exclusive (size : ℕ) (s : Sys) : Prop :=
  s.inUse.Nodup ∧ ∀ p ∈ s.inUse, p ∈ objects size s.list

/-- An instance that is given back is in use. -/
def Disciplined (s : Sys) : Act → Prop
  | .freeInstance pInstance => pInstance ∈ s.inUse
  | _ => True

/-- The same, and an instance is asked for only where there is one. -/
def Possible (s : Sys) : Act → Prop
  | .newInstance => getFree s.list ≠ 0
  | .freeInstance pInstance => pInstance ∈ s.inUse
  | .freeAll => True

end MmorpgServer.FreeList
