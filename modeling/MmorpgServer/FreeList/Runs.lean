import MmorpgServer.FreeList.Model
import MmorpgServer.Lib.Machine
import Mathlib.Data.List.Perm.Basic
import Mathlib.Data.List.Nodup

/-!
# Runs of the free list

What is on the stack is what is not in use, as long as users give back only what they have. One
call of `FreeInstance` for something else is not noticed by the assertions when it is made.

## Main definitions

* `Stack` — what is on the stack
* `Inv` — every object is in use or on the stack

## Main results

* `instances_exact` — users that give back what they have get different objects, as many as there
  are
* `free_exclusive_iff` — a call of `FreeInstance` that passes the assertions does no harm exactly if
  the instance is in use
-/

namespace MmorpgServer.FreeList

open Machine

variable {size n p : ℕ} {free : List ℕ} {s s' : TFreeList}

/-! ### The stack -/

/-- The pointers below `m_iTop`, the uppermost one first -/
structure Stack (s : TFreeList) (free : List ℕ) : Prop where
  room : s.numObjects ≤ s.freeObjects.length
  top : s.top = free.length
  held : s.freeObjects.take free.length = free.reverse

theorem put_stack (h : Stack s free) (hlt : free.length < s.numObjects) :
    ∃ s', put s p = some s' ∧ Stack s' (p :: free) ∧ s'.objectData = s.objectData ∧
      s'.numObjects = s.numObjects := by
  have htop : s.top < s.freeObjects.length := by
    rw [h.top]
    exact lt_of_lt_of_le hlt h.room
  have hroom : s.numObjects ≤ (s.freeObjects.set s.top p).length := by
    rw [List.length_set]
    exact h.room
  refine ⟨_, if_pos htop, ⟨hroom, ?_, ?_⟩, rfl, rfl⟩
  · rw [List.length_cons, ← h.top]
  · have htake : (s.freeObjects.take s.top).length = s.top := List.length_take_of_le htop.le
    have hheld := h.held
    rw [← h.top] at hheld
    rw [List.length_cons, ← h.top, List.reverse_cons, ← hheld,
      List.set_eq_take_append_cons_drop, if_pos htop, ← List.singleton_append, ← List.append_assoc]
    apply List.take_left'
    rw [List.length_append, htake]
    rfl

theorem newInstance_stack (h : Stack s (p :: free)) :
    newInstance s = some ({ s with top := free.length }, p) ∧
      Stack { s with top := free.length } free := by
  have htop : s.top = free.length + 1 := h.top
  have hheld : s.freeObjects.take (free.length + 1) = free.reverse ++ [p] := by
    rw [← List.reverse_cons]
    exact h.held
  have hget : s.freeObjects[free.length]? = some p := by
    rw [← List.getElem?_take_of_lt (Nat.lt_succ_self free.length), hheld,
      List.getElem?_append_right List.length_reverse.le, List.length_reverse, Nat.sub_self]
    rfl
  refine ⟨?_, h.room, rfl, ?_⟩
  · unfold newInstance
    rw [htop, if_pos (Nat.succ_ne_zero _), Nat.add_sub_cancel, hget]
    rfl
  · have hshort := congrArg (List.take free.length) hheld
    rwa [List.take_take, min_eq_left (Nat.le_succ _),
      List.take_left' (List.length_reverse)] at hshort

/-- The loop of `FreeAll` puts the objects on the stack, the first one uppermost. -/
theorem freeAllLoop_stack (h : Stack s free) (hle : free.length + n ≤ s.numObjects) :
    ∃ s', freeAllLoop size n s = some s' ∧ Stack s' ((List.range n).map (object size s) ++ free) ∧
      s'.objectData = s.objectData ∧ s'.numObjects = s.numObjects := by
  -- the loop counts down, so that the last object is put down first
  induction n generalizing s free with
  | zero => exact ⟨s, rfl, h, rfl, rfl⟩
  | succ n ih =>
    obtain ⟨s₁, hput, hstack, hdata, hnum⟩ := @put_stack (object size s n) free s h (by omega)
    obtain ⟨s', hloop, hstack', hdata', hnum'⟩ := ih hstack (by
      rw [List.length_cons, hnum]
      omega)
    refine ⟨s', ?_, ?_, hdata'.trans hdata, hnum'.trans hnum⟩
    · unfold freeAllLoop
      rw [hput]
      exact hloop
    · have hsame : object size s₁ = object size s := by
        funext i
        rw [object, object, hdata]
      rw [hsame] at hstack'
      rw [List.range_succ, List.map_append, List.append_assoc]
      exact hstack'

theorem freeAll_stack (hroom : s.numObjects ≤ s.freeObjects.length) :
    ∃ s', freeAll size s = some s' ∧ Stack s' (objects size s) ∧
      s'.objectData = s.objectData ∧ s'.numObjects = s.numObjects := by
  have hempty : Stack { s with top := 0 } [] := ⟨hroom, rfl, rfl⟩
  obtain ⟨s', hloop, hstack, hdata, hnum⟩ :=
    @freeAllLoop_stack size s.numObjects [] _ hempty (Nat.zero_add _).le
  rw [List.append_nil] at hstack
  exact ⟨s', hloop, hstack, hdata, hnum⟩

/-! ### The invariant -/

theorem objects_congr (hdata : s'.objectData = s.objectData) (hnum : s'.numObjects = s.numObjects) :
    objects size s' = objects size s := by
  unfold objects
  rw [hnum]
  apply List.map_congr_left
  intro i _
  rw [object, object, hdata]

theorem nodup_objects (hsize : 0 < size) (s : TFreeList) : (objects size s).Nodup := by
  apply List.Nodup.map _ List.nodup_range
  intro i j heq
  unfold object at heq
  exact Nat.eq_of_mul_eq_mul_right hsize (Nat.add_left_cancel heq)

/-- Every object is in use or on the stack, once. -/
structure Inv (size : ℕ) (s : Sys) (free : List ℕ) : Prop extends Stack s.list free where
  pos : 0 < s.list.numObjects
  once : (s.inUse ++ free).Perm (objects size s.list)

namespace Inv

variable {s s' : Sys}

theorem nodup (hsize : 0 < size) (h : Inv size s free) : (s.inUse ++ free).Nodup :=
  h.once.nodup_iff.mpr (nodup_objects hsize s.list)

theorem exclusive (hsize : 0 < size) (h : Inv size s free) : Exclusive size s :=
  ⟨(List.nodup_append.mp (h.nodup hsize)).1, fun _ hp =>
    h.once.mem_iff.mp (List.mem_append_left free hp)⟩

/-- How many instances are in use, and how many are free -/
theorem length (h : Inv size s free) : s.inUse.length + getFree s.list = s.list.numObjects := by
  have hlen := h.once.length_eq
  rw [objects, List.length_append, List.length_map, List.length_range] at hlen
  rw [getFree, h.top]
  exact hlen

/-- An object of the list passes the assertion on its address. -/
theorem in_range (h : Inv size s free) (hp : p ∈ s.inUse) :
    object size s.list 0 ≤ p ∧ p ≤ object size s.list (s.list.numObjects - 1) := by
  obtain ⟨i, hi, rfl⟩ := List.mem_map.mp (h.once.mem_iff.mp (List.mem_append_left free hp))
  have hle : i * size ≤ (s.list.numObjects - 1) * size := by
    apply Nat.mul_le_mul_right
    have hlt := List.mem_range.mp hi
    omega
  unfold object
  omega

/-- One step -/
theorem step {act : Act} (h : Inv size s free) (hpossible : Possible s act) :
    ∃ s' free', FreeList.step size s act = some s' ∧ Inv size s' free' ∧
      s'.list.numObjects = s.list.numObjects := by
  cases act with
  | newInstance =>
    cases free with
    | nil => exact absurd h.top hpossible
    | cons p free =>
      obtain ⟨hnew, hstack⟩ := newInstance_stack h.toStack
      refine ⟨⟨_, p :: s.inUse⟩, free, ?_, { hstack with pos := h.pos, once := ?_ }, rfl⟩
      · exact congrArg (Option.map fun r => Sys.mk r.1 (r.2 :: s.inUse)) hnew
      · exact List.perm_middle.symm.trans h.once
  | freeInstance pInstance =>
    -- what is in use leaves room on the stack, so that the assertions hold
    have hlen := h.length
    have hpos := List.length_pos_of_mem hpossible
    have hlt : s.list.top < s.list.numObjects := by
      unfold getFree at hlen
      omega
    obtain ⟨hlow, hhigh⟩ := h.in_range hpossible
    obtain ⟨list, hput, hstack, hdata, hnum⟩ :=
      @put_stack pInstance free s.list h.toStack (h.top ▸ hlt)
    refine ⟨⟨list, s.inUse.erase pInstance⟩, pInstance :: free, ?_,
      { hstack with pos := hnum ▸ h.pos, once := ?_ }, hnum⟩
    · unfold FreeList.step freeInstance
      dsimp only
      rw [if_pos ⟨hlow, hhigh, hlt⟩, hput]
      rfl
    · dsimp only
      rw [objects_congr hdata hnum]
      apply List.Perm.trans _ h.once
      exact List.perm_middle.trans ((List.perm_cons_erase hpossible).symm.append_right free)
  | freeAll =>
    obtain ⟨list, hall, hstack, hdata, hnum⟩ := @freeAll_stack size s.list h.room
    refine ⟨⟨list, []⟩, objects size s.list, ?_, { hstack with pos := hnum ▸ h.pos, once := ?_ },
      hnum⟩
    · unfold FreeList.step
      dsimp only
      rw [hall]
      rfl
    · dsimp only
      rw [List.nil_append, objects_congr hdata hnum]

/-- A new list -/
theorem create {objectData : ℕ} {freeObjects : List ℕ} {list : TFreeList}
    (hroom : n ≤ freeObjects.length) (hnew : create size objectData freeObjects n = some list) :
    (∃ free, Inv size ⟨list, []⟩ free) ∧ list.numObjects = n := by
  unfold FreeList.create at hnew
  split at hnew
  next hpos =>
    obtain ⟨list', hall, hstack, hdata, hnum⟩ :=
      @freeAll_stack size ⟨objectData, n, freeObjects, 0⟩ hroom
    obtain rfl := Option.some.inj (hnew.symm.trans hall)
    refine ⟨⟨_, { hstack with pos := hnum ▸ hpos.1, once := ?_ }⟩, hnum⟩
    rw [List.nil_append, objects_congr hdata hnum]
  · cases hnew

end Inv

/-! ### Runs -/

variable {s s' : Sys} {acts : List Act} {list : TFreeList} {objectData : ℕ}
  {freeObjects : List ℕ}

/-- Users that give back what they have, and ask for instances where there are some, never fail an
assertion. They get different objects; those that they do not have can still be got. -/
theorem instances_exact (hsize : 0 < size) (hroom : n ≤ freeObjects.length)
    (hnew : create size objectData freeObjects n = some list)
    (hguard : Guarded (step size) Possible ⟨list, []⟩ acts) :
    ∃ s, exec (step size) ⟨list, []⟩ acts = some s ∧ Exclusive size s ∧
      s.inUse.length + getFree s.list = n := by
  obtain ⟨⟨free, h⟩, hnum⟩ := Inv.create hroom hnew
  obtain ⟨s, hrun, ⟨free', h'⟩, hnum'⟩ := exec_progress_of_guarded
    (I := fun s => (∃ free, Inv size s free) ∧ s.list.numObjects = n)
    (fun s act hpossible ⟨⟨free, h⟩, hnum⟩ => by
      obtain ⟨s', free', hone, h', hnum'⟩ := h.step hpossible
      exact ⟨s', hone, ⟨free', h'⟩, hnum'.trans hnum⟩) hguard ⟨⟨free, h⟩, hnum⟩
  exact ⟨s, hrun, h'.exclusive hsize, h'.length.trans hnum'⟩

instance Disciplined.decidable (s : Sys) : ∀ act, Decidable (Disciplined s act)
  | .newInstance => isTrue trivial
  | .freeInstance _ => inferInstanceAs (Decidable (_ ∈ s.inUse))
  | .freeAll => isTrue trivial

instance Possible.decidable (s : Sys) : ∀ act, Decidable (Possible s act)
  | .newInstance => inferInstanceAs (Decidable (_ ≠ 0))
  | .freeInstance _ => inferInstanceAs (Decidable (_ ∈ s.inUse))
  | .freeAll => isTrue trivial

/-- A list of three objects of eight bytes -/
def threeObjects : TFreeList := ⟨4096, 3, [4112, 4104, 4096], 3⟩

/-- Two instances, the first of which is given back before two others are asked for -/
def threeInstances : List Act :=
  [.newInstance, .newInstance, .freeInstance 4096, .newInstance, .newInstance]

theorem instances_exact_threeInstances :
    create 8 4096 [0, 0, 0] 3 = some threeObjects ∧
      ∃ s, exec (step 8) ⟨threeObjects, []⟩ threeInstances = some s ∧ Exclusive 8 s ∧
        s.inUse.length + getFree s.list = 3 :=
  ⟨by decide, instances_exact (by decide) (by decide) (by decide : create 8 4096 [0, 0, 0] 3 = _)
    (by decide)⟩

/-- A step that is taken -/
theorem Inv.step_of_some {act : Act} (h : Inv size s free) (hdisciplined : Disciplined s act)
    (hone : FreeList.step size s act = some s') : ∃ free', Inv size s' free' := by
  have hpossible : Possible s act := by
    cases act with
    | newInstance =>
      obtain ⟨r, hnew, -⟩ := Option.map_eq_some_iff.mp hone
      unfold newInstance at hnew
      split at hnew
      next hne => exact hne
      · cases hnew
    | freeInstance pInstance => exact hdisciplined
    | freeAll => trivial
  obtain ⟨s'', free', hone', h', -⟩ := h.step hpossible
  obtain rfl := Option.some.inj (hone.symm.trans hone')
  exact ⟨free', h'⟩

theorem inv_of_exec (h : ∃ free, Inv size s free)
    (hguard : Guarded (step size) Disciplined s acts) (hrun : exec (step size) s acts = some s') :
    ∃ free, Inv size s' free :=
  exec_invariant_of_guarded (I := fun s => ∃ free, Inv size s free)
    (fun _ _ _ hdisciplined ⟨_, h⟩ hone => h.step_of_some hdisciplined hone) hguard h hrun

/-- All instances on the stack are asked for. -/
theorem exec_newInstance (h : Stack s.list free) :
    ∃ u, exec (step size) s (List.replicate free.length .newInstance) = some u ∧
      Guarded (step size) Disciplined s (List.replicate free.length .newInstance) ∧
      u.inUse = free.reverse ++ s.inUse ∧ objects size u.list = objects size s.list := by
  induction free generalizing s with
  | nil => exact ⟨s, rfl, trivial, rfl, rfl⟩
  | cons p free ih =>
    obtain ⟨hnew, hstack⟩ := newInstance_stack h
    have hone : step size s .newInstance =
        some ⟨{ s.list with top := free.length }, p :: s.inUse⟩ :=
      congrArg (Option.map fun r : TFreeList × ℕ => Sys.mk r.1 (r.2 :: s.inUse)) hnew
    obtain ⟨u, hrun, hguard, hinUse, hobjects⟩ :=
      @ih ⟨{ s.list with top := free.length }, p :: s.inUse⟩ hstack
    refine ⟨u, exec_cons_eq_some.mpr ⟨_, hone, hrun⟩, .cons trivial hone hguard, ?_, hobjects⟩
    rw [hinUse, List.reverse_cons, List.append_assoc]
    rfl

/-- An instance that is not in use is given back, and the assertions let it pass. When all
instances are asked for then, one is handed out twice, or it is no object. -/
theorem Inv.exists_shared (h : Inv size s free) (hp : p ∉ s.inUse)
    (hone : FreeList.step size s (.freeInstance p) = some s') :
    ∃ acts u, Guarded (FreeList.step size) Disciplined s' acts ∧
      exec (FreeList.step size) s' acts = some u ∧ ¬ Exclusive size u := by
  obtain ⟨list, hfree, rfl⟩ := Option.map_eq_some_iff.mp hone
  rw [List.erase_of_not_mem hp]
  unfold freeInstance at hfree
  split at hfree
  next hassert =>
    obtain ⟨list', hput, hstack, hdata, hnum⟩ :=
      @put_stack p free s.list h.toStack (h.top ▸ hassert.2.2)
    obtain rfl := Option.some.inj (hfree.symm.trans hput)
    obtain ⟨u, hrun, hguard, hinUse, hobjects⟩ := @exec_newInstance size (p :: free)
      ⟨list, s.inUse⟩ hstack
    refine ⟨_, u, hguard, hrun, ?_⟩
    rintro ⟨honce, hmem⟩
    rw [hinUse, List.reverse_cons, List.append_assoc] at honce hmem
    -- it is an object, and was on the stack already
    have hobject : p ∈ objects size s.list := by
      rw [← objects_congr hdata hnum, ← hobjects]
      exact hmem p (List.mem_append_right _ List.mem_cons_self)
    have hstacked : p ∈ free := (List.mem_append.mp (h.once.mem_iff.mpr hobject)).resolve_left hp
    exact (List.nodup_append.mp honce).2.2 p (List.mem_reverse.mpr hstacked) p
      List.mem_cons_self rfl
  · cases hfree

/-- `FreeInstance` asserts that there is room on the stack and that the address is between those of
the objects. Where this is so, the call does no harm exactly if the instance is in use: otherwise
users that go on giving back only what they have can get one instance twice, or something that is no
object. -/
theorem free_exclusive_iff (hsize : 0 < size) (hroom : n ≤ freeObjects.length)
    (hnew : create size objectData freeObjects n = some list)
    (hguard : Guarded (step size) Disciplined ⟨list, []⟩ acts)
    (hrun : exec (step size) ⟨list, []⟩ acts = some s)
    (hone : step size s (.freeInstance p) = some s') :
    (∀ acts' u, Guarded (step size) Disciplined s' acts' →
      exec (step size) s' acts' = some u → Exclusive size u) ↔ p ∈ s.inUse := by
  obtain ⟨free, h⟩ := inv_of_exec (Inv.create hroom hnew).1 hguard hrun
  constructor
  · intro hsafe
    by_contra hp
    obtain ⟨acts', u, hguard', hrun', hnot⟩ := h.exists_shared hp hone
    exact hnot (hsafe acts' u hguard' hrun')
  · intro hp acts' u hguard' hrun'
    have hdisciplined : Disciplined s (.freeInstance p) := hp
    obtain ⟨free', h'⟩ := inv_of_exec (h.step_of_some hdisciplined hone) hguard' hrun'
    exact h'.exclusive hsize

/-- The second object is given back although only the first one is in use. -/
theorem free_exclusive_iff_threeObjects :
    ∃ s s', exec (step 8) ⟨threeObjects, []⟩ [.newInstance] = some s ∧
      step 8 s (.freeInstance 4104) = some s' ∧
        ¬ ∀ acts' u, Guarded (step 8) Disciplined s' acts' →
          exec (step 8) s' acts' = some u → Exclusive 8 u := by
  have hnew : create 8 4096 [0, 0, 0] 3 = some threeObjects := by decide
  have hrun : exec (step 8) ⟨threeObjects, []⟩ [.newInstance] =
      some ⟨⟨4096, 3, [4112, 4104, 4096], 2⟩, [4096]⟩ := rfl
  have hone : step 8 ⟨⟨4096, 3, [4112, 4104, 4096], 2⟩, [4096]⟩ (.freeInstance 4104) =
      some ⟨⟨4096, 3, [4112, 4104, 4104], 3⟩, [4096]⟩ := rfl
  refine ⟨_, _, hrun, hone, fun hsafe => ?_⟩
  exact absurd ((free_exclusive_iff (by decide) (by decide) hnew (by decide) hrun hone).mp hsafe)
    (by decide)

end MmorpgServer.FreeList
