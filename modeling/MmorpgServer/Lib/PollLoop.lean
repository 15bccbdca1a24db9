import Mathlib.Algebra.Order.Group.Multiset
import Mathlib.Data.Multiset.AddSub

/-!
# Accounts of a polling loop

A loop takes timers out of a collection one after the other: it calls the handler of a timer
while the timer is still in the collection, and removes a timer when the handler has returned.
Handlers, and the program between polls, add timers and delete them. A trace records what
happened to the timers, each of which has a name of its own.

## Main definitions

* `Event` — what happens to a timer
* `Settled` — the account: what was removed is what fired, and nothing fires twice
* `Sound` — in addition, the names are distinct, and the timer that fires is in the collection

## Main results

* `Sound.add`, `Sound.delete`, `Sound.fire`, `Sound.remove`, `Sound.finish` — each event keeps
  the account
* `Settled.ne_of_deleted`, `Settled.eq_of_removed` — what breaks it
-/

namespace MmorpgServer.PollLoop

/-- An event of a trace. With `ended` the loop stops. -/
inductive Event (ν : Type*) where
  | added (p : ν)
  | deleted (p : ν)
  | fired (p : ν)
  | removed (p : ν)
  | ended (now : ℕ)

variable {ν : Type*} {held left left' : Multiset ν} {tr tr' : List (Event ν)}
  {handling handling' : Option ν} {p q : ν}

/-- The timers that were added. -/
def added (tr : List (Event ν)) : List ν := tr.filterMap fun | .added p => some p | _ => none

/-- The timers that were deleted, by a handler or between polls. -/
def deleted (tr : List (Event ν)) : List ν := tr.filterMap fun | .deleted p => some p | _ => none

/-- The timers whose handlers were called. -/
def fired (tr : List (Event ν)) : List ν := tr.filterMap fun | .fired p => some p | _ => none

/-- The timers that the loop removed. -/
def removed (tr : List (Event ν)) : List ν := tr.filterMap fun | .removed p => some p | _ => none

theorem added_append : added (tr ++ tr') = added tr ++ added tr' := List.filterMap_append

theorem deleted_append : deleted (tr ++ tr') = deleted tr ++ deleted tr' := List.filterMap_append

theorem fired_append : fired (tr ++ tr') = fired tr ++ fired tr' := List.filterMap_append

theorem removed_append : removed (tr ++ tr') = removed tr ++ removed tr' := List.filterMap_append

/-- The timers that were added since a handler was last called. -/
def recent (tr : List (Event ν)) : List ν :=
  tr.foldl (fun l => fun | .fired _ => [] | .added p => l ++ [p] | _ => l) []

theorem recent_concat_added : recent (tr ++ [.added p]) = recent tr ++ [p] := List.foldl_concat ..

theorem recent_concat_fired : recent (tr ++ [.fired p]) = [] := List.foldl_concat ..

theorem recent_concat_removed : recent (tr ++ [.removed p]) = recent tr := List.foldl_concat ..

theorem recent_concat_ended {now : ℕ} : recent (tr ++ [.ended now]) = recent tr :=
  List.foldl_concat ..

theorem coe_concat (l : List ν) (p : ν) : (↑(l ++ [p]) : Multiset ν) = p ::ₘ ↑l :=
  Multiset.coe_eq_coe.mpr (List.perm_append_singleton p l)

/-- The account of a loop that started with the timers `held`, stands in the handler of the
timer `handling`, and has the timers `left`: every timer that came in is there, or was removed,
or was deleted; those that were removed are those whose handlers have returned, in the same
order; no handler is called twice, and none is called for a timer that is deleted. -/
structure Settled (held : Multiset ν) (tr : List (Event ν)) (handling : Option ν)
    (left : Multiset ν) : Prop where
  balance : held + ↑(added tr) = left + ↑(removed tr) + ↑(deleted tr)
  in_step : fired tr = removed tr ++ handling.toList
  once : (fired tr ++ deleted tr).Nodup

/-- An account of timers with distinct names, one of which is being handled and is still
there. -/
structure Sound (held : Multiset ν) (tr : List (Event ν)) (handling : Option ν)
    (left : Multiset ν) : Prop extends Settled held tr handling left where
  distinct : (held + ↑(added tr)).Nodup
  present : ∀ p ∈ handling, p ∈ left

theorem Sound.init (h : held.Nodup) : Sound held [] none held where
  balance := by simp [added, removed, deleted]
  in_step := rfl
  once := List.nodup_nil
  distinct := by simpa [added] using h
  present _ hp := by cases hp

/-- A timer is there, or was removed, or was deleted, and only one of these. -/
theorem Sound.nodup (h : Sound held tr handling left) :
    (left + ↑(removed tr) + ↑(deleted tr)).Nodup := h.balance ▸ h.distinct

/-- A timer that is there was not removed and not deleted. -/
theorem Sound.not_mem_of_mem (h : Sound held tr handling left) (hp : p ∈ left) :
    p ∉ removed tr ∧ p ∉ deleted tr := by
  have hnodup := h.nodup
  rw [add_assoc, Multiset.nodup_add] at hnodup
  have hout := Multiset.disjoint_left.mp hnodup.2.2 hp
  rw [Multiset.mem_add, Multiset.mem_coe, Multiset.mem_coe] at hout
  exact not_or.mp hout

/-- What counts as added does not change with other events. -/
theorem added_concat {e : Event ν} (he : ∀ p, e ≠ .added p) : added (tr ++ [e]) = added tr := by
  rw [added_append]
  cases e with
  | added p => exact absurd rfl (he p)
  | _ => exact List.append_nil _

/-- Names that are counted upwards are below the next one. -/
theorem added_lt_succ {held : Multiset ℕ} {tr : List (Event ℕ)} {n : ℕ}
    (h : ∀ p ∈ held + ↑(added tr), p < n) :
    ∀ p ∈ held + ↑(added (tr ++ [.added n])), p < n + 1 := by
  intro p hp
  have hcons : added (tr ++ [.added n]) = added tr ++ [n] := added_append
  rw [hcons, coe_concat, Multiset.add_cons, Multiset.mem_cons] at hp
  rcases hp with rfl | hp
  · exact Nat.lt_succ_self _
  · exact Nat.lt_succ_of_lt (h p hp)

/-- What holds when the loop ends does not matter while it goes on. -/
theorem last_of_ne_ended {e : Event ν} (he : ∀ now, e ≠ .ended now) {P : ℕ → Prop} :
    ∀ now, (tr ++ [e]).getLast? = some (.ended now) → P now := by
  intro now hlast
  rw [List.getLast?_concat] at hlast
  exact absurd (Option.some.inj hlast) (he now)

theorem last_ended {now : ℕ} {P : ℕ → Prop} (h : P now) :
    ∀ now', (tr ++ [Event.ended now]).getLast? = some (.ended now') → P now' := by
  intro now' hlast
  rw [List.getLast?_concat] at hlast
  obtain rfl := Event.ended.inj (Option.some.inj hlast)
  exact h

theorem Sound.add (h : Sound held tr handling left) (hp : p ∉ held + ↑(added tr)) :
    Sound held (tr ++ [.added p]) handling (p ::ₘ left) := by
  have hadded : (↑(added (tr ++ [.added p])) : Multiset ν) = p ::ₘ ↑(added tr) := by
    rw [added_append]
    exact coe_concat _ p
  refine ⟨⟨?_, ?_, ?_⟩, ?_, fun q hq => Multiset.mem_cons_of_mem (h.present q hq)⟩
  · rw [hadded, removed_append, deleted_append, Multiset.add_cons, h.balance]
    simp [removed, deleted]
  · rw [fired_append, removed_append, h.in_step]
    simp [fired, removed]
  · rw [fired_append, deleted_append]
    simpa [fired, deleted] using h.once
  · rw [hadded, Multiset.add_cons]
    exact Multiset.nodup_cons.mpr ⟨hp, h.distinct⟩

/-- A timer is deleted whose handler is not running. -/
theorem Sound.delete (h : Sound held tr handling (p ::ₘ left)) (hp : handling ≠ some p) :
    Sound held (tr ++ [.deleted p]) handling left := by
  have hadded : added (tr ++ [.deleted p]) = added tr := by simp [added]
  obtain ⟨hremoved, hdeleted⟩ := h.not_mem_of_mem (Multiset.mem_cons_self p left)
  refine ⟨⟨?_, ?_, ?_⟩, by rw [hadded]; exact h.distinct, fun q hq => ?_⟩
  · have hdel : deleted (tr ++ [.deleted p]) = deleted tr ++ [p] := deleted_append
    rw [hadded, h.balance, hdel, coe_concat, Multiset.cons_add, Multiset.cons_add,
      Multiset.add_cons]
    simp [removed]
  · rw [fired_append, removed_append, h.in_step]
    simp [fired, removed]
  · have hfired : p ∉ fired tr := by
      rw [h.in_step, List.mem_append, Option.mem_toList]
      exact not_or.mpr ⟨hremoved, fun hin => hp hin⟩
    have hout : p ∉ fired tr ++ deleted tr :=
      fun hin => (List.mem_append.mp hin).elim hfired hdeleted
    rw [fired_append, deleted_append]
    change (fired tr ++ [] ++ (deleted tr ++ [p])).Nodup
    rw [List.append_nil, ← List.append_assoc]
    exact h.once.append (List.nodup_singleton p) (List.disjoint_singleton.mpr hout)
  · refine (Multiset.mem_cons.mp (h.present q hq)).resolve_left ?_
    rintro rfl
    exact hp hq

/-- The handler of a timer is called. -/
theorem Sound.fire (h : Sound held tr none left) (hp : p ∈ left) :
    Sound held (tr ++ [.fired p]) (some p) left := by
  have hadded : added (tr ++ [.fired p]) = added tr := by simp [added]
  have hsame : removed (tr ++ [.fired p]) = removed tr ∧
      deleted (tr ++ [.fired p]) = deleted tr := by
    simp [removed, deleted]
  obtain ⟨hremoved, hdeleted⟩ := h.not_mem_of_mem hp
  have hfired : fired tr = removed tr := by simpa using h.in_step
  refine ⟨⟨?_, ?_, ?_⟩, by rw [hadded]; exact h.distinct, fun q hq => ?_⟩
  · rw [hadded, hsame.1, hsame.2]
    exact h.balance
  · rw [hsame.1, fired_append, hfired]
    rfl
  · rw [hsame.2, fired_append]
    have hout : p ∉ fired tr ++ deleted tr := by
      rw [hfired]
      exact fun hin => (List.mem_append.mp hin).elim hremoved hdeleted
    change (fired tr ++ [p] ++ deleted tr).Nodup
    rw [List.append_assoc]
    exact List.nodup_middle.mpr (List.nodup_cons.mpr ⟨hout, h.once⟩)
  · obtain rfl := Option.some.inj hq
    exact hp

/-- The handler has returned, and the loop removes its timer. -/
theorem Sound.remove (h : Sound held tr (some p) (p ::ₘ left)) :
    Sound held (tr ++ [.removed p]) none left := by
  have hadded : added (tr ++ [.removed p]) = added tr := by simp [added]
  refine ⟨⟨?_, ?_, ?_⟩, by rw [hadded]; exact h.distinct, fun q hq => by cases hq⟩
  · have hrem : removed (tr ++ [.removed p]) = removed tr ++ [p] := removed_append
    rw [hadded, h.balance, hrem, coe_concat, Multiset.cons_add, Multiset.add_cons]
    simp [deleted]
  · rw [fired_append, removed_append, h.in_step]
    simp [fired, removed]
  · rw [fired_append, deleted_append]
    simpa [fired, deleted] using h.once

/-- The loop stops. -/
theorem Sound.finish (h : Sound held tr none left) (now : ℕ) :
    Sound held (tr ++ [.ended now]) none left := by
  have hadded : added (tr ++ [.ended now]) = added tr := by simp [added]
  refine ⟨⟨?_, ?_, ?_⟩, by rw [hadded]; exact h.distinct, h.present⟩
  · rw [hadded, h.balance]
    simp [removed, deleted]
  · rw [fired_append, removed_append, h.in_step]
    simp [fired, removed]
  · rw [fired_append, deleted_append]
    simpa [fired, deleted] using h.once

/-- The timer whose handler runs is not deleted. -/
theorem Settled.ne_of_deleted (h : Settled held (tr ++ [.deleted q]) (some p) left) : q ≠ p := by
  rintro rfl
  have hfired : q ∈ fired (tr ++ [.deleted q]) := by
    rw [h.in_step]
    simp
  have hdeleted : q ∈ deleted (tr ++ [.deleted q]) := by simp [deleted]
  exact List.disjoint_of_nodup_append h.once hfired hdeleted

/-- The loop removes the timer whose handler has returned. -/
theorem Settled.eq_of_removed (h : Settled held tr (some p) left)
    (h' : Settled held (tr ++ .removed q :: tr') handling' left') : q = p := by
  have hstep := h'.in_step
  rw [fired_append, removed_append, h.in_step, List.append_assoc, List.append_assoc] at hstep
  have hrest := List.append_cancel_left hstep
  change p :: fired tr' = q :: (removed tr' ++ handling'.toList) at hrest
  exact (List.cons.inj hrest).1.symm

end MmorpgServer.PollLoop
