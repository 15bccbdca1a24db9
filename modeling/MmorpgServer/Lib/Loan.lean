import Mathlib.Data.List.Nodup
import Mathlib.Data.List.Perm.Basic

/-!
# Items on loan

The items of a pool are free or held by clients, and each is in one place only.

## Main definitions

* `Lent free held` — no item is free twice, held twice, or free and held

## Main results

* `Lent.add`, `Lent.lend`, `Lent.giveBack` — the operations of a pool
* `Lent.not_free`, `Lent.holder_unique` — what a client can rely on
-/

namespace MmorpgServer.Loan

variable {α ι : Type*} {free : List α} {held : List (ι × α)} {a : α} {i j : ι}

/-- Every item is free once or held once. -/
def Lent (free : List α) (held : List (ι × α)) : Prop := (free ++ held.map Prod.snd).Nodup

theorem Lent.free_nodup (h : Lent free held) : free.Nodup := List.Nodup.of_append_left h

/-- No item has two places among the held ones. -/
theorem Lent.held_nodup (h : Lent free held) : (held.map Prod.snd).Nodup :=
  List.Nodup.of_append_right h

/-- An item that is held is not free. -/
theorem Lent.not_free (h : Lent free held) (hheld : (i, a) ∈ held) : a ∉ free := fun hfree =>
  List.disjoint_of_nodup_append h hfree (List.mem_map_of_mem hheld)

/-- An item has one holder. -/
theorem Lent.holder_unique (h : Lent free held) (hi : (i, a) ∈ held) (hj : (j, a) ∈ held) :
    i = j :=
  (Prod.mk.inj (List.inj_on_of_nodup_map h.held_nodup hi hj rfl)).1

/-- A new item. -/
theorem Lent.add (h : Lent free held) (hfree : a ∉ free) (hheld : a ∉ held.map Prod.snd) :
    Lent (free ++ [a]) held := by
  unfold Lent
  rw [List.append_assoc]
  -- the new item stands between the free ones and the held ones
  refine List.nodup_middle.mpr (List.nodup_cons.mpr ⟨fun hmem => ?_, h⟩)
  rcases List.mem_append.mp hmem with hmem | hmem
  · exact hfree hmem
  · exact hheld hmem

/-- The first free item is lent. -/
theorem Lent.lend (h : Lent (a :: free) held) (i : ι) : Lent free ((i, a) :: held) :=
  List.nodup_middle.mpr h

variable [DecidableEq α] [DecidableEq ι]

/-- An item is given back by its holder. -/
theorem Lent.giveBack (h : Lent free held) (hheld : (i, a) ∈ held) :
    Lent (free ++ [a]) (held.erase (i, a)) := by
  -- the item only moves from one part of the list to the other
  have hperm := (List.perm_cons_erase hheld).map Prod.snd
  refine (List.Perm.nodup_iff ?_).mp h
  rw [List.append_assoc]
  exact hperm.append_left free

/-- Giving back takes the item out of the held ones. -/
theorem perm_erase_held (hheld : (i, a) ∈ held) :
    (held.map Prod.snd).Perm (a :: (held.erase (i, a)).map Prod.snd) :=
  (List.perm_cons_erase hheld).map Prod.snd

end MmorpgServer.Loan
