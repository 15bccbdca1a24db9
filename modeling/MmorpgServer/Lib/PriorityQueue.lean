import Mathlib.Algebra.Order.Group.Multiset
import Mathlib.Data.List.Sort

/-!
# Draining a priority queue

A queue is a multiset of entries with priorities. To drain it up to `now` takes out the
entries with a priority of at most `now`, the smallest first, and leaves the others. Entries of
equal priority may come out in any order, but their priorities come out in one order only.

## Main definitions

* `Drains` — some entries come out of a queue, and some are left

## Main results

* `Drains.done`, `Drains.cons` — a loop that takes the least entry as long as it is due
* `Drains.congr` — queues with the same priorities are drained of the same priorities
-/

namespace MmorpgServer.PriorityQueue

variable {α β κ : Type*} [LinearOrder κ] {prio : α → κ} {now : κ} {q q' : Multiset α} {a : α}
  {out : List α}

/-- The entries `out` leave the queue `q` in their order, and `q'` is left. -/
structure Drains (prio : α → κ) (now : κ) (q q' : Multiset α) (out : List α) : Prop where
  split : q = ↑out + q'
  sorted : out.Pairwise fun a b => prio a ≤ prio b
  due : ∀ a ∈ out, prio a ≤ now
  rest : ∀ a ∈ q', now < prio a

/-- No entry is due. -/
theorem Drains.done (h : ∀ a ∈ q, now < prio a) : Drains prio now q q [] where
  split := (zero_add q).symm
  sorted := List.Pairwise.nil
  due _ ha := absurd ha List.not_mem_nil
  rest := h

/-- The least entry is due, and the others are drained after it. -/
theorem Drains.cons (h : Drains prio now q q' out) (hdue : prio a ≤ now)
    (hleast : ∀ b ∈ q, prio a ≤ prio b) : Drains prio now (a ::ₘ q) q' (a :: out) where
  split := by
    rw [h.split, ← Multiset.cons_coe, Multiset.cons_add]
  sorted := by
    apply List.pairwise_cons.mpr
    refine ⟨fun b hb => hleast b ?_, h.sorted⟩
    rw [h.split]
    exact Multiset.mem_add.mpr (Or.inl hb)
  due := List.forall_mem_cons.mpr ⟨hdue, h.due⟩
  rest := h.rest

/-- The entries that come out are those that are due. -/
theorem Drains.mem_iff (h : Drains prio now q q' out) : a ∈ out ↔ a ∈ q ∧ prio a ≤ now := by
  rw [h.split, Multiset.mem_add, Multiset.mem_coe]
  constructor
  · intro ha
    exact ⟨Or.inl ha, h.due a ha⟩
  · rintro ⟨ha | ha, hle⟩
    · exact ha
    · exact absurd (h.rest a ha) hle.not_gt

/-- The entries that are left are those that are not due. -/
theorem Drains.rest_eq (h : Drains prio now q q' out) : q' = q.filter (now < prio ·) := by
  rw [h.split, Multiset.filter_add, Multiset.filter_eq_self.mpr h.rest]
  rw [Multiset.filter_eq_nil.mpr fun a ha => not_lt.mpr (h.due a ha), zero_add]

/-- The priorities of the entries that come out, and of those that are left. -/
theorem Drains.map_filter (h : Drains prio now q q' out) :
    (q.map prio).filter (· ≤ now) = ↑(out.map prio) ∧
      (q.map prio).filter (¬ · ≤ now) = q'.map prio := by
  have hout : ∀ k ∈ (out.map prio : Multiset κ), k ≤ now := by
    intro k hk
    obtain ⟨a, ha, rfl⟩ := List.mem_map.mp (Multiset.mem_coe.mp hk)
    exact h.due a ha
  have hleft : ∀ k ∈ q'.map prio, ¬ k ≤ now := by
    intro k hk
    obtain ⟨a, ha, rfl⟩ := Multiset.mem_map.mp hk
    exact (h.rest a ha).not_ge
  rw [h.split, Multiset.map_add, Multiset.filter_add, Multiset.filter_add, Multiset.map_coe]
  constructor
  · rw [Multiset.filter_eq_self.mpr hout, Multiset.filter_eq_nil.mpr hleft, add_zero]
  · rw [Multiset.filter_eq_nil.mpr fun k hk => not_not.mpr (hout k hk),
      Multiset.filter_eq_self.mpr hleft, zero_add]

/-- Two queues with the same priorities are drained of the same priorities, in the same
order. -/
theorem Drains.congr {prio' : β → κ} {p p' : Multiset β} {out' : List β}
    (h : Drains prio now q q' out) (h' : Drains prio' now p p' out')
    (heq : q.map prio = p.map prio') :
    out.map prio = out'.map prio' ∧ q'.map prio = p'.map prio' := by
  obtain ⟨hout, hleft⟩ := h.map_filter
  obtain ⟨hout', hleft'⟩ := h'.map_filter
  rw [heq] at hout hleft
  constructor
  · -- a sorted list is determined by its multiset
    have hperm : (out.map prio).Perm (out'.map prio') :=
      Multiset.coe_eq_coe.mp (hout.symm.trans hout')
    exact hperm.eq_of_pairwise' (r := (· ≤ ·)) (List.pairwise_map.mpr h.sorted)
      (List.pairwise_map.mpr h'.sorted)
  · exact hleft.symm.trans hleft'

end MmorpgServer.PriorityQueue
