import Mathlib.Data.List.Perm.Basic
import Mathlib.Data.List.Infix

/-!
# Accounts of a job queue

Jobs are accepted into a queue, started in the order of the queue by one of several workers,
and finished in any order. The account keeps the three histories.

## Main definitions

* `Balanced` — the histories agree with the jobs that are pending and those that are running

## Main results

* `Balanced.accept`, `Balanced.start`, `Balanced.finish` — the three operations
* `Balanced.order` — jobs are started in the order in which they were accepted
* `Balanced.complete` — if nothing is pending or running, every job was finished exactly once
* `perm_filterMap_set` — what one slot of a list of workers contributes
-/

namespace MmorpgServer.Ledger

variable {J α β : Type*}

/-- The histories of a queue whose jobs `pending` wait and whose jobs `running` are started but
not finished. -/
structure Balanced (accepted started finished pending running : List J) : Prop where
  accepted_eq : accepted = started ++ pending
  started_perm : started.Perm (finished ++ running)

variable {accepted started finished pending running running' : List J} {j : J}

theorem Balanced.init : Balanced ([] : List J) [] [] [] [] := ⟨rfl, List.Perm.refl _⟩

/-- A job is put at the end of the queue. -/
theorem Balanced.accept (h : Balanced accepted started finished pending running) (j : J) :
    Balanced (accepted ++ [j]) started finished (pending ++ [j]) running := by
  refine ⟨?_, h.started_perm⟩
  rw [h.accepted_eq, List.append_assoc]

/-- The first job of the queue is started. -/
theorem Balanced.start (h : Balanced accepted started finished (j :: pending) running) :
    Balanced accepted (started ++ [j]) finished pending (j :: running) := by
  refine ⟨?_, ?_⟩
  · rw [h.accepted_eq, List.append_assoc]
    rfl
  · exact (h.started_perm.append_right [j]).trans
      ((List.perm_append_singleton j _).trans List.perm_middle.symm)

/-- A running job is finished. -/
theorem Balanced.finish (h : Balanced accepted started finished pending (j :: running)) :
    Balanced accepted started (finished ++ [j]) pending running := by
  refine ⟨h.accepted_eq, ?_⟩
  rw [List.append_assoc]
  exact h.started_perm

/-- The running jobs have no order. -/
theorem Balanced.perm (h : Balanced accepted started finished pending running)
    (hperm : running.Perm running') : Balanced accepted started finished pending running' :=
  ⟨h.accepted_eq, h.started_perm.trans (hperm.append_left finished)⟩

/-- Jobs are started in the order in which they were accepted. -/
theorem Balanced.order (h : Balanced accepted started finished pending running) :
    started <+: accepted :=
  ⟨pending, h.accepted_eq.symm⟩

/-- When nothing is left, every job was finished exactly once. -/
theorem Balanced.complete (h : Balanced accepted started finished [] []) :
    finished.Perm accepted := by
  have hstarted := h.started_perm
  rw [List.append_nil] at hstarted
  rw [h.accepted_eq, List.append_nil]
  exact hstarted.symm

/-- Replacing an element of a list exchanges what it contributes to a `filterMap`. -/
theorem perm_filterMap_set (f : α → Option β) {l : List α} {i : ℕ} {x : α} (h : l[i]? = some x)
    (y : α) : ((f x).toList ++ (l.set i y).filterMap f).Perm ((f y).toList ++ l.filterMap f) := by
  induction l generalizing i with
  | nil => cases h
  | cons b l ih =>
    cases i with
    | zero =>
      obtain rfl := Option.some.inj h
      rw [List.set_cons_zero, List.filterMap_cons, List.filterMap_cons]
      -- both sides of the equation list the same contributions, in another order
      cases f b <;> cases f y
      · exact List.Perm.refl _
      · exact List.Perm.refl _
      · exact List.Perm.refl _
      · exact List.Perm.swap _ _ _
    | succ i =>
      rw [List.set_cons_succ, List.filterMap_cons, List.filterMap_cons]
      have hrest := ih h
      cases f b with
      | none => exact hrest
      | some c => exact List.perm_middle.trans ((hrest.cons c).trans List.perm_middle.symm)

end MmorpgServer.Ledger
