import Mathlib.Data.List.Basic

/-!
# Readers of a stream

A stream arrives in pieces, and a reader takes from it what it needs for its next step. Where the
bytes that have arrived are not enough for a step, it waits. A step that can be taken can still be
taken, and does the same, when more has arrived.

## Main definitions

* `StreamReader` — a reader, with what makes its runs end and its steps stable
* `StreamReader.run` — take steps until more input is needed

## Main results

* `StreamReader.run_append` — what arrives later is read as if it had been there
* `StreamReader.run_invariant` — what every step keeps holds behind a run
-/

namespace MmorpgServer

variable {σ α : Type*}

/-- A reader with states `σ` of a stream of `α` -/
structure StreamReader (σ α : Type*) where
  /-- the next state and what is left of the input, `none` where more input is needed -/
  step : σ → List α → Option (σ × List α)
  size : σ → List α → ℕ
  size_lt : ∀ {s u s' u'}, step s u = some (s', u') → size s' u' < size s u
  step_append : ∀ {s u s' u'}, step s u = some (s', u') →
    ∀ v, step s (u ++ v) = some (s', u' ++ v)

namespace StreamReader

variable (R : StreamReader σ α) {s s' : σ} {u u' v : List α}

/-- Take steps until more input is needed. -/
def run (s : σ) (u : List α) : σ × List α :=
  match _h : R.step s u with
  | none => (s, u)
  | some (s', u') => run s' u'
termination_by R.size s u
decreasing_by exact R.size_lt _h

variable {R}

theorem run_of_none (h : R.step s u = none) : R.run s u = (s, u) := by
  rw [run]
  split
  · rfl
  · next heq => exact absurd (h.symm.trans heq) (by simp)

theorem run_of_some (h : R.step s u = some (s', u')) : R.run s u = R.run s' u' := by
  rw [run]
  split
  · next heq => exact absurd (h.symm.trans heq) (by simp)
  · next heq =>
    obtain ⟨rfl, rfl⟩ := Prod.mk.inj (Option.some.inj (h.symm.trans heq))
    rfl

variable (R) in
/-- Induction along a run. -/
theorem run_induction {P : σ → List α → Prop} (hnone : ∀ s u, R.step s u = none → P s u)
    (hsome : ∀ s u s' u', R.step s u = some (s', u') → P s' u' → P s u) : ∀ s u, P s u := by
  intro s u
  induction hn : R.size s u using Nat.strongRecOn generalizing s u with
  | ind n ih =>
    cases hstep : R.step s u with
    | none => exact hnone s u hstep
    | some p =>
      apply hsome s u p.1 p.2 hstep
      exact ih _ (hn ▸ R.size_lt hstep) _ _ rfl

/-- What every step keeps holds behind a run. -/
theorem run_invariant {I : σ → List α → Prop}
    (hstep : ∀ s u s' u', I s u → R.step s u = some (s', u') → I s' u') :
    ∀ s u, I s u → I (R.run s u).1 (R.run s u).2 := by
  refine run_induction R (P := fun s u => I s u → I (R.run s u).1 (R.run s u).2) ?_ ?_
  · intro s u hnone hI
    rwa [run_of_none hnone]
  · intro s u s' u' hsome ih hI
    rw [run_of_some hsome]
    exact ih (hstep s u s' u' hI hsome)

/-- What arrives later is read as if it had been there. -/
theorem run_append (v : List α) :
    ∀ s u, R.run s (u ++ v) = R.run (R.run s u).1 ((R.run s u).2 ++ v) := by
  refine run_induction R
    (P := fun s u => R.run s (u ++ v) = R.run (R.run s u).1 ((R.run s u).2 ++ v)) ?_ ?_
  · intro s u hnone
    rw [run_of_none hnone]
  · intro s u s' u' hsome ih
    rw [run_of_some (R.step_append hsome v), run_of_some hsome, ih]

end StreamReader

end MmorpgServer
