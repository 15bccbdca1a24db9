import Mathlib.Data.List.Basic
import Mathlib.Data.List.Forall2
import Mathlib.Order.Basic

/-!
# Runs of a deterministic labelled machine

A machine is a partial step function `step : σ → α → Option σ`: the label `a : α`
says who moves and what the environment answers, and `none` says that the label is
not enabled. All nondeterminism of a component (schedules, allocator answers, clock
readings) is carried by the labels, so a property of every list of labels is a
property of every behaviour.

## Main definitions

* `exec` — run a list of labels
* `Guarded` — every step of a run meets a condition on the state before it
* `Throughout` — a property holds in every state of a run
* `traced` — the machine that also appends the events each step emits
* `recorded` — the machine that also keeps a record of its steps
* `Runs` — the runs of a specification

## Main results

* `exec_invariant` — a property kept by every step holds after every run
* `exec_invariant_of_guarded`, `exec_progress_of_guarded` — the same for steps that meet a guard
* `exec_progress` — the same for a property of the state and the labels to come
* `throughout_of_guarded`, `throughout_iff_guarded` — the guard is enough for a property to hold
  throughout, and what it needs
* `exec_append` — runs compose
* `exec_countdown` — a number that can be lowered can be brought to `0`
* `left_iff_turn` — who leaves a component that has been closed
* `exec_simulation` — machines that simulate each other step by step take related runs
* `exec_refines` — a machine that refines a specification step by step takes runs of it
-/

namespace MmorpgServer.Machine

variable {σ α ε : Type*} {step : σ → α → Option σ} {s s' u : σ} {a : α} {acts acts' : List α}

/-- Run the labels of a list one after the other. -/
def exec (step : σ → α → Option σ) : σ → List α → Option σ
  | s, [] => some s
  | s, a :: acts => (step s a).bind fun s' => exec step s' acts

@[simp] theorem exec_nil : exec step s [] = some s := rfl

theorem exec_cons : exec step s (a :: acts) = (step s a).bind fun s' => exec step s' acts := rfl

theorem exec_cons_eq_some :
    exec step s (a :: acts) = some u ↔ ∃ s', step s a = some s' ∧ exec step s' acts = some u := by
  rw [exec_cons, Option.bind_eq_some_iff]

/-- Runs compose. -/
theorem exec_append :
    exec step s (acts ++ acts') = (exec step s acts).bind fun s' => exec step s' acts' := by
  induction acts generalizing s with
  | nil => rfl
  | cons a acts ih =>
    rw [List.cons_append, exec_cons, exec_cons, Option.bind_assoc]
    exact congrArg _ (funext fun s' => ih)

theorem exec_append_eq_some :
    exec step s (acts ++ acts') = some u ↔
      ∃ s', exec step s acts = some s' ∧ exec step s' acts' = some u := by
  rw [exec_append, Option.bind_eq_some_iff]

/-- A property kept by the steps whose label meets `P` holds after every run of such labels. -/
theorem exec_invariant_of_forall {I : σ → Prop} {P : α → Prop}
    (hstep : ∀ s a s', P a → I s → step s a = some s' → I s')
    (hlabels : ∀ a ∈ acts, P a) (hs : I s) (hrun : exec step s acts = some u) : I u := by
  induction acts generalizing s with
  | nil =>
    obtain rfl := Option.some.inj hrun
    exact hs
  | cons a acts ih =>
    obtain ⟨s', hone, hrest⟩ := exec_cons_eq_some.mp hrun
    exact ih (fun b hb => hlabels b (List.mem_cons_of_mem a hb))
      (hstep s a s' (hlabels a List.mem_cons_self) hs hone) hrest

/-- A property kept by every step holds after every run. -/
theorem exec_invariant {I : σ → Prop}
    (hstep : ∀ s a s', I s → step s a = some s' → I s')
    (hs : I s) (hrun : exec step s acts = some u) : I u :=
  exec_invariant_of_forall (P := fun _ => True) (fun s a s' _ => hstep s a s')
    (fun _ _ => trivial) hs hrun

/-! ### Guarded runs -/

/-- Every step that the labels take from `s` on meets the condition `G` in the state
before it. -/
def Guarded (step : σ → α → Option σ) (G : σ → α → Prop) : σ → List α → Prop
  | _, [] => True
  | s, a :: acts => G s a ∧ ∀ s', step s a = some s' → Guarded step G s' acts

/-- One guarded step and a guarded run behind it. -/
theorem Guarded.cons {G : σ → α → Prop} (hguard : G s a) (hone : step s a = some s')
    (hrest : Guarded step G s' acts) : Guarded step G s (a :: acts) := by
  refine ⟨hguard, fun u hu => ?_⟩
  obtain rfl := Option.some.inj (hone.symm.trans hu)
  exact hrest

instance Guarded.decidable {G : σ → α → Prop} [∀ s a, Decidable (G s a)] :
    ∀ s acts, Decidable (Guarded step G s acts)
  | _, [] => isTrue trivial
  | s, a :: acts =>
    match hone : step s a with
    | none => decidable_of_iff (G s a)
        ⟨fun hguard => ⟨hguard, fun _ hs' => absurd (hone.symm.trans hs') (by simp)⟩, And.left⟩
    | some s' =>
      have := Guarded.decidable (G := G) s' acts
      decidable_of_iff (G s a ∧ Guarded step G s' acts)
        ⟨fun ⟨hguard, hrest⟩ => .cons hguard hone hrest,
          fun ⟨hguard, hrest⟩ => ⟨hguard, hrest s' hone⟩⟩

/-- What a guard says about each step. -/
theorem Guarded.imp {G G' : σ → α → Prop} (hguard : Guarded step G s acts)
    (himp : ∀ s a, G s a → G' s a) : Guarded step G' s acts := by
  induction acts generalizing s with
  | nil => trivial
  | cons a acts ih => exact ⟨himp s a hguard.1, fun s' hone => ih (hguard.2 s' hone)⟩

/-- Two guards at once. -/
theorem Guarded.and {G G' : σ → α → Prop} (h : Guarded step G s acts)
    (h' : Guarded step G' s acts) : Guarded step (fun s a => G s a ∧ G' s a) s acts := by
  induction acts generalizing s with
  | nil => trivial
  | cons a acts ih => exact ⟨⟨h.1, h'.1⟩, fun s' hone => ih (h.2 s' hone) (h'.2 s' hone)⟩

/-- The steps of a run that is completed are enabled. -/
theorem Guarded.and_enabled {G : σ → α → Prop} (hguard : Guarded step G s acts)
    (hrun : exec step s acts = some u) :
    Guarded step (fun s a => G s a ∧ ∃ s', step s a = some s') s acts := by
  induction acts generalizing s with
  | nil => trivial
  | cons a acts ih =>
    obtain ⟨s', hone, hrest⟩ := exec_cons_eq_some.mp hrun
    exact .cons ⟨hguard.1, s', hone⟩ hone (ih (hguard.2 s' hone) hrest)

/-- A property kept by every guarded step holds after every guarded run. -/
theorem exec_invariant_of_guarded {I : σ → Prop} {G : σ → α → Prop}
    (hstep : ∀ s a s', G s a → I s → step s a = some s' → I s')
    (hguard : Guarded step G s acts) (hs : I s) (hrun : exec step s acts = some u) : I u := by
  induction acts generalizing s with
  | nil =>
    obtain rfl := Option.some.inj hrun
    exact hs
  | cons a acts ih =>
    obtain ⟨s', hone, hrest⟩ := exec_cons_eq_some.mp hrun
    exact ih (hguard.2 s' hone) (hstep s a s' hguard.1 hs hone) hrest

/-- If every guarded step is enabled and keeps a property, every guarded run is completed and
keeps it. -/
theorem exec_progress_of_guarded {I : σ → Prop} {G : σ → α → Prop}
    (hstep : ∀ s a, G s a → I s → ∃ s', step s a = some s' ∧ I s')
    (hguard : Guarded step G s acts) (hs : I s) : ∃ u, exec step s acts = some u ∧ I u := by
  induction acts generalizing s with
  | nil => exact ⟨s, rfl, hs⟩
  | cons a acts ih =>
    obtain ⟨s', hone, hs'⟩ := hstep s a hguard.1 hs
    obtain ⟨u, hrest, hu⟩ := ih (hguard.2 s' hone) hs'
    exact ⟨u, exec_cons_eq_some.mpr ⟨s', hone, hrest⟩, hu⟩

/-- No step of the run is refused, and a property holds in every state of it. -/
def Throughout (step : σ → α → Option σ) (P : σ → Prop) : σ → List α → Prop
  | s, [] => P s
  | s, a :: acts => P s ∧ ∃ s', step s a = some s' ∧ Throughout step P s' acts

/-- Such a run is completed. -/
theorem Throughout.exec {P : σ → Prop} (h : Throughout step P s acts) :
    ∃ u, exec step s acts = some u ∧ P u := by
  induction acts generalizing s with
  | nil => exact ⟨s, rfl, h⟩
  | cons a acts ih =>
    obtain ⟨-, s', hone, hrest⟩ := h
    obtain ⟨u, hu, hPu⟩ := ih hrest
    exact ⟨u, exec_cons_eq_some.mpr ⟨s', hone, hu⟩, hPu⟩

/-- What a property of the state says about the next step holds of every step. -/
theorem Throughout.guarded {P : σ → Prop} {G : σ → α → Prop} (h : Throughout step P s acts)
    (himp : ∀ s a, P s → G s a) : Guarded step G s acts := by
  induction acts generalizing s with
  | nil => trivial
  | cons a acts ih =>
    obtain ⟨hP, s', hone, hrest⟩ := h
    exact .cons (himp s a hP) hone (ih hrest)

/-- If every guarded step is enabled and keeps a property, it holds throughout guarded runs. `I` is
an invariant of these steps. -/
theorem throughout_of_guarded {I P : σ → Prop} {G : σ → α → Prop}
    (hkeep : ∀ s a, G s a → I s → P s → ∃ s', step s a = some s' ∧ I s' ∧ P s')
    (hguard : Guarded step G s acts) (hI : I s) (hP : P s) : Throughout step P s acts := by
  induction acts generalizing s with
  | nil => exact hP
  | cons a acts ih =>
    obtain ⟨s', hone, hI', hP'⟩ := hkeep s a hguard.1 hI hP
    exact ⟨hP, s', hone, ih (hguard.2 s' hone) hI' hP'⟩

/-- Among the runs whose labels meet `E`, those that keep a property throughout are the guarded
ones, if every guarded step keeps it and no other step does. `I` is an invariant of the steps
that keep it. -/
theorem throughout_iff_guarded {I P : σ → Prop} {E G : σ → α → Prop}
    (hkeep : ∀ s a, E s a → G s a → I s → P s → ∃ s', step s a = some s' ∧ I s' ∧ P s')
    (hbreak : ∀ s a s', E s a → I s → P s → step s a = some s' → P s' → G s a)
    (hlabels : Guarded step E s acts) (hI : I s) (hP : P s) :
    Throughout step P s acts ↔ Guarded step G s acts := by
  constructor
  · intro h
    induction acts generalizing s with
    | nil => trivial
    | cons a acts ih =>
      obtain ⟨-, s', hone, hrest⟩ := h
      have hP' : P s' := by
        cases acts with
        | nil => exact hrest
        | cons => exact hrest.1
      have hguard := hbreak s a s' hlabels.1 hI hP hone hP'
      obtain ⟨u, hu, hI', -⟩ := hkeep s a hlabels.1 hguard hI hP
      obtain rfl := Option.some.inj (hone.symm.trans hu)
      exact Guarded.cons hguard hone (ih (hlabels.2 s' hone) hI' hP' hrest)
  · intro hguard
    exact throughout_of_guarded (fun s a h => hkeep s a h.1 h.2) (hlabels.and hguard) hI hP

/-- If every step is enabled as long as a property of the state and the labels to come holds,
and keeps it, the run is completed. -/
theorem exec_progress {I : σ → List α → Prop}
    (hstep : ∀ s a acts, I s (a :: acts) → ∃ s', step s a = some s' ∧ I s' acts)
    (h : I s acts) : ∃ u, exec step s acts = some u ∧ I u [] := by
  induction acts generalizing s with
  | nil => exact ⟨s, rfl, h⟩
  | cons a acts ih =>
    obtain ⟨s', hone, h'⟩ := hstep s a acts h
    obtain ⟨u, hrest, hu⟩ := ih h'
    exact ⟨u, exec_cons_eq_some.mpr ⟨s', hone, hrest⟩, hu⟩

/-- Runs that lower a number by one each lead to where it is `0`. -/
theorem exec_countdown {I : ℕ → σ → Prop}
    (hstep : ∀ n s, I (n + 1) s → ∃ acts s', exec step s acts = some s' ∧ I n s') (n : ℕ)
    (hs : I n s) : ∃ acts u, exec step s acts = some u ∧ I 0 u := by
  induction n generalizing s with
  | zero => exact ⟨[], s, rfl, hs⟩
  | succ n ih =>
    obtain ⟨acts, s', hrun, hs'⟩ := hstep n s hs
    obtain ⟨acts', u, hrun', hu⟩ := ih hs'
    exact ⟨acts ++ acts', u, exec_append_eq_some.mpr ⟨s', hrun, hrun'⟩, hu⟩

/-! ### Simulation -/

/-- Two machines whose steps from related states are both refused, or lead to related states
again, take related runs. -/
theorem exec_simulation {τ β : Type*} {step' : τ → β → Option τ} {R : σ → τ → Prop}
    {Q : α → β → Prop} {t : τ} {acts' : List β}
    (hstep : ∀ s t a b, Q a b → R s t → Option.Rel R (step s a) (step' t b))
    (hlabels : List.Forall₂ Q acts acts') (h : R s t) :
    Option.Rel R (exec step s acts) (exec step' t acts') := by
  induction hlabels generalizing s t with
  | nil => exact .some h
  | @cons a b _ _ hlabel _ ih =>
    have hone := hstep s t a b hlabel h
    rw [exec_cons, exec_cons]
    generalize step s a = o, step' t b = o' at hone
    cases hone with
    | none => exact .none
    | some h' => exact ih h'

/-! ### Machines that emit events -/

/-- Run a step that emits events, appending them to the trace so far. -/
def traced (step : σ → α → Option (σ × List ε)) (st : σ × List ε) (a : α) :
    Option (σ × List ε) :=
  (step st.1 a).map fun r => (r.1, st.2 ++ r.2)

theorem traced_eq_some {step : σ → α → Option (σ × List ε)} {st st' : σ × List ε} :
    traced step st a = some st' ↔
      ∃ s' evs, step st.1 a = some (s', evs) ∧ st' = (s', st.2 ++ evs) := by
  unfold traced
  rw [Option.map_eq_some_iff]
  constructor
  · rintro ⟨⟨s', evs⟩, hone, rfl⟩
    exact ⟨s', evs, hone, rfl⟩
  · rintro ⟨s', evs, hone, rfl⟩
    exact ⟨(s', evs), hone, rfl⟩

theorem exec_traced_cons {step : σ → α → Option (σ × List ε)} {tr evs : List ε}
    {st : σ × List ε} (hone : step s a = some (s', evs)) :
    exec (traced step) (s, tr) (a :: acts) = some st ↔
      exec (traced step) (s', tr ++ evs) acts = some st := by
  rw [exec_cons, traced_eq_some.mpr ⟨s', evs, hone, rfl⟩]
  rfl

/-- The trace so far is never rewritten: a traced run only appends to it, and what it
appends does not depend on it. -/
theorem exec_traced_append {step : σ → α → Option (σ × List ε)} {tr tr' : List ε} :
    exec (traced step) (s, tr) acts = some (u, tr') ↔
      ∃ evs, exec (traced step) (s, []) acts = some (u, evs) ∧ tr' = tr ++ evs := by
  induction acts generalizing s tr tr' with
  | nil => simp [and_comm, eq_comm]
  | cons a acts ih =>
    -- the events of the first step move from the run into the trace before it, so the
    -- induction hypothesis is needed at every trace
    simp only [exec_cons_eq_some, traced_eq_some]
    constructor
    · rintro ⟨_, ⟨s', evs, hone, rfl⟩, hrest⟩
      obtain ⟨more, hmore, rfl⟩ := ih.mp hrest
      exact ⟨evs ++ more, ⟨_, ⟨s', evs, hone, rfl⟩, ih.mpr ⟨more, hmore, rfl⟩⟩,
        List.append_assoc ..⟩
    · rintro ⟨_, ⟨_, ⟨s', evs, hone, rfl⟩, hrest⟩, rfl⟩
      obtain ⟨more, hmore, rfl⟩ := ih.mp hrest
      exact ⟨_, ⟨s', evs, hone, rfl⟩, ih.mpr ⟨more, hmore, by simp⟩⟩

/-- The first step of a traced run, and the rest of the run. -/
theorem exec_traced_cons_eq_some {step : σ → α → Option (σ × List ε)} {evs : List ε} :
    exec (traced step) (s, []) (a :: acts) = some (u, evs) ↔
      ∃ s' evs₁ evs₂, step s a = some (s', evs₁) ∧
        exec (traced step) (s', []) acts = some (u, evs₂) ∧ evs = evs₁ ++ evs₂ := by
  constructor
  · intro hrun
    obtain ⟨st, hone, hrest⟩ := exec_cons_eq_some.mp hrun
    obtain ⟨s', evs₁, hstep, rfl⟩ := traced_eq_some.mp hone
    obtain ⟨evs₂, hevs₂, rfl⟩ := exec_traced_append.mp hrest
    exact ⟨s', evs₁, evs₂, hstep, hevs₂, rfl⟩
  · rintro ⟨s', evs₁, evs₂, hstep, hevs₂, rfl⟩
    exact (exec_traced_cons hstep).mpr (exec_traced_append.mpr ⟨evs₂, hevs₂, rfl⟩)

/-- Someone is inside a component that has been closed, and leaves it with its next turn, which
emits `x`: it has left at the end of a run iff it had a turn, and is still inside otherwise. -/
theorem left_iff_turn {κ : Type*} {step : σ → α → Option (σ × List ε)} {Closed : σ → Prop}
    {x : ε} {evs : List ε} (I : σ → Prop) (turn : κ → α)
    (hclosed : ∀ s a s' evs, Closed s → step s a = some (s', evs) → Closed s')
    (hstay : ∀ s a s' evs, Closed s → I s → (∀ k, a ≠ turn k) → step s a = some (s', evs) →
      I s' ∧ x ∉ evs)
    (hturn : ∀ s k s' evs, Closed s → I s → step s (turn k) = some (s', evs) → x ∈ evs)
    (hs : Closed s) (hinside : I s) (hrun : exec (traced step) (s, []) acts = some (u, evs)) :
    (x ∈ evs ↔ ∃ k, turn k ∈ acts) ∧ ((∀ k, turn k ∉ acts) → I u) := by
  induction acts generalizing s evs with
  | nil =>
    obtain ⟨rfl, rfl⟩ := Prod.mk.inj (Option.some.inj hrun)
    simp [hinside]
  | cons a acts ih =>
    obtain ⟨s', evs₁, evs₂, hstep, hevs₂, rfl⟩ := exec_traced_cons_eq_some.mp hrun
    by_cases ha : ∃ k, a = turn k
    · obtain ⟨k, rfl⟩ := ha
      have hleft : x ∈ evs₁ := hturn s k s' evs₁ hs hinside hstep
      exact ⟨iff_of_true (by simp [hleft]) ⟨k, List.mem_cons_self⟩,
        fun hnone => absurd List.mem_cons_self (hnone k)⟩
    · have hother : ∀ k, a ≠ turn k := fun k hk => ha ⟨k, hk⟩
      obtain ⟨hinside', hquiet⟩ := hstay s a s' evs₁ hs hinside hother hstep
      obtain ⟨hiff, hlast⟩ := ih (hclosed s a s' evs₁ hs hstep) hinside' hevs₂
      refine ⟨?_, fun hnone => hlast fun k hk => hnone k (List.mem_cons_of_mem a hk)⟩
      have hcons : ∀ k, turn k ∈ a :: acts ↔ turn k ∈ acts := fun k => by
        rw [List.mem_cons, or_iff_right fun h => hother k h.symm]
      simp only [hcons]
      simpa [hquiet] using hiff

/-- The machine that also keeps a record, to which `note` adds each step. -/
def recorded {γ : Type*} (step : σ → α → Option (σ × List ε)) (note : σ → α → σ → γ → γ)
    (st : σ × γ) (a : α) : Option (σ × γ) :=
  (step st.1 a).map fun r => (r.1, note st.1 a r.1 st.2)

theorem recorded_eq_some {γ : Type*} {step : σ → α → Option (σ × List ε)}
    {note : σ → α → σ → γ → γ} {st st' : σ × γ} :
    recorded step note st a = some st' ↔
      ∃ s' evs, step st.1 a = some (s', evs) ∧ st' = (s', note st.1 a s' st.2) := by
  unfold recorded
  rw [Option.map_eq_some_iff]
  constructor
  · rintro ⟨⟨s', evs⟩, hone, rfl⟩
    exact ⟨s', evs, hone, rfl⟩
  · rintro ⟨s', evs, hone, rfl⟩
    exact ⟨(s', evs), hone, rfl⟩

/-- Every run has its record. -/
theorem exec_recorded {γ : Type*} {step : σ → α → Option (σ × List ε)}
    (note : σ → α → σ → γ → γ) (g : γ) {tr tr' : List ε}
    (hrun : exec (traced step) (s, tr) acts = some (u, tr')) :
    ∃ g', exec (recorded step note) (s, g) acts = some (u, g') := by
  induction acts generalizing s tr g with
  | nil =>
    obtain ⟨rfl, -⟩ := Prod.mk.inj (Option.some.inj hrun)
    exact ⟨g, rfl⟩
  | cons a acts ih =>
    obtain ⟨st, hone, hrest⟩ := exec_cons_eq_some.mp hrun
    obtain ⟨s', evs, hstep, rfl⟩ := traced_eq_some.mp hone
    obtain ⟨g', hg'⟩ := ih (note s a s' g) hrest
    exact ⟨g', exec_cons_eq_some.mpr ⟨_, recorded_eq_some.mpr ⟨s', evs, hstep, rfl⟩, hg'⟩⟩

/-! ### Refinement -/

/-- A run of a specification: `E` relates the state before a step, its label, the state after
it and what the step emits. -/
inductive Runs {τ : Type*} (E : τ → α → τ → List ε → Prop) : τ → List α → τ → List ε → Prop where
  | nil (t : τ) : Runs E t [] t []
  | cons {t t' t'' : τ} {a : α} {acts : List α} {evs evs' : List ε} (hone : E t a t' evs)
      (hrest : Runs E t' acts t'' evs') : Runs E t (a :: acts) t'' (evs ++ evs')

/-- A machine with events is a specification. -/
theorem Runs.exec_traced {step : σ → α → Option (σ × List ε)} {evs : List ε}
    (h : Runs (fun s a s' evs => step s a = some (s', evs)) s acts u evs) :
    exec (traced step) (s, []) acts = some (u, evs) := by
  induction h with
  | nil => rfl
  | cons hone _ ih => exact exec_traced_cons_eq_some.mpr ⟨_, _, _, hone, ih, rfl⟩

/-- A machine whose steps are steps of a specification takes runs of the specification. `I`
relates the two states and the labels to come. -/
theorem exec_refines {τ : Type*} {E : τ → α → τ → List ε → Prop}
    {step : σ → α → Option (σ × List ε)} {I : σ → τ → List α → Prop} {t : τ}
    (hstep : ∀ s t a acts, I s t (a :: acts) →
      ∃ s' evs t', step s a = some (s', evs) ∧ E t a t' evs ∧ I s' t' acts)
    (h : I s t acts) :
    ∃ u evs t', exec (traced step) (s, []) acts = some (u, evs) ∧ Runs E t acts t' evs ∧
      I u t' [] := by
  induction acts generalizing s t with
  | nil => exact ⟨s, [], t, rfl, .nil t, h⟩
  | cons a acts ih =>
    obtain ⟨s', evs, t', hone, hE, h'⟩ := hstep s t a acts h
    obtain ⟨u, evs', t'', hrest, hruns, hu⟩ := ih h'
    refine ⟨u, evs ++ evs', t'', ?_, hruns.cons hE, hu⟩
    exact exec_traced_cons_eq_some.mpr ⟨s', evs, evs', hone, hrest, rfl⟩

end MmorpgServer.Machine
