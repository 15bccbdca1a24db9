import MmorpgServer.Lib.Machine
import Mathlib.Data.List.Count
import Mathlib.Data.List.Infix

/-!
# Events on a ticking trace

A trace is a list of events, some of which advance a clock. `At tick tr x k` says that the
event `x` occurs in `tr` when the clock has ticked `k` times. `After x P tr` says that only events
with the property `P` follow an occurrence of `x`. `Checked R tr evs` says that each of the
events `evs`, which follow `tr`, is related by `R` to all that came before it.

## Main results

* `split_append` — an event of a trace that was extended stands in the old or the new part
* `at_append` — what occurs in a longer trace, and when
* `After.append`, `After.concat` — what follows an event in a longer trace
* `pair_total`, `pair_asymm` — two events come in one order
* `checked_iff_guarded` — the runs of a machine whose events are checked
-/

namespace MmorpgServer.Trace

variable {ε : Type*} [DecidableEq ε] {tick x y e : ε} {tr tr' : List ε} {k : ℕ}

/-- The event `x` occurs in the trace after `k` ticks. -/
def At (tick : ε) (tr : List ε) (x : ε) (k : ℕ) : Prop :=
  ∃ pre post, tr = pre ++ x :: post ∧ pre.count tick = k

theorem At.mem (h : At tick tr x k) : x ∈ tr := by
  obtain ⟨pre, post, rfl, -⟩ := h
  simp

@[simp] theorem not_at_nil : ¬ At tick [] x k := fun h => List.not_mem_nil h.mem

theorem at_of_split {pre post : List ε} (h : tr = pre ++ x :: post) :
    At tick tr x (pre.count tick) :=
  ⟨pre, post, h, rfl⟩

omit [DecidableEq ε] in
/-- An event of a trace that was extended stands in the old or in the new part. -/
theorem split_append {pre post : List ε} (h : tr ++ tr' = pre ++ x :: post) :
    (∃ mid, tr = pre ++ x :: mid) ∨ ∃ mid, pre = tr ++ mid ∧ tr' = mid ++ x :: post := by
  rcases List.append_eq_append_iff.mp h with ⟨mid, rfl, h'⟩ | ⟨mid, rfl, h'⟩
  · exact Or.inr ⟨mid, rfl, h'⟩
  · cases mid with
    | nil => exact Or.inr ⟨[], by simp, h'.symm⟩
    | cons e mid =>
      obtain ⟨rfl, -⟩ := List.cons.inj h'
      exact Or.inl ⟨mid, rfl⟩

/-- What occurs in a trace that was extended. -/
theorem at_append :
    At tick (tr ++ tr') x k ↔ At tick tr x k ∨ ∃ j, At tick tr' x j ∧ k = tr.count tick + j := by
  constructor
  · rintro ⟨pre, post, h, rfl⟩
    rcases split_append h with ⟨mid, rfl⟩ | ⟨mid, rfl, rfl⟩
    · exact Or.inl (at_of_split rfl)
    · exact Or.inr ⟨mid.count tick, at_of_split rfl, List.count_append⟩
  · -- the ticks of the old part are counted in front of an event of the new part
    rintro (⟨pre, post, rfl, rfl⟩ | ⟨_, ⟨pre, post, rfl, rfl⟩, rfl⟩)
    · exact ⟨pre, post ++ tr', by simp, rfl⟩
    · exact ⟨tr ++ pre, post, by simp, List.count_append⟩

theorem at_cons :
    At tick (e :: tr) x k ↔ (x = e ∧ k = 0) ∨ ∃ j, At tick tr x j ∧ k = [e].count tick + j := by
  rw [← List.singleton_append, at_append]
  refine or_congr ?_ Iff.rfl
  constructor
  · rintro ⟨pre, post, h, rfl⟩
    rcases List.singleton_eq_append_iff.mp h with ⟨rfl, h'⟩ | ⟨-, h'⟩
    · obtain ⟨rfl, -⟩ := List.cons.inj h'
      exact ⟨rfl, rfl⟩
    · cases h'
  · rintro ⟨rfl, rfl⟩
    exact ⟨[], [], rfl, rfl⟩

/-! ### What follows an event -/

omit [DecidableEq ε]

variable {P : ε → Prop}

/-- Behind every occurrence of `x` there are only events with the property `P`. -/
def After (x : ε) (P : ε → Prop) (tr : List ε) : Prop :=
  ∀ pre post, tr = pre ++ x :: post → ∀ e ∈ post, P e

/-- A trace without `x`. -/
theorem After.of_not_mem (h : x ∉ tr) : After x P tr := by
  rintro pre post rfl
  exact absurd (List.mem_append_right pre List.mem_cons_self) h

/-- Further events, none of them `x`, are allowed, or `x` has not occurred. -/
theorem After.append (h : After x P tr) (hx : x ∉ tr') (hP : x ∈ tr → ∀ e ∈ tr', P e) :
    After x P (tr ++ tr') := by
  intro pre post heq e he
  rcases split_append heq with ⟨mid, rfl⟩ | ⟨mid, -, rfl⟩
  · -- the occurrence stands in the old part: what follows it is old, or is all of `tr'`
    rw [List.append_assoc, List.append_cancel_left_eq, List.cons_append] at heq
    rw [← (List.cons.inj heq).2] at he
    rcases List.mem_append.mp he with he | he
    · exact h pre mid rfl e he
    · exact hP (List.mem_append_right pre List.mem_cons_self) e he
  · exact absurd (List.mem_append_right mid List.mem_cons_self) hx

/-- The first occurrence of `x`. -/
theorem After.concat (hx : x ∉ tr) : After x P (tr ++ [x]) := by
  intro pre post heq e he
  rcases split_append heq with ⟨mid, rfl⟩ | ⟨mid, -, hlast⟩
  · exact absurd (List.mem_append_right pre List.mem_cons_self) hx
  · rcases List.singleton_eq_append_iff.mp hlast with ⟨-, hpost⟩ | ⟨-, hnil⟩
    · rw [(List.cons.inj hpost).2] at he
      cases he
    · cases hnil

/-! ### The order of two events -/

/-- Of two events in a trace, one comes before the other. -/
theorem pair_total (hx : x ∈ tr) (hy : y ∈ tr) (hne : x ≠ y) :
    [x, y].Sublist tr ∨ [y, x].Sublist tr := by
  induction tr with
  | nil => cases hx
  | cons e tr ih =>
    rcases List.mem_cons.mp hx with rfl | hx'
    · have hy' := (List.mem_cons.mp hy).resolve_left (Ne.symm hne)
      exact Or.inl (List.cons_sublist_cons.mpr (List.singleton_sublist.mpr hy'))
    · rcases List.mem_cons.mp hy with rfl | hy'
      · exact Or.inr (List.cons_sublist_cons.mpr (List.singleton_sublist.mpr hx'))
      · exact (ih hx' hy').imp (·.cons e) (·.cons e)

/-- Events that occur once come in one order only. -/
theorem pair_asymm (hnodup : tr.Nodup) (hxy : [x, y].Sublist tr) : ¬ [y, x].Sublist tr := by
  intro hyx
  induction tr with
  | nil => cases hxy
  | cons e tr ih =>
    obtain ⟨hnew, hnodup⟩ := List.nodup_cons.mp hnodup
    have hsplit : ∀ a b, [a, b].Sublist (e :: tr) → [a, b].Sublist tr ∨ a = e ∧ b ∈ tr := by
      intro a b h
      rcases List.sublist_cons_iff.mp h with h | ⟨r, hr, hsub⟩
      · exact Or.inl h
      · obtain ⟨rfl, rfl⟩ := List.cons.inj hr
        exact Or.inr ⟨rfl, List.singleton_sublist.mp hsub⟩
    -- an event that stands at the head does not come again
    rcases hsplit x y hxy with hxy' | ⟨hx, hy⟩
    · rcases hsplit y x hyx with hyx' | ⟨hy, -⟩
      · exact ih hnodup hxy' hyx'
      · exact hnew (hy ▸ hxy'.subset (by simp))
    · rcases hsplit y x hyx with hyx' | ⟨hy', -⟩
      · exact hnew (hx ▸ hyx'.subset (by simp))
      · exact hnew (hy' ▸ hy)

/-! ### What comes before an event -/

/-- Each of the events that follow `tr` meets `R` with those before it. -/
def Checked (R : List ε → ε → Prop) : List ε → List ε → Prop
  | _, [] => True
  | tr, e :: evs => R tr e ∧ Checked R (tr ++ [e]) evs

variable {R : List ε → ε → Prop} {evs evs' : List ε}

theorem checked_append :
    Checked R tr (evs ++ evs') ↔ Checked R tr evs ∧ Checked R (tr ++ evs) evs' := by
  induction evs generalizing tr with
  | nil => simp [Checked]
  | cons e evs ih => simp [Checked, ih, and_assoc]

theorem checked_iff :
    Checked R tr evs ↔ ∀ pre e post, evs = pre ++ e :: post → R (tr ++ pre) e := by
  induction evs generalizing tr with
  | nil => simp [Checked]
  | cons e evs ih =>
    constructor
    · rintro ⟨he, hrest⟩ pre x post heq
      cases pre with
      | nil =>
        obtain ⟨rfl, -⟩ := List.cons.inj heq
        simpa using he
      | cons y pre =>
        obtain ⟨rfl, rfl⟩ := List.cons.inj heq
        simpa using ih.mp hrest pre x post rfl
    · intro h
      refine ⟨by simpa using h [] e evs rfl, ih.mpr fun pre x post heq => ?_⟩
      simpa using h (e :: pre) x post (by rw [heq, List.cons_append])

/-- A check of each event by itself. -/
theorem checked_forall {P : ε → Prop} : Checked (fun _ => P) tr evs ↔ ∀ e ∈ evs, P e := by
  induction evs generalizing tr with
  | nil => simp [Checked]
  | cons e evs ih => simp [Checked, ih]

/-- The runs of a machine whose events are checked are the guarded ones, if the events of every
guarded step are checked and those of no other step are. `I` is an invariant of the guarded
steps. -/
theorem checked_iff_guarded {σ α : Type*} {step : σ → α → Option (σ × List ε)}
    {I : σ → List ε → Prop} {G : σ → α → Prop} {s u : σ} {acts : List α}
    (hkeep : ∀ s tr a s' evs, I s tr → G s a → step s a = some (s', evs) →
      I s' (tr ++ evs) ∧ Checked R tr evs)
    (hbreak : ∀ s tr a s' evs, I s tr → step s a = some (s', evs) → Checked R tr evs → G s a)
    (h : I s tr)
    (hrun : Machine.exec (Machine.traced step) (s, tr) acts = some (u, tr ++ evs)) :
    Checked R tr evs ↔
      Machine.Guarded (Machine.traced step) (fun st => G st.1) (s, tr) acts := by
  induction acts generalizing s tr evs with
  | nil =>
    obtain ⟨-, heq⟩ := Prod.mk.inj (Option.some.inj hrun)
    obtain rfl : evs = [] := by simpa using heq
    exact iff_of_true trivial trivial
  | cons a acts ih =>
    obtain ⟨st, hone, hrest⟩ := Machine.exec_cons_eq_some.mp hrun
    obtain ⟨s', evs₁, hstep, rfl⟩ := Machine.traced_eq_some.mp hone
    -- the rest of the run appends the rest of the events
    obtain ⟨evs₂, -, heq⟩ := Machine.exec_traced_append.mp hrest
    obtain rfl : evs = evs₁ ++ evs₂ := by simpa using heq
    dsimp only at hstep hrest
    rw [← List.append_assoc] at hrest
    rw [checked_append]
    constructor
    · rintro ⟨hfirst, hlast⟩
      have hguard := hbreak s tr a s' evs₁ h hstep hfirst
      have h' := (hkeep s tr a s' evs₁ h hguard hstep).1
      exact Machine.Guarded.cons hguard hone ((ih h' hrest).mp hlast)
    · rintro ⟨hguard, hlast⟩
      obtain ⟨h', hfirst⟩ := hkeep s tr a s' evs₁ h hguard hstep
      exact ⟨hfirst, (ih h' hrest).mpr (hlast _ hone)⟩

end MmorpgServer.Trace
