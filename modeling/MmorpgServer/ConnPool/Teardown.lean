import MmorpgServer.ConnPool.Circulation

/-!
# Clients that wait when the pool is destroyed

The destructor sets the abort flag, wakes all clients that wait, and ends. It does not wait for
them: each has to take the mutex again to return from `GetDBConn`, and the mutex and the lists
are destroyed as soon as the destructor ends.

## Main definitions

* `Inside` — a client is in `GetDBConn`
* `Aborted` — the destructor has run, as far as the pool still exists

## Main results

* `aborted_got_none` — what `GetDBConn` returns then is `NULL`
* `returned_iff_turn` — the clients that return before the members of the pool are destroyed
* `client_left_behind` — a client that still waits when they are
-/

namespace MmorpgServer.ConnPool.DB

open Machine CondVar

variable {s s' u : Sys} {tr evs : List Event} {act : Act} {acts : List Act} {conn : ConnPtr}
  {i j k : ℕ} {t : Attempt}

/-- Client `i` is in `GetDBConn`: before the mutex, waiting, or woken and before the mutex. -/
def Inside (s : Sys) (i : ℕ) : Prop := ∃ w, s.clients[i]? = some w ∧ w ≠ .out

def Aborted (s : Sys) : Prop := ∀ pool, s.pool = some pool → pool.abortRequest = true

/-! ### One step -/

theorem aborted_step (h : Aborted s) (hdoes : Does s act s' evs) : Aborted s' := by
  cases hdoes with
  | call | sleep | wake | null | again => exact h
  | take i t hpool hopen => exact absurd (h _ hpool) (by simp [hopen])
  | grow i hpool hopen => exact absurd (h _ hpool) (by simp [hopen])
  | @release pool _ _ _ i hpool =>
    intro pool' hpool'
    obtain rfl := Option.some.inj hpool'
    exact h pool hpool
  | destroy =>
    intro pool' hpool'
    obtain rfl := Option.some.inj hpool'
    rfl
  | finish =>
    intro pool' hpool'
    cases hpool'

/-- No connection is handed out. -/
theorem aborted_got_none (h : Aborted s) (hdoes : Does s act s' evs) (hgot : .got i conn ∈ evs) :
    conn = none := by
  cases hdoes with
  | call | sleep | wake | destroy | finish => cases hgot
  | null =>
    rw [List.mem_singleton] at hgot
    exact (Event.got.inj hgot).2
  | take i t hpool hopen => exact absurd (h _ hpool) (by simp [hopen])
  | grow i hpool hopen => exact absurd (h _ hpool) (by simp [hopen])
  | again | release => simp at hgot

/-- A client that has its turn returns. -/
theorem aborted_turn (h : Aborted s) (hdoes : Does s (.get i t) s' evs) : .got i none ∈ evs := by
  cases hdoes with
  | null => exact List.mem_singleton_self _
  | sleep i t call hpool hopen => exact absurd (h _ hpool) (by simp [hopen])
  | wake call hact => simp at hact
  | take i t hpool hopen => exact absurd (h _ hpool) (by simp [hopen])
  | grow i hpool hopen => exact absurd (h _ hpool) (by simp [hopen])

theorem Inside.set {w : Waiter Call} (h : Inside s i) (hw : w = .out → i ≠ j)
    (hclients : s'.clients = s.clients.set j w) : Inside s' i := by
  obtain ⟨w₀, hw₀, hout⟩ := h
  by_cases hij : i = j
  · subst hij
    refine ⟨w, ?_, fun hw' => hw hw' rfl⟩
    rw [hclients, List.getElem?_set_self (List.getElem?_eq_some_iff.mp hw₀).1]
  · exact ⟨w₀, by rw [hclients, List.getElem?_set_ne (Ne.symm hij), hw₀], hout⟩

/-- A client stays in `GetDBConn` until it has its turn. -/
theorem inside_step (h : Inside s i) (hturn : ∀ t, act ≠ .get i t) (hdoes : Does s act s' evs) :
    Inside s' i ∧ .got i none ∉ evs := by
  -- the clients that return are others
  have hother : ∀ {j t}, act = .get j t → i ≠ j := by
    rintro j t rfl rfl
    exact hturn t rfl
  have hquiet : ∀ {j conn}, i ≠ j → Event.got i none ∉ [Event.got j conn] := by
    intro j conn hij
    simp [hij]
  cases hdoes with
  | call | sleep | wake => exact ⟨h.set (by simp) rfl, List.not_mem_nil⟩
  | null | take | grow => exact ⟨h.set (fun _ => hother rfl) rfl, hquiet (hother rfl)⟩
  | again => exact ⟨h, by simp⟩
  | release j hpool hlisted hnotify =>
    refine ⟨?_, by simp⟩
    -- a client that is woken is still inside
    rcases notifyOne_cases hnotify with ⟨-, rfl⟩ | ⟨call, -, rfl⟩
    · exact h
    · exact h.set (by simp) rfl
  | destroy =>
    obtain ⟨w, hw, hout⟩ := h
    refine ⟨⟨w.wake, by simp [notifyAll, hw], ?_⟩, List.not_mem_nil⟩
    cases w <;> simp_all [Waiter.wake]
  | finish => exact ⟨h, List.not_mem_nil⟩

/-! ### The end of the destructor -/

/-- Nobody gets a connection in a run of an aborted pool. -/
theorem aborted_exec (h : Aborted s) (hrun : exec (traced step) (s, []) acts = some (u, evs)) :
    ∀ i conn, .got i conn ∈ evs → conn = none := by
  refine (exec_invariant (I := fun st => Aborted st.1 ∧ ∀ i conn, .got i conn ∈ st.2 → conn = none)
    (fun st act st' hst hone => ?_) ⟨h, fun i conn hgot => absurd hgot List.not_mem_nil⟩ hrun).2
  obtain ⟨haborted, hnone⟩ := hst
  obtain ⟨s', evs, hstep, rfl⟩ := traced_eq_some.mp hone
  have hdoes := step_does hstep
  refine ⟨aborted_step haborted hdoes, fun i conn hgot => ?_⟩
  rcases List.mem_append.mp hgot with hgot | hgot
  · exact hnone i conn hgot
  · exact aborted_got_none haborted hdoes hgot

/-- A client of an aborted pool returns iff it has a turn. -/
theorem aborted_returns (h : Aborted s) (hinside : Inside s i)
    (hrun : exec (traced step) (s, []) acts = some (u, evs)) :
    (.got i none ∈ evs ↔ ∃ t, .get i t ∈ acts) ∧ ((∀ t, .get i t ∉ acts) → Inside u i) :=
  left_iff_turn (fun s => Inside s i) (Act.get i)
    (fun _ _ _ _ haborted hstep => aborted_step haborted (step_does hstep))
    (fun _ _ _ _ _ hin hturn hstep => inside_step hin hturn (step_does hstep))
    (fun _ _ _ _ haborted _ hstep => aborted_turn haborted (step_does hstep)) h hinside hrun

/-- **The clients return in time that have a turn.** Let the destructor run and end, with other
steps between and after. All clients that were in `GetDBConn` have returned `NULL` before the
members of the pool are destroyed, and nobody gets a connection, iff all of them have taken the
mutex again before. A client that has not is then in `GetDBConn` of a pool that is gone. -/
theorem returned_iff_turn (s₁ s₂ s₃ u : Sys) (evs evs' : List Event) (mid post : List Act)
    (hdestroy : step s₁ .destroy = some (s₂, []))
    (hmid : exec (traced step) (s₂, []) mid = some (s₃, evs))
    (hfinish : exec (traced step) (s₃, []) (.finish :: post) = some (u, evs')) :
    (((∀ i, Inside s₁ i → .got i none ∈ evs) ∧ ∀ i conn, .got i conn ∈ evs ++ evs' → conn = none) ↔
      ∀ i, Inside s₁ i → ∃ t, .get i t ∈ mid) ∧
    ∀ i, Inside s₁ i → (∀ t, .get i t ∉ mid) →
      ∃ s₄, step s₃ .finish = some (s₄, []) ∧ s₄.pool = none ∧ Inside s₄ i := by
  have haborted : Aborted s₂ := by
    cases step_does hdestroy with
    | wake call hact => simp at hact
    | destroy =>
      intro pool hpool
      obtain rfl := Option.some.inj hpool
      rfl
  have hinside : ∀ i, Inside s₁ i → Inside s₂ i := fun i h =>
    (inside_step h (by simp) (step_does hdestroy)).1
  have hreturns := fun i (h : Inside s₁ i) => aborted_returns haborted (hinside i h) hmid
  have hnull : ∀ i conn, .got i conn ∈ evs ++ evs' → conn = none := by
    have hrest : exec (traced step) (s₃, evs) (.finish :: post) = some (u, evs ++ evs') :=
      exec_traced_append.mpr ⟨evs', hfinish, rfl⟩
    exact aborted_exec haborted (exec_append_eq_some.mpr ⟨(s₃, evs), hmid, hrest⟩)
  constructor
  · constructor
    · rintro ⟨hall, -⟩ i hi
      exact (hreturns i hi).1.mp (hall i hi)
    · exact fun hall => ⟨fun i hi => (hreturns i hi).1.mpr (hall i hi), hnull⟩
  · -- the end of the destructor moves no client
    intro i hi hnone
    obtain ⟨st, hone, -⟩ := exec_cons_eq_some.mp hfinish
    obtain ⟨s₄, evs₄, hstep, rfl⟩ := traced_eq_some.mp hone
    obtain ⟨pool, -, heq⟩ := Option.map_eq_some_iff.mp hstep
    obtain ⟨rfl, rfl⟩ := Prod.mk.inj heq
    exact ⟨_, hstep, rfl, (hreturns i hi).2 hnone⟩

/-- Client `2` waits without a limit, and is woken by the destructor, which ends at once: its next
step is on a mutex that does not exist any more. -/
theorem client_left_behind : ∃ s₀ s₁ s₂ tr,
    init (create 3 2) [⟨10, 0⟩, ⟨11, 0⟩] = some (s₀, 0) ∧
    exec (traced step) (s₀, []) [.call 0 (-1), .get 0 ⟨12, 0⟩, .call 1 (-1), .get 1 ⟨12, 0⟩,
      .call 2 (-1), .get 2 ⟨12, 0⟩] = some (s₁, tr) ∧
    (∃ call, s₁.clients[2]? = some (.asleep call)) ∧
    exec (traced step) (s₁, tr) [.destroy, .finish] = some (s₂, tr) ∧
    .got 2 none ∉ tr ∧ s₂.pool = none ∧ (∃ call, s₂.clients[2]? = some (.woken call)) ∧
    step s₂ (.get 2 ⟨12, 0⟩) = none :=
  ⟨_, _, _, _, rfl, rfl, ⟨_, rfl⟩, rfl, by decide, rfl, ⟨_, rfl⟩, rfl⟩

/-- Here the destructor ends after the client that it has woken has had its turn. -/
theorem returned_iff_turn_one : ∃ s₀ s₁ s₂ s₃ u tr evs,
    init (create 3 2) [⟨10, 0⟩, ⟨11, 0⟩] = some (s₀, 0) ∧
    exec (traced step) (s₀, []) [.call 0 (-1), .get 0 ⟨12, 0⟩, .call 1 (-1), .get 1 ⟨12, 0⟩,
      .call 2 (-1), .get 2 ⟨12, 0⟩] = some (s₁, tr) ∧
    step s₁ .destroy = some (s₂, []) ∧
    exec (traced step) (s₂, []) [.get 2 ⟨12, 0⟩] = some (s₃, evs) ∧
    exec (traced step) (s₃, []) [.finish] = some (u, []) ∧
    ∀ i, Inside s₁ i → .got i none ∈ evs := by
  refine ⟨_, _, _, _, _, _, _, rfl, rfl, rfl, rfl, rfl, ?_⟩
  refine ((returned_iff_turn _ _ _ _ _ [] [.get 2 ⟨12, 0⟩] [] rfl rfl rfl).1.mpr ?_).1
  rintro i ⟨w, hw, hout⟩
  -- the others are not in `GetDBConn`
  match i with
  | 0 => exact absurd (Option.some.inj hw).symm hout
  | 1 => exact absurd (Option.some.inj hw).symm hout
  | 2 => exact ⟨⟨12, 0⟩, List.mem_singleton_self _⟩
  | i + 3 => cases hw

end MmorpgServer.ConnPool.DB
