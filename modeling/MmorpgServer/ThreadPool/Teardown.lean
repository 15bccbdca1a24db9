import MmorpgServer.ThreadPool.Model
import MmorpgServer.Lib.Machine

/-!
# Producers that are inside when the thread pool is destroyed

`threadpool_destroy` closes the queue, wakes the producers that wait for room, and joins the
workers before it frees the pool. It does not wait for the producers: each has to take the mutex
again to leave `threadpool_add_job`, and may find it destroyed.

## Main definitions

* `Calls` — a producer is in `threadpool_add_job`
* `QueueClosed` — `threadpool_destroy` has begun, as far as the pool still exists
* `Others` — what a step does that no producer takes

## Main results

* `closed_cases` — what a step of a closed pool does
* `producers_leave_iff` — the producers that leave before the pool is freed
* `producer_left_behind` — a producer that is woken for a pool that is gone
-/

namespace MmorpgServer.ThreadPool

open Machine

variable {J : Type} {s s' u : Sys J} {evs : List (Event J)} {a : Act J} {acts : List (Act J)}
  {pool pool' : Threadpool} {i w : ℕ} {work : J} {answer : JobPtr}

/-- The producer is in `threadpool_add_job`: before the mutex, waiting, or woken and before the
mutex. -/
def Producer.Calls (p : Producer J) (work : J) : Prop :=
  p = .entering work ∨ p = .asleep work ∨ p = .woken work

def QueueClosed (s : Sys J) : Prop := ∀ pool, s.pool = some pool → pool.queueClose = true

theorem queueClosed_of_pool (hpool : s.pool = some pool) (hclose : pool.queueClose = true) :
    QueueClosed s := by
  intro pool' hpool'
  obtain rfl := Option.some.inj (hpool.symm.trans hpool')
  exact hclose

/-- A step of the workers or of `threadpool_destroy`: producers are at most woken, and none
returns. -/
structure Others (s s' : Sys J) (evs : List (Event J)) : Prop where
  closed : QueueClosed s'
  producers : ∀ i, s'.producers i = s.producers i ∨ s'.producers i = (s.producers i).wake
  events : ∀ i work ret, .addJob i work ret ∉ evs

theorem Producer.Calls.wake {p : Producer J} (h : p.Calls work) : p.wake.Calls work := by
  rcases h with rfl | rfl | rfl
  · exact Or.inl rfl
  · exact Or.inr (Or.inr rfl)
  · exact Or.inr (Or.inr rfl)

theorem Producer.Calls.ne_out {p : Producer J} (h : p.Calls work) : p ≠ .out := by
  rcases h with rfl | rfl | rfl <;> simp

theorem Producer.Calls.work_eq {p : Producer J} {work' : J} (h : p.Calls work)
    (h' : p.Calls work') : work = work' := by
  rcases h with rfl | rfl | rfl <;> rcases h' with h' | h' | h' <;> cases h' <;> rfl

theorem setProducer_of_ne {j : ℕ} {p : Producer J} (hij : i ≠ j) :
    (setProducer s j p).producers i = s.producers i :=
  Function.update_of_ne hij ..

/-! ### One step of a closed pool -/

theorem add_of_closed (h : QueueClosed s)
    (hrun : threadpoolAddJob s i work answer = some (s', evs)) :
    s' = setProducer s i .out ∧ evs = [.addJob i work (-1)] := by
  obtain ⟨pool, hpool, hrun⟩ := Option.bind_eq_some_iff.mp hrun
  have hclose := h pool hpool
  rw [if_neg (by simp [hclose]), if_pos (Or.inl hclose)] at hrun
  obtain ⟨rfl, rfl⟩ := Prod.mk.inj (Option.some.inj hrun)
  exact ⟨rfl, rfl⟩

theorem afterDequeue_producers (s : Sys J) (queueMaxNum cur : ℤ) (i : ℕ) :
    (afterDequeue s queueMaxNum cur).producers i = s.producers i ∨
      (afterDequeue s queueMaxNum cur).producers i = (s.producers i).wake := by
  unfold afterDequeue
  split_ifs
  · exact Or.inr rfl
  · exact Or.inl rfl
  · exact Or.inr rfl
  · exact Or.inl rfl

theorem afterDequeue_pool (s : Sys J) (queueMaxNum cur : ℤ) :
    (afterDequeue s queueMaxNum cur).pool = s.pool := by
  unfold afterDequeue
  split_ifs <;> rfl

theorem function_others (h : QueueClosed s) (hrun : threadpoolFunction s w = some (s', evs)) :
    Others s s' evs := by
  obtain ⟨pool, hpool, hrun⟩ := Option.bind_eq_some_iff.mp hrun
  have hclose := h pool hpool
  -- the worker waits, ends, or takes a job and may wake the producers
  split_ifs at hrun
  · obtain ⟨rfl, rfl⟩ := Prod.mk.inj (Option.some.inj hrun)
    exact ⟨h, fun i => Or.inl rfl, by simp⟩
  · obtain ⟨rfl, rfl⟩ := Prod.mk.inj (Option.some.inj hrun)
    exact ⟨h, fun i => Or.inl rfl, by simp⟩
  · obtain ⟨pjob, -, hrun⟩ := Option.bind_eq_some_iff.mp hrun
    obtain ⟨job, -, heq⟩ := Option.bind_eq_some_iff.mp hrun
    obtain ⟨rfl, rfl⟩ := Prod.mk.inj (Option.some.inj heq)
    refine ⟨queueClosed_of_pool (afterDequeue_pool _ _ _) ?_, afterDequeue_producers _ _ _,
      by simp⟩
    split_ifs
    · exact hclose
    · exact hclose

theorem waitEmpty_others (h : QueueClosed s) (hrun : waitEmpty s = some s') : Others s s' [] := by
  obtain ⟨pool, hpool, hrun⟩ := Option.bind_eq_some_iff.mp hrun
  split_ifs at hrun
  · obtain rfl := Option.some.inj hrun
    exact ⟨h, fun i => Or.inl rfl, by simp⟩
  · obtain rfl := Option.some.inj hrun
    exact ⟨queueClosed_of_pool rfl (h pool hpool), fun i => Or.inl rfl, by simp⟩

theorem joinThread_others (h : QueueClosed s) (hrun : joinThread s i = some s') :
    Others s s' [] := by
  obtain ⟨pool, hpool, hrun⟩ := Option.bind_eq_some_iff.mp hrun
  split_ifs at hrun
  · obtain rfl := Option.some.inj hrun
    exact ⟨h, fun i => Or.inl rfl, by simp⟩
  · -- the last thread has been joined, and the pool is freed
    obtain ⟨heap, -, heq⟩ := Option.bind_eq_some_iff.mp hrun
    obtain rfl := Option.some.inj heq
    exact ⟨fun _ hpool' => absurd hpool' (by simp [setDestroyer]), fun i => Or.inl rfl, by simp⟩

theorem destroy_others (h : QueueClosed s) (hrun : threadpoolDestroy s = some (s', evs)) :
    Others s s' evs := by
  unfold threadpoolDestroy at hrun
  split at hrun
  · obtain ⟨pool, hpool, hrun⟩ := Option.bind_eq_some_iff.mp hrun
    rw [if_pos (Or.inl (h pool hpool))] at hrun
    obtain ⟨rfl, rfl⟩ := Prod.mk.inj (Option.some.inj hrun)
    exact ⟨h, fun i => Or.inl rfl, by simp⟩
  · cases hrun
  · obtain ⟨s₁, hwait, heq⟩ := Option.map_eq_some_iff.mp hrun
    obtain ⟨rfl, rfl⟩ := Prod.mk.inj heq
    exact waitEmpty_others h hwait
  · obtain ⟨rfl, rfl⟩ := Prod.mk.inj (Option.some.inj hrun)
    exact ⟨h, fun i => Or.inl rfl, by simp⟩
  · -- `queue_not_full` is broadcast
    obtain ⟨rfl, rfl⟩ := Prod.mk.inj (Option.some.inj hrun)
    exact ⟨h, fun i => Or.inr rfl, by simp⟩
  · obtain ⟨s₁, hjoin, heq⟩ := Option.map_eq_some_iff.mp hrun
    obtain ⟨rfl, rfl⟩ := Prod.mk.inj heq
    exact joinThread_others h hjoin
  · cases hrun

/-- A step of a pool whose queue is closed: a producer arrives, a producer is refused, or the
others have their turn. -/
theorem closed_cases (h : QueueClosed s) (hstep : step s a = some (s', evs)) :
    (∃ i work, s.producers i = .out ∧ a = .call i work ∧
      s' = setProducer s i (.entering work) ∧ evs = []) ∨
    (∃ i work answer, (s.producers i).Calls work ∧ a = .add i answer ∧ s' = setProducer s i .out ∧
      evs = [.addJob i work (-1)]) ∨
    ((∀ i answer, a ≠ .add i answer) ∧ Others s s' evs) := by
  cases a with
  | call i work =>
    dsimp only [step] at hstep
    split at hstep
    · rename_i hp
      obtain ⟨rfl, rfl⟩ := Prod.mk.inj (Option.some.inj hstep)
      exact Or.inl ⟨i, work, hp, rfl, rfl, rfl⟩
    · cases hstep
  | add i answer =>
    refine Or.inr (Or.inl ?_)
    dsimp only [step] at hstep
    split at hstep
    · rename_i work hp
      exact ⟨i, work, answer, Or.inl hp, rfl, add_of_closed h hstep⟩
    · rename_i work hp
      exact ⟨i, work, answer, Or.inr (Or.inr hp), rfl, add_of_closed h hstep⟩
    · cases hstep
  | work w =>
    refine Or.inr (Or.inr ⟨by simp, ?_⟩)
    dsimp only [step] at hstep
    split at hstep
    · exact function_others h hstep
    · exact function_others h hstep
    · cases hstep
  | finish w =>
    refine Or.inr (Or.inr ⟨by simp, ?_⟩)
    dsimp only [step] at hstep
    split at hstep
    · obtain ⟨job, -, heq⟩ := Option.bind_eq_some_iff.mp hstep
      obtain ⟨rfl, rfl⟩ := Prod.mk.inj (Option.some.inj heq)
      exact ⟨h, fun i => Or.inl rfl, by simp⟩
    · cases hstep
  | destroy => exact Or.inr (Or.inr ⟨by simp, destroy_others h hstep⟩)
  | wakeProducer i =>
    refine Or.inr (Or.inr ⟨by simp, ?_⟩)
    obtain ⟨rfl, rfl⟩ := Prod.mk.inj (Option.some.inj hstep)
    refine ⟨h, fun k => ?_, by simp⟩
    by_cases hk : k = i
    · subst hk
      exact Or.inr (Function.update_self ..)
    · exact Or.inl (Function.update_of_ne hk ..)
  | wakeWorker w =>
    refine Or.inr (Or.inr ⟨by simp, ?_⟩)
    obtain ⟨x, -, heq⟩ := Option.map_eq_some_iff.mp hstep
    obtain ⟨rfl, rfl⟩ := Prod.mk.inj heq
    exact ⟨h, fun i => Or.inl rfl, by simp⟩
  | wakeDestroyer =>
    refine Or.inr (Or.inr ⟨by simp, ?_⟩)
    obtain ⟨rfl, rfl⟩ := Prod.mk.inj (Option.some.inj hstep)
    exact ⟨h, fun i => Or.inl rfl, by simp⟩

theorem closed_step (h : QueueClosed s) (hstep : step s a = some (s', evs)) : QueueClosed s' := by
  rcases closed_cases h hstep with ⟨i, work, -, -, rfl, -⟩ | ⟨i, work, answer, -, -, rfl, -⟩ |
    ⟨-, hothers⟩
  · exact h
  · exact h
  · exact hothers.closed

/-- A producer stays in its call until it has its turn. -/
theorem calls_step (h : QueueClosed s) (hcalls : (s.producers i).Calls work)
    (hturn : ∀ answer, a ≠ .add i answer) (hstep : step s a = some (s', evs)) :
    (s'.producers i).Calls work ∧ .addJob i work (-1) ∉ evs := by
  rcases closed_cases h hstep with ⟨j, work', hout, -, rfl, rfl⟩ |
    ⟨j, work', answer, -, rfl, rfl, rfl⟩ | ⟨-, hothers⟩
  · have hij : i ≠ j := by
      rintro rfl
      exact hcalls.ne_out hout
    rw [setProducer_of_ne hij]
    exact ⟨hcalls, List.not_mem_nil⟩
  · -- the producer that leaves is another one
    have hij : i ≠ j := by
      rintro rfl
      exact hturn answer rfl
    rw [setProducer_of_ne hij]
    exact ⟨hcalls, by simp [hij]⟩
  · refine ⟨?_, hothers.events i work (-1)⟩
    rcases hothers.producers i with hp | hp
    · rwa [hp]
    · rw [hp]
      exact hcalls.wake

/-- A producer that has its turn leaves. -/
theorem turn_step (h : QueueClosed s) (hcalls : (s.producers i).Calls work)
    (hstep : step s (.add i answer) = some (s', evs)) : .addJob i work (-1) ∈ evs := by
  rcases closed_cases h hstep with ⟨j, work', -, heq, -⟩ |
    ⟨j, work', answer', hcalls', heq, -, rfl⟩ | ⟨hne, -⟩
  · cases heq
  · obtain ⟨rfl, rfl⟩ := Act.add.inj heq
    rw [hcalls.work_eq hcalls']
    exact List.mem_singleton_self _
  · exact absurd rfl (hne i answer)

/-! ### The pool is freed -/

/-- The step of `threadpool_destroy` that closes the queue. -/
theorem close_others (hstep : step s .destroy = some (s', [.close])) : Others s s' [] := by
  dsimp only [step] at hstep
  unfold threadpoolDestroy at hstep
  split at hstep
  · obtain ⟨pool, hpool, hstep⟩ := Option.bind_eq_some_iff.mp hstep
    split_ifs at hstep
    · cases hstep
    · obtain ⟨s₁, hwait, heq⟩ := Option.bind_eq_some_iff.mp hstep
      obtain ⟨rfl, -⟩ := Prod.mk.inj (Option.some.inj heq)
      have hothers := waitEmpty_others (queueClosed_of_pool rfl rfl) hwait
      exact ⟨hothers.closed, hothers.producers, by simp⟩
  -- the other steps emit nothing
  all_goals simp at hstep

/-- A producer that is in its call when the queue is closed leaves iff it has a turn. -/
theorem closed_leaves (h : QueueClosed s) (hcalls : (s.producers i).Calls work)
    (hrun : exec (traced step) (s, []) acts = some (u, evs)) :
    (.addJob i work (-1) ∈ evs ↔ ∃ answer, .add i answer ∈ acts) ∧
      ((∀ answer, .add i answer ∉ acts) → (u.producers i).Calls work) :=
  left_iff_turn (fun s => (s.producers i).Calls work) (Act.add i)
    (fun _ _ _ _ hclosed hstep => closed_step hclosed hstep)
    (fun _ _ _ _ hclosed hin hturn hstep => calls_step hclosed hin hturn hstep)
    (fun _ _ _ _ hclosed hin hstep => turn_step hclosed hin hstep) h hcalls hrun

/-- **The producers leave in time that have a turn.** Let `threadpool_destroy` close the queue and,
after other steps, free the pool. All producers that were in `threadpool_add_job` have left it
before iff all of them have taken the mutex again before. A producer that has not is still in its
call, and its next step is on a mutex that was destroyed. -/
theorem producers_leave_iff (J : Type) (s₁ s₂ s₃ s₄ : Sys J) (evs : List (Event J))
    (mid : List (Act J))
    (hclose : step s₁ .destroy = some (s₂, [.close]))
    (hmid : exec (traced step) (s₂, []) mid = some (s₃, evs))
    (hfree : step s₃ .destroy = some (s₄, [])) (hfreed : s₄.pool = none) :
    ((∀ i work, (s₁.producers i).Calls work → .addJob i work (-1) ∈ evs) ↔
      ∀ i work, (s₁.producers i).Calls work → ∃ answer, .add i answer ∈ mid) ∧
    ∀ i work, (s₁.producers i).Calls work → (∀ answer, .add i answer ∉ mid) →
      (s₄.producers i).Calls work ∧ ∀ answer, step s₄ (.add i answer) = none := by
  have hothers := close_others hclose
  -- closing the queue leaves the producers in their calls
  have hcalls : ∀ i work, (s₁.producers i).Calls work → (s₂.producers i).Calls work := by
    intro i work h
    rcases hothers.producers i with hp | hp
    · rwa [hp]
    · rw [hp]
      exact h.wake
  have hleaves := fun i work (h : (s₁.producers i).Calls work) =>
    closed_leaves hothers.closed (hcalls i work h) hmid
  constructor
  · constructor
    · exact fun hall i work h => (hleaves i work h).1.mp (hall i work h)
    · exact fun hall i work h => (hleaves i work h).1.mpr (hall i work h)
  · intro i work h hnone
    have hclosed : QueueClosed s₃ := exec_invariant (I := fun st => QueueClosed st.1)
      (fun st a st' hst hone => by
        obtain ⟨s', evs, hstep, rfl⟩ := traced_eq_some.mp hone
        exact closed_step hst hstep) hothers.closed hmid
    refine ⟨(calls_step hclosed ((hleaves i work h).2 hnone) (by simp) hfree).1, fun answer => ?_⟩
    -- every step of the function starts with the pool
    dsimp only [step]
    split
    · exact Option.bind_eq_none_iff.mpr fun pool hpool => absurd hpool (by simp [hfreed])
    · exact Option.bind_eq_none_iff.mpr fun pool hpool => absurd hpool (by simp [hfreed])
    · rfl

/-- One worker, and a queue of one job: the second producer waits for room. The worker wakes it, but
`threadpool_destroy` goes on and frees the pool first. -/
theorem producer_left_behind : ∃ s₁ s₂ tr evs, exec (traced step) (threadpoolInit ℕ 1 1, [])
      [.call 0 7, .call 1 8, .add 0 (some 1), .add 1 none] = some (s₁, tr) ∧
    s₁.producers 1 = .asleep 8 ∧
    exec (traced step) (s₁, []) [.destroy, .work 0, .destroy, .finish 0, .destroy, .destroy,
      .work 0, .destroy, .destroy] = some (s₂, evs) ∧
    (∀ ret, .addJob 1 8 ret ∉ evs) ∧ s₂.pool = none ∧ s₂.producers 1 = .woken 8 ∧
    step s₂ (.add 1 none) = none :=
  ⟨_, _, _, _, rfl, rfl, rfl, by simp, rfl, rfl, rfl⟩

/-- Here the second producer has its turn as soon as the worker has woken it. -/
theorem producers_leave_iff_one : ∃ s₁ s₂ s₃ s₄ tr evs,
    exec (traced step) (threadpoolInit ℕ 1 1, [])
      [.call 0 7, .call 1 8, .add 0 (some 1), .add 1 none] = some (s₁, tr) ∧
    step s₁ .destroy = some (s₂, [.close]) ∧
    exec (traced step) (s₂, []) [.work 0, .add 1 none, .destroy, .finish 0, .destroy, .destroy,
      .work 0, .destroy] = some (s₃, evs) ∧
    step s₃ .destroy = some (s₄, []) ∧ s₄.pool = none ∧
    ∀ i work, (s₁.producers i).Calls work → .addJob i work (-1) ∈ evs := by
  refine ⟨_, _, _, _, _, _, rfl, rfl, rfl, rfl, rfl, ?_⟩
  refine (producers_leave_iff ℕ _ _ _ _ _ [.work 0, .add 1 none, .destroy, .finish 0, .destroy,
    .destroy, .work 0, .destroy] rfl rfl rfl rfl).1.mpr ?_
  intro i work h
  -- the other producers are not in the function
  match i with
  | 0 => exact absurd rfl h.ne_out
  | 1 => exact ⟨none, by simp⟩
  | i + 2 => exact absurd rfl h.ne_out

end MmorpgServer.ThreadPool
