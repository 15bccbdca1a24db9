import MmorpgServer.ThreadPool.Shutdown

/-!
# No wake-up of the thread pool is lost

Producers wake the workers when the first job comes, and a worker wakes the producers when the
queue is no longer full and the destroying thread when it is empty. So a thread that sleeps does
so in a queue that is still as it was when it went to sleep. The flags are not announced in the
same way: `threadpool_destroy` sets `queue_close` and wakes nobody.

## Main definitions

* `Threadpool.workerGoes`, `Threadpool.producerGoes` — the ends of the loops around
  `pthread_cond_wait`
* `Watched` — what holds while a thread sleeps

## Main results

* `watched_step` — every step keeps it
* `sleepers_wait` — in every run, a thread that sleeps waits for something that is not there,
  but for the flags that have just been set
-/

namespace MmorpgServer.ThreadPool

open Machine

variable {J : Type} {s s' : Sys J} {tr evs : List (Event J)} {max : ℤ} {l r : List (ℕ × J)}
  {pool pool' : Threadpool} {i w : ℕ} {work : J} {answer : JobPtr}

/-- A worker that has the mutex does not wait. -/
def Threadpool.workerGoes (pool : Threadpool) : Prop :=
  pool.queueCurNum ≠ 0 ∨ pool.poolClose

/-- A producer that has the mutex does not wait. -/
def Threadpool.producerGoes (pool : Threadpool) : Prop :=
  pool.queueCurNum ≠ pool.queueMaxNum ∨ pool.queueClose ∨ pool.poolClose

/-- The queue is as a thread that sleeps has found it. -/
structure Watch (s : Sys J) (pool : Threadpool) : Prop where
  worker : ∀ w : ℕ, s.workers[w]? = some Worker.asleep →
    pool.queueCurNum = 0 ∧ (pool.poolClose → s.destroyer = .closed)
  producer : ∀ i work, s.producers i = .asleep work → pool.queueCurNum = pool.queueMaxNum
  destroyer : s.destroyer = .asleep → pool.queueCurNum ≠ 0

def Watched (s : Sys J) : Prop := ∀ pool, s.pool = some pool → Watch s pool

theorem Watch.watched (h : Watch s pool) (hpool : s.pool = some pool) : Watched s := by
  intro pool' hpool'
  obtain rfl := Option.some.inj (hpool.symm.trans hpool')
  exact h

/-! ### Sleepers -/

theorem wake_ne_asleep (x : Worker) : x.wake ≠ .asleep := by
  cases x <;> simp [Worker.wake]

theorem not_asleep_map_wake {workers : List Worker} :
    (workers.map Worker.wake)[w]? ≠ some Worker.asleep := by
  intro h
  rw [List.getElem?_map] at h
  obtain ⟨x, -, hx⟩ := Option.map_eq_some_iff.mp h
  exact wake_ne_asleep x hx

/-- A worker that does not go to sleep. -/
theorem asleep_of_set {workers : List Worker} {x : Worker} {k : ℕ} (hx : x ≠ .asleep)
    (h : (workers.set w x)[k]? = some Worker.asleep) : workers[k]? = some Worker.asleep := by
  by_cases hk : w = k
  · subst hk
    rw [List.getElem?_set_self'] at h
    obtain ⟨_, -, heq⟩ := Option.map_eq_some_iff.mp h
    exact absurd heq hx
  · rwa [List.getElem?_set_ne hk] at h

theorem producer_wake_ne_asleep (p : Producer J) : p.wake ≠ .asleep work := by
  cases p <;> simp [Producer.wake]

theorem destroyer_wake_ne_asleep (d : Destroyer) : d.wake ≠ .asleep := by
  cases d <;> simp [Destroyer.wake]

/-- A producer that does not go to sleep, or finds the queue full. -/
theorem Watch.setProducer (h : Watch s pool) {p : Producer J}
    (hp : ∀ work, p = .asleep work → pool.queueCurNum = pool.queueMaxNum) :
    Watch (ThreadPool.setProducer s i p) pool where
  worker := h.worker
  producer k work hk := by
    change Function.update s.producers i p k = .asleep work at hk
    rw [Function.update_apply] at hk
    split_ifs at hk with hki
    · exact hp work hk
    · exact h.producer k work hk
  destroyer := h.destroyer

/-- A worker that does not go to sleep, or finds the queue empty and the pool open. -/
theorem Watch.setWorker (h : Watch s pool) {x : Worker}
    (hx : x = .asleep → pool.queueCurNum = 0 ∧ ¬ pool.poolClose) :
    Watch (ThreadPool.setWorker s w x) pool where
  worker k hk := by
    by_cases hsleep : x = .asleep
    · exact ⟨(hx hsleep).1, fun hclose => absurd hclose (hx hsleep).2⟩
    · exact h.worker k (asleep_of_set hsleep hk)
  producer := h.producer
  destroyer := h.destroyer

/-- The destroying thread goes on, and may set flags. -/
theorem Watch.destroys (h : Watch s pool)
    (hthreads : s'.workers = s.workers ∧ s'.producers = s.producers)
    (hsame : pool'.queueCurNum = pool.queueCurNum ∧ pool'.queueMaxNum = pool.queueMaxNum)
    (hclose : pool'.poolClose → s'.destroyer ≠ .closed →
      ∀ w : ℕ, s.workers[w]? ≠ some Worker.asleep)
    (hd : s'.destroyer = .asleep → pool.queueCurNum ≠ 0) : Watch s' pool' where
  worker k hk := by
    rw [hthreads.1] at hk
    refine ⟨hsame.1.trans (h.worker k hk).1, fun hc => ?_⟩
    by_contra hne
    exact hclose hc hne k hk
  producer k work hk := by
    rw [hthreads.2] at hk
    rw [hsame.1, hsame.2]
    exact h.producer k work hk
  destroyer hsleep := by
    rw [hsame.1]
    exact hd hsleep

theorem watch_init {threadNum : ℕ} : Watched (threadpoolInit J threadNum max) := by
  intro pool _
  refine ⟨fun w hw => ?_, fun i work h => ?_, fun h => ?_⟩
  · have hidle := List.eq_of_mem_replicate (List.mem_of_getElem? hw)
    cases hidle
  · cases h
  · cases h

/-- A job comes to a queue that is not full. The workers are woken if it is the first. -/
theorem Watch.enqueued {p : ℕ} (h : Watch s pool) (henq : Enqueued s pool p work s' pool')
    (hhead : pool.head = none ↔ pool.queueCurNum = 0) (hcur : 0 ≤ pool.queueCurNum)
    (hroom : pool.queueCurNum ≠ pool.queueMaxNum) : Watch s' pool' where
  worker k hk := by
    rw [henq.workers] at hk
    split_ifs at hk with hnone
    · exact absurd hk not_asleep_map_wake
    · exact absurd (hhead.mpr (h.worker k hk).1) hnone
  producer k work hk := by
    rw [henq.threads.1] at hk
    exact absurd (h.producer k work hk) hroom
  destroyer _ := by
    rw [henq.cur]
    omega

/-- A job is taken. The producers are woken if the queue was full, and the destroying thread if
it was the last job. -/
theorem Watch.dequeued (h : Watch s pool) (hcur : pool.queueCurNum ≠ 0)
    (hpool : pool'.queueCurNum = pool.queueCurNum - 1 ∧ pool'.queueMaxNum = pool.queueMaxNum) :
    Watch (afterDequeue { s with pool := some pool' } pool'.queueMaxNum (pool.queueCurNum - 1))
      pool' where
  worker k hk := by
    rw [(afterDequeue_spec _ _ _).2.2.1] at hk
    exact absurd (h.worker k hk).1 hcur
  producer k work hk := by
    -- a producer that slept has found the queue full
    have hsleep : s.producers k = .asleep work → pool.queueCurNum - 1 = pool'.queueMaxNum - 1 :=
      fun hk => by rw [h.producer k work hk, hpool.2]
    unfold afterDequeue at hk
    split_ifs at hk with hlast hfull hfull
    · exact absurd hk (producer_wake_ne_asleep _)
    · exact absurd (hsleep hk) hfull
    · exact absurd hk (producer_wake_ne_asleep _)
    · exact absurd (hsleep hk) hfull
  destroyer hd := by
    rw [hpool.1]
    intro hlast
    unfold afterDequeue at hd
    rw [if_pos hlast] at hd
    split_ifs at hd
    · exact destroyer_wake_ne_asleep _ hd
    · exact destroyer_wake_ne_asleep _ hd

/-! ### The steps -/

/-- A producer that has the mutex. -/
theorem addJob_watched (h : Inv max (s, tr)) (hw : Watched s)
    (hrun : threadpoolAddJob s i work answer = some (s', evs)) : Watched s' := by
  obtain ⟨pool, hpool, hrun⟩ := Option.bind_eq_some_iff.mp hrun
  have hwatch := hw pool hpool
  -- the producer returns, or sleeps while the queue is full
  have hproducer : ∀ p : Producer J,
      (∀ work, p = .asleep work → pool.queueCurNum = pool.queueMaxNum) →
      Watched (setProducer s i p) := by
    intro p hp
    exact (hwatch.setProducer hp).watched hpool
  split_ifs at hrun with hfull hclosed
  · obtain ⟨rfl, -⟩ := Prod.mk.inj (Option.some.inj hrun)
    exact hproducer _ fun _ _ => hfull.1
  · obtain ⟨rfl, -⟩ := Prod.mk.inj (Option.some.inj hrun)
    exact hproducer _ fun _ hp => by cases hp
  · cases hmalloc : malloc s answer with
    | none =>
      rw [hmalloc] at hrun
      obtain ⟨rfl, -⟩ := Prod.mk.inj (Option.some.inj hrun)
      exact hproducer _ fun _ hp => by cases hp
    | some p =>
      obtain ⟨l, r, hstock⟩ := h.1
      have hroom : pool.queueCurNum ≠ pool.queueMaxNum := fun heq => hfull ⟨heq, hclosed⟩
      obtain ⟨s₁, pool₁, henqueue, henq, -⟩ :=
        hstock.addJob hpool hroom (malloc_fresh hmalloc) work i
      simp only [hmalloc, henqueue, Option.bind_eq_bind, Option.bind_some] at hrun
      obtain ⟨rfl, -⟩ := Prod.mk.inj (Option.some.inj hrun)
      have hcount := (hstock.queue pool hpool).2.1
      have hwatch₁ := hwatch.enqueued henq (hstock.head_eq_none hpool) (by omega) hroom
      exact (hwatch₁.setProducer fun _ hp => by cases hp).watched henq.pool_eq

/-- A worker that has the mutex. -/
theorem function_watched (hw : Watched s) (hrun : threadpoolFunction s w = some (s', evs)) :
    Watched s' := by
  obtain ⟨pool, hpool, hrun⟩ := Option.bind_eq_some_iff.mp hrun
  have hwatch := hw pool hpool
  split_ifs at hrun with hempty hclosed
  · obtain ⟨rfl, -⟩ := Prod.mk.inj (Option.some.inj hrun)
    exact (hwatch.setWorker fun _ => hempty).watched hpool
  · obtain ⟨rfl, -⟩ := Prod.mk.inj (Option.some.inj hrun)
    exact (hwatch.setWorker fun h => by cases h).watched hpool
  · have hcur : pool.queueCurNum ≠ 0 := fun hzero => hempty ⟨hzero, hclosed⟩
    obtain ⟨pjob, -, hrun⟩ := Option.bind_eq_some_iff.mp hrun
    obtain ⟨job, -, heq⟩ := Option.bind_eq_some_iff.mp hrun
    obtain ⟨rfl, -⟩ := Prod.mk.inj (Option.some.inj heq)
    refine Watch.watched ((hwatch.dequeued hcur ?_).setWorker fun h => by cases h)
      (afterDequeue_spec _ _ _).1
    split_ifs
    · exact ⟨rfl, rfl⟩
    · exact ⟨rfl, rfl⟩

/-- The loop that waits for the queue to be empty. -/
theorem waitEmpty_watched (hpool : s.pool = some pool) (hwatch : Watch s pool)
    (hopen : pool.poolClose = false) (hrun : waitEmpty s = some s') : Watched s' := by
  unfold waitEmpty at hrun
  rw [hpool] at hrun
  simp only [Option.bind_eq_bind, Option.bind_some] at hrun
  split_ifs at hrun with hcur
  · obtain rfl := Option.some.inj hrun
    refine Watch.watched ?_ hpool
    exact hwatch.destroys ⟨rfl, rfl⟩ ⟨rfl, rfl⟩ (fun hc => by simp [hopen] at hc) fun _ => hcur
  · obtain rfl := Option.some.inj hrun
    refine Watch.watched ?_ rfl
    exact hwatch.destroys ⟨rfl, rfl⟩ ⟨rfl, rfl⟩ (fun _ hne => absurd rfl hne) fun h => by cases h

/-- When the workers have been woken up to exit, none sleeps. -/
theorem Watch.no_worker (h : Watch s pool) (hflags : Flags s true true)
    (hpool : s.pool = some pool) (hd : s.destroyer ≠ .closed) :
    ∀ w : ℕ, s.workers[w]? ≠ some Worker.asleep := by
  obtain ⟨pool', hpool', -, hclose, -⟩ := hflags
  obtain rfl := Option.some.inj (hpool'.symm.trans hpool)
  exact fun w hk => hd ((h.worker w hk).2 hclose)

/-- The next step of `threadpool_destroy`. -/
theorem destroy_watched (h : Inv max (s, tr)) (hw : Watched s)
    (hrun : threadpoolDestroy s = some (s', evs)) : Watched s' := by
  have hstage := h.2.stage
  dsimp only at hstage
  unfold Stage at hstage
  unfold threadpoolDestroy at hrun
  cases hd : s.destroyer with
  | out =>
    simp only [hd] at hstage hrun
    obtain ⟨pool, hpool, hrun⟩ := Option.bind_eq_some_iff.mp hrun
    obtain ⟨pool', hpool', hqueue, hopen, -⟩ := hstage
    obtain rfl := Option.some.inj (hpool'.symm.trans hpool)
    simp only [hqueue, hopen, Bool.false_eq_true, or_self, if_false] at hrun
    obtain ⟨s₁, hwait, heq⟩ := Option.bind_eq_some_iff.mp hrun
    obtain ⟨rfl, -⟩ := Prod.mk.inj (Option.some.inj heq)
    -- `queue_close` does not matter to a thread that sleeps
    refine waitEmpty_watched rfl ?_ rfl hwait
    exact (hw _ hpool).destroys ⟨rfl, rfl⟩ ⟨rfl, rfl⟩ (fun hc => by cases hc) fun h => by
      cases h
  | asleep => simp [hd] at hrun
  | woken =>
    simp only [hd] at hstage hrun
    obtain ⟨pool, hpool, -, hopen, -⟩ := hstage
    obtain ⟨s₁, hwait, heq⟩ := Option.map_eq_some_iff.mp hrun
    obtain ⟨rfl, -⟩ := Prod.mk.inj heq
    exact waitEmpty_watched hpool (hw pool hpool) hopen hwait
  | closed =>
    simp only [hd] at hrun
    obtain ⟨rfl, -⟩ := Prod.mk.inj (Option.some.inj hrun)
    intro pool hpool
    exact ⟨fun w hk => absurd hk not_asleep_map_wake, (hw pool hpool).producer,
      fun h => by cases h⟩
  | calling =>
    simp only [hd] at hstage hrun
    obtain ⟨rfl, -⟩ := Prod.mk.inj (Option.some.inj hrun)
    intro pool hpool
    have hnone := (hw pool hpool).no_worker hstage hpool (by simp [hd])
    exact ⟨fun w hk => absurd hk (hnone w), fun i work hk => absurd hk (producer_wake_ne_asleep _),
      fun h => by cases h⟩
  | joining i =>
    simp only [hd] at hstage hrun
    obtain ⟨s₁, hjoin, heq⟩ := Option.map_eq_some_iff.mp hrun
    obtain ⟨rfl, -⟩ := Prod.mk.inj heq
    obtain ⟨pool, hpool, hjoin⟩ := Option.bind_eq_some_iff.mp hjoin
    have hnone := (hw pool hpool).no_worker hstage.1 hpool (by simp [hd])
    split_ifs at hjoin
    · obtain rfl := Option.some.inj hjoin
      refine Watch.watched ?_ hpool
      exact (hw pool hpool).destroys ⟨rfl, rfl⟩ ⟨rfl, rfl⟩ (fun _ _ => hnone) fun h => by cases h
    · obtain ⟨heap, -, heq⟩ := Option.bind_eq_some_iff.mp hjoin
      obtain rfl := Option.some.inj heq
      intro pool' hpool'
      cases hpool'
  | returned ret => simp [hd] at hrun

/-- Every step keeps what holds while threads sleep. -/
theorem watched_step {a : Act J} (h : Inv max (s, tr)) (hw : Watched s)
    (hstep : step s a = some (s', evs)) : Watched s' := by
  cases a with
  | call i work =>
    dsimp only [step] at hstep
    split at hstep
    · obtain ⟨rfl, -⟩ := Prod.mk.inj (Option.some.inj hstep)
      exact fun pool hpool => (hw pool hpool).setProducer fun _ hp => by cases hp
    · cases hstep
  | add i answer =>
    dsimp only [step] at hstep
    split at hstep
    · exact addJob_watched h hw hstep
    · exact addJob_watched h hw hstep
    · cases hstep
  | work w =>
    dsimp only [step] at hstep
    split at hstep
    · exact function_watched hw hstep
    · exact function_watched hw hstep
    · cases hstep
  | finish w =>
    dsimp only [step] at hstep
    split at hstep
    · rename_i pjob _
      obtain ⟨job, -, heq⟩ := Option.bind_eq_some_iff.mp hstep
      obtain ⟨rfl, -⟩ := Prod.mk.inj (Option.some.inj heq)
      intro pool hpool
      obtain ⟨hworker, hproducer, hdestroyer⟩ := hw pool hpool
      have hwatch : Watch { s with heap := Function.update s.heap pjob none } pool :=
        ⟨hworker, hproducer, hdestroyer⟩
      exact hwatch.setWorker fun hx => by cases hx
    · cases hstep
  | destroy => exact destroy_watched h hw hstep
  | wakeProducer i =>
    obtain ⟨rfl, -⟩ := Prod.mk.inj (Option.some.inj hstep)
    exact fun pool hpool => (hw pool hpool).setProducer fun _ hp =>
      absurd hp (producer_wake_ne_asleep _)
  | wakeWorker w =>
    obtain ⟨x, -, heq⟩ := Option.map_eq_some_iff.mp hstep
    obtain ⟨rfl, -⟩ := Prod.mk.inj heq
    exact fun pool hpool => (hw pool hpool).setWorker fun hx => absurd hx (wake_ne_asleep x)
  | wakeDestroyer =>
    obtain ⟨rfl, -⟩ := Prod.mk.inj (Option.some.inj hstep)
    intro pool hpool
    obtain ⟨hworker, hproducer, -⟩ := hw pool hpool
    refine ⟨fun w hk => ⟨(hworker w hk).1, fun hc => ?_⟩, hproducer,
      fun hd => absurd hd (destroyer_wake_ne_asleep _)⟩
    change s.destroyer.wake = _
    rw [(hworker w hk).2 hc]
    rfl

/-- Every run. -/
theorem watched_exec {threadNum : ℕ} {acts : List (Act J)} (hmax : 1 ≤ max)
    (hrun : exec (traced step) (threadpoolInit J threadNum max, []) acts = some (s, tr)) :
    Watched s := by
  have hboth : Inv max (s, tr) ∧ Watched s := by
    refine exec_invariant (I := fun st => Inv max st ∧ Watched st.1) (fun st a st' h hone => ?_)
      ⟨inv_init hmax, watch_init⟩ hrun
    obtain ⟨s', evs, hstep, rfl⟩ := traced_eq_some.mp hone
    rcases step_cases h.1 a with ⟨hnone, -⟩ | ⟨s₁, evs₁, hsome, h'⟩
    · rw [hstep] at hnone
      cases hnone
    · obtain ⟨rfl, rfl⟩ := Prod.mk.inj (Option.some.inj (hstep.symm.trans hsome))
      exact ⟨h', watched_step h.1 h.2 hstep⟩
  exact hboth.2

/-- **No wake-up is lost.** In every run, a worker sleeps only while the queue is empty, a
producer only while it is full, and the destroying thread only while it is not empty. So no thread
sleeps while it could go on, apart from the workers until `threadpool_destroy` has broadcast, when
it has set `pool_close`, and from the producers of a full queue until the next job is taken, when
it has set `queue_close`. -/
theorem sleepers_wait {threadNum : ℕ} {queueMaxNum : ℤ} {acts : List (Act J)}
    (hmax : 1 ≤ queueMaxNum)
    (hrun : exec (traced step) (threadpoolInit J threadNum queueMaxNum, []) acts = some (s, tr))
    (hpool : s.pool = some pool) :
    (∀ w : ℕ, s.workers[w]? = some Worker.asleep → pool.queueCurNum = 0 ∧
      (pool.workerGoes → pool.poolClose ∧ s.destroyer = .closed)) ∧
    (∀ i work, s.producers i = .asleep work → pool.queueCurNum = queueMaxNum ∧
      (pool.producerGoes → pool.queueClose ∧ ¬ pool.poolClose)) ∧
    (s.destroyer = .asleep → pool.queueCurNum ≠ 0) := by
  obtain ⟨⟨l, r, hstock⟩, hphase⟩ := inv_exec hmax hrun
  obtain ⟨-, hcur, hbound⟩ := hstock.queue pool hpool
  obtain ⟨hworker, hproducer, hdestroyer⟩ := watched_exec hmax hrun pool hpool
  refine ⟨fun w hk => ?_, fun i work hk => ?_, hdestroyer⟩
  · obtain ⟨hzero, hclosed⟩ := hworker w hk
    refine ⟨hzero, fun hgoes => ?_⟩
    rcases hgoes with hne | hclose
    · exact absurd hzero hne
    · exact ⟨hclose, hclosed hclose⟩
  · have hfull := hproducer i work hk
    -- the queue of a closed pool is empty, and not full
    have hopen : ¬ pool.poolClose := fun hclose => by
      have hzero := hphase.cur_of_close hpool hclose
      omega
    refine ⟨hfull.trans hbound, fun hgoes => ?_⟩
    rcases hgoes with hne | hqueue | hclose
    · exact absurd hfull hne
    · exact ⟨hqueue, hopen⟩
    · exact absurd hclose hopen

/-- One worker, and a queue of one job: a producer sleeps although the queue is closed. -/
theorem sleepers_wait_one : ∃ s tr pool, exec (traced step) (threadpoolInit ℕ 1 1, [])
    [.call 0 7, .call 1 8, .add 0 (some 1), .add 1 none, .destroy] = some (s, tr) ∧
    s.pool = some pool ∧ pool.queueCurNum = 1 ∧ pool.queueClose ∧ ¬ pool.poolClose := by
  obtain ⟨s, tr, pool, hrun, hpool, hp, hgoes⟩ : ∃ s tr pool,
      exec (traced step) (threadpoolInit ℕ 1 1, [])
        [.call 0 7, .call 1 8, .add 0 (some 1), .add 1 none, .destroy] = some (s, tr) ∧
      s.pool = some pool ∧ s.producers 1 = .asleep 8 ∧ pool.producerGoes :=
    ⟨_, _, _, rfl, rfl, rfl, Or.inr (Or.inl rfl)⟩
  obtain ⟨hfull, hclose⟩ := (sleepers_wait (by decide) hrun hpool).2.1 1 8 hp
  exact ⟨s, tr, pool, hrun, hpool, hfull, hclose hgoes⟩

/-- There, the producer could go on. -/
theorem not_sleepers_wait_close : ∃ s tr pool, exec (traced step) (threadpoolInit ℕ 1 1, [])
    [.call 0 7, .call 1 8, .add 0 (some 1), .add 1 none, .destroy] = some (s, tr) ∧
    s.pool = some pool ∧ s.producers 1 = .asleep 8 ∧ pool.producerGoes :=
  ⟨_, _, _, rfl, rfl, rfl, Or.inr (Or.inl rfl)⟩

end MmorpgServer.ThreadPool
