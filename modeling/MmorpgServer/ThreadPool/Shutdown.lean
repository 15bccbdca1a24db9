import MmorpgServer.ThreadPool.Queue
import MmorpgServer.Lib.Machine
import MmorpgServer.Lib.Trace

/-!
# Running and shutting down the thread pool

`threadpool_destroy` goes through stages: the queue is closed, the queue is empty and the pool
closed, the workers have exited, the pool is freed. What a stage says about the flags, the
count and the workers is kept by the steps of all other threads, because a producer that finds
the queue closed adds nothing and a worker that has exited does nothing.

## Main definitions

* `Stage`, `Phase` — what holds at each point of `threadpool_destroy`
* `Moves` — a step of a producer or a worker, as `threadpool_destroy` sees it
* `Inv` — the jobs are accounted for, and the shutdown is in its phase

## Main results

* `step_cases`, `inv_exec` — every step keeps the invariant, and so does every run
* `step_eq_none` — no thread faults while the pool exists
* `pool_runs_jobs` — the queue is counted, jobs are dequeued in order, and a destroyed pool has
  run every accepted job once
-/

namespace MmorpgServer.ThreadPool

open Machine Trace Ledger

variable {J : Type} {s s' : Sys J} {tr evs : List (Event J)} {max : ℤ} {l r : List (ℕ × J)}
  {pool pool' : Threadpool} {i w : ℕ} {work : J} {answer : JobPtr}

/-! ### The stages of a shutdown -/

/-- The pool exists, and its flags are as given. -/
def Flags (s : Sys J) (queueClose poolClose : Bool) : Prop :=
  ∃ pool, s.pool = some pool ∧ pool.queueClose = queueClose ∧ pool.poolClose = poolClose ∧
    (poolClose → pool.queueCurNum = 0)

def Stage (s : Sys J) : Prop :=
  match s.destroyer with
  | .out => Flags s false false
  | .asleep | .woken => Flags s true false
  | .closed | .calling => Flags s true true
  | .joining i => Flags s true true ∧ i ≤ s.workers.length ∧
      ∀ k < i, s.workers[k]? = some Worker.exited
  | .returned ret => ret = 0 ∧ s.pool = none ∧
      ∀ k < s.workers.length, s.workers[k]? = some Worker.exited

/-- A call of `threadpool_add_job` that returns is refused. -/
def Refused (e : Event J) : Prop := ∀ i work ret, e = .addJob i work ret → ret = -1

structure Phase (s : Sys J) (tr : List (Event J)) : Prop where
  stage : Stage s
  threads : ∀ pool, s.pool = some pool → pool.threadNum = s.workers.length
  close : .close ∈ tr ↔ s.destroyer ≠ .out
  refused : After .close Refused tr

/-- A step of a producer or a worker, as `threadpool_destroy` sees it. -/
structure Moves (s s' : Sys J) : Prop where
  pool : ∀ pool, s.pool = some pool → ∃ pool', s'.pool = some pool' ∧
    pool'.threadNum = pool.threadNum ∧ pool'.queueClose = pool.queueClose ∧
    pool'.poolClose = pool.poolClose ∧ (pool.poolClose → pool'.queueCurNum = pool.queueCurNum)
  freed : s.pool = none → s'.pool = none
  length : s'.workers.length = s.workers.length
  exited : ∀ k : ℕ, s.workers[k]? = some Worker.exited → s'.workers[k]? = some Worker.exited
  destroyer : s'.destroyer = s.destroyer ∨ s'.destroyer = s.destroyer.wake

theorem Flags.moves {queueClose poolClose : Bool} (h : Flags s queueClose poolClose)
    (hmoves : Moves s s') : Flags s' queueClose poolClose := by
  obtain ⟨pool, hpool, hqueue, hclose, hcur⟩ := h
  obtain ⟨pool', hpool', -, hqueue', hclose', hcur'⟩ := hmoves.pool pool hpool
  refine ⟨pool', hpool', hqueue'.trans hqueue, hclose'.trans hclose, fun hc => ?_⟩
  rw [hcur' (hclose.trans hc)]
  exact hcur hc

theorem Stage.moves (h : Stage s) (hmoves : Moves s s') : Stage s' := by
  have hlength := hmoves.length
  unfold Stage at h ⊢
  -- a wake-up only turns `asleep` into `woken`, which are one stage
  rcases hmoves.destroyer with hd | hd <;> rw [hd] <;> cases hs : s.destroyer <;> rw [hs] at h <;>
    dsimp only [Destroyer.wake] at h ⊢
  all_goals first
    | exact h.moves hmoves
    | exact ⟨h.1.moves hmoves, hlength ▸ h.2.1, fun k hk => hmoves.exited k (h.2.2 k hk)⟩
    | exact ⟨h.1, hmoves.freed h.2.1, fun k hk => hmoves.exited k (h.2.2 k (hlength ▸ hk))⟩

theorem wake_ne_out {d : Destroyer} : d.wake ≠ .out ↔ d ≠ .out := by
  cases d <;> simp [Destroyer.wake]

/-- A step of a producer or a worker keeps the phase. -/
theorem Phase.moves (h : Phase s tr) (hmoves : Moves s s') (hclose : .close ∉ evs)
    (hrefused : s.destroyer ≠ .out → ∀ e ∈ evs, Refused e) : Phase s' (tr ++ evs) where
  stage := h.stage.moves hmoves
  threads pool' hpool' := by
    cases hpool : s.pool with
    | none =>
      rw [hmoves.freed hpool] at hpool'
      cases hpool'
    | some pool =>
      obtain ⟨pool'', hsome, hthreads, -⟩ := hmoves.pool pool hpool
      obtain rfl := Option.some.inj (hsome.symm.trans hpool')
      rw [hthreads, hmoves.length]
      exact h.threads pool hpool
  close := by
    rw [List.mem_append, or_iff_left hclose, h.close]
    rcases hmoves.destroyer with hd | hd
    · rw [hd]
    · rw [hd, wake_ne_out]
  refused := h.refused.append hclose fun hmem => hrefused (h.close.mp hmem)

/-- While the queue is open, `threadpool_destroy` has not begun. -/
theorem Phase.out_of_open (h : Phase s tr) (hpool : s.pool = some pool)
    (hopen : pool.queueClose = false) : s.destroyer = .out := by
  have hstage := h.stage
  unfold Stage at hstage
  have hflags : ∀ {b : Bool}, ¬ Flags s true b := by
    rintro b ⟨pool', hpool', hclose, -⟩
    obtain rfl := Option.some.inj (hpool.symm.trans hpool')
    rw [hopen] at hclose
    cases hclose
  cases hd : s.destroyer with
  | out => rfl
  | asleep | woken | closed | calling =>
    rw [hd] at hstage
    exact absurd hstage hflags
  | joining i =>
    rw [hd] at hstage
    exact absurd hstage.1 hflags
  | returned ret =>
    rw [hd] at hstage
    rw [hstage.2.1] at hpool
    cases hpool

/-- When the pool is closed, its queue is empty. -/
theorem Phase.cur_of_close (h : Phase s tr) (hpool : s.pool = some pool)
    (hclose : pool.poolClose = true) : pool.queueCurNum = 0 := by
  have hstage := h.stage
  unfold Stage at hstage
  have hflags : ∀ {b c : Bool}, Flags s b c → pool.queueCurNum = 0 := by
    rintro b c ⟨pool', hpool', -, hc, hcur⟩
    obtain rfl := Option.some.inj (hpool.symm.trans hpool')
    exact hcur (hc ▸ hclose)
  cases hd : s.destroyer with
  | out | asleep | woken | closed | calling =>
    rw [hd] at hstage
    exact hflags hstage
  | joining i =>
    rw [hd] at hstage
    exact hflags hstage.1
  | returned ret =>
    rw [hd] at hstage
    rw [hstage.2.1] at hpool
    cases hpool

/-! ### The invariant -/

/-- The jobs are accounted for, and the shutdown is in its phase. -/
def Inv (max : ℤ) (st : Sys J × List (Event J)) : Prop :=
  (∃ l r, Stock max st.1 st.2 l r) ∧ Phase st.1 st.2

theorem inv_init {threadNum : ℕ} (hmax : 1 ≤ max) : Inv max (threadpoolInit J threadNum max, []) :=
  ⟨⟨[], [], Stock.init hmax⟩,
    { stage := ⟨_, rfl, rfl, rfl, fun h => absurd h Bool.false_ne_true⟩
      threads := fun pool hpool => by
        obtain rfl := Option.some.inj hpool
        exact List.length_replicate.symm
      close := ⟨fun h => absurd h List.not_mem_nil, fun h => absurd rfl h⟩
      refused := After.of_not_mem List.not_mem_nil }⟩

/-- The pool and the jobs are untouched; the workers that run a job are the same. -/
theorem Inv.untouched (h : Inv max (s, tr)) (hpool : s'.pool = s.pool) (hheap : s'.heap = s.heap)
    (hlength : s'.workers.length = s.workers.length)
    (hworkers : s'.workers.filterMap Worker.pjob = s.workers.filterMap Worker.pjob)
    (hexited : ∀ k : ℕ, s.workers[k]? = some Worker.exited → s'.workers[k]? = some Worker.exited)
    (hdestroyer : s'.destroyer = s.destroyer ∨ s'.destroyer = s.destroyer.wake)
    (hquiet : Quiet evs) (hclose : .close ∉ evs) (hrefused : ∀ e ∈ evs, Refused e) :
    Inv max (s', tr ++ evs) := by
  obtain ⟨⟨l, r, hstock⟩, hphase⟩ := h
  refine ⟨⟨l, r, ?_⟩, ?_⟩
  · refine hstock.frame (fun pool hsome => ?_) (fun hnone => ?_) hheap hworkers hquiet
    · exact ⟨pool, hpool ▸ hsome, rfl, rfl, rfl, rfl⟩
    · exact hpool ▸ hnone
  · refine hphase.moves ⟨fun pool hsome => ?_, ?_, hlength, hexited, hdestroyer⟩ hclose
      fun _ => hrefused
    · exact ⟨pool, hpool.trans hsome, rfl, rfl, rfl, fun _ => rfl⟩
    · exact fun hnone => hpool.trans hnone

theorem quiet_nil : Quiet ([] : List (Event J)) := ⟨rfl, rfl, rfl⟩

/-- A producer goes somewhere without a job having been accepted. -/
theorem Inv.setProducer (h : Inv max (s, tr)) (p : Producer J)
    (hevs : evs = [] ∨ ∃ work, evs = [.addJob i work (-1)]) :
    Inv max (ThreadPool.setProducer s i p, tr ++ evs) := by
  refine h.untouched rfl rfl rfl rfl (fun _ => id) (Or.inl rfl) ?_ ?_ ?_
  · rcases hevs with rfl | ⟨work, rfl⟩
    · exact quiet_nil
    · exact ⟨rfl, rfl, rfl⟩
  · rcases hevs with rfl | ⟨work, rfl⟩
    · exact List.not_mem_nil
    · simp
  · rintro e he i' work' ret rfl
    rcases hevs with rfl | ⟨work, rfl⟩
    · cases he
    · simp only [List.mem_singleton, Event.addJob.injEq] at he
      exact he.2.2

/-- A worker that has exited stays so. -/
theorem exited_set {workers : List Worker} {x y : Worker} (hx : workers[w]? = some x)
    (hexit : x = .exited → y = .exited) {k : ℕ} (hk : workers[k]? = some Worker.exited) :
    (workers.set w y)[k]? = some Worker.exited := by
  by_cases hkw : w = k
  · subst hkw
    obtain ⟨hlt, -⟩ := List.getElem?_eq_some_iff.mp hx
    rw [List.getElem?_set_self hlt, hexit (Option.some.inj (hx.symm.trans hk))]
  · rw [List.getElem?_set_ne hkw, hk]

theorem exited_wake {workers : List Worker} {k : ℕ} (hk : workers[k]? = some Worker.exited) :
    (workers.map Worker.wake)[k]? = some Worker.exited := by
  rw [List.getElem?_map, hk]
  rfl

/-- A worker goes to sleep, wakes up or exits. -/
theorem Inv.setWorker (h : Inv max (s, tr)) {x y : Worker} (hx : s.workers[w]? = some x)
    (hjob : y.pjob = x.pjob) (hexit : x = .exited → y = .exited) :
    Inv max (ThreadPool.setWorker s w y, tr ++ []) := by
  refine h.untouched rfl rfl List.length_set ?_ (fun k => exited_set hx hexit) (Or.inl rfl)
    quiet_nil List.not_mem_nil fun e he => absurd he List.not_mem_nil
  exact filterMap_set_pjob hx hjob

/-! ### The steps -/

/-- `threadpool_add_job` does not fault, and keeps the invariant. -/
theorem addJob_inv (h : Inv max (s, tr)) (hpool : s.pool = some pool) (i : ℕ) (work : J)
    (answer : JobPtr) : ∃ s' evs, threadpoolAddJob s i work answer = some (s', evs) ∧
      Inv max (s', tr ++ evs) := by
  unfold threadpoolAddJob
  rw [hpool]
  simp only [Option.bind_eq_bind, Option.bind_some]
  split_ifs with hfull hclosed
  · exact ⟨_, _, rfl, h.setProducer (.asleep work) (Or.inl rfl)⟩
  · exact ⟨_, _, rfl, h.setProducer .out (Or.inr ⟨work, rfl⟩)⟩
  · cases hmalloc : malloc s answer with
    | none => exact ⟨_, _, rfl, h.setProducer .out (Or.inr ⟨work, rfl⟩)⟩
    | some p =>
      have hp := malloc_fresh hmalloc
      obtain ⟨⟨l, r, hstock⟩, hphase⟩ := h
      have hroom : pool.queueCurNum ≠ pool.queueMaxNum := fun heq => hfull ⟨heq, hclosed⟩
      obtain ⟨s₁, pool₁, henqueue, henq, hstock₁⟩ := hstock.addJob hpool hroom hp work i
      simp only [henqueue, Option.bind_some]
      have hopen : pool.queueClose = false := by
        cases hq : pool.queueClose with
        | false => rfl
        | true => exact absurd (Or.inl hq) hclosed
      -- a job is accepted only before `threadpool_destroy` has begun
      have hout := hphase.out_of_open hpool hopen
      obtain ⟨hthreads, -, hqueueClose, hpoolClose⟩ := henq.config
      refine ⟨_, _, rfl, ⟨_, r, ⟨hstock₁.queue, hstock₁.freed, hstock₁.bound, hstock₁.cells,
        hstock₁.nodup, hstock₁.held, hstock₁.balanced⟩⟩, ?_⟩
      -- the pool is not closed, so that its count may change
      refine hphase.moves ⟨fun pool' hpool' => ?_, fun hnone => ?_, ?_, fun k hk => ?_, Or.inl ?_⟩
        (by simp) fun hbegun => absurd hout hbegun
      · obtain rfl := Option.some.inj (hpool.symm.trans hpool')
        refine ⟨pool₁, henq.pool_eq, hthreads, hqueueClose, hpoolClose, fun hc => ?_⟩
        exact absurd (Or.inr hc) hclosed
      · rw [hpool] at hnone
        cases hnone
      · change s₁.workers.length = _
        rw [henq.workers]
        split_ifs
        · exact List.length_map _
        · rfl
      · change s₁.workers[k]? = _
        rw [henq.workers]
        split_ifs
        · exact exited_wake hk
        · exact hk
      · exact henq.threads.2

/-- What `afterDequeue` leaves alone. -/
theorem afterDequeue_spec (s : Sys J) (queueMaxNum cur : ℤ) :
    (afterDequeue s queueMaxNum cur).pool = s.pool ∧
      (afterDequeue s queueMaxNum cur).heap = s.heap ∧
      (afterDequeue s queueMaxNum cur).workers = s.workers ∧
      ((afterDequeue s queueMaxNum cur).destroyer = s.destroyer ∨
        (afterDequeue s queueMaxNum cur).destroyer = s.destroyer.wake) := by
  unfold afterDequeue
  split_ifs
  · exact ⟨rfl, rfl, rfl, Or.inr rfl⟩
  · exact ⟨rfl, rfl, rfl, Or.inr rfl⟩
  · exact ⟨rfl, rfl, rfl, Or.inl rfl⟩
  · exact ⟨rfl, rfl, rfl, Or.inl rfl⟩

/-- `threadpool_function` does not fault, and keeps the invariant. -/
theorem function_inv (h : Inv max (s, tr)) (hpool : s.pool = some pool) {x : Worker}
    (hx : s.workers[w]? = some x) (hxjob : x.pjob = none) (hne : x ≠ .exited) :
    ∃ s' evs, threadpoolFunction s w = some (s', evs) ∧ Inv max (s', tr ++ evs) := by
  unfold threadpoolFunction
  rw [hpool]
  simp only [Option.bind_eq_bind, Option.bind_some]
  split_ifs with hempty hclosed hlast
  · exact ⟨_, _, rfl, h.setWorker hx hxjob.symm fun heq => absurd heq hne⟩
  · exact ⟨_, _, rfl, h.setWorker hx hxjob.symm fun _ => rfl⟩
  all_goals
    obtain ⟨⟨l, r, hstock⟩, hphase⟩ := h
    -- a worker that goes on found a job in a pool that is not closed
    have hcur : pool.queueCurNum ≠ 0 := fun hzero => hempty ⟨hzero, hclosed⟩
    obtain ⟨p, job, l', rfl, hhead, hjob, hstock'⟩ := hstock.dequeue hpool hcur hx hxjob
    simp only [hhead, Option.bind_some]
    rw [hjob]
    refine ⟨_, _, rfl, ?_⟩
    set s₁ : Sys J := { s with pool := some _ } with hs₁
    obtain ⟨hpool₁, hheap₁, hworkers₁, hdestroyer₁⟩ :=
      afterDequeue_spec s₁ pool.queueMaxNum (pool.queueCurNum - 1)
    refine ⟨⟨l', (p, job.work) :: r, ?_⟩, ?_⟩
    · refine hstock' _ _ hpool₁ hheap₁ ?_ rfl rfl ?_ ?_
      · change (afterDequeue s₁ _ _).workers.set w _ = _
        rw [hworkers₁]
      · simp [hlast]
      · simp [hlast]
    · -- the pool is not closed, so that its count may change
      refine hphase.moves ⟨fun pool' hpool' => ?_, fun hnone => ?_, ?_, fun k hk => ?_, hdestroyer₁⟩
        (by simp) fun _ e he => ?_
      · obtain rfl := Option.some.inj (hpool.symm.trans hpool')
        exact ⟨_, hpool₁, rfl, rfl, rfl, fun hc => absurd hc hclosed⟩
      · rw [hpool] at hnone
        cases hnone
      · change ((afterDequeue s₁ _ _).workers.set w _).length = _
        rw [List.length_set, hworkers₁]
      · change ((afterDequeue s₁ _ _).workers.set w _)[k]? = _
        rw [hworkers₁]
        exact exited_set hx (fun heq => absurd heq hne) hk
      · rintro i work ret rfl
        cases List.mem_singleton.mp he

/-- The end of a callback does not fault, and keeps the invariant. -/
theorem finish_inv {p : ℕ} (h : Inv max (s, tr)) (hw : s.workers[w]? = some (.running p)) :
    ∃ s' evs, finishJob s w p = some (s', evs) ∧ Inv max (s', tr ++ evs) := by
  obtain ⟨⟨l, r, hstock⟩, hphase⟩ := h
  obtain ⟨s', job, r', hrun, rfl, hstock'⟩ := hstock.finishJob hw
  refine ⟨_, _, hrun, ⟨l, r', hstock'⟩, ?_⟩
  refine hphase.moves ⟨fun pool hpool => ?_, fun hnone => hnone, List.length_set,
    fun k hk => exited_set hw (fun heq => Worker.noConfusion heq) hk, Or.inl rfl⟩
    (by simp) fun _ e he => ?_
  · exact ⟨pool, hpool, rfl, rfl, rfl, fun _ => rfl⟩
  · rintro i work ret rfl
    cases List.mem_singleton.mp he

/-! ### The steps of `threadpool_destroy` -/

/-- The destroying thread goes on; jobs and workers are as before. -/
theorem Stock.destroyer (h : Stock max s tr l r) (d : Destroyer) :
    Stock max (setDestroyer s d) tr l r :=
  { h with }

/-- Only a flag of the pool is written. -/
theorem Stock.setPool (h : Stock max s tr l r) (hpool : s.pool = some pool)
    (hsame : pool'.head = pool.head ∧ pool'.tail = pool.tail ∧
      pool'.queueCurNum = pool.queueCurNum ∧ pool'.queueMaxNum = pool.queueMaxNum) :
    Stock max { s with pool := some pool' } tr l r := by
  have hnil : Quiet ([] : List (Event J)) := quiet_nil
  rw [← List.append_nil tr]
  refine h.frame (fun q hq => ?_) (fun hnone => absurd hnone (Option.some_ne_none _)) rfl rfl hnil
  obtain rfl := Option.some.inj hq
  exact ⟨pool, hpool, hsame⟩

/-- The thread of `threadpool_destroy` waits, for a wake-up or for a worker, or has returned. -/
def Waits (s : Sys J) : Prop :=
  s.destroyer = .asleep ∨ (∃ ret, s.destroyer = .returned ret) ∨
    ∃ i, s.destroyer = .joining i ∧ s.workers[i]? ≠ some Worker.exited

/-- The loop that waits for the queue to be empty. -/
theorem waitEmpty_inv (hstock : Stock max s tr l r) (hflags : Flags s true false)
    (hthreads : ∀ pool, s.pool = some pool → pool.threadNum = s.workers.length)
    (hclose : .close ∈ tr) (hrefused : After .close Refused tr) :
    ∃ s', waitEmpty s = some s' ∧ Inv max (s', tr) := by
  obtain ⟨pool, hpool, hqueue, hopen, -⟩ := hflags
  unfold waitEmpty
  rw [hpool]
  simp only [Option.bind_eq_bind, Option.bind_some]
  split_ifs with hcur
  · refine ⟨_, rfl, ⟨l, r, hstock.destroyer _⟩, ?_, hthreads, ?_, hrefused⟩
    · exact ⟨pool, hpool, hqueue, hopen, fun hc => absurd hc Bool.false_ne_true⟩
    · exact ⟨fun _ => Destroyer.noConfusion, fun _ => hclose⟩
  · refine ⟨_, rfl, ⟨l, r, ?_⟩, ?_, ?_, ?_, hrefused⟩
    · refine Stock.destroyer (hstock.setPool hpool ?_) _
      exact ⟨rfl, rfl, rfl, rfl⟩
    · exact ⟨_, rfl, hqueue, rfl, fun _ => not_not.mp hcur⟩
    · intro pool' hpool'
      obtain rfl := Option.some.inj hpool'
      exact hthreads pool hpool
    · exact ⟨fun _ => Destroyer.noConfusion, fun _ => hclose⟩

/-- A step of `threadpool_destroy` once the queue is closed: it emits nothing. -/
theorem Inv.goesOn (hstock : Stock max s tr l r) (hstage : Stage s)
    (hthreads : ∀ pool, s.pool = some pool → pool.threadNum = s.workers.length)
    (hbegun : s.destroyer ≠ .out) (hclose : .close ∈ tr) (hrefused : After .close Refused tr) :
    Inv max (s, tr ++ []) := by
  rw [List.append_nil]
  exact ⟨⟨l, r, hstock⟩, hstage, hthreads, ⟨fun _ => hbegun, fun _ => hclose⟩, hrefused⟩

/-- The first step of `threadpool_destroy`: the queue is closed. -/
theorem close_inv (hstock : Stock max s tr l r) (hphase : Phase s tr) (hd : s.destroyer = .out) :
    ∃ s', threadpoolDestroy s = some (s', [.close]) ∧ Inv max (s', tr ++ [.close]) := by
  obtain ⟨hstage, hthreads, hclose, -⟩ := hphase
  unfold Stage at hstage
  rw [hd] at hstage hclose
  obtain ⟨pool, hpool, hqueue, hopen, -⟩ := hstage
  have hnone : .close ∉ tr := fun hmem => hclose.mp hmem rfl
  set pool₁ : Threadpool := { pool with queueClose := true } with hpool₁
  have hstock₁ : Stock max { s with pool := some pool₁ } (tr ++ [.close]) l r := by
    refine hstock.frame (fun q hq => ?_)
      (fun hnone => absurd hnone (Option.some_ne_none _)) rfl rfl ⟨rfl, rfl, rfl⟩
    obtain rfl := Option.some.inj hq
    exact ⟨pool, hpool, rfl, rfl, rfl, rfl⟩
  have hflags₁ : Flags { s with pool := some pool₁ } true false :=
    ⟨pool₁, rfl, rfl, hopen, fun hc => absurd hc Bool.false_ne_true⟩
  obtain ⟨s', hrun, hinv⟩ := waitEmpty_inv hstock₁ hflags₁
    (fun pool' hpool' => by
      obtain rfl := Option.some.inj hpool'
      exact hthreads pool hpool) (by simp) (After.concat hnone)
  refine ⟨s', ?_, hinv⟩
  unfold threadpoolDestroy
  rw [hd]
  dsimp only
  rw [hpool]
  simp only [hqueue, hopen, Option.bind_eq_bind, Option.bind_some, Bool.false_eq_true, or_self,
    if_false]
  rw [hpool₁, hopen] at hrun
  rw [← hd, hrun]
  rfl

/-- The loop over `pthread_join` waits for a worker, goes on, or frees the pool. -/
theorem joinThread_inv {i : ℕ} (hstock : Stock max s tr l r) (hphase : Phase s tr)
    (hd : s.destroyer = .joining i) :
    (joinThread s i = none ∧ s.workers[i]? ≠ some Worker.exited) ∨
      ∃ s', joinThread s i = some s' ∧ Inv max (s', tr ++ []) := by
  obtain ⟨hstage, hthreads, hclose, hrefused⟩ := hphase
  unfold Stage at hstage
  rw [hd] at hstage hclose
  obtain ⟨⟨pool, hpool, hqueue, hpoolClose, hcur⟩, hi, hexited⟩ := hstage
  have hmem : .close ∈ tr := hclose.mpr Destroyer.noConfusion
  unfold joinThread
  rw [hpool]
  simp only [Option.bind_eq_bind, Option.bind_some, hthreads pool hpool]
  split_ifs with hlt hjoin
  · refine Or.inr ⟨_, rfl, Inv.goesOn (hstock.destroyer (.joining (i + 1)))
      ⟨⟨pool, hpool, hqueue, hpoolClose, hcur⟩, hlt, fun k hk => ?_⟩ hthreads
      Destroyer.noConfusion hmem hrefused⟩
    rcases Nat.lt_succ_iff_lt_or_eq.mp hk with hk | rfl
    · exact hexited k hk
    · exact hjoin
  · exact Or.inl ⟨rfl, hjoin⟩
  · -- all workers have been joined
    obtain ⟨hfree, hstock'⟩ := hstock.free hpool (hcur rfl) (.returned 0)
    rw [hfree]
    refine Or.inr ⟨_, rfl, Inv.goesOn hstock' ⟨rfl, rfl, fun k hk => ?_⟩ (fun pool hnone => ?_)
      Destroyer.noConfusion hmem hrefused⟩
    · exact hexited k (hk.trans_le (not_lt.mp hlt))
    · cases hnone

/-- `threadpool_destroy` does not fault, and keeps the invariant. -/
theorem destroy_inv (h : Inv max (s, tr)) :
    (threadpoolDestroy s = none ∧ Waits s) ∨
      ∃ s' evs, threadpoolDestroy s = some (s', evs) ∧ Inv max (s', tr ++ evs) := by
  obtain ⟨⟨l, r, hstock⟩, hphase⟩ := h
  dsimp only at hstock hphase
  have hstage := hphase.stage
  have hthreads := hphase.threads
  have hclose := hphase.close
  have hrefused := hphase.refused
  unfold Stage at hstage
  unfold threadpoolDestroy
  cases hd : s.destroyer with
  | out =>
    obtain ⟨s', hrun, hinv⟩ := close_inv hstock hphase hd
    unfold threadpoolDestroy at hrun
    rw [hd] at hrun
    exact Or.inr ⟨s', [.close], hrun, hinv⟩
  | asleep => exact Or.inl ⟨rfl, Or.inl hd⟩
  | woken =>
    rw [hd] at hstage hclose
    obtain ⟨s', hrun, hinv⟩ := waitEmpty_inv hstock hstage hthreads
      (hclose.mpr Destroyer.noConfusion) hrefused
    refine Or.inr ⟨s', [], by dsimp only; rw [hrun]; rfl, ?_⟩
    rwa [List.append_nil]
  | closed =>
    rw [hd] at hstage hclose
    -- the workers that sleep are woken, and keep the jobs they have
    have hwoken : Stock max (setDestroyer (broadcastNotEmpty s) .calling) tr l r := by
      refine { hstock with held := ?_ }
      change ((s.workers.map Worker.wake).filterMap Worker.pjob).Perm _
      rw [filterMap_wake]
      exact hstock.held
    refine Or.inr ⟨_, _, rfl, Inv.goesOn hwoken hstage (fun pool hpool => ?_)
      Destroyer.noConfusion (hclose.mpr Destroyer.noConfusion) hrefused⟩
    exact (hthreads pool hpool).trans (List.length_map _).symm
  | calling =>
    rw [hd] at hstage hclose
    have hwoken : Stock max (setDestroyer (broadcastNotFull s) (.joining 0)) tr l r :=
      { hstock with }
    refine Or.inr ⟨_, _, rfl, Inv.goesOn hwoken ⟨hstage, Nat.zero_le _, fun k hk => ?_⟩ hthreads
      Destroyer.noConfusion (hclose.mpr Destroyer.noConfusion) hrefused⟩
    exact absurd hk (Nat.not_lt_zero k)
  | joining i =>
    rcases joinThread_inv hstock hphase hd with ⟨hnone, hjoin⟩ | ⟨s', hrun, hinv⟩
    · exact Or.inl ⟨by dsimp only; rw [hnone]; rfl, Or.inr (Or.inr ⟨i, hd, hjoin⟩)⟩
    · exact Or.inr ⟨s', [], by dsimp only; rw [hrun]; rfl, hinv⟩
  | returned ret => exact Or.inl ⟨rfl, Or.inr (Or.inl ⟨ret, hd⟩)⟩

/-! ### Runs -/

/-- The thread of an operation is not where the operation starts. -/
def Absent (s : Sys J) : Act J → Prop
  | .call i _ => s.producers i ≠ .out
  | .add i _ => ∀ work, s.producers i ≠ .entering work ∧ s.producers i ≠ .woken work
  | .work w => s.workers[w]? ≠ some Worker.idle ∧ s.workers[w]? ≠ some Worker.woken
  | .finish w => ∀ p, s.workers[w]? ≠ some (Worker.running p)
  | .destroy => Waits s
  | .wakeWorker w => s.workers[w]? = none
  | .wakeProducer _ | .wakeDestroyer => False

/-- While the pool exists, a step that is not taken is one that the thread is not ready for;
and every step keeps the invariant. -/
theorem step_cases (h : Inv max (s, tr)) (a : Act J) :
    (step s a = none ∧ (s.pool = none ∨ Absent s a)) ∨
      ∃ s' evs, step s a = some (s', evs) ∧ Inv max (s', tr ++ evs) := by
  cases a with
  | call i work =>
    dsimp only [step, Absent]
    cases hp : s.producers i with
    | out => exact Or.inr ⟨_, _, rfl, h.setProducer _ (Or.inl rfl)⟩
    | entering _ | asleep _ | woken _ =>
      exact Or.inl ⟨rfl, Or.inr nofun⟩
  | add i answer =>
    dsimp only [step, Absent]
    cases hp : s.producers i with
    | entering work | woken work =>
      cases hpool : s.pool with
      | none =>
        refine Or.inl ⟨?_, Or.inl rfl⟩
        unfold threadpoolAddJob
        rw [hpool]
        rfl
      | some pool => exact Or.inr (addJob_inv h hpool i work answer)
    | out =>
      exact Or.inl ⟨rfl, Or.inr fun work => ⟨nofun, nofun⟩⟩
    | asleep _ =>
      exact Or.inl ⟨rfl, Or.inr fun work => ⟨nofun, nofun⟩⟩
  | work w =>
    have hfunction : ∀ {x : Worker}, s.workers[w]? = some x → x.pjob = none → x ≠ .exited →
        (threadpoolFunction s w = none ∧ (s.pool = none ∨ Absent s (.work w))) ∨
          ∃ s' evs, threadpoolFunction s w = some (s', evs) ∧ Inv max (s', tr ++ evs) := by
      intro x hx hxjob hne
      cases hpool : s.pool with
      | none =>
        refine Or.inl ⟨?_, Or.inl rfl⟩
        unfold threadpoolFunction
        rw [hpool]
        rfl
      | some pool => exact Or.inr (function_inv h hpool hx hxjob hne)
    dsimp only [step]
    split
    · next hx => exact hfunction hx rfl Worker.noConfusion
    · next hx => exact hfunction hx rfl Worker.noConfusion
    · next hidle hwoken => exact Or.inl ⟨rfl, Or.inr ⟨hidle, hwoken⟩⟩
  | finish w =>
    dsimp only [step]
    split
    · next p hw => exact Or.inr (finish_inv h hw)
    · next hw => exact Or.inl ⟨rfl, Or.inr hw⟩
  | destroy =>
    rcases destroy_inv h with ⟨hnone, hwaits⟩ | hsome
    · exact Or.inl ⟨hnone, Or.inr hwaits⟩
    · exact Or.inr hsome
  | wakeProducer i =>
    exact Or.inr ⟨_, _, rfl, h.setProducer _ (Or.inl rfl)⟩
  | wakeWorker w =>
    dsimp only [step, Absent]
    cases hx : s.workers[w]? with
    | none => exact Or.inl ⟨rfl, Or.inr rfl⟩
    | some x =>
      refine Or.inr ⟨_, _, rfl, h.setWorker hx (wake_pjob x) fun heq => ?_⟩
      rw [heq]
      rfl
  | wakeDestroyer =>
    refine Or.inr ⟨_, _, rfl, ?_⟩
    exact h.untouched rfl rfl rfl rfl (fun _ => id) (Or.inr rfl) quiet_nil List.not_mem_nil
      fun e he => absurd he List.not_mem_nil

/-- While the pool exists, a thread whose next step is due takes it: nothing faults. -/
theorem step_eq_none {a : Act J} (h : Inv max (s, tr)) (hnone : step s a = none) :
    s.pool = none ∨ Absent s a := by
  rcases step_cases h a with ⟨-, hcase⟩ | ⟨s', evs, hsome, -⟩
  · exact hcase
  · rw [hnone] at hsome
    cases hsome

/-- Every run keeps the invariant. -/
theorem inv_exec {threadNum : ℕ} {acts : List (Act J)} (hmax : 1 ≤ max)
    (hrun : exec (traced step) (threadpoolInit J threadNum max, []) acts = some (s, tr)) :
    Inv max (s, tr) := by
  refine exec_invariant (I := Inv max) (fun st a st' h hone => ?_) (inv_init hmax) hrun
  obtain ⟨s', evs, hstep, rfl⟩ := traced_eq_some.mp hone
  rcases step_cases h a with ⟨hnone, -⟩ | ⟨s₁, evs₁, hsome, h'⟩
  · rw [hstep] at hnone
    cases hnone
  · obtain ⟨rfl, rfl⟩ := Prod.mk.inj (Option.some.inj (hstep.symm.trans hsome))
    exact h'

/-- In a pool that has been destroyed, nothing is pending and nothing is running. -/
theorem Stock.returned {ret : ℤ} (hstock : Stock max s tr l r) (hphase : Phase s tr)
    (hreturned : s.destroyer = .returned ret) : l = [] ∧ r = [] := by
  have hstage := hphase.stage
  unfold Stage at hstage
  rw [hreturned] at hstage
  obtain ⟨-, hpool, hexited⟩ := hstage
  -- a worker that has exited holds no job
  have hheld : s.workers.filterMap Worker.pjob = [] := by
    apply List.filterMap_eq_nil_iff.mpr
    intro x hx
    obtain ⟨k, hk, rfl⟩ := List.mem_iff_getElem.mp hx
    rw [Option.some.inj ((List.getElem?_eq_getElem hk).symm.trans (hexited k hk))]
    rfl
  have hnil := hstock.held
  rw [hheld] at hnil
  exact ⟨hstock.freed hpool, List.map_eq_nil_iff.mp hnil.symm.eq_nil⟩

/-- **Exactly once.** In every run, `queue_cur_num` counts the cells between `head` and `tail`
and stays between `0` and `queue_max_num`, and jobs are dequeued in the order in which they
were accepted. When `threadpool_destroy` has returned `0`, every accepted job has been completed
once, and no job was accepted after the queue was closed. -/
theorem pool_runs_jobs {threadNum : ℕ} {queueMaxNum : ℤ} {acts : List (Act J)}
    (hmax : 1 ≤ queueMaxNum)
    (hrun : exec (traced step) (threadpoolInit J threadNum queueMaxNum, []) acts = some (s, tr)) :
    (∀ pool, s.pool = some pool →
      (∃ ps, IsQueue s.heap pool ps ∧ pool.queueCurNum = ps.length) ∧
      0 ≤ pool.queueCurNum ∧ pool.queueCurNum ≤ queueMaxNum ∧
      (pool.head = none ↔ pool.queueCurNum = 0)) ∧
    dequeued tr <+: accepted tr ∧
    (s.destroyer = .returned 0 → (completed tr).Perm (accepted tr) ∧
      ∃ pre post, tr = pre ++ .close :: post ∧
        ∀ i work ret, .addJob i work ret ∈ post → ret = -1) := by
  obtain ⟨⟨l, r, hstock⟩, hphase⟩ := inv_exec hmax hrun
  refine ⟨fun pool hpool => ?_, hstock.balanced.order, fun hreturned => ⟨?_, ?_⟩⟩
  · obtain ⟨hqueue, hcur, -⟩ := hstock.queue pool hpool
    have hbound := hstock.bound
    exact ⟨⟨_, hqueue, by rw [hcur, List.length_map]⟩, by omega, by omega,
      hstock.head_eq_none hpool⟩
  · obtain ⟨rfl, rfl⟩ := hstock.returned hphase hreturned
    exact hstock.balanced.complete
  · have hmem : .close ∈ tr := hphase.close.mpr (by rw [hreturned]; exact Destroyer.noConfusion)
    obtain ⟨pre, post, rfl⟩ := List.append_of_mem hmem
    exact ⟨pre, post, rfl, fun i work ret he => hphase.refused pre post rfl _ he i work ret rfl⟩

/-- One worker and a queue of one job: the second producer waits, its job is accepted, and the
pool is destroyed after both jobs. -/
theorem pool_runs_jobs_two : ∃ s tr, exec (traced step) (threadpoolInit ℕ 1 1, [])
    [.call 0 7, .call 1 8, .add 0 (some 1), .add 1 none, .work 0, .add 1 (some 2), .finish 0,
      .destroy, .work 0, .finish 0, .destroy, .destroy, .destroy, .work 0, .destroy, .destroy] =
      some (s, tr) ∧ accepted tr = [7, 8] ∧ (completed tr).Perm (accepted tr) := by
  obtain ⟨s, tr, hrun, hd, hacc⟩ : ∃ s tr, exec (traced step) (threadpoolInit ℕ 1 1, [])
      [.call 0 7, .call 1 8, .add 0 (some 1), .add 1 none, .work 0, .add 1 (some 2), .finish 0,
        .destroy, .work 0, .finish 0, .destroy, .destroy, .destroy, .work 0, .destroy, .destroy] =
        some (s, tr) ∧ s.destroyer = .returned 0 ∧ accepted tr = [7, 8] := ⟨_, _, rfl, rfl, rfl⟩
  exact ⟨s, tr, hrun, hacc, ((pool_runs_jobs (by decide) hrun).2.2 hd).1⟩

end MmorpgServer.ThreadPool
