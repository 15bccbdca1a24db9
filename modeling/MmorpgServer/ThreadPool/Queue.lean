import MmorpgServer.ThreadPool.Model
import MmorpgServer.Lib.Chain
import MmorpgServer.Lib.Ledger
import Mathlib.Data.Option.Basic
import Mathlib.Tactic.Tauto

/-!
# The queue of the thread pool

The cells between `head` and `tail` are the jobs that were accepted and not yet dequeued, and
`queue_cur_num` counts them; the cells that are neither freed nor in the queue are with the
workers. The account of the jobs is that of a queue.

## Main definitions

* `IsQueue` — the cells between `head` and `tail`
* `accepted`, `dequeued`, `completed` — the histories of a run
* `Stock` — the jobs in the queue and with the workers

## Main results

* `Stock.addJob`, `Stock.dequeue`, `Stock.finishJob`, `Stock.free` — the steps that move jobs
* `Stock.frame` — the other steps
-/

namespace MmorpgServer.ThreadPool

open Chain Ledger

variable {J : Type} {s s' : Sys J} {tr evs : List (Event J)} {max : ℤ} {l r : List (ℕ × J)}
  {heap heap' : ℕ → Option (Job J)} {pool pool' : Threadpool} {ps : List ℕ} {p w : ℕ}
  {work : J}

/-! ### The list of jobs -/

/-- The `next` fields, with the field `head` as the cell `none`. -/
def link (heap : ℕ → Option (Job J)) (head : JobPtr) : Option ℕ → Option (Option (Option ℕ))
  | none => some (head.map some)
  | some p => (heap p).map fun job => job.next.map some

/-- The cells from `head` to `tail` are `ps`. -/
def IsQueue (heap : ℕ → Option (Job J)) (pool : Threadpool) (ps : List ℕ) : Prop :=
  Run (link heap pool.head) none (ps.map some) ∧ pool.tail = ps.getLast?

theorem IsQueue.head (h : IsQueue heap pool ps) : pool.head = ps.head? := by
  have hhead := Option.some.inj h.1.head
  rw [List.head?_map] at hhead
  exact Option.map_injective (Option.some_injective ℕ) hhead

/-- `next` of the first cell is the second one. -/
theorem IsQueue.next {job : Job J} (h : IsQueue heap pool (p :: ps)) (hjob : heap p = some job) :
    job.next = ps.head? := by
  have hnext := h.1.2.head
  rw [link, hjob, List.head?_map] at hnext
  exact Option.map_injective (Option.some_injective ℕ) (Option.some.inj hnext)

theorem nodup_link (h : ps.Nodup) : ((none : Option ℕ) :: ps.map some).Nodup :=
  List.nodup_cons.mpr ⟨by simp, h.map (Option.some_injective ℕ)⟩

/-- Changes outside of the queue. -/
theorem IsQueue.congr (h : IsQueue heap pool ps) (hheap : ∀ p ∈ ps, heap' p = heap p) :
    IsQueue heap' pool ps := by
  refine ⟨h.1.congr fun b hb => ?_, h.2⟩
  cases b with
  | none => rfl
  | some p =>
    have hp : p ∈ ps := by simpa using hb
    rw [link, link, hheap p hp]

/-- A cell that is linked behind an empty queue. -/
theorem isQueue_singleton (hhead : pool.head = some p) (htail : pool.tail = some p)
    (hp : heap p = some ⟨work, none⟩) : IsQueue heap pool [p] := by
  refine ⟨⟨?_, ?_⟩, htail⟩
  · rw [link, hhead]
    rfl
  · change link heap pool.head (some p) = some none
    rw [link, hp]
    rfl

/-- A cell that is linked behind the last one. -/
theorem IsQueue.append {last : ℕ} {cell : Job J} (h : IsQueue heap pool ps) (hnodup : ps.Nodup)
    (hlast : ps.getLast? = some last) (hp : p ∉ ps)
    (hnew : heap p = some ⟨work, none⟩) (htail : pool'.tail = some p)
    (hhead : pool'.head = pool.head) :
    IsQueue (Function.update heap last (some { cell with next := some p })) pool' (ps ++ [p]) := by
  have hmem : last ∈ ps := List.mem_of_getLast? hlast
  have hne : p ≠ last := fun heq => hp (heq ▸ hmem)
  -- the cell before the splice is the last one, or the field `head` if there is none
  have hlastD : (ps.map some).getLastD none = some last := by
    rw [List.getLastD_eq_getLast?, List.getLast?_map, hlast]
    rfl
  refine ⟨?_, by rw [htail, List.getLast?_concat]⟩
  rw [List.map_append, List.map_singleton, hhead]
  have hrun := h.1
  rw [← List.append_nil (ps.map some)] at hrun
  refine hrun.insert (by rw [List.append_nil]; exact nodup_link hnodup) ?_ ?_ ?_
  · rw [link, Function.update_of_ne hne, hnew]
    rfl
  · rw [hlastD, link, Function.update_self]
    rfl
  · intro b _ hb
    rw [hlastD] at hb
    cases b with
    | none => rfl
    | some q => rw [link, link, Function.update_of_ne fun heq => hb (congrArg some heq)]

/-- The rest of the queue behind its first cell. -/
theorem IsQueue.tail (h : IsQueue heap pool (p :: ps)) (hnodup : (p :: ps).Nodup)
    (hhead : pool'.head = ps.head?)
    (htail : (ps = [] → pool'.tail = none) ∧ (ps ≠ [] → pool'.tail = pool.tail)) :
    IsQueue heap pool' ps := by
  constructor
  · have hrun : Run (link heap pool.head) none ([] ++ some p :: ps.map some) := h.1
    refine hrun.erase (nodup_link hnodup) ?_ ?_
    · rw [List.head?_map, ← hhead]
      rfl
    · intro b _ hb
      cases b with
      | none => exact absurd rfl hb
      | some q => rfl
  · cases ps with
    | nil => exact htail.1 rfl
    | cons q ps => rw [htail.2 (List.cons_ne_nil q ps), h.2, List.getLast?_cons_cons]

/-! ### The histories -/

/-- The jobs whose `threadpool_add_job` returned `0`. -/
def accepted (tr : List (Event J)) : List J :=
  tr.filterMap fun
    | .addJob _ work ret => if ret = 0 then some work else none
    | _ => none

def dequeued (tr : List (Event J)) : List J :=
  tr.filterMap fun
    | .dequeue _ work => some work
    | _ => none

def completed (tr : List (Event J)) : List J :=
  tr.filterMap fun
    | .complete _ work => some work
    | _ => none

/-- The events move no job. -/
def Quiet (evs : List (Event J)) : Prop :=
  accepted evs = [] ∧ dequeued evs = [] ∧ completed evs = []

theorem accepted_append : accepted (tr ++ evs) = accepted tr ++ accepted evs :=
  List.filterMap_append

theorem dequeued_append : dequeued (tr ++ evs) = dequeued tr ++ dequeued evs :=
  List.filterMap_append

theorem completed_append : completed (tr ++ evs) = completed tr ++ completed evs :=
  List.filterMap_append

/-! ### Jobs in the queue and with the workers -/

/-- The job that a worker runs. -/
def Worker.pjob : Worker → Option ℕ
  | .running pjob => some pjob
  | _ => none

/-- The jobs `l` are in the queue and the jobs `r` with the workers. -/
structure Stock (max : ℤ) (s : Sys J) (tr : List (Event J)) (l r : List (ℕ × J)) : Prop where
  queue : ∀ pool, s.pool = some pool → IsQueue s.heap pool (l.map Prod.fst) ∧
    pool.queueCurNum = l.length ∧ pool.queueMaxNum = max
  freed : s.pool = none → l = []
  bound : (l.length : ℤ) ≤ max
  cells : ∀ q ∈ l ++ r, (s.heap q.1).map (·.work) = some q.2
  nodup : ((l ++ r).map Prod.fst).Nodup
  held : (s.workers.filterMap Worker.pjob).Perm (r.map Prod.fst)
  balanced : Balanced (accepted tr) (dequeued tr) (completed tr) (l.map Prod.snd) (r.map Prod.snd)

theorem Stock.init {threadNum : ℕ} (hmax : 1 ≤ max) :
    Stock max (threadpoolInit J threadNum max) [] [] [] where
  queue pool hpool := by
    obtain rfl := Option.some.inj hpool
    exact ⟨⟨rfl, rfl⟩, rfl, rfl⟩
  freed _ := rfl
  bound := by
    rw [List.length_nil]
    omega
  cells _ hq := absurd hq List.not_mem_nil
  nodup := List.nodup_nil
  held := by
    refine List.Perm.of_eq (List.filterMap_eq_nil_iff.mpr fun w hw => ?_)
    rw [List.eq_of_mem_replicate hw]
    rfl
  balanced := Balanced.init

/-- The workers have no order. -/
theorem Stock.perm {r' : List (ℕ × J)} (h : Stock max s tr l r) (hperm : r.Perm r') :
    Stock max s tr l r' :=
  { h with
    cells := fun q hq => h.cells q ((hperm.append_left l).mem_iff.mpr hq)
    nodup := (((hperm.append_left l).map Prod.fst).nodup_iff).mp h.nodup
    held := h.held.trans (hperm.map Prod.fst)
    balanced := h.balanced.perm (hperm.map Prod.snd) }

/-- A step that moves no job. -/
theorem Stock.frame (h : Stock max s tr l r)
    (hpool : ∀ pool', s'.pool = some pool' → ∃ pool, s.pool = some pool ∧
      pool'.head = pool.head ∧ pool'.tail = pool.tail ∧
      pool'.queueCurNum = pool.queueCurNum ∧ pool'.queueMaxNum = pool.queueMaxNum)
    (hfreed : s'.pool = none → s.pool = none) (hheap : s'.heap = s.heap)
    (hworkers : s'.workers.filterMap Worker.pjob = s.workers.filterMap Worker.pjob)
    (hevs : Quiet evs) : Stock max s' (tr ++ evs) l r := by
  obtain ⟨haccepted, hdequeued, hcompleted⟩ := hevs
  refine ⟨fun pool' hpool' => ?_, fun hnone => h.freed (hfreed hnone), h.bound, ?_, h.nodup, ?_, ?_⟩
  · obtain ⟨pool, hold, hhead, htail, hcur, hmax⟩ := hpool pool' hpool'
    obtain ⟨⟨hrun, hlast⟩, hcount, hbound⟩ := h.queue pool hold
    refine ⟨⟨?_, htail.trans hlast⟩, hcur.trans hcount, hmax.trans hbound⟩
    rw [hheap, hhead]
    exact hrun
  · rw [hheap]
    exact h.cells
  · rw [hworkers]
    exact h.held
  · rw [accepted_append, dequeued_append, completed_append, haccepted, hdequeued, hcompleted,
      List.append_nil, List.append_nil, List.append_nil]
    exact h.balanced

/-- A worker goes somewhere with the job it has, or without one. -/
theorem filterMap_set_pjob {workers : List Worker} {x y : Worker} (hx : workers[w]? = some x)
    (hjob : y.pjob = x.pjob) :
    (workers.set w y).filterMap Worker.pjob = workers.filterMap Worker.pjob := by
  induction workers generalizing w with
  | nil => rfl
  | cons b workers ih =>
    cases w with
    | zero =>
      obtain rfl := Option.some.inj hx
      rw [List.set_cons_zero, List.filterMap_cons, List.filterMap_cons, hjob]
    | succ w => rw [List.set_cons_succ, List.filterMap_cons, List.filterMap_cons, ih hx]

@[simp] theorem wake_pjob (w : Worker) : w.wake.pjob = w.pjob := by
  cases w <;> rfl

theorem filterMap_wake (workers : List Worker) :
    (workers.map Worker.wake).filterMap Worker.pjob = workers.filterMap Worker.pjob := by
  rw [List.filterMap_map]
  exact List.filterMap_congr fun w _ => wake_pjob w

/-! ### The steps that move jobs -/

theorem Stock.fst_mem (h : Stock max s tr l r) {q : ℕ × J} (hq : q ∈ l ++ r) :
    s.heap q.1 ≠ none := by
  intro hnone
  have hcell := h.cells q hq
  rw [hnone] at hcell
  cases hcell

/-- `head` is `NULL` when the queue is empty. -/
theorem Stock.head_eq_none (h : Stock max s tr l r) (hpool : s.pool = some pool) :
    pool.head = none ↔ pool.queueCurNum = 0 := by
  obtain ⟨hqueue, hcur, -⟩ := h.queue pool hpool
  rw [hqueue.head, hcur, List.head?_eq_none_iff, List.map_eq_nil_iff, Int.natCast_eq_zero,
    List.length_eq_zero_iff]

/-- `malloc` answers a cell that is not in use. -/
theorem malloc_fresh {answer : JobPtr} (h : malloc s answer = some p) : s.heap p = none := by
  unfold malloc at h
  split at h
  · split_ifs at h with hfree
    obtain rfl := Option.some.inj h
    exact Option.isNone_iff_eq_none.mp hfree
  · cases h

/-- A cell that is not in use is neither in the queue nor with a worker. -/
theorem Stock.not_mem (h : Stock max s tr l r) (hp : s.heap p = none) :
    p ∉ (l ++ r).map Prod.fst := by
  intro hmem
  obtain ⟨q, hq, rfl⟩ := List.mem_map.mp hmem
  exact h.fst_mem hq hp

/-- What `enqueue` does to the pool, and whom it wakes. -/
structure Enqueued (s : Sys J) (pool : Threadpool) (p : ℕ) (work : J) (s' : Sys J)
    (pool' : Threadpool) : Prop where
  pool_eq : s'.pool = some pool'
  cur : pool'.queueCurNum = pool.queueCurNum + 1
  config : pool'.threadNum = pool.threadNum ∧ pool'.queueMaxNum = pool.queueMaxNum ∧
    pool'.queueClose = pool.queueClose ∧ pool'.poolClose = pool.poolClose
  workers : s'.workers = if pool.head = none then s.workers.map Worker.wake else s.workers
  threads : s'.producers = s.producers ∧ s'.destroyer = s.destroyer
  here : (s'.heap p).map (·.work) = some work
  others : ∀ q ≠ p, (s'.heap q).map (·.work) = (s.heap q).map (·.work)

theorem enqueue_spec (hqueue : IsQueue s.heap pool ps) (hnodup : ps.Nodup) (hp : p ∉ ps)
    (hcells : ∀ q ∈ ps, s.heap q ≠ none) (work : J) :
    ∃ s' pool', enqueue s pool p work = some s' ∧ Enqueued s pool p work s' pool' ∧
      IsQueue s'.heap pool' (ps ++ [p]) := by
  have hhead := hqueue.head
  unfold enqueue
  cases ps with
  | nil =>
    rw [List.head?_nil] at hhead
    simp only [hhead]
    refine ⟨_, _, rfl, ⟨rfl, rfl, ⟨rfl, rfl, rfl, rfl⟩, ?_, ⟨rfl, rfl⟩, ?_, fun q hq => ?_⟩, ?_⟩
    · rw [if_pos hhead]
      rfl
    · exact congrArg _ (Function.update_self ..)
    · exact congrArg _ (Function.update_of_ne hq _ _)
    · exact isQueue_singleton rfl rfl (Function.update_self ..)
  | cons q ps =>
    rw [List.head?_cons] at hhead
    simp only [hhead]
    obtain ⟨last, hlast⟩ : ∃ last, (q :: ps).getLast? = some last :=
      ⟨_, List.getLast?_eq_some_getLast (List.cons_ne_nil q ps)⟩
    -- `tail` points to a cell of the queue, which is not the new one
    have hmem : last ∈ q :: ps := List.mem_of_getLast? hlast
    have hne : last ≠ p := fun heq => hp (heq ▸ hmem)
    obtain ⟨cell, hcell⟩ := Option.ne_none_iff_exists'.mp (hcells last hmem)
    have hcell' : Function.update s.heap p (some ⟨work, none⟩) last = some cell :=
      (Function.update_of_ne hne _ _).trans hcell
    simp only [hqueue.2.trans hlast, hcell', Option.bind_eq_bind, Option.bind_some]
    refine ⟨_, _, rfl, ⟨rfl, rfl, ⟨rfl, rfl, rfl, rfl⟩, ?_, ⟨rfl, rfl⟩, ?_, fun q' hq => ?_⟩, ?_⟩
    · rw [if_neg (by rw [hhead]; exact Option.some_ne_none q)]
    · dsimp only
      rw [Function.update_of_ne hne.symm, Function.update_self]
      rfl
    · -- the cell that is linked keeps its job
      dsimp only
      by_cases hq' : q' = last
      · rw [hq', Function.update_self, hcell]
        rfl
      · rw [Function.update_of_ne hq', Function.update_of_ne hq]
    · have hnew := Function.update_self p (some (Job.mk work none)) s.heap
      have hold : IsQueue (Function.update s.heap p (some ⟨work, none⟩)) pool (q :: ps) :=
        hqueue.congr fun b hb => Function.update_of_ne (ne_of_mem_of_not_mem hb hp) _ _
      exact hold.append hnodup hlast hp hnew rfl hhead.symm

/-- A job is accepted. -/
theorem Stock.addJob (h : Stock max s tr l r) (hpool : s.pool = some pool)
    (hroom : pool.queueCurNum ≠ pool.queueMaxNum) (hp : s.heap p = none) (work : J) (i : ℕ) :
    ∃ s' pool', enqueue s pool p work = some s' ∧ Enqueued s pool p work s' pool' ∧
      Stock max s' (tr ++ [.addJob i work 0]) (l ++ [(p, work)]) r := by
  obtain ⟨hqueue, hcur, hmax⟩ := h.queue pool hpool
  have hnodup := h.nodup
  have hnew := h.not_mem hp
  rw [List.map_append] at hnodup hnew
  have hp' : p ∉ l.map Prod.fst := fun hmem => hnew (List.mem_append_left _ hmem)
  obtain ⟨s', pool', hrun, henq, hqueue'⟩ := enqueue_spec hqueue hnodup.of_append_left hp'
    (fun q hq => by
      obtain ⟨c, hc, rfl⟩ := List.mem_map.mp hq
      exact h.fst_mem (List.mem_append_left r hc)) work
  refine ⟨s', pool', hrun, henq, ?_⟩
  have hlength : (l ++ [(p, work)]).length = l.length + 1 := by simp
  refine ⟨fun q hq => ?_, fun hnone => ?_, ?_, fun q hq => ?_, ?_, ?_, ?_⟩
  · obtain rfl := Option.some.inj (henq.pool_eq.symm.trans hq)
    refine ⟨?_, ?_, henq.config.2.1.trans hmax⟩
    · rw [List.map_append]
      exact hqueue'
    · rw [henq.cur, hcur, hlength]
      rfl
  · rw [henq.pool_eq] at hnone
    cases hnone
  · -- there was room for one more
    have hbound := h.bound
    rw [hcur, hmax] at hroom
    rw [hlength]
    omega
  · rw [List.append_assoc, List.mem_append, List.mem_append, List.mem_singleton] at hq
    rcases hq with hq | rfl | hq
    · rw [henq.others _ fun heq => hnew (heq ▸ List.mem_append_left _ (List.mem_map_of_mem hq))]
      exact h.cells q (List.mem_append_left r hq)
    · exact henq.here
    · rw [henq.others _ fun heq => hnew (heq ▸ List.mem_append_right _ (List.mem_map_of_mem hq))]
      exact h.cells q (List.mem_append_right l hq)
  · rw [List.map_append, List.map_append, List.append_assoc]
    exact List.nodup_middle.mpr (List.nodup_cons.mpr ⟨hnew, hnodup⟩)
  · rw [henq.workers]
    split_ifs
    · rw [filterMap_wake]
      exact h.held
    · exact h.held
  · rw [accepted_append, dequeued_append, completed_append, List.map_append]
    have hbalanced := h.balanced.accept work
    -- only the history of accepted jobs grows
    rw [← List.append_nil (dequeued tr), ← List.append_nil (completed tr)] at hbalanced
    exact hbalanced

/-- The pool that `threadpool_function` leaves behind. -/
theorem Stock.dequeue (h : Stock max s tr l r) (hpool : s.pool = some pool)
    (hcur : pool.queueCurNum ≠ 0) {x : Worker} (hx : s.workers[w]? = some x)
    (hxjob : x.pjob = none) :
    ∃ p job l', l = (p, job.work) :: l' ∧ pool.head = some p ∧ s.heap p = some job ∧
      ∀ s' pool', s'.pool = some pool' → s'.heap = s.heap →
        s'.workers = s.workers.set w (.running p) → pool'.queueCurNum = pool.queueCurNum - 1 →
        pool'.queueMaxNum = pool.queueMaxNum →
        (pool'.head = if pool.queueCurNum - 1 = 0 then none else job.next) →
        (pool'.tail = if pool.queueCurNum - 1 = 0 then none else pool.tail) →
        Stock max s' (tr ++ [.dequeue w job.work]) l' ((p, job.work) :: r) := by
  obtain ⟨hqueue, hcount, hmax⟩ := h.queue pool hpool
  cases l with
  | nil =>
    rw [hcount] at hcur
    exact absurd rfl hcur
  | cons c l =>
    obtain ⟨p, work⟩ := c
    have hcell := h.cells (p, work) List.mem_cons_self
    obtain ⟨job, hjob, rfl⟩ := Option.map_eq_some_iff.mp hcell
    refine ⟨p, job, l, rfl, hqueue.head, hjob, ?_⟩
    intro s' pool' hpool' hheap hworkers hcur' hmax' hhead htail
    have hnodup := h.nodup
    rw [List.map_append, List.map_cons] at hnodup
    -- the source tests the count where the proof needs to know whether a job is left
    have hlength : pool.queueCurNum - 1 = l.length := by
      rw [hcount, List.length_cons]
      omega
    have hzero : pool.queueCurNum - 1 = 0 ↔ l.map Prod.fst = [] := by
      rw [hlength]
      simp
    refine ⟨fun q hq => ?_, fun hnone => ?_, ?_, fun q hq => ?_, ?_, ?_, ?_⟩
    · obtain rfl := Option.some.inj (hpool'.symm.trans hq)
      refine ⟨?_, hcur'.trans hlength, hmax'.trans hmax⟩
      rw [hheap]
      refine IsQueue.tail hqueue hnodup.of_append_left ?_ ⟨fun hnil => ?_, fun hne => ?_⟩
      · rw [hhead]
        split_ifs with hlast
        · rw [hzero.mp hlast]
          rfl
        · exact hqueue.next hjob
      · rw [htail, if_pos (hzero.mpr hnil)]
      · rw [htail, if_neg (fun hlast => hne (hzero.mp hlast))]
    · rw [hpool'] at hnone
      cases hnone
    · have hbound := h.bound
      rw [List.length_cons] at hbound
      omega
    · rw [hheap]
      apply h.cells q
      rw [List.mem_append, List.mem_cons] at hq
      rw [List.cons_append, List.mem_cons, List.mem_append]
      tauto
    · exact (List.perm_middle.map Prod.fst).nodup_iff.mpr h.nodup
    · -- the worker that had no job now has this one
      have hset := perm_filterMap_set Worker.pjob hx (.running p)
      rw [hxjob] at hset
      rw [hworkers]
      exact hset.trans (h.held.cons p)
    · rw [accepted_append, dequeued_append, completed_append]
      have hbalanced := h.balanced.start
      rw [← List.append_nil (accepted tr), ← List.append_nil (completed tr)] at hbalanced
      exact hbalanced

/-- A job is completed. -/
theorem Stock.finishJob (h : Stock max s tr l r) (hw : s.workers[w]? = some (.running p)) :
    ∃ (s' : Sys J) (job : Job J) (r' : List (ℕ × J)),
      ThreadPool.finishJob s w p = some (s', [.complete w job.work]) ∧
      s' = setWorker { s with heap := Function.update s.heap p none } w .idle ∧
      Stock max s' (tr ++ [.complete w job.work]) l r' := by
  -- the worker is one of those that hold a job
  have hmem : p ∈ r.map Prod.fst := by
    refine h.held.mem_iff.mp (List.mem_filterMap.mpr ⟨.running p, ?_, rfl⟩)
    exact List.mem_of_getElem? hw
  obtain ⟨⟨p', work⟩, hq, hp'⟩ := List.mem_map.mp hmem
  obtain rfl : p = p' := hp'.symm
  obtain ⟨r₁, r₂, rfl⟩ := List.append_of_mem hq
  replace h := h.perm List.perm_middle
  set r' := r₁ ++ r₂
  obtain ⟨job, hjob, rfl⟩ := Option.map_eq_some_iff.mp (h.cells (p, work) (by simp))
  refine ⟨_, job, r', ?_, rfl, ?_⟩
  · unfold ThreadPool.finishJob
    rw [hjob]
    rfl
  have hnodup := (List.perm_middle.map Prod.fst).nodup_iff.mp h.nodup
  rw [List.map_cons] at hnodup
  obtain ⟨hnew, hnodup⟩ := List.nodup_cons.mp hnodup
  have hother : ∀ q ∈ l ++ r', q.1 ≠ p := by
    intro q hother heq
    exact hnew (List.mem_map.mpr ⟨q, hother, heq⟩)
  refine ⟨fun pool hpool => ?_, h.freed, h.bound, fun q hq => ?_, hnodup, ?_, ?_⟩
  · obtain ⟨hqueue, hcount⟩ := h.queue pool hpool
    refine ⟨hqueue.congr fun q hq => ?_, hcount⟩
    obtain ⟨c, hc, rfl⟩ := List.mem_map.mp hq
    exact Function.update_of_ne (hother c (List.mem_append_left r' hc)) _ _
  · change (Function.update s.heap p none q.1).map _ = _
    rw [Function.update_of_ne (hother q hq)]
    apply h.cells q
    rw [List.mem_append] at hq
    rw [List.mem_append, List.mem_cons]
    tauto
  · have hset := perm_filterMap_set Worker.pjob hw .idle
    exact (hset.trans h.held).cons_inv
  · rw [accepted_append, dequeued_append, completed_append]
    have hbalanced := h.balanced.finish
    rw [← List.append_nil (accepted tr), ← List.append_nil (dequeued tr)] at hbalanced
    exact hbalanced

/-- The pool is freed when its queue is empty. -/
theorem Stock.free (h : Stock max s tr l r) (hpool : s.pool = some pool)
    (hcur : pool.queueCurNum = 0) (d : Destroyer) :
    freeJobs pool.queueCurNum.toNat s.heap pool.head = some s.heap ∧
      Stock max (setDestroyer { s with pool := none } d) tr l r := by
  obtain ⟨hqueue, hcount, -⟩ := h.queue pool hpool
  have hnil : l = [] := by
    rw [hcur] at hcount
    exact List.length_eq_zero_iff.mp (by omega)
  have hhead := hqueue.head
  rw [hnil] at hhead
  refine ⟨?_, { h with queue := fun pool hnone => ?_, freed := fun _ => hnil }⟩
  swap
  · cases hnone
  rw [hhead]
  exact freeJobs.eq_1 _ _

end MmorpgServer.ThreadPool
