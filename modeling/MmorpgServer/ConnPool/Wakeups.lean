import MmorpgServer.ConnPool.DBPool
import MmorpgServer.ConnPool.CachePool
import MmorpgServer.Lib.Machine

/-!
# No wake-up of a connection pool is lost

A release wakes one client, which may find that the connection was taken by another, and a
client whose wait has a limit may wake up by itself. The clients that were notified, or whose
time is over, are recorded until they take the mutex again: while a client sleeps, there are at
least as many of them as free connections.

## Main definitions

* `Turn` — what a client does that has the mutex in `GetDBConn` or `GetCacheConn`
* `DB.note`, `Cache.note` — the record of the clients that are about to run
* `DB.Awake`, `Cache.Awake` — the invariant

## Main results

* `DB.awake_step`, `Cache.awake_step` — every step keeps the invariant
* `no_wakeup_lost` — both pools, over all runs
-/

namespace MmorpgServer.ConnPool

open Machine CondVar

/-- Client `i` takes one of `n` connections, or finds none; it sleeps only if there is none. -/
structure Turn {π : Type*} (clients clients' : List (Waiter π)) (i n n' : ℕ) : Prop where
  takes : n' + 1 ≤ n ∨ n' = 0
  client : ∃ w, clients' = clients.set i w ∧ ∀ call, w = .asleep call → n' = 0

theorem Turn.noneLost {π : Type*} {clients clients' : List (Waiter π)} {i n n' : ℕ}
    {notified : Finset ℕ} (hturn : Turn clients clients' i n n')
    (h : NoneLost clients notified n) : NoneLost clients' (notified.erase i) n' := by
  obtain ⟨w, rfl, hsleep⟩ := hturn.client
  exact h.retake hturn.takes hsleep

/-- Nobody is in the pool when it has been made. -/
theorem noneLost_replicate {π : Type*} {clients n : ℕ} :
    NoneLost (List.replicate clients (.out : Waiter π)) ∅ n := by
  apply NoneLost.init
  intro w hw call
  simp [List.eq_of_mem_replicate hw]

variable {i k : ℕ} {notified : Finset ℕ} {evs : List Event}

/-! ### `CDBPool` -/

namespace DB

variable {s s' : Sys} {pool pool' : CDBPool} {call : Call} {t : Attempt} {act : Act}

/-- A client is recorded when it is notified or its time is over, until it takes the mutex. -/
def note (s : Sys) (act : Act) (s' : Sys) (notified : Finset ℕ) : Finset ℕ :=
  match act with
  | .rel _ _ k => noteWoken s.clients s'.clients k notified
  | .timeout i => insert i notified
  | .get i _ => notified.erase i
  | _ => notified

/-- While the pool is not being destroyed, no wake-up is lost. -/
def Awake (s : Sys) (notified : Finset ℕ) : Prop :=
  ∀ pool, s.pool = some pool → pool.abortRequest = false →
    NoneLost s.clients notified pool.freeList.length

/-- What a client leaves behind that had its turn. -/
def Left (s : Sys) (pool : CDBPool) (i : ℕ) (s' : Sys) : Prop :=
  ∃ pool', s'.pool = some pool' ∧ pool'.abortRequest = pool.abortRequest ∧
    (pool.abortRequest = false →
      Turn s.clients s'.clients i pool.freeList.length pool'.freeList.length)

theorem getNull_left (hpool : s.pool = some pool)
    (hempty : pool.abortRequest = false → pool.freeList = [])
    (hrun : getNull s i = some (s', evs)) : Left s pool i s' := by
  obtain ⟨rfl, -⟩ := Prod.mk.inj (Option.some.inj hrun)
  refine ⟨pool, hpool, rfl, fun habort => ⟨Or.inr ?_, .out, rfl, fun call h => by cases h⟩⟩
  simp [hempty habort]

theorem takeFront_left (hrun : takeFront s pool i = some (s', evs)) : Left s pool i s' := by
  unfold takeFront at hrun
  cases hfree : pool.freeList with
  | nil => simp [hfree] at hrun
  | cons conn freeList =>
    simp only [hfree] at hrun
    obtain ⟨rfl, -⟩ := Prod.mk.inj (Option.some.inj hrun)
    refine ⟨_, rfl, rfl, fun _ => ⟨Or.inl ?_, .out, rfl, fun call h => by cases h⟩⟩
    simp [hfree]

theorem waitLoop_left (hpool : s.pool = some pool)
    (hrun : waitLoop s pool i call = some (s', evs)) : Left s pool i s' := by
  unfold waitLoop at hrun
  split_ifs at hrun with hgo
  · unfold afterWait at hrun
    split_ifs at hrun with hempty habort
    · exact getNull_left hpool (fun _ => hempty.2) hrun
    · exact getNull_left hpool (by simp [habort]) hrun
    · exact takeFront_left hrun
  · -- the client waits, since the list is empty
    obtain ⟨rfl, -⟩ := Prod.mk.inj (Option.some.inj hrun)
    have hempty : pool.freeList = [] := not_not.mp (not_or.mp hgo).1
    have hzero : pool.freeList.length = 0 := by simp [hempty]
    exact ⟨pool, hpool, rfl, fun _ => ⟨Or.inr hzero, .asleep call, rfl, fun _ _ => hzero⟩⟩

/-- The connection that is made is taken at once. -/
theorem grow_left (hpool : s.pool = some pool) (hempty : pool.freeList = [])
    (hrun : grow s pool i t = some (s', evs)) : Left s pool i s' := by
  unfold grow at hrun
  split_ifs at hrun with hlive hret
  · exact getNull_left hpool (fun _ => hempty) hrun
  · obtain ⟨pool', hpool', hsame, hturn⟩ := takeFront_left hrun
    refine ⟨pool', hpool', hsame, fun habort => ⟨Or.inr ?_, (hturn habort).client⟩⟩
    have htakes := (hturn habort).takes
    simp only [hempty, List.nil_append, List.length_singleton] at htakes
    omega

theorem getDBConn_left (hpool : s.pool = some pool)
    (hrun : getDBConn s i call t = some (s', evs)) : Left s pool i s' := by
  unfold getDBConn at hrun
  simp only [hpool, Option.bind_eq_bind, Option.bind_some] at hrun
  split_ifs at hrun with habort hempty hfull
  · exact getNull_left hpool (by simp [habort]) hrun
  · exact waitLoop_left hpool hrun
  · exact grow_left hpool hempty hrun
  · exact takeFront_left hrun

theorem Left.awake (hleft : Left s pool i s') (hpool : s.pool = some pool)
    (h : Awake s notified) : Awake s' (notified.erase i) := by
  obtain ⟨pool', hpool', hsame, hturn⟩ := hleft
  intro pool'' hpool'' habort
  obtain rfl := Option.some.inj (hpool'.symm.trans hpool'')
  rw [hsame] at habort
  exact (hturn habort).noneLost (h pool hpool habort)

/-- One connection more at most, and a client is woken. -/
theorem relDBConn_awake {conn : ConnPtr} (h : Awake s notified)
    (hrun : relDBConn s i conn k = some (s', evs)) :
    Awake s' (noteWoken s.clients s'.clients k notified) := by
  unfold relDBConn at hrun
  obtain ⟨pool, hpool, hrun⟩ := Option.bind_eq_some_iff.mp hrun
  split_ifs at hrun with hlisted
  · obtain ⟨rfl, -⟩ := Prod.mk.inj (Option.some.inj hrun)
    have hsame : noteWoken s.clients s.clients k notified = notified :=
      if_neg fun hboth => hboth.2 hboth.1
    rw [hsame]
    exact h
  · obtain ⟨clients, hone, heq⟩ := Option.bind_eq_some_iff.mp hrun
    obtain ⟨rfl, -⟩ := Prod.mk.inj (Option.some.inj heq)
    intro pool' hpool' habort
    obtain rfl := Option.some.inj hpool'
    exact (h pool hpool habort).release hone (by simp)

/-- Every step keeps the invariant. -/
theorem awake_step (h : Awake s notified) (hstep : step s act = some (s', evs)) :
    Awake s' (note s act s' notified) := by
  cases act with
  | call i timeoutMs =>
    dsimp only [step] at hstep
    split at hstep
    · rename_i hout
      obtain ⟨rfl, -⟩ := Prod.mk.inj (Option.some.inj hstep)
      exact fun pool hpool habort => (h pool hpool habort).enter hout _
    · cases hstep
  | get i t =>
    dsimp only [step] at hstep
    split at hstep
    · have hsome := hstep
      unfold getDBConn at hsome
      obtain ⟨pool, hpool, -⟩ := Option.bind_eq_some_iff.mp hsome
      exact (getDBConn_left hpool hstep).awake hpool h
    · obtain ⟨pool, hpool, hrun⟩ := Option.bind_eq_some_iff.mp hstep
      exact (waitLoop_left hpool hrun).awake hpool h
    · cases hstep
  | timeout i =>
    -- the client runs now, whether or not it was notified before
    dsimp only [step] at hstep
    split at hstep
    · rename_i call hcall
      split_ifs at hstep
      obtain ⟨rfl, -⟩ := Prod.mk.inj (Option.some.inj hstep)
      exact fun pool hpool habort => (h pool hpool habort).wake (Or.inl hcall) _
        (Finset.subset_insert i _) fun k hk => Finset.mem_insert.mp hk
    · rename_i call hcall
      split_ifs at hstep
      obtain ⟨rfl, -⟩ := Prod.mk.inj (Option.some.inj hstep)
      exact fun pool hpool habort => (h pool hpool habort).wake (Or.inr hcall) _
        (Finset.subset_insert i _) fun k hk => Finset.mem_insert.mp hk
    · cases hstep
  | spurious i =>
    dsimp only [step] at hstep
    split at hstep
    · rename_i call hcall
      obtain ⟨rfl, -⟩ := Prod.mk.inj (Option.some.inj hstep)
      exact fun pool hpool habort => (h pool hpool habort).wake (Or.inl hcall) _
        subset_rfl fun k hk => Or.inr hk
    · cases hstep
  | rel i conn k =>
    dsimp only [step] at hstep
    split at hstep
    · exact relDBConn_awake h hstep
    · cases hstep
  | destroy =>
    -- the destructor raises the flag
    obtain ⟨pool, -, hrun⟩ := Option.bind_eq_some_iff.mp hstep
    obtain ⟨live, -, heq⟩ := Option.bind_eq_some_iff.mp hrun
    obtain ⟨rfl, -⟩ := Prod.mk.inj (Option.some.inj heq)
    intro pool' hpool' habort
    obtain rfl := Option.some.inj hpool'
    cases habort
  | finish =>
    obtain ⟨pool, -, heq⟩ := Option.map_eq_some_iff.mp hstep
    obtain ⟨rfl, -⟩ := Prod.mk.inj heq
    exact fun pool' hpool' => by cases hpool'

theorem init_awake {clients : ℕ} {maxConnCnt ret : ℤ} {attempts : List Attempt}
    (hinit : init (create clients maxConnCnt) attempts = some (s, ret)) : Awake s ∅ := by
  unfold init at hinit
  simp only [create, Option.bind_eq_bind, Option.bind_some] at hinit
  obtain ⟨⟨pool', live', ret'⟩, -, heq⟩ := Option.bind_eq_some_iff.mp hinit
  obtain ⟨rfl, -⟩ := Prod.mk.inj (Option.some.inj heq)
  exact fun _ _ _ => noneLost_replicate

end DB

/-! ### `CachePool` -/

namespace Cache

variable {s s' : Sys} {pool : CachePool} {t : Attempt} {act : Act}

/-- A client is recorded when it is notified, until it takes the mutex. -/
def note (s : Sys) (act : Act) (s' : Sys) (notified : Finset ℕ) : Finset ℕ :=
  match act with
  | .rel _ _ k => noteWoken s.clients s'.clients k notified
  | .get i _ => notified.erase i
  | _ => notified

/-- No wake-up is lost. -/
def Awake (s : Sys) (notified : Finset ℕ) : Prop :=
  NoneLost s.clients notified s.pool.freeList.length

theorem takeFront_turn (hrun : takeFront s pool i = some (s', evs)) :
    Turn s.clients s'.clients i pool.freeList.length s'.pool.freeList.length := by
  unfold takeFront at hrun
  cases hfree : pool.freeList with
  | nil => simp [hfree] at hrun
  | cons conn freeList =>
    simp only [hfree] at hrun
    obtain ⟨rfl, -⟩ := Prod.mk.inj (Option.some.inj hrun)
    exact ⟨Or.inl (by simp [setClient]), .out, rfl, fun call h => by cases h⟩

/-- A client in the loop of `GetCacheConn` takes a connection, makes one, fails or waits. -/
theorem getCacheConn_turn (hrun : getCacheConn s i t = some (s', evs)) :
    Turn s.clients s'.clients i s.pool.freeList.length s'.pool.freeList.length := by
  unfold getCacheConn grow at hrun
  split_ifs at hrun with hempty hfull hlive hret
  · obtain ⟨rfl, -⟩ := Prod.mk.inj (Option.some.inj hrun)
    have hzero : s.pool.freeList.length = 0 := by simp [hempty]
    exact ⟨Or.inr hzero, .asleep (), rfl, fun _ _ => hzero⟩
  · obtain ⟨rfl, -⟩ := Prod.mk.inj (Option.some.inj hrun)
    have hzero : s.pool.freeList.length = 0 := by simp [hempty]
    exact ⟨Or.inr hzero, .out, rfl, fun _ _ => hzero⟩
  · -- the connection that is made is taken at once
    have hturn := takeFront_turn hrun
    have htakes := hturn.takes
    simp only [hempty, List.nil_append, List.length_singleton] at htakes
    exact ⟨Or.inr (by omega), hturn.client⟩
  · exact takeFront_turn hrun

/-- One connection more at most, and a client is woken. -/
theorem relCacheConn_awake {conn : ConnPtr} (h : Awake s notified)
    (hrun : relCacheConn s i conn k = some (s', evs)) :
    Awake s' (noteWoken s.clients s'.clients k notified) := by
  obtain ⟨clients, hone, heq⟩ := Option.bind_eq_some_iff.mp hrun
  obtain ⟨rfl, -⟩ := Prod.mk.inj (Option.some.inj heq)
  apply NoneLost.release h hone
  dsimp only
  split_ifs <;> simp

/-- Every step keeps the invariant. -/
theorem awake_step (h : Awake s notified) (hstep : step s act = some (s', evs)) :
    Awake s' (note s act s' notified) := by
  cases act with
  | call i =>
    dsimp only [step] at hstep
    split at hstep
    · rename_i hout
      obtain ⟨rfl, -⟩ := Prod.mk.inj (Option.some.inj hstep)
      exact h.enter hout ()
    · cases hstep
  | get i t =>
    dsimp only [step] at hstep
    split at hstep
    · exact (getCacheConn_turn hstep).noneLost h
    · exact (getCacheConn_turn hstep).noneLost h
    · cases hstep
  | spurious i =>
    dsimp only [step] at hstep
    split at hstep
    · rename_i call hcall
      obtain ⟨rfl, -⟩ := Prod.mk.inj (Option.some.inj hstep)
      exact h.wake (Or.inl hcall) call subset_rfl fun k hk => Or.inr hk
    · cases hstep
  | rel i conn k =>
    dsimp only [step] at hstep
    split at hstep
    · exact relCacheConn_awake h hstep
    · cases hstep

theorem init_awake {clients : ℕ} {maxConnCnt ret : ℤ} {attempts : List Attempt}
    (hinit : init (create clients maxConnCnt) attempts = some (s, ret)) : Awake s ∅ := by
  obtain ⟨⟨pool', live', ret'⟩, -, heq⟩ := Option.bind_eq_some_iff.mp hinit
  obtain ⟨rfl, -⟩ := Prod.mk.inj (Option.some.inj heq)
  exact noneLost_replicate

end Cache

/-! ### Both pools -/

/-- **No wake-up is lost.** In every run of any number of clients, while one sleeps, there are
not more free connections than clients that were notified, or whose time is over, and that have
not taken the mutex again; so that one is about to run if a connection is free. The run of
`CDBPool` goes on at most until it is destroyed. -/
theorem no_wakeup_lost (clients : ℕ) (maxConnCnt ret : ℤ) (attempts : List Attempt) :
    (∀ (s₀ s : DB.Sys) (tr : List Event) (acts : List DB.Act) (pool : DB.CDBPool),
      DB.init (DB.create clients maxConnCnt) attempts = some (s₀, ret) →
      exec (traced DB.step) (s₀, []) acts = some (s, tr) →
      s.pool = some pool → pool.abortRequest = false →
      ∃ notified, exec (recorded DB.step DB.note) (s₀, ∅) acts = some (s, notified) ∧
        ∀ (i : ℕ) (call : DB.Call), s.clients[i]? = some (.asleep call) →
          pool.freeList.length ≤ notified.card ∧
            (∀ k ∈ notified, ∃ call, s.clients[k]? = some (.woken call)) ∧
            (pool.freeList ≠ [] → ∃ k ∈ notified, ∃ call, s.clients[k]? = some (.woken call))) ∧
    (∀ (s₀ s : Cache.Sys) (tr : List Event) (acts : List Cache.Act),
      Cache.init (Cache.create clients maxConnCnt) attempts = some (s₀, ret) →
      exec (traced Cache.step) (s₀, []) acts = some (s, tr) →
      ∃ notified, exec (recorded Cache.step Cache.note) (s₀, ∅) acts = some (s, notified) ∧
        ∀ (i : ℕ) (call : Unit), s.clients[i]? = some (.asleep call) →
          s.pool.freeList.length ≤ notified.card ∧
            (∀ k ∈ notified, ∃ call, s.clients[k]? = some (.woken call)) ∧
            (s.pool.freeList ≠ [] →
              ∃ k ∈ notified, ∃ call, s.clients[k]? = some (.woken call))) := by
  constructor
  · intro s₀ s tr acts pool hinit hrun hpool habort
    obtain ⟨notified, hrec⟩ := exec_recorded DB.note ∅ hrun
    have h : DB.Awake s notified := by
      refine exec_invariant (I := fun st => DB.Awake st.1 st.2) (fun st a st' hi hone => ?_)
        (DB.init_awake hinit) hrec
      obtain ⟨s', evs, hstep, rfl⟩ := recorded_eq_some.mp hone
      exact DB.awake_step hi hstep
    refine ⟨notified, hrec, fun i call hi => ?_⟩
    have hlost := h pool hpool habort
    refine ⟨hlost.enough i call hi, hlost.woken, fun hne => ?_⟩
    exact hlost.someone hi (List.length_pos_iff.mpr hne)
  · intro s₀ s tr acts hinit hrun
    obtain ⟨notified, hrec⟩ := exec_recorded Cache.note ∅ hrun
    have h : Cache.Awake s notified := by
      refine exec_invariant (I := fun st => Cache.Awake st.1 st.2) (fun st a st' hi hone => ?_)
        (Cache.init_awake hinit) hrec
      obtain ⟨s', evs, hstep, rfl⟩ := recorded_eq_some.mp hone
      exact Cache.awake_step hi hstep
    refine ⟨notified, hrec, fun i call hi => ⟨h.enough i call hi, h.woken, fun hne => ?_⟩⟩
    exact h.someone hi (List.length_pos_iff.mpr hne)

/-- Client `0` has both connections and gives one back, while clients `1` and `2` wait. -/
theorem no_wakeup_lost_three : ∃ s₀ s tr pool call, ∃ notified : Finset ℕ,
    DB.init (DB.create 3 2) [⟨10, 0⟩, ⟨11, 0⟩] = some (s₀, 0) ∧
    exec (traced DB.step) (s₀, []) [.call 0 (-1), .get 0 ⟨12, 0⟩, .call 0 (-1), .get 0 ⟨12, 0⟩,
      .call 1 (-1), .get 1 ⟨12, 0⟩, .call 2 50, .get 2 ⟨12, 0⟩, .rel 0 (some 10) 1] =
        some (s, tr) ∧
    s.pool = some pool ∧ pool.freeList = [some 10] ∧ s.clients[2]? = some (.asleep call) ∧
    pool.freeList.length ≤ notified.card ∧
      ∃ k ∈ notified, ∃ call : DB.Call, s.clients[k]? = some (.woken call) := by
  obtain ⟨s₀, s, tr, pool, call, hinit, hrun, hpool, hfree, habort, hcall⟩ : ∃ s₀ s tr pool call,
      DB.init (DB.create 3 2) [⟨10, 0⟩, ⟨11, 0⟩] = some (s₀, 0) ∧
      exec (traced DB.step) (s₀, []) [.call 0 (-1), .get 0 ⟨12, 0⟩, .call 0 (-1), .get 0 ⟨12, 0⟩,
        .call 1 (-1), .get 1 ⟨12, 0⟩, .call 2 50, .get 2 ⟨12, 0⟩, .rel 0 (some 10) 1] =
          some (s, tr) ∧
      s.pool = some pool ∧ pool.freeList = [some 10] ∧ pool.abortRequest = false ∧
      s.clients[2]? = some (.asleep call) :=
    ⟨_, _, _, _, _, rfl, rfl, rfl, rfl, rfl, rfl⟩
  obtain ⟨notified, -, hall⟩ :=
    (no_wakeup_lost 3 2 0 [⟨10, 0⟩, ⟨11, 0⟩]).1 s₀ s tr _ pool hinit hrun hpool habort
  obtain ⟨henough, -, hsome⟩ := hall 2 call hcall
  exact ⟨s₀, s, tr, pool, call, notified, hinit, hrun, hpool, hfree, hcall, henough,
    hsome (by simp [hfree])⟩

end MmorpgServer.ConnPool
