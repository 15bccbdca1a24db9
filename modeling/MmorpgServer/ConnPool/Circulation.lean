import MmorpgServer.ConnPool.Sharing
import Mathlib.Data.List.Count

/-!
# What circulates in the pool of `DBPool.cpp`

`RelDBConn` looks for the pointer that it is given in the free list, to keep a connection from
being released twice, and appends it if it is not there. It does not look whether the pointer is
`NULL`, nor whether the connection is used by another client. `GetDBConn` hands out whatever stands
first in the free list.

## Main definitions

* `Does` — what a step of the pool does to its lists, its connections and its clients' record
* `Circulating` — the free list and the record of the clients are loans
* `Safe` — a connection is released by its holder, or stands in the free list
* `Pattern` — clients release what `GetDBConn` returned, `NULL` included, once
* `Real`, `Explained` — no `NULL` in the lists, and a reason for every `NULL` that is returned

## Main results

* `circulating_step` — safe steps keep the account, also while the pool is being destroyed
* `real_iff_no_null_released` — only connections circulate iff no client releases `NULL`
* `null_circulates` — a client whose wait timed out hands its `NULL` to the next client
-/

namespace MmorpgServer.ConnPool.DB

open Machine CondVar Loan

variable {s s' : Sys} {tr evs : List Event} {pool : CDBPool} {call : Call} {t : Attempt}
  {act : Act} {conn : ConnPtr} {i k a : ℕ}

/-! ### What a step does -/

@[simp] theorem setClient_held {w : Waiter Call} : (setClient s i w).held = s.held := rfl

/-- The reasons for which `GetDBConn` may return `NULL`: the pool is aborted, the time of the wait
is over and the free list empty, or the connection could not be made. -/
def Cause (s : Sys) (pool : CDBPool) (i : ℕ) (t : Attempt) : Prop :=
  pool.abortRequest = true ∨
  (pool.freeList = [] ∧ ∃ call : Call, call.expired = true ∧
    (s.clients[i]? = some (.entering call) ∨ s.clients[i]? = some (.woken call))) ∨
  (pool.freeList = [] ∧ pool.dbCurConnCnt < pool.dbMaxConnCnt ∧ t.ret ≠ 0)

/-- What a step does. -/
inductive Does (s : Sys) : Act → Sys → List Event → Prop where
  | call {i : ℕ} (timeoutMs : ℤ) (call : Call) (hclient : s.clients[i]? = some .out) :
      Does s (.call i timeoutMs) (setClient s i (.entering call)) []
  | sleep {pool : CDBPool} (i : ℕ) (t : Attempt) (call : Call) (hpool : s.pool = some pool)
      (hopen : pool.abortRequest = false) : Does s (.get i t) (setClient s i (.asleep call)) []
  | wake {act : Act} {i : ℕ} (call : Call) (hact : act = .timeout i ∨ act = .spurious i) :
      Does s act (setClient s i (.woken call)) []
  | null {pool : CDBPool} {i : ℕ} {t : Attempt} (hpool : s.pool = some pool)
      (hcause : Cause s pool i t) : Does s (.get i t) (setClient s i .out) [.got i none]
  | take {pool : CDBPool} {conn : ConnPtr} {freeList : List ConnPtr} (i : ℕ) (t : Attempt)
      (hpool : s.pool = some pool) (hopen : pool.abortRequest = false)
      (hfree : pool.freeList = conn :: freeList) :
      Does s (.get i t)
        (setClient
          { s with
            pool := some { pool with freeList := freeList, usedList := pool.usedList ++ [conn] },
            held := hold s.held i conn } i .out)
        [.got i conn]
  | grow {pool : CDBPool} {t : Attempt} (i : ℕ) (hpool : s.pool = some pool)
      (hopen : pool.abortRequest = false) (hfree : pool.freeList = []) (hnew : t.conn ∉ s.live) :
      Does s (.get i t)
        (setClient
          { s with
            pool := some
              { pool with
                freeList := [], usedList := pool.usedList ++ [some t.conn],
                dbCurConnCnt := pool.dbCurConnCnt + 1 },
            live := t.conn :: s.live, held := hold s.held i (some t.conn) } i .out)
        [.got i (some t.conn)]
  | again {pool : CDBPool} {conn : ConnPtr} (i k : ℕ) (hpool : s.pool = some pool)
      (hlisted : conn ∈ pool.freeList) :
      Does s (.rel i conn k) { s with held := unhold s.held i conn } [.rel i conn]
  | release {pool : CDBPool} {conn : ConnPtr} {clients : List (Waiter Call)} {k : ℕ} (i : ℕ)
      (hpool : s.pool = some pool) (hlisted : conn ∉ pool.freeList)
      (hnotify : notifyOne s.clients k = some clients) :
      Does s (.rel i conn k)
        { s with
          pool := some
            { pool with
              usedList := pool.usedList.filter (· ≠ conn), freeList := pool.freeList ++ [conn] },
          clients := clients, held := unhold s.held i conn }
        [.rel i conn]
  | destroy {pool : CDBPool} {live : List ℕ} (hpool : s.pool = some pool)
      (hdelete : deleteAll pool.freeList s.live = some live) :
      Does s .destroy
        { s with
          pool := some { pool with abortRequest := true, freeList := [] }, live := live,
          clients := notifyAll s.clients }
        []
  | finish {pool : CDBPool} (hpool : s.pool = some pool) : Does s .finish { s with pool := none } []

theorem getNull_does (hpool : s.pool = some pool) (hcause : Cause s pool i t)
    (h : getNull s i = some (s', evs)) : Does s (.get i t) s' evs := by
  obtain ⟨rfl, rfl⟩ := Prod.mk.inj (Option.some.inj h)
  exact .null hpool hcause

theorem takeFront_does (hpool : s.pool = some pool) (hopen : pool.abortRequest = false)
    (h : takeFront s pool i = some (s', evs)) : Does s (.get i t) s' evs := by
  unfold takeFront at h
  split at h
  · cases h
  · rename_i conn freeList hfree
    obtain ⟨rfl, rfl⟩ := Prod.mk.inj (Option.some.inj h)
    exact .take i t hpool hopen hfree

theorem waitLoop_does (hpool : s.pool = some pool)
    (hclient : s.clients[i]? = some (.entering call) ∨ s.clients[i]? = some (.woken call))
    (h : waitLoop s pool i call = some (s', evs)) : Does s (.get i t) s' evs := by
  unfold waitLoop afterWait at h
  split_ifs at h with hgo hempty habort
  · refine getNull_does hpool ?_ h
    -- with an empty list, the loop is left for one of the other two reasons
    rcases hgo with hne | habort | hexpired
    · exact absurd hempty.2 hne
    · exact Or.inl habort
    · exact Or.inr (Or.inl ⟨hempty.2, call, hexpired, hclient⟩)
  · exact getNull_does hpool (Or.inl habort) h
  · exact takeFront_does hpool (Bool.eq_false_of_not_eq_true habort) h
  · obtain ⟨rfl, rfl⟩ := Prod.mk.inj (Option.some.inj h)
    push Not at hgo
    exact .sleep i t call hpool (Bool.eq_false_of_not_eq_true hgo.2.1)

theorem getDBConn_does (hclient : s.clients[i]? = some (.entering call))
    (h : getDBConn s i call t = some (s', evs)) : Does s (.get i t) s' evs := by
  obtain ⟨pool, hpool, h⟩ := Option.bind_eq_some_iff.mp h
  split_ifs at h with habort hfree hcur
  · exact getNull_does hpool (Or.inl habort) h
  · -- all connections that are allowed have been opened
    exact waitLoop_does hpool (Or.inl hclient) h
  · unfold grow at h
    split_ifs at h with hlive hret
    · exact getNull_does hpool (Or.inr (Or.inr ⟨hfree, not_le.mp hcur, hret⟩)) h
    · -- the new connection is the only one in the list, and is taken at once
      rw [hfree] at h
      obtain ⟨rfl, rfl⟩ := Prod.mk.inj (Option.some.inj h)
      exact .grow i hpool (Bool.eq_false_of_not_eq_true habort) hfree hlive
  · exact takeFront_does hpool (Bool.eq_false_of_not_eq_true habort) h

theorem relDBConn_does (h : relDBConn s i conn k = some (s', evs)) :
    Does s (.rel i conn k) s' evs := by
  obtain ⟨pool, hpool, h⟩ := Option.bind_eq_some_iff.mp h
  split_ifs at h with hlisted
  · obtain ⟨rfl, rfl⟩ := Prod.mk.inj (Option.some.inj h)
    exact .again i k hpool (listed_iff.mp hlisted)
  · obtain ⟨clients, hnotify, h⟩ := Option.bind_eq_some_iff.mp h
    obtain ⟨rfl, rfl⟩ := Prod.mk.inj (Option.some.inj h)
    exact .release i hpool (fun hmem => hlisted (listed_iff.mpr hmem)) hnotify

theorem step_does (h : step s act = some (s', evs)) : Does s act s' evs := by
  cases act with
  | call i timeoutMs =>
    dsimp only [step] at h
    split at h
    · rename_i hclient
      obtain ⟨rfl, rfl⟩ := Prod.mk.inj (Option.some.inj h)
      exact .call timeoutMs _ hclient
    · cases h
  | get i t =>
    dsimp only [step] at h
    split at h
    · rename_i hclient
      exact getDBConn_does hclient h
    · rename_i hclient
      obtain ⟨pool, hpool, h⟩ := Option.bind_eq_some_iff.mp h
      exact waitLoop_does hpool (Or.inr hclient) h
    · cases h
  | timeout i =>
    dsimp only [step] at h
    split at h
    · split_ifs at h
      obtain ⟨rfl, rfl⟩ := Prod.mk.inj (Option.some.inj h)
      exact .wake _ (Or.inl rfl)
    · split_ifs at h
      obtain ⟨rfl, rfl⟩ := Prod.mk.inj (Option.some.inj h)
      exact .wake _ (Or.inl rfl)
    · cases h
  | spurious i =>
    dsimp only [step] at h
    split at h
    · obtain ⟨rfl, rfl⟩ := Prod.mk.inj (Option.some.inj h)
      exact .wake _ (Or.inr rfl)
    · cases h
  | rel i conn k =>
    dsimp only [step] at h
    split at h
    · exact relDBConn_does h
    · cases h
  | destroy =>
    obtain ⟨pool, hpool, h⟩ := Option.bind_eq_some_iff.mp h
    obtain ⟨live, hdelete, h⟩ := Option.bind_eq_some_iff.mp h
    obtain ⟨rfl, rfl⟩ := Prod.mk.inj (Option.some.inj h)
    exact .destroy hpool hdelete
  | finish =>
    obtain ⟨pool, hpool, h⟩ := Option.map_eq_some_iff.mp h
    obtain ⟨rfl, rfl⟩ := Prod.mk.inj h
    exact .finish hpool

/-! ### The account -/

/-- As long as the pool exists, its connections are free or held, and the used list has those that
are held. How many there are is left open, since the destructor does not count. -/
def Circulating (s : Sys) : Prop :=
  ∀ pool, s.pool = some pool →
    (∃ free cur, Accounted pool.freeList s.held cur s.live free) ∧
      pool.usedList.Perm (s.held.map fun h => some h.2)

/-- Whoever releases a connection holds it, or it is free already. -/
def Safe (s : Sys) : Act → Prop
  | .rel i conn _ => ∃ a, conn = some a ∧
      ((i, a) ∈ s.held ∨ ∀ pool, s.pool = some pool → some a ∈ pool.freeList)
  | _ => True

/-- The connections that are not deleted exist afterwards. -/
theorem deleteAll_live {free live live' : List ℕ}
    (h : deleteAll (free.map some) live = some live') (ha : a ∉ free) (hlive : a ∈ live) :
    a ∈ live' := by
  induction free generalizing live with
  | nil =>
    obtain rfl := Option.some.inj h
    exact hlive
  | cons b free ih =>
    rw [List.mem_cons, not_or] at ha
    rw [List.map_cons, deleteAll] at h
    split_ifs at h
    exact ih h ha.2 ((List.mem_erase_of_ne ha.1).mpr hlive)

/-- A safe step keeps the account. -/
theorem circulating_step (h : Circulating s) (hsafe : Safe s act) (hdoes : Does s act s' evs) :
    Circulating s' := by
  cases hdoes with
  | call | sleep | wake | null => exact h
  | @take pool conn freeList i t hpool hopen hfree =>
    obtain ⟨⟨free, cur, hacc⟩, hused⟩ := h pool hpool
    rw [hfree] at hacc
    obtain ⟨a, free', rfl, hacc'⟩ := hacc.take i
    intro pool' hpool'
    obtain rfl := Option.some.inj hpool'
    exact ⟨⟨free', cur, hacc'⟩, (List.perm_append_singleton _ _).trans (hused.cons (some a))⟩
  | @grow pool t i hpool hopen hfree hnew =>
    obtain ⟨⟨free, cur, hacc⟩, hused⟩ := h pool hpool
    have hgrown := hacc.grow hnew
    rw [hfree] at hgrown
    obtain ⟨a, free', ha, hacc'⟩ := hgrown.take i
    obtain rfl := Option.some.inj ha
    intro pool' hpool'
    obtain rfl := Option.some.inj hpool'
    exact ⟨⟨free', _, hacc'⟩, (List.perm_append_singleton _ _).trans (hused.cons (some _))⟩
  | @again pool conn i k hpool hlisted =>
    obtain ⟨⟨free, cur, hacc⟩, hused⟩ := h pool hpool
    obtain ⟨a, rfl, -⟩ := hsafe
    -- what is free is not held, so that the record does not change either
    have hheld : unhold s.held i (some a) = s.held :=
      List.erase_of_not_mem fun hmem => (hacc.release hmem).1 hlisted
    rw [hheld]
    exact h
  | @release pool conn clients k i hpool hlisted =>
    obtain ⟨⟨free, cur, hacc⟩, hused⟩ := h pool hpool
    obtain ⟨a, rfl, hheld | hfree⟩ := hsafe
    · -- it is moved from the used list to the end of the free one
      intro pool' hpool'
      obtain rfl := Option.some.inj hpool'
      exact ⟨⟨_, cur, (hacc.release hheld).2⟩, filter_used hacc.lent hused hheld⟩
    · exact absurd (hfree pool hpool) hlisted
  | @destroy pool live hpool hdelete =>
    obtain ⟨⟨free, cur, hacc⟩, hused⟩ := h pool hpool
    rw [hacc.free_eq] at hdelete
    intro pool' hpool'
    obtain rfl := Option.some.inj hpool'
    refine ⟨⟨[], s.held.length, rfl, hacc.lent.held_nodup, by simp, fun b hb => ?_⟩, hused⟩
    -- the destructor deletes what is free, and nothing that is held
    obtain ⟨⟨j, c⟩, hj, rfl⟩ := List.mem_map.mp hb
    exact deleteAll_live hdelete (hacc.lent.not_free hj) (hacc.live _ (List.mem_append_right _ hb))
  | finish =>
    intro pool' hpool'
    cases hpool'

/-- What `Init` has made, whether it succeeded or not, is free. -/
theorem init_circulating {clients : ℕ} {maxConnCnt ret : ℤ} {attempts : List Attempt}
    (hinit : init (create clients maxConnCnt) attempts = some (s, ret)) :
    Circulating s ∧ s.held = [] := by
  unfold init at hinit
  simp only [create, Option.bind_eq_bind, Option.bind_some] at hinit
  obtain ⟨⟨pool, live, ret'⟩, hloop, heq⟩ := Option.bind_eq_some_iff.mp hinit
  obtain ⟨rfl, rfl⟩ := Prod.mk.inj (Option.some.inj heq)
  have hempty : Accounted ([] : List ConnPtr) [] 0 [] [] :=
    ⟨rfl, List.nodup_nil, rfl, fun b hb => absurd hb List.not_mem_nil⟩
  obtain ⟨made, hmakes, rfl, rfl, -⟩ := initLoop_makes hloop
  obtain ⟨free', hfree'⟩ := hempty.makes hmakes
  refine ⟨fun pool' hpool' => ?_, rfl⟩
  obtain rfl := Option.some.inj hpool'
  exact ⟨⟨free', _, hfree'⟩, List.Perm.refl _⟩

/-! ### Clients that pass on what they got -/

/-- A client releases a pointer as often as `GetDBConn` returned it to the client, at most. -/
def Pattern (st : Sys × List Event) : Act → Prop
  | .rel i conn _ => st.2.count (.rel i conn) < st.2.count (.got i conn)
  | _ => True

instance (st : Sys × List Event) : DecidablePred (Pattern st) := fun act => by
  cases act <;> unfold Pattern <;> infer_instance

/-- A client holds a connection as often as it got it and has not released it. -/
def Balanced (st : Sys × List Event) : Prop :=
  ∀ i a, st.1.held.count (i, a) + st.2.count (.rel i (some a)) = st.2.count (.got i (some a))

theorem count_hold (held : Held) (i : ℕ) (conn : ConnPtr) (j b : ℕ) :
    (hold held i conn).count (j, b) =
      held.count (j, b) + [Event.got i conn].count (.got j (some b)) := by
  cases conn with
  | none => simp [hold]
  | some a => simp [hold, List.count_cons]

theorem count_unhold {held : Held} {i : ℕ} {conn : ConnPtr}
    (h : ∀ a, conn = some a → (i, a) ∈ held) (j b : ℕ) :
    (unhold held i conn).count (j, b) + [Event.rel i conn].count (.rel j (some b)) =
      held.count (j, b) := by
  cases conn with
  | none => simp [unhold]
  | some a =>
    have hpos := List.count_pos_iff.mpr (h a rfl)
    by_cases hab : (i, a) = (j, b)
    · -- one holding less, and one release more
      obtain ⟨rfl, rfl⟩ := Prod.mk.inj hab
      rw [unhold, List.count_erase_self, List.count_singleton_self]
      omega
    · have hne : Event.rel i (some a) ≠ .rel j (some b) := by simpa using hab
      rw [unhold, List.count_erase_of_ne (Ne.symm hab), List.count_singleton, if_neg]
      · rfl
      · simpa using hne

/-- Who follows the pattern releases `NULL`, or what it holds. -/
theorem Balanced.holds (h : Balanced (s, tr)) (hpattern : Pattern (s, tr) (.rel i (some a) k)) :
    (i, a) ∈ s.held := by
  have hbal := h i a
  have hlt : tr.count (.rel i (some a)) < tr.count (.got i (some a)) := hpattern
  exact List.count_pos_iff.mp (by dsimp only at hbal; omega)

theorem balanced_step (h : Balanced (s, tr)) (hdoes : Does s act s' evs)
    (hheld : ∀ i a k, act = .rel i (some a) k → (i, a) ∈ s.held) :
    Balanced (s', tr ++ evs) := by
  intro j b
  have hbal := h j b
  -- each event counts on one side only
  have hgot : ∀ conn i, [Event.got i conn].count (.rel j (some b)) = 0 := by simp
  have hrel : ∀ conn i, [Event.rel i conn].count (.got j (some b)) = 0 := by simp
  simp only [List.count_append] at hbal ⊢
  cases hdoes with
  | call | sleep | wake | null | destroy | finish => simpa using hbal
  | @take pool conn freeList i t =>
    have hcount := count_hold s.held i conn j b
    simp only [hgot, setClient_held]
    omega
  | @grow pool t i =>
    have hcount := count_hold s.held i (some t.conn) j b
    simp only [hgot, setClient_held]
    omega
  | @again pool conn i k =>
    have hheld' : ∀ a, conn = some a → (i, a) ∈ s.held := fun a ha => hheld i a k (by rw [ha])
    have hcount := count_unhold hheld' j b
    rw [hrel]
    dsimp only
    omega
  | @release pool conn clients k i =>
    have hheld' : ∀ a, conn = some a → (i, a) ∈ s.held := fun a ha => hheld i a k (by rw [ha])
    have hcount := count_unhold hheld' j b
    rw [hrel]
    dsimp only
    omega

/-! ### What `NULL` does in the lists -/

/-- The lists have only connections that the pool has made and not deleted. -/
def Real (s : Sys) : Prop :=
  ∀ pool, s.pool = some pool → ∀ conn ∈ pool.freeList ++ pool.usedList, ∃ a ∈ s.live, conn = some a

/-- If `GetDBConn` returns `NULL`, there is a cause for it. -/
def Explained (s : Sys) : Act → Prop
  | .get i t => ∀ pool s' evs, s.pool = some pool → step s (.get i t) = some (s', evs) →
      .got i none ∈ evs → Cause s pool i t
  | _ => True

/-- Nobody releases `NULL`. -/
def ReleasesConn : Act → Prop
  | .rel _ conn _ => conn ≠ none
  | _ => True

instance : DecidablePred ReleasesConn := fun act => by
  cases act <;> unfold ReleasesConn <;> infer_instance

theorem Circulating.real (h : Circulating s) : Real s := by
  intro pool hpool conn hconn
  obtain ⟨⟨free, cur, hacc⟩, hused⟩ := h pool hpool
  rcases List.mem_append.mp hconn with hfree | hmem
  · rw [hacc.free_eq] at hfree
    obtain ⟨a, ha, rfl⟩ := List.mem_map.mp hfree
    exact ⟨a, hacc.live a (List.mem_append_left _ ha), rfl⟩
  · obtain ⟨h, hh, rfl⟩ := List.mem_map.mp (hused.mem_iff.mp hmem)
    exact ⟨h.2, hacc.live _ (List.mem_append_right _ (List.mem_map_of_mem hh)), rfl⟩

/-- Without `NULL` in the free list, `GetDBConn` returns it for a cause only. -/
theorem Real.explained (h : Real s) (act : Act) : Explained s act := by
  cases act with
  | get i t =>
    intro pool s' evs hpool hstep hnull
    cases step_does hstep with
    | sleep => cases hnull
    | wake call hact => simp at hact
    | null hpool' hcause =>
      obtain rfl := Option.some.inj (hpool.symm.trans hpool')
      exact hcause
    | @take _ conn freeList i t hpool' hopen hfree =>
      -- what is taken was in the free list, and is a connection
      have hmem : conn ∈ pool.freeList := by
        obtain rfl := Option.some.inj (hpool.symm.trans hpool')
        rw [hfree]
        exact List.mem_cons_self
      obtain ⟨a, -, rfl⟩ := h pool hpool conn (List.mem_append_left _ hmem)
      simp at hnull
    | grow => simp at hnull
  | call | timeout | spurious | rel | destroy | finish => trivial

/-- A `NULL` that is released is appended to the free list. -/
theorem not_real_of_null_released (h : Real s)
    (hstep : step s (.rel i none k) = some (s', evs)) : ¬ Real s' := by
  intro hreal
  cases step_does hstep with
  | wake call hact => simp at hact
  | again i k hpool hlisted =>
    obtain ⟨a, -, ha⟩ := h _ hpool none (List.mem_append_left _ hlisted)
    cases ha
  | release i hpool hlisted =>
    obtain ⟨a, -, ha⟩ := hreal _ rfl none (by simp)
    cases ha

/-- **Only connections circulate exactly while nobody releases `NULL`.** In every run of clients
that release what `GetDBConn` returned, once, both lists have only connections that the pool has
made, and `GetDBConn` returns `NULL` for a cause only, iff no `NULL` is released. -/
theorem real_iff_no_null_released (clients : ℕ) (maxConnCnt ret : ℤ) (attempts : List Attempt)
    (s₀ s : Sys) (tr : List Event) (acts : List Act)
    (hinit : init (create clients maxConnCnt) attempts = some (s₀, ret))
    (hpattern : Guarded (traced step) Pattern (s₀, []) acts)
    (hrun : exec (traced step) (s₀, []) acts = some (s, tr)) :
    (Throughout (traced step) (fun st => Real st.1) (s₀, []) acts ∧
        Guarded (traced step) (fun st => Explained st.1) (s₀, []) acts) ↔
      Guarded (traced step) (fun _ => ReleasesConn) (s₀, []) acts := by
  have hreal : Throughout (traced step) (fun st => Real st.1) (s₀, []) acts ↔
      Guarded (traced step) (fun _ => ReleasesConn) (s₀, []) acts := by
    obtain ⟨hcirc, hheld⟩ := init_circulating hinit
    refine throughout_iff_guarded (I := fun st => Circulating st.1 ∧ Balanced st) ?_ ?_
      (hpattern.and_enabled hrun) ⟨hcirc, fun i a => by simp [hheld]⟩ hcirc.real
    · rintro ⟨s, tr⟩ act ⟨hpattern, st', hone⟩ hconn ⟨hcirc, hbal⟩ -
      obtain ⟨s', evs, hstep, rfl⟩ := traced_eq_some.mp hone
      have hheld : ∀ i a k, act = .rel i (some a) k → (i, a) ∈ s.held := by
        rintro i a k rfl
        exact hbal.holds hpattern
      have hsafe : Safe s act := by
        cases act with
        | rel i conn k =>
          obtain ⟨a, rfl⟩ := Option.ne_none_iff_exists'.mp hconn
          exact ⟨a, rfl, Or.inl (hheld i a k rfl)⟩
        | call | get | timeout | spurious | destroy | finish => trivial
      have hcirc' := circulating_step hcirc hsafe (step_does hstep)
      exact ⟨_, hone, ⟨hcirc', balanced_step hbal (step_does hstep) hheld⟩, hcirc'.real⟩
    · rintro ⟨s, tr⟩ act st' - - hreal hone hreal'
      obtain ⟨s', evs, hstep, rfl⟩ := traced_eq_some.mp hone
      cases act with
      | rel i conn k =>
        rintro rfl
        exact not_real_of_null_released hreal hstep hreal'
      | call | get | timeout | spurious | destroy | finish => trivial
  rw [← hreal]
  exact and_iff_left_of_imp fun h => h.guarded fun st act hP => hP.explained act

/-- Two clients have the two connections, and a third gives up after some time. It releases its
`NULL`, which client `3` gets although the pool is not aborted and the free list is not empty. -/
theorem null_circulates : ∃ s₀ s s' tr pool,
    init (create 4 2) [⟨10, 0⟩, ⟨11, 0⟩] = some (s₀, 0) ∧
    Guarded (traced step) Pattern (s₀, []) [.call 0 (-1), .get 0 ⟨12, 0⟩, .call 1 (-1),
      .get 1 ⟨12, 0⟩, .call 2 50, .get 2 ⟨12, 0⟩, .timeout 2, .get 2 ⟨12, 0⟩, .rel 2 none 0,
      .call 3 (-1)] ∧
    exec (traced step) (s₀, []) [.call 0 (-1), .get 0 ⟨12, 0⟩, .call 1 (-1), .get 1 ⟨12, 0⟩,
      .call 2 50, .get 2 ⟨12, 0⟩, .timeout 2, .get 2 ⟨12, 0⟩, .rel 2 none 0,
      .call 3 (-1)] = some (s, tr) ∧
    s.pool = some pool ∧ ¬ Real s ∧
    step s (.get 3 ⟨12, 0⟩) = some (s', [.got 3 none]) ∧ ¬ Cause s pool 3 ⟨12, 0⟩ := by
  refine ⟨_, _, _, _, _, rfl, by decide, rfl, rfl, fun hreal => ?_, rfl, ?_⟩
  · obtain ⟨a, -, ha⟩ := hreal _ rfl none List.mem_cons_self
    cases ha
  · rintro (habort | ⟨hfree, -⟩ | ⟨hfree, -⟩)
    · cases habort
    · cases hfree
    · cases hfree

/-- Here the second client waits without a limit, and gets what the first one releases. -/
theorem real_iff_no_null_released_two : ∃ s₀ s tr,
    init (create 2 1) [⟨10, 0⟩, ⟨11, 7⟩] = some (s₀, 7) ∧
    exec (traced step) (s₀, []) [.call 0 (-1), .get 0 ⟨12, 0⟩, .call 1 (-1), .get 1 ⟨12, 0⟩,
      .rel 0 (some 10) 1, .get 1 ⟨12, 0⟩] = some (s, tr) ∧
    tr = [.got 0 (some 10), .rel 0 (some 10), .got 1 (some 10)] ∧
    Throughout (traced step) (fun st => Real st.1) (s₀, []) [.call 0 (-1), .get 0 ⟨12, 0⟩,
      .call 1 (-1), .get 1 ⟨12, 0⟩, .rel 0 (some 10) 1, .get 1 ⟨12, 0⟩] :=
  ⟨_, _, _, rfl, rfl, rfl, ((real_iff_no_null_released 2 1 7 [⟨10, 0⟩, ⟨11, 7⟩] _ _ _ _ rfl
    (by decide) rfl).mpr (by decide)).1⟩

end MmorpgServer.ConnPool.DB
