import MmorpgServer.ConnPool.Limit
import Mathlib.Data.Finset.Basic
import Mathlib.Data.Fintype.EquivFin

/-!
# A pool whose `Init` has failed

The constructor sets the current count to two, and `Init` makes two connections without counting
them. When one of them cannot be made, `Init` returns and leaves the count as it is, so that the
pool counts connections that it does not have. What is missing is missing for good: once the
clients have all the others, an acquisition waits for a connection that no one holds.

## Main definitions

* `CountsOpen` — the current count is the number of open connections
* `DB.Stalls`, `Cache.Stalls` — an acquisition sleeps with fewer connections than the maximum
* `DB.Short`, `Cache.Short` — a pool that counts more than it has, and how far it is from its limit

## Main results

* `DB.init_failed`, `Cache.init_failed` — what an `Init` leaves that fails
* `DB.Short.get`, `Cache.Short.get` — every acquisition brings a short pool nearer to its limit
* `failed_init_stalls` — after every `Init` that fails the count is wrong, and an acquisition can
  stall
-/

namespace MmorpgServer.ConnPool

open Machine CondVar

/-- The current count is the number of connections that are open. -/
def CountsOpen (b : Books) : Prop := ∀ c ∈ b.counts, c.cur = b.opened

/-- The steps of a pool, without what is seen of them. -/
def silent {σ α : Type} (step : σ → α → Option (σ × List Event)) (s : σ) (a : α) : Option σ :=
  (step s a).map Prod.fst

/-- There is always an address that no connection has. -/
theorem exists_fresh (live : List ℕ) : ∃ a, a ∉ live := by
  obtain ⟨a, ha⟩ := Infinite.exists_notMem_finset live.toFinset
  exact ⟨a, fun hmem => ha (List.mem_toFinset.mpr hmem)⟩

/-! ### `CDBPool` -/

namespace DB

variable {s s' : Sys} {pool : CDBPool} {d : ℕ}

/-- Client `i` finds no free connection, and sleeps although fewer are open than may be. -/
def Stalls (s : Sys) (i : ℕ) : Prop :=
  ∃ pool call, s.pool = some pool ∧ pool.abortRequest = false ∧ pool.freeList = [] ∧
    (s.live.length : ℤ) < pool.dbMaxConnCnt ∧ s.clients[i]? = some (.entering call) ∧
    ∀ t, step s (.get i t) = some (setClient s i (.asleep call), [])

/-- A pool that counts more connections than are open; `d` acquisitions lead to its limit. -/
structure Short (d : ℕ) (s : Sys) : Prop where
  client : s.clients[0]? = some .out
  short : ∃ pool, s.pool = some pool ∧ pool.abortRequest = false ∧
    (s.live.length : ℤ) < pool.dbCurConnCnt ∧ pool.dbCurConnCnt ≤ pool.dbMaxConnCnt ∧
    (d : ℤ) = pool.freeList.length + (pool.dbMaxConnCnt - pool.dbCurConnCnt)

/-- Client `0` calls `GetDBConn`, without a limit. -/
def entered (s : Sys) : Sys := setClient s 0 (.entering ⟨-1, false, nofun⟩)

theorem setClient_self {w w' : Waiter Call} {i : ℕ} (hclient : s.clients[i]? = some w) :
    (setClient s i w').clients[i]? = some w' := by
  obtain ⟨hlt, -⟩ := List.getElem?_eq_some_iff.mp hclient
  exact List.getElem?_set_self hlt

theorem step_call (hclient : s.clients[0]? = some .out) :
    step s (.call 0 (-1)) = some (entered s, []) := by
  dsimp only [step]
  rw [hclient]
  rfl

theorem step_get_entered (hclient : s.clients[0]? = some .out) (t : Attempt) :
    step (entered s) (.get 0 t) = getDBConn (entered s) 0 ⟨-1, false, nofun⟩ t := by
  dsimp only [step]
  rw [entered, setClient_self hclient]

/-- Client `0` gets a free connection, or a new one. -/
theorem Short.get (h : Short (d + 1) s) :
    ∃ acts s', exec (silent step) s acts = some s' ∧ Short d s' := by
  obtain ⟨hclient, pool, hpool, hopen, hlive, hmax, hd⟩ := h
  obtain ⟨a, ha⟩ := exists_fresh s.live
  have hpool' : (entered s).pool = some pool := hpool
  have hclient' : (entered s).clients[0]? = some _ := setClient_self hclient
  have hget : ∃ s' evs, getDBConn (entered s) 0 ⟨-1, false, nofun⟩ ⟨a, 0⟩ = some (s', evs) ∧
      Short d s' := by
    unfold getDBConn
    simp only [hpool', hopen, Option.bind_eq_bind, Option.bind_some]
    rw [if_neg Bool.false_ne_true]
    cases hfree : pool.freeList with
    | nil =>
      rw [hfree] at hd
      have hroom : ¬ pool.dbCurConnCnt ≥ pool.dbMaxConnCnt := by
        simp only [List.length_nil] at hd
        omega
      have hnew : (⟨a, 0⟩ : Attempt).conn ∉ (entered s).live := ha
      have hmade : ¬ (⟨a, 0⟩ : Attempt).ret ≠ 0 := fun hne => hne rfl
      unfold grow takeFront
      rw [if_pos rfl, if_neg hroom, if_neg hnew, if_neg hmade]
      simp only [hfree, List.nil_append]
      refine ⟨_, _, rfl, setClient_self hclient', _, rfl, hopen, ?_, ?_, ?_⟩
      · change ((s.live.length + 1 : ℕ) : ℤ) < pool.dbCurConnCnt + 1
        omega
      · change pool.dbCurConnCnt + 1 ≤ pool.dbMaxConnCnt
        omega
      · change (d : ℤ) = (0 : ℕ) + (pool.dbMaxConnCnt - (pool.dbCurConnCnt + 1))
        simp only [List.length_nil] at hd
        omega
    | cons conn freeList =>
      rw [hfree] at hd
      unfold takeFront
      rw [if_neg (List.cons_ne_nil _ _), hfree]
      refine ⟨_, _, rfl, setClient_self hclient', _, rfl, hopen, hlive, hmax, ?_⟩
      simp only [List.length_cons] at hd ⊢
      push_cast at hd ⊢
      omega
  obtain ⟨s', evs, hget, hshort⟩ := hget
  refine ⟨[.call 0 (-1), .get 0 ⟨a, 0⟩], s', ?_, hshort⟩
  rw [exec_cons, silent, step_call hclient]
  change (silent step (entered s) _).bind _ = _
  rw [silent, step_get_entered hclient, hget]
  rfl

/-- At its limit the pool has less than it counts. -/
theorem Short.stalls (h : Short 0 s) :
    ∃ acts s', exec (silent step) s acts = some s' ∧ Stalls s' 0 := by
  obtain ⟨hclient, pool, hpool, hopen, hlive, hmax, hd⟩ := h
  have hfree : pool.freeList = [] := List.length_eq_zero_iff.mp (by push_cast at hd; omega)
  have hcur : pool.dbCurConnCnt ≥ pool.dbMaxConnCnt := by push_cast at hd; omega
  refine ⟨[.call 0 (-1)], entered s, ?_, pool, _, hpool, hopen, hfree, ?_,
    setClient_self hclient, fun t => ?_⟩
  · rw [exec_cons, silent, step_call hclient]
    rfl
  · exact hlive.trans_le hmax
  · rw [step_get_entered hclient]
    unfold getDBConn waitLoop
    have hpool' : (entered s).pool = some pool := hpool
    simp [hpool', hopen, hfree, hcur]

/-- What `Init` leaves that fails. -/
theorem init_failed {clients : ℕ} {maxConnCnt ret : ℤ} {attempts : List Attempt}
    (hmax : 2 ≤ maxConnCnt) (hret : ret ≠ 0)
    (hinit : init (create clients maxConnCnt) attempts = some (s, ret)) :
    ¬ CountsOpen (books s) ∧ (0 < clients → ∃ d, Short d s) := by
  obtain ⟨⟨pool', live', ret'⟩, hloop, heq⟩ := Option.bind_eq_some_iff.mp hinit
  obtain ⟨rfl, rfl⟩ := Prod.mk.inj (Option.some.inj heq)
  obtain ⟨made, -, rfl, rfl, -, hfewer⟩ := initLoop_makes hloop
  have htwo : made.length < 2 := hfewer hret
  refine ⟨fun hcounts => ?_, fun hclients => ?_⟩
  · have hopened := hcounts ⟨2, maxConnCnt⟩ rfl
    change (2 : ℤ) = ((made.reverse ++ []).length : ℤ) at hopened
    rw [List.append_nil, List.length_reverse] at hopened
    omega
  · refine ⟨made.length + (maxConnCnt - 2).toNat, ?_, _, rfl, rfl, ?_, hmax, ?_⟩
    · change (List.replicate clients Waiter.out)[0]? = _
      rw [List.getElem?_replicate, if_pos hclients]
    · change ((made.reverse ++ []).length : ℤ) < 2
      rw [List.append_nil, List.length_reverse]
      omega
    · change _ = (([] ++ made.map some).length : ℤ) + (maxConnCnt - 2)
      rw [List.nil_append, List.length_map]
      push_cast
      omega

end DB

/-! ### `CachePool` -/

namespace Cache

variable {s s' : Sys} {d : ℕ}

/-- Client `i` finds no free connection, and sleeps although fewer are open than may be. -/
def Stalls (s : Sys) (i : ℕ) : Prop :=
  s.pool.freeList = [] ∧ (s.live.length : ℤ) < s.pool.maxConnCnt ∧
    s.clients[i]? = some (.entering ()) ∧
    ∀ t, step s (.get i t) = some (setClient s i (.asleep ()), [])

/-- A pool that counts more connections than are open; `d` acquisitions lead to its limit. -/
structure Short (d : ℕ) (s : Sys) : Prop where
  client : s.clients[0]? = some .out
  short : (s.live.length : ℤ) < s.pool.curConnCnt
  max : s.pool.curConnCnt ≤ s.pool.maxConnCnt
  left : (d : ℤ) = s.pool.freeList.length + (s.pool.maxConnCnt - s.pool.curConnCnt)

/-- Client `0` calls `GetCacheConn`. -/
def entered (s : Sys) : Sys := setClient s 0 (.entering ())

theorem setClient_self {w w' : Waiter Unit} {i : ℕ} (hclient : s.clients[i]? = some w) :
    (setClient s i w').clients[i]? = some w' := by
  obtain ⟨hlt, -⟩ := List.getElem?_eq_some_iff.mp hclient
  exact List.getElem?_set_self hlt

theorem step_call (hclient : s.clients[0]? = some .out) :
    step s (.call 0) = some (entered s, []) := by
  dsimp only [step]
  rw [hclient]
  rfl

theorem step_get_entered (hclient : s.clients[0]? = some .out) (t : Attempt) :
    step (entered s) (.get 0 t) = getCacheConn (entered s) 0 t := by
  dsimp only [step]
  rw [entered, setClient_self hclient]

/-- Client `0` gets a free connection, or a new one. -/
theorem Short.get (h : Short (d + 1) s) :
    ∃ acts s', exec (silent step) s acts = some s' ∧ Short d s' := by
  obtain ⟨hclient, hlive, hmax, hd⟩ := h
  obtain ⟨a, ha⟩ := exists_fresh s.live
  have hclient' : (entered s).clients[0]? = some _ := setClient_self hclient
  have hget : ∃ s' evs, getCacheConn (entered s) 0 ⟨a, 0⟩ = some (s', evs) ∧ Short d s' := by
    unfold getCacheConn
    change ∃ s' evs, (if s.pool.freeList = [] then if s.pool.curConnCnt ≥ s.pool.maxConnCnt
      then _ else grow (entered s) 0 ⟨a, 0⟩ else takeFront (entered s) s.pool 0) = _ ∧ _
    cases hfree : s.pool.freeList with
    | nil =>
      rw [hfree] at hd
      simp only [List.length_nil] at hd
      have hroom : ¬ s.pool.curConnCnt ≥ s.pool.maxConnCnt := by omega
      have hnew : (⟨a, 0⟩ : Attempt).conn ∉ (entered s).live := ha
      have hmade : ¬ (⟨a, 0⟩ : Attempt).ret ≠ 0 := fun hne => hne rfl
      have hnil : (entered s).pool.freeList = [] := hfree
      unfold grow takeFront
      rw [if_pos rfl, if_neg hroom, if_neg hnew, if_neg hmade]
      simp only [hnil, List.nil_append]
      refine ⟨_, _, rfl, setClient_self hclient', ?_, ?_, ?_⟩
      · change ((s.live.length + 1 : ℕ) : ℤ) < s.pool.curConnCnt + 1
        omega
      · change s.pool.curConnCnt + 1 ≤ s.pool.maxConnCnt
        omega
      · change (d : ℤ) = (0 : ℕ) + (s.pool.maxConnCnt - (s.pool.curConnCnt + 1))
        omega
    | cons conn freeList =>
      rw [hfree] at hd
      unfold takeFront
      rw [if_neg (List.cons_ne_nil _ _), hfree]
      refine ⟨_, _, rfl, setClient_self hclient', hlive, hmax, ?_⟩
      change (d : ℤ) = freeList.length + (s.pool.maxConnCnt - s.pool.curConnCnt)
      rw [List.length_cons] at hd
      omega
  obtain ⟨s', evs, hget, hshort⟩ := hget
  refine ⟨[.call 0, .get 0 ⟨a, 0⟩], s', ?_, hshort⟩
  rw [exec_cons, silent, step_call hclient]
  change (silent step (entered s) _).bind _ = _
  rw [silent, step_get_entered hclient, hget]
  rfl

/-- At its limit the pool has less than it counts. -/
theorem Short.stalls (h : Short 0 s) :
    ∃ acts s', exec (silent step) s acts = some s' ∧ Stalls s' 0 := by
  obtain ⟨hclient, hlive, hmax, hd⟩ := h
  have hfree : s.pool.freeList = [] := List.length_eq_zero_iff.mp (by omega)
  have hcur : s.pool.curConnCnt ≥ s.pool.maxConnCnt := by omega
  refine ⟨[.call 0], entered s, ?_, hfree, hlive.trans_le hmax, setClient_self hclient,
    fun t => ?_⟩
  · rw [exec_cons, silent, step_call hclient]
    rfl
  · have hfree' : (entered s).pool.freeList = [] := hfree
    have hcur' : (entered s).pool.curConnCnt ≥ (entered s).pool.maxConnCnt := hcur
    rw [step_get_entered hclient, getCacheConn, if_pos hfree', if_pos hcur']

/-- What `Init` leaves that fails. -/
theorem init_failed {clients : ℕ} {maxConnCnt ret : ℤ} {attempts : List Attempt}
    (hmax : 2 ≤ maxConnCnt) (hret : ret ≠ 0)
    (hinit : init (create clients maxConnCnt) attempts = some (s, ret)) :
    ¬ CountsOpen (books s) ∧ (0 < clients → ∃ d, Short d s) := by
  obtain ⟨⟨pool', live', ret'⟩, hloop, heq⟩ := Option.bind_eq_some_iff.mp hinit
  obtain ⟨rfl, rfl⟩ := Prod.mk.inj (Option.some.inj heq)
  obtain ⟨made, -, rfl, rfl, -, hfewer⟩ := initLoop_makes hloop
  have htwo : made.length < 2 := hfewer hret
  refine ⟨fun hcounts => ?_, fun hclients => ?_⟩
  · have hopened := hcounts ⟨2, maxConnCnt⟩ rfl
    change (2 : ℤ) = ((made.reverse ++ []).length : ℤ) at hopened
    rw [List.append_nil, List.length_reverse] at hopened
    omega
  · refine ⟨made.length + (maxConnCnt - 2).toNat, ?_, ?_, hmax, ?_⟩
    · change (List.replicate clients Waiter.out)[0]? = _
      rw [List.getElem?_replicate, if_pos hclients]
    · change ((made.reverse ++ []).length : ℤ) < 2
      rw [List.append_nil, List.length_reverse]
      omega
    · change _ = (([] ++ made.map some).length : ℤ) + (maxConnCnt - 2)
      rw [List.nil_append, List.length_map]
      push_cast
      omega

end Cache

/-! ### Both pools -/

/-- After every `Init` that fails the count of either pool differs from the number of its
connections, and its clients can bring it to where an acquisition finds no free connection and
fewer open than the maximum, and sleeps. -/
theorem failed_init_stalls (clients : ℕ) {maxConnCnt : ℤ} (hmax : 2 ≤ maxConnCnt)
    (attempts : List Attempt) :
    (∀ s₀ ret, DB.init (DB.create clients maxConnCnt) attempts = some (s₀, ret) → ret ≠ 0 →
      ¬ CountsOpen (DB.books s₀) ∧ (0 < clients →
        ∃ acts s, exec (silent DB.step) s₀ acts = some s ∧ DB.Stalls s 0)) ∧
    (∀ s₀ ret, Cache.init (Cache.create clients maxConnCnt) attempts = some (s₀, ret) → ret ≠ 0 →
      ¬ CountsOpen (Cache.books s₀) ∧ (0 < clients →
        ∃ acts s, exec (silent Cache.step) s₀ acts = some s ∧
          Cache.Stalls s 0)) := by
  constructor
  · intro s₀ ret hinit hret
    obtain ⟨hcount, hshort⟩ := DB.init_failed hmax hret hinit
    refine ⟨hcount, fun hclients => ?_⟩
    obtain ⟨d, hd⟩ := hshort hclients
    obtain ⟨acts, s, hrun, hlimit⟩ := exec_countdown (fun _ _ => DB.Short.get) d hd
    obtain ⟨acts', u, hrun', hstalls⟩ := hlimit.stalls
    exact ⟨acts ++ acts', u, exec_append_eq_some.mpr ⟨s, hrun, hrun'⟩, hstalls⟩
  · intro s₀ ret hinit hret
    obtain ⟨hcount, hshort⟩ := Cache.init_failed hmax hret hinit
    refine ⟨hcount, fun hclients => ?_⟩
    obtain ⟨d, hd⟩ := hshort hclients
    obtain ⟨acts, s, hrun, hlimit⟩ := exec_countdown (fun _ _ => Cache.Short.get) d hd
    obtain ⟨acts', u, hrun', hstalls⟩ := hlimit.stalls
    exact ⟨acts ++ acts', u, exec_append_eq_some.mpr ⟨s, hrun, hrun'⟩, hstalls⟩

/-- A maximum of three, the second connection of `Init` cannot be made. -/
theorem failed_init_stalls_three :
    ∃ s₀, DB.init (DB.create 1 3) [⟨10, 0⟩, ⟨11, 7⟩] = some (s₀, 7) ∧
      ∃ acts s, exec (silent DB.step) s₀ acts = some s ∧ DB.Stalls s 0 :=
  ⟨_, rfl, ((failed_init_stalls 1 (by decide) [⟨10, 0⟩, ⟨11, 7⟩]).1 _ 7 rfl (by decide)).2
    (by decide)⟩

/-- A maximum of two, and the first connection of `Init` cannot be made: the pools count two
connections where there is none, and the first client sleeps. -/
theorem not_countsOpen_failed :
    (∃ s₀ s s', DB.init (DB.create 1 2) [⟨10, 7⟩] = some (s₀, 7) ∧ s₀.live = [] ∧
      ¬ CountsOpen (DB.books s₀) ∧
      exec (silent DB.step) s₀ [.call 0 (-1)] = some s ∧
      DB.step s (.get 0 ⟨11, 0⟩) = some (s', []) ∧ s'.live = [] ∧
      s'.clients = [.asleep ⟨-1, false, nofun⟩]) ∧
    ∃ s₀ s s', Cache.init (Cache.create 1 2) [⟨10, 7⟩] = some (s₀, 1) ∧ s₀.live = [] ∧
      ¬ CountsOpen (Cache.books s₀) ∧
      exec (silent Cache.step) s₀ [.call 0] = some s ∧
      Cache.step s (.get 0 ⟨11, 0⟩) = some (s', []) ∧ s'.live = [] ∧
      s'.clients = [.asleep ()] := by
  refine ⟨⟨_, _, _, rfl, rfl, fun h => ?_, rfl, rfl, rfl, rfl⟩,
    _, _, _, rfl, rfl, fun h => ?_, rfl, rfl, rfl, rfl⟩
  · exact absurd (h ⟨2, 2⟩ rfl) (by decide)
  · exact absurd (h ⟨2, 2⟩ rfl) (by decide)

end MmorpgServer.ConnPool
