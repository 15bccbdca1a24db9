import MmorpgServer.ConnPool.CachePool
import MmorpgServer.ConnPool.DBPool
import MmorpgServer.Lib.Machine

/-!
# The connections that a pool has open

Both pools compare `m_cur_conn_cnt` with the configured maximum before they make a connection for
a client. `Init` does not: it makes as many as `m_cur_conn_cnt` says, which the constructor sets
to the fixed minimum of two, whatever the maximum is, and it does not count what it makes. Here
`Init` is a step like the others, so that it may come at any time and again.

## Main definitions

* `Books` — how many connections a pool has open, and its two counts
* `WithInit`, `withInit` — a pool's machine with `Init` among its steps
* `Counted`, `Fits` — `Init` stays within the current count, and within the maximum

## Main results

* `open_le_max_iff` — the maximum is kept iff `Init` stays within it
* `open_gt_max` — with a maximum of one, `Init` opens two connections
-/

namespace MmorpgServer.ConnPool

open Machine CondVar

/-! ### What is open and what is counted -/

/-- `m_cur_conn_cnt` and `m_max_conn_cnt` -/
structure Counts where
  cur : ℤ
  max : ℤ

/-- The connections that a pool has open, and its counts while it exists. -/
structure Books where
  opened : ℕ
  counts : Option Counts

/-- How many connections `Init` opens when `n` are to be made: it ends at the first failure. -/
def opens : ℕ → List Attempt → ℕ
  | 0, _ => 0
  | _ + 1, [] => 0
  | n + 1, t :: attempts => if t.ret ≠ 0 then 0 else opens n attempts + 1

theorem opens_le (n : ℕ) (attempts : List Attempt) : opens n attempts ≤ n := by
  induction n generalizing attempts with
  | zero => simp [opens]
  | succ n ih =>
    cases attempts with
    | nil => simp [opens]
    | cons t attempts =>
      rw [opens]
      split
      · exact Nat.zero_le _
      · exact Nat.succ_le_succ (ih attempts)

theorem Makes.length_eq {live made : List ℕ} {n : ℕ} {attempts : List Attempt}
    (h : Makes live n attempts made) : made.length = opens n attempts := by
  induction h with
  | done => rfl
  | failed n attempts hconn hret => simp [opens, hret]
  | next hconn hret hrest ih => simp [opens, hret, ih]

namespace Books

variable {b b' : Books} {c : Counts} {max : ℤ}

/-- No more is open than is counted, while the pool exists. -/
def Covered (max : ℤ) (b : Books) : Prop := ∀ c ∈ b.counts, c.max = max ∧ (b.opened : ℤ) ≤ c.cur

theorem covered_none (cur : ℤ) (hcur : 0 ≤ cur) : Covered max ⟨0, some ⟨cur, max⟩⟩ := by
  intro c hc
  obtain rfl := Option.some.inj hc
  exact ⟨rfl, hcur⟩

/-- What a step of a pool other than `Init` does to its books. -/
inductive Moves : Books → Books → Prop where
  | keep {b b' : Books} (hopened : b'.opened ≤ b.opened)
      (hcounts : ∀ c ∈ b'.counts, c ∈ b.counts) : Moves b b'
  | grow {b : Books} {c : Counts} (hcounts : c ∈ b.counts) (hroom : c.cur < c.max) :
      Moves b ⟨b.opened + 1, some ⟨c.cur + 1, c.max⟩⟩

theorem Moves.refl (b : Books) : Moves b b := .keep le_rfl fun _ hc => hc

/-- The test before growth protects the maximum as long as everything open is counted. -/
theorem Moves.within (h : Moves b b') (hcov : b.Covered max) (hmax : (b.opened : ℤ) ≤ max) :
    b'.Covered max ∧ (b'.opened : ℤ) ≤ max := by
  cases h with
  | keep hopened hcounts =>
    refine ⟨fun c hc => ?_, by omega⟩
    obtain ⟨hc', hcur⟩ := hcov c (hcounts c hc)
    exact ⟨hc', by omega⟩
  | grow hcounts hroom =>
    obtain ⟨rfl, hcur⟩ := hcov _ hcounts
    refine ⟨fun c' hc' => ?_, by push_cast; omega⟩
    obtain rfl := Option.some.inj hc'
    exact ⟨rfl, by push_cast; omega⟩

end Books

/-! ### Machines with `Init` -/

/-- The steps of a pool, `Init` among them. -/
inductive WithInit (α : Type) where
  /-- `Init`, with what becomes of the connections that it makes -/
  | init (attempts : List Attempt)
  | act (a : α)

section

variable {σ α : Type} {init : σ → List Attempt → Option (σ × ℤ)}
  {step : σ → α → Option (σ × List Event)} {books : σ → Books} {s u : σ} {max : ℤ}
  {acts : List (WithInit α)}

/-- A pool's machine with `Init` among its steps. -/
def withInit (init : σ → List Attempt → Option (σ × ℤ)) (step : σ → α → Option (σ × List Event))
    (s : σ) : WithInit α → Option σ
  | .init attempts => (init s attempts).map Prod.fst
  | .act a => (step s a).map Prod.fst

/-- `Init` leaves no more connections open than `m_cur_conn_cnt` says, as when none is open
before it. -/
def Counted (books : σ → Books) (s : σ) : WithInit α → Prop
  | .init attempts => ∀ c ∈ (books s).counts,
      ((books s).opened + opens c.cur.toNat attempts : ℤ) ≤ c.cur
  | .act _ => True

/-- `Init` leaves no more connections open than `m_max_conn_cnt` allows. -/
def Fits (books : σ → Books) (s : σ) : WithInit α → Prop
  | .init attempts => ∀ c ∈ (books s).counts,
      ((books s).opened + opens c.cur.toNat attempts : ℤ) ≤ c.max
  | .act _ => True

/-- The first `Init` of a pool leaves no more open than is counted, and fits if the maximum is
not below the count. -/
theorem first_init_counted (hopened : (books s).opened = 0)
    (hcur : ∀ c ∈ (books s).counts, 0 ≤ c.cur) (attempts : List Attempt) :
    Counted books s (.init attempts : WithInit α) ∧
      ((∀ c ∈ (books s).counts, c.cur ≤ c.max) → Fits books s (.init attempts : WithInit α)) := by
  have hopens : ∀ c ∈ (books s).counts,
      ((books s).opened + opens c.cur.toNat attempts : ℤ) ≤ c.cur := by
    intro c hc
    have := opens_le c.cur.toNat attempts
    have := hcur c hc
    omega
  exact ⟨hopens, fun hfits c hc => (hopens c hc).trans (hfits c hc)⟩

/-- **The maximum is kept exactly by the runs in which `Init` stays within it**, among those in
which it stays within the current count. -/
theorem opened_le_iff_fits
    (hinit : ∀ s attempts s' ret, init s attempts = some (s', ret) → ∃ c ∈ (books s).counts,
      books s' = ⟨(books s).opened + opens c.cur.toNat attempts, some c⟩)
    (hstep : ∀ s a s' evs, step s a = some (s', evs) → (books s).Moves (books s'))
    (hcov : (books s).Covered max) (hmax : ((books s).opened : ℤ) ≤ max)
    (hrun : exec (withInit init step) s acts = some u)
    (hcounted : Guarded (withInit init step) (Counted books) s acts) :
    Throughout (withInit init step) (fun s => ((books s).opened : ℤ) ≤ max) s acts ↔
      Guarded (withInit init step) (Fits books) s acts := by
  refine throughout_iff_guarded (I := fun s => (books s).Covered max) ?_ ?_
    (hcounted.and_enabled hrun) hcov hmax
  · rintro s a ⟨hcounted, s', hone⟩ hfits hcov hmax
    refine ⟨s', hone, ?_⟩
    cases a with
    | init attempts =>
      obtain ⟨⟨s', ret⟩, hsome, rfl⟩ := Option.map_eq_some_iff.mp hone
      obtain ⟨c, hc, hbooks⟩ := hinit s attempts s' ret hsome
      have hcur := hcounted c hc
      have hroom := hfits c hc
      rw [hbooks]
      refine ⟨fun c' hc' => ?_, ?_⟩
      · obtain rfl := Option.some.inj hc'
        exact ⟨(hcov c hc).1, by push_cast; exact hcur⟩
      · push_cast
        exact hroom.trans (hcov c hc).1.le
    | act a =>
      obtain ⟨⟨s', evs⟩, hsome, rfl⟩ := Option.map_eq_some_iff.mp hone
      exact (hstep s a s' evs hsome).within hcov hmax
  · rintro s a s' - hcov - hone hmax'
    cases a with
    | init attempts =>
      obtain ⟨⟨s', ret⟩, hsome, rfl⟩ := Option.map_eq_some_iff.mp hone
      obtain ⟨c, hc, hbooks⟩ := hinit s attempts s' ret hsome
      intro c' hc'
      obtain rfl := Option.mem_unique hc hc'
      rw [hbooks] at hmax'
      push_cast at hmax'
      exact hmax'.trans (hcov c hc).1.ge
    | act a => trivial

end

/-! ### `CDBPool` -/

namespace DB

variable {s s' : Sys} {evs : List Event} {pool : CDBPool} {i k : ℕ} {call : Call} {t : Attempt}
  {conn : ConnPtr}

def books (s : Sys) : Books where
  opened := s.live.length
  counts := s.pool.map fun pool => ⟨pool.dbCurConnCnt, pool.dbMaxConnCnt⟩

theorem init_books {attempts : List Attempt} {ret : ℤ} (hinit : init s attempts = some (s', ret)) :
    ∃ c ∈ (books s).counts, books s' = ⟨(books s).opened + opens c.cur.toNat attempts, some c⟩ := by
  obtain ⟨pool, hpool, hinit⟩ := Option.bind_eq_some_iff.mp hinit
  obtain ⟨⟨pool', live', r⟩, hloop, heq⟩ := Option.bind_eq_some_iff.mp hinit
  obtain ⟨rfl, -⟩ := Prod.mk.inj (Option.some.inj heq)
  obtain ⟨made, hmakes, rfl, rfl, -⟩ := initLoop_makes hloop
  refine ⟨⟨pool.dbCurConnCnt, pool.dbMaxConnCnt⟩, by simp [books, hpool], ?_⟩
  simp [books, hmakes.length_eq, Nat.add_comm]

/-- A step that changes the state of a client only. -/
theorem setClient_moves {w : Waiter Call} {evs' : List Event}
    (h : some (setClient s i w, evs') = some (s', evs)) : (books s).Moves (books s') := by
  obtain ⟨rfl, -⟩ := Prod.mk.inj (Option.some.inj h)
  exact .refl _

/-- To take a connection changes neither count. -/
theorem takeFront_books (h : takeFront s pool i = some (s', evs)) :
    books s' = books { s with pool := some pool } := by
  unfold takeFront at h
  split at h
  · cases h
  · obtain ⟨rfl, -⟩ := Prod.mk.inj (Option.some.inj h)
    rfl

theorem takeFront_moves (hpool : s.pool = some pool) (h : takeFront s pool i = some (s', evs)) :
    (books s).Moves (books s') := by
  rw [takeFront_books h, ← hpool]
  exact .refl _

theorem waitLoop_moves (hpool : s.pool = some pool) (h : waitLoop s pool i call = some (s', evs)) :
    (books s).Moves (books s') := by
  unfold waitLoop afterWait at h
  split_ifs at h
  · exact setClient_moves h
  · exact setClient_moves h
  · exact takeFront_moves hpool h
  · exact setClient_moves h

theorem getDBConn_moves (h : getDBConn s i call t = some (s', evs)) :
    (books s).Moves (books s') := by
  obtain ⟨pool, hpool, h⟩ := Option.bind_eq_some_iff.mp h
  split_ifs at h with habort hfree hcur
  · exact setClient_moves h
  · exact waitLoop_moves hpool h
  · unfold grow at h
    split_ifs at h
    · exact setClient_moves h
    · rw [takeFront_books h]
      exact .grow (c := ⟨pool.dbCurConnCnt, pool.dbMaxConnCnt⟩) (by simp [books, hpool])
        (not_le.mp hcur)
  · exact takeFront_moves hpool h

theorem relDBConn_moves (h : relDBConn s i conn k = some (s', evs)) :
    (books s).Moves (books s') := by
  obtain ⟨pool, hpool, h⟩ := Option.bind_eq_some_iff.mp h
  split_ifs at h
  · obtain ⟨rfl, -⟩ := Prod.mk.inj (Option.some.inj h)
    exact .refl _
  · obtain ⟨clients, -, h⟩ := Option.bind_eq_some_iff.mp h
    obtain ⟨rfl, -⟩ := Prod.mk.inj (Option.some.inj h)
    exact .keep le_rfl fun c hc => by simpa [books, hpool] using hc

theorem deleteAll_length_le {freeList : List ConnPtr} {live live' : List ℕ}
    (h : deleteAll freeList live = some live') : live'.length ≤ live.length := by
  fun_induction deleteAll freeList live with
  | case1 live =>
    obtain rfl := Option.some.inj h
    exact le_rfl
  | case2 live freeList ih => exact ih h
  | case3 live a freeList hmem ih => exact (ih h).trans List.length_erase_le
  | case4 => cases h

theorem step_moves {a : Act} (h : step s a = some (s', evs)) : (books s).Moves (books s') := by
  cases a with
  | call i timeoutMs =>
    dsimp only [step] at h
    split at h
    · exact setClient_moves h
    · cases h
  | get i t =>
    dsimp only [step] at h
    split at h
    · exact getDBConn_moves h
    · obtain ⟨pool, hpool, h⟩ := Option.bind_eq_some_iff.mp h
      exact waitLoop_moves hpool h
    · cases h
  | timeout i =>
    dsimp only [step] at h
    split at h
    · split at h
      · exact setClient_moves h
      · cases h
    · split at h
      · exact setClient_moves h
      · cases h
    · cases h
  | spurious i =>
    dsimp only [step] at h
    split at h
    · exact setClient_moves h
    · cases h
  | rel i conn k =>
    dsimp only [step] at h
    split at h
    · exact relDBConn_moves h
    · cases h
  | destroy =>
    obtain ⟨pool, hpool, h⟩ := Option.bind_eq_some_iff.mp h
    obtain ⟨live, hlive, h⟩ := Option.bind_eq_some_iff.mp h
    obtain ⟨rfl, -⟩ := Prod.mk.inj (Option.some.inj h)
    exact .keep (deleteAll_length_le hlive) fun c hc => by simpa [books, hpool] using hc
  | finish =>
    obtain ⟨pool, hpool, h⟩ := Option.map_eq_some_iff.mp h
    obtain ⟨rfl, -⟩ := Prod.mk.inj h
    exact .keep le_rfl fun c hc => by simp [books] at hc

end DB

/-! ### `CachePool` -/

namespace Cache

variable {s s' : Sys} {evs : List Event} {pool : CachePool} {i k : ℕ} {t : Attempt}
  {conn : ConnPtr}

def books (s : Sys) : Books where
  opened := s.live.length
  counts := some ⟨s.pool.curConnCnt, s.pool.maxConnCnt⟩

theorem init_books {attempts : List Attempt} {ret : ℤ} (hinit : init s attempts = some (s', ret)) :
    ∃ c ∈ (books s).counts, books s' = ⟨(books s).opened + opens c.cur.toNat attempts, some c⟩ := by
  obtain ⟨⟨pool', live', r⟩, hloop, heq⟩ := Option.bind_eq_some_iff.mp hinit
  obtain ⟨rfl, -⟩ := Prod.mk.inj (Option.some.inj heq)
  obtain ⟨made, hmakes, rfl, rfl, -⟩ := initLoop_makes hloop
  refine ⟨⟨s.pool.curConnCnt, s.pool.maxConnCnt⟩, rfl, ?_⟩
  simp [books, hmakes.length_eq, Nat.add_comm]

/-- A step that changes the state of a client only. -/
theorem setClient_moves {w : Waiter Unit} {evs' : List Event}
    (h : some (setClient s i w, evs') = some (s', evs)) : (books s).Moves (books s') := by
  obtain ⟨rfl, -⟩ := Prod.mk.inj (Option.some.inj h)
  exact .refl _

/-- To take a connection changes neither count. -/
theorem takeFront_books (h : takeFront s pool i = some (s', evs)) :
    books s' = books { s with pool := pool } := by
  unfold takeFront at h
  split at h
  · cases h
  · obtain ⟨rfl, -⟩ := Prod.mk.inj (Option.some.inj h)
    rfl

theorem getCacheConn_moves (h : getCacheConn s i t = some (s', evs)) :
    (books s).Moves (books s') := by
  unfold getCacheConn at h
  split_ifs at h with hfree hcur
  · exact setClient_moves h
  · unfold grow at h
    split_ifs at h
    · exact setClient_moves h
    · rw [takeFront_books h]
      exact .grow (c := ⟨s.pool.curConnCnt, s.pool.maxConnCnt⟩) rfl (not_le.mp hcur)
  · rw [takeFront_books h]
    exact .refl _

theorem relCacheConn_moves (h : relCacheConn s i conn k = some (s', evs)) :
    (books s).Moves (books s') := by
  obtain ⟨clients, -, h⟩ := Option.bind_eq_some_iff.mp h
  obtain ⟨rfl, -⟩ := Prod.mk.inj (Option.some.inj h)
  refine .keep le_rfl fun c hc => ?_
  dsimp only [books] at hc
  split at hc <;> exact hc

theorem step_moves {a : Act} (h : step s a = some (s', evs)) : (books s).Moves (books s') := by
  cases a with
  | call i =>
    dsimp only [step] at h
    split at h
    · exact setClient_moves h
    · cases h
  | get i t =>
    dsimp only [step] at h
    split at h
    · exact getCacheConn_moves h
    · exact getCacheConn_moves h
    · cases h
  | spurious i =>
    dsimp only [step] at h
    split at h
    · exact setClient_moves h
    · cases h
  | rel i conn k =>
    dsimp only [step] at h
    split at h
    · exact relCacheConn_moves h
    · cases h

end Cache

/-! ### Both pools -/

/-- The number of connection objects of `CDBPool`, and of `CachePool`, stays within the maximum
throughout a run of calls of `Init`, acquisitions and releases, in which `Init` opens no more
than is counted, iff each `Init` stays within the maximum. -/
theorem open_le_max_iff (clients : ℕ) (maxConnCnt : ℤ) (hmax : 1 ≤ maxConnCnt) :
    (∀ (acts : List (WithInit DB.Act)) (s : DB.Sys),
      exec (withInit DB.init DB.step) (DB.create clients maxConnCnt) acts = some s →
      Guarded (withInit DB.init DB.step) (Counted DB.books) (DB.create clients maxConnCnt) acts →
      (Throughout (withInit DB.init DB.step) (fun s => (s.live.length : ℤ) ≤ maxConnCnt)
          (DB.create clients maxConnCnt) acts ↔
        Guarded (withInit DB.init DB.step) (Fits DB.books) (DB.create clients maxConnCnt) acts)) ∧
    (∀ (acts : List (WithInit Cache.Act)) (s : Cache.Sys),
      exec (withInit Cache.init Cache.step) (Cache.create clients maxConnCnt) acts = some s →
      Guarded (withInit Cache.init Cache.step) (Counted Cache.books)
        (Cache.create clients maxConnCnt) acts →
      (Throughout (withInit Cache.init Cache.step) (fun s => (s.live.length : ℤ) ≤ maxConnCnt)
          (Cache.create clients maxConnCnt) acts ↔
        Guarded (withInit Cache.init Cache.step) (Fits Cache.books)
          (Cache.create clients maxConnCnt) acts)) := by
  have hnone : ((0 : ℕ) : ℤ) ≤ maxConnCnt := by omega
  constructor
  · intro acts s hrun hcounted
    have hcov : (DB.books (DB.create clients maxConnCnt)).Covered maxConnCnt :=
      Books.covered_none 2 (by decide)
    exact opened_le_iff_fits (fun _ _ _ _ => DB.init_books) (fun _ _ _ _ => DB.step_moves)
      hcov hnone hrun hcounted
  · intro acts s hrun hcounted
    have hcov : (Cache.books (Cache.create clients maxConnCnt)).Covered maxConnCnt :=
      Books.covered_none 2 (by decide)
    exact opened_le_iff_fits (fun _ _ _ _ => Cache.init_books) (fun _ _ _ _ => Cache.step_moves)
      hcov hnone hrun hcounted

/-- A maximum of three: `Init` opens two, client `0` gets both and a third one. -/
theorem open_le_max_iff_three :
    (∃ s, exec (withInit DB.init DB.step) (DB.create 1 3)
        [.init [⟨10, 0⟩, ⟨11, 0⟩], .act (.call 0 (-1)), .act (.get 0 ⟨12, 0⟩),
          .act (.call 0 (-1)), .act (.get 0 ⟨12, 0⟩), .act (.call 0 (-1)),
          .act (.get 0 ⟨12, 0⟩)] = some s ∧ s.live = [12, 11, 10]) ∧
    Throughout (withInit DB.init DB.step) (fun s => (s.live.length : ℤ) ≤ 3) (DB.create 1 3)
      [.init [⟨10, 0⟩, ⟨11, 0⟩], .act (.call 0 (-1)), .act (.get 0 ⟨12, 0⟩),
        .act (.call 0 (-1)), .act (.get 0 ⟨12, 0⟩), .act (.call 0 (-1)),
        .act (.get 0 ⟨12, 0⟩)] := by
  have hcur : ∀ c ∈ (DB.books (DB.create 1 3)).counts, 0 ≤ c.cur := by
    intro c hc
    obtain rfl := Option.some.inj hc
    decide
  have hinit : Counted DB.books (DB.create 1 3)
      (.init [⟨10, 0⟩, ⟨11, 0⟩] : WithInit DB.Act) ∧ _ :=
    first_init_counted rfl hcur [⟨10, 0⟩, ⟨11, 0⟩]
  have hcounted : Guarded (withInit DB.init DB.step) (Counted DB.books) (DB.create 1 3)
      [.init [⟨10, 0⟩, ⟨11, 0⟩], .act (.call 0 (-1)), .act (.get 0 ⟨12, 0⟩),
        .act (.call 0 (-1)), .act (.get 0 ⟨12, 0⟩), .act (.call 0 (-1)),
        .act (.get 0 ⟨12, 0⟩)] :=
    .cons hinit.1 rfl (.cons trivial rfl (.cons trivial rfl (.cons trivial rfl
      (.cons trivial rfl (.cons trivial rfl (.cons trivial rfl trivial))))))
  have hfits : Guarded (withInit DB.init DB.step) (Fits DB.books) (DB.create 1 3)
      [.init [⟨10, 0⟩, ⟨11, 0⟩], .act (.call 0 (-1)), .act (.get 0 ⟨12, 0⟩),
        .act (.call 0 (-1)), .act (.get 0 ⟨12, 0⟩), .act (.call 0 (-1)),
        .act (.get 0 ⟨12, 0⟩)] :=
    .cons (hinit.2 fun c hc => by obtain rfl := Option.some.inj hc; decide) rfl
      (.cons trivial rfl (.cons trivial rfl (.cons trivial rfl
        (.cons trivial rfl (.cons trivial rfl (.cons trivial rfl trivial))))))
  exact ⟨⟨_, rfl, rfl⟩,
    ((open_le_max_iff 1 3 (by decide)).1 _ _ rfl hcounted).mpr hfits⟩

/-- With a maximum of one, `Init` of either pool opens two connections. -/
theorem open_gt_max :
    ¬ (∀ (clients : ℕ) (maxConnCnt : ℤ) (acts : List (WithInit DB.Act)) (s : DB.Sys),
      1 ≤ maxConnCnt →
      exec (withInit DB.init DB.step) (DB.create clients maxConnCnt) acts = some s →
      (s.live.length : ℤ) ≤ maxConnCnt) ∧
    ¬ (∀ (clients : ℕ) (maxConnCnt : ℤ) (acts : List (WithInit Cache.Act)) (s : Cache.Sys),
      1 ≤ maxConnCnt →
      exec (withInit Cache.init Cache.step) (Cache.create clients maxConnCnt) acts = some s →
      (s.live.length : ℤ) ≤ maxConnCnt) := by
  constructor
  · intro h
    have htwo := h 0 1 [.init [⟨10, 0⟩, ⟨11, 0⟩]] _ le_rfl rfl
    exact absurd htwo (by decide)
  · intro h
    have htwo := h 0 1 [.init [⟨10, 0⟩, ⟨11, 0⟩]] _ le_rfl rfl
    exact absurd htwo (by decide)

end MmorpgServer.ConnPool
