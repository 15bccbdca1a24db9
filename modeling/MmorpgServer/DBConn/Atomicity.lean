import MmorpgServer.DBConn.Model

/-!
# Atomicity of transactions

Every call begins with a `mysql_ping`, which replaces a lost session by a new one in autocommit
mode. The calls that follow succeed there, outside of any transaction: their updates are
committed one by one, those before are gone, and `Commit` and `Rollback` succeed with nothing
to do.

## Main definitions

* `Atomic` — what a transaction promises
* `Atomically` — when it keeps the promise, in terms of the connections and the replies

## Main results

* `atomic_iff` — the promise is kept exactly then
-/

namespace MmorpgServer.DBConn

open Sql

variable {U : Type} {c : MysqlClient U} {h : c.Handle} {e e₀ e₁ : Env} {q : Stmt U}
  {x : Issue U} {xs : List (Issue U)}

/-! ### Statements -/

/-- `Init` sets the option that `mysql_ping` looks at. -/
theorem init_reconnect (hc : c.Lawful) {h₀ : Option c.Handle} {reachable : Bool} {ret : ℤ}
    (hinit : init c h₀ reachable = (some h, ret)) : c.reconnect h = true := by
  unfold init at hinit
  cases h₀ with
  | none => cases hinit
  | some h₀ =>
    have hset : c.reconnect (c.realConnect (c.setReconnect h₀ true) reachable).1 = true := by
      rw [hc.realConnect_reconnect, hc.setReconnect_reconnect]
    dsimp only at hinit
    split_ifs at hinit
    · rw [← Option.some.inj (Prod.mk.inj hinit).1]
      exact hset
    · rw [← Option.some.inj (Prod.mk.inj hinit).1]
      exact hset

theorem between_reconnect (hc : c.Lawful) : c.reconnect (between c h e) = c.reconnect h := by
  unfold between
  split_ifs
  · exact hc.disconnect_reconnect h
  · rfl

/-- The session that a statement meets. -/
theorem ping_between (hc : c.Lawful) (hr : c.reconnect h = true) :
    c.db (c.ping (between c h e) e.reachable) = (c.db h).linked e := by
  rw [hc.ping_db _ _ ((between_reconnect hc).trans hr)]
  unfold between Db.linked
  split_ifs
  · rw [hc.disconnect_db]
  · rfl

/-- A fixed statement is one call. -/
theorem runStatement_spec (hc : c.Lawful) (hr : c.reconnect h = true) :
    c.db (runStatement c q (between c h e) e).1 = ((c.db h).call e q).1 ∧
      (runStatement c q (between c h e) e).2 = ((c.db h).call e q).2 ∧
      c.reconnect (runStatement c q (between c h e) e).1 = true := by
  have hlink := ping_between (e := e) hc hr
  have hdb := hc.realQuery_db (c.ping (between c h e) e.reachable) q e.reply
  have hret := hc.realQuery_ret (c.ping (between c h e) e.reachable) q e.reply
  have hreconnect : c.reconnect
      (c.realQuery (c.ping (between c h e) e.reachable) q e.reply).1 = true := by
    rw [hc.realQuery_reconnect, hc.ping_reconnect, between_reconnect hc, hr]
  rw [hlink] at hdb hret
  unfold runStatement Db.call
  dsimp only
  split_ifs with hne
  · exact ⟨hdb, (Bool.eq_false_iff.mpr fun htrue => hne (hret.mpr htrue)).symm, hreconnect⟩
  · exact ⟨hdb, (hret.mp (not_not.mp hne)).symm, hreconnect⟩

/-- The rows that an update has changed are enough for its caller. -/
def Issue.Counts (x : Issue U) : Prop :=
  ∀ n, x.env.reply = .ok n → 0 < n ∨ x.careAffectedRows = false

/-- An update is one call, and returns `true` if it is done and has changed enough rows. -/
theorem executeUpdate_spec (hc : c.Lawful) (hr : c.reconnect h = true) :
    let r := executeUpdate c (between c h x.env) x.sql x.careAffectedRows x.env
    c.db r.1 = ((c.db h).call x.env (.update x.sql)).1 ∧
      (r.2 = true ↔ ((c.db h).call x.env (.update x.sql)).2 = true ∧ x.Counts) ∧
      c.reconnect r.1 = true := by
  have hlink := ping_between (e := x.env) hc hr
  set h' := c.ping (between c h x.env) x.env.reachable with hh'
  have hdb := hc.realQuery_db h' (.update x.sql) x.env.reply
  have hret := hc.realQuery_ret h' (.update x.sql) x.env.reply
  have hreconnect : c.reconnect (c.realQuery h' (.update x.sql) x.env.reply).1 = true := by
    rw [hc.realQuery_reconnect, hh', hc.ping_reconnect, between_reconnect hc, hr]
  rw [hlink] at hdb hret
  -- the rows are asked for only when the statement was done, on a session that is open
  have hrows : ((c.db h).call x.env (.update x.sql)).2 = true → ∀ n, x.env.reply = .ok n →
      c.affectedRows (c.realQuery h' (.update x.sql) x.env.reply).1 = n := by
    intro hdone n hn
    rw [hn]
    apply hc.affectedRows_ok h' _ n
    rw [hlink]
    exact (call_of_done hdone).1
  unfold executeUpdate
  rw [← hh']
  dsimp only
  by_cases hzero : (c.realQuery h' (.update x.sql) x.env.reply).2 = 0
  · rw [if_neg (not_not.mpr hzero)]
    have hdone : ((c.db h).call x.env (.update x.sql)).2 = true := hret.mp hzero
    obtain ⟨n, hn⟩ : ∃ n, x.env.reply = .ok n := by
      have hok := (call_of_done hdone).2.1
      cases hreply : x.env.reply with
      | ok n => exact ⟨n, rfl⟩
      | refused | aborted =>
        rw [hreply] at hok
        cases hok
    have hcounts : x.Counts ↔ 0 < n ∨ x.careAffectedRows = false := by
      refine ⟨fun hx => hx n hn, fun hx m hm => ?_⟩
      rw [hn] at hm
      cases hm
      exact hx
    rw [hcounts, hrows hdone n hn]
    refine ⟨?_, ?_, ?_⟩
    · split_ifs <;> exact hdb
    · split_ifs with hpos hcare
      · exact ⟨fun _ => ⟨hdone, Or.inl hpos⟩, fun _ => rfl⟩
      · refine ⟨fun hfalse => hfalse.elim, ?_⟩
        rintro ⟨-, hpos' | hcare'⟩
        · exact absurd hpos' hpos
        · rw [hcare] at hcare'
          cases hcare'
      · exact ⟨fun _ => ⟨hdone, Or.inr (Bool.eq_false_iff.mpr hcare)⟩, fun _ => rfl⟩
    · split_ifs <;> exact hreconnect
  · rw [if_pos hzero]
    refine ⟨hdb, ⟨fun hfalse => absurd hfalse Bool.false_ne_true, fun hdone => ?_⟩, hreconnect⟩
    exact absurd (hret.mpr hdone.1) hzero

/-- An update without what its caller wants of it. -/
def Issue.pair (x : Issue U) : U × Env := (x.sql, x.env)

/-- The updates are a list of calls. -/
theorem executeUpdates_spec (hc : c.Lawful) (hr : c.reconnect h = true) (xs : List (Issue U)) :
    c.db (executeUpdates c h xs).1 = ((c.db h).updates (xs.map Issue.pair)).1 ∧
      (AllDone (executeUpdates c h xs).2 ↔
        AllDone ((c.db h).updates (xs.map Issue.pair)).2 ∧ ∀ x ∈ xs, x.Counts) ∧
      c.reconnect (executeUpdates c h xs).1 = true := by
  induction xs generalizing h with
  | nil =>
    refine ⟨rfl, ⟨fun hnil => ⟨hnil, ?_⟩, And.left⟩, hr⟩
    exact fun x hx => absurd hx List.not_mem_nil
  | cons x xs ih =>
    obtain ⟨hdb, hret, hreconnect⟩ := executeUpdate_spec (x := x) hc hr
    obtain ⟨hdb', hret', hreconnect'⟩ := ih hreconnect
    rw [hdb] at hdb' hret'
    refine ⟨hdb', ?_, hreconnect'⟩
    rw [executeUpdates, List.map_cons, Db.updates, allDone_cons, allDone_cons, hret, hret',
      List.forall_mem_cons]
    exact and_and_and_comm

/-! ### The promise -/

/-- If all calls return `true`, a commit has applied the updates together; if `Rollback` returns
`true`, it has applied none. -/
def Atomic (us : List U) (o : Outcome U) : Ending → Prop
  | .commit => o.started = true → AllDone o.updated → o.ended = true → us = [] ∨ us ∈ o.batches
  | .rollback => o.ended = true → ∀ u ∈ us, ∀ b ∈ o.batches, u ∉ b

/-- Every call reaches the server and is accepted there, with enough rows changed. -/
def Succeeds (m : Mode) (e₀ : Env) (xs : List (Issue U)) (e₁ : Env) : Prop :=
  (m.linked e₀ ≠ .lost ∧ e₀.reply.isOk = true) ∧
    (∀ x ∈ xs, (x.env.Reaches ∧ x.env.reply.isOk = true) ∧ x.Counts) ∧
    e₁.Reaches ∧ e₁.reply.isOk = true

/-- When the promise is kept, for a connection whose session is in mode `m`. A commit needs a
connection that is kept, except for a single update before which it is lost. A rollback needs
that no update is accepted outside of the transaction. -/
def Atomically (m : Mode) (e₀ : Env) (xs : List (Issue U)) (e₁ : Env) : Ending → Prop
  | .commit => Succeeds m e₀ xs e₁ →
      xs = [] ∨ ((∀ x ∈ xs, x.env.lost = false) ∧ e₁.lost = false) ∨
        ∃ x, xs = [x] ∧ x.env.lost = true
  | .rollback =>
      let m₁ := (m.linked e₀).started e₀.reply
      (m₁.after (xs.map Issue.env)).linked e₁ ≠ .lost → e₁.reply.isOk = true →
        Spared m₁ (xs.map Issue.env)

theorem map_pair_fst : (xs.map Issue.pair).map Prod.fst = xs.map Issue.sql := List.map_map

theorem map_pair_snd : (xs.map Issue.pair).map Prod.snd = xs.map Issue.env := List.map_map

theorem map_pair_singleton :
    (∃ y, xs.map Issue.pair = [y] ∧ y.2.lost = true) ↔ ∃ x, xs = [x] ∧ x.env.lost = true := by
  constructor
  · rintro ⟨y, hy, hlost⟩
    obtain ⟨x, rfl, rfl⟩ := List.map_eq_singleton_iff.mp hy
    exact ⟨x, rfl, hlost⟩
  · rintro ⟨x, rfl, hlost⟩
    exact ⟨x.pair, rfl, hlost⟩

/-- The calls of a transaction that commits return `true` if they reach the server and are
accepted. -/
theorem succeeds_iff {d : Db U} :
    Succeeds d.session.mode e₀ xs e₁ ↔
      (d.call e₀ .start).2 = true ∧
        (AllDone ((d.call e₀ .start).1.updates (xs.map Issue.pair)).2 ∧ ∀ x ∈ xs, x.Counts) ∧
        (((d.call e₀ .start).1.updates (xs.map Issue.pair)).1.call e₁ .commit).2 = true := by
  unfold Succeeds
  rw [← linked_mode, Ne, mode_eq_lost, ← Ne, ← call_done_iff (q := .start)]
  apply and_congr_right
  intro hstart
  have hsession : (d.call e₀ .start).1.session ≠ .lost := session_of_done hstart
  have hupdates : AllDone ((d.call e₀ .start).1.updates (xs.map Issue.pair)).2 ↔
      ∀ x ∈ xs, x.env.Reaches ∧ x.env.reply.isOk = true := by
    rw [updates_done_iff hsession, List.forall_mem_map]
    rfl
  rw [forall₂_and, ← hupdates]
  apply and_congr_right
  rintro ⟨hdone, _⟩
  rw [call_done_iff, linked_ne_lost_iff (session_of_updates hsession hdone)]

/-! ### A client in one record -/

/-- A connection that keeps what the server has of it. -/
structure Connection (U : Type) where
  db : Db U
  reconnect : Bool
  rows : ℤ

def Connection.connect (h : Connection U) (reachable : Bool) : Connection U × Bool :=
  if reachable then ({ h with db := { h.db with session := .autocommit } }, true) else (h, false)

def Connection.ping (h : Connection U) (reachable : Bool) : Connection U :=
  if h.reconnect then { h with db := h.db.ping reachable } else h

def Connection.query (h : Connection U) (q : Stmt U) (reply : Reply) : Connection U × ℤ :=
  let r := h.db.query q reply
  let rows := match reply with
    | .ok n => n
    | _ => -1
  ({ h with db := r.1, rows := rows }, if r.2 then 0 else 1)

def recordClient (U : Type) : MysqlClient U where
  Handle := Connection U
  setReconnect h b := { h with reconnect := b }
  realConnect := Connection.connect
  ping := Connection.ping
  realQuery := Connection.query
  affectedRows h := h.rows
  disconnect h := { h with db := h.db.disconnect }
  db h := h.db
  reconnect h := h.reconnect

theorem Connection.connect_reconnect (h : Connection U) (reachable : Bool) :
    (h.connect reachable).1.reconnect = h.reconnect := by
  unfold Connection.connect
  split_ifs <;> rfl

theorem Connection.ping_reconnect (h : Connection U) (reachable : Bool) :
    (h.ping reachable).reconnect = h.reconnect := by
  unfold Connection.ping
  split_ifs <;> rfl

theorem Connection.ping_db {h : Connection U} (hr : h.reconnect = true) (reachable : Bool) :
    (h.ping reachable).db = h.db.ping reachable := by
  unfold Connection.ping
  rw [if_pos hr]

theorem Connection.query_ret (h : Connection U) (q : Stmt U) (reply : Reply) :
    (h.query q reply).2 = 0 ↔ (h.db.query q reply).2 = true := by
  unfold Connection.query
  dsimp only
  split_ifs with hdone <;> simp [hdone]

/-- The record behaves as the library is documented to. -/
theorem recordClient_lawful : (recordClient U).Lawful where
  setReconnect_reconnect _ _ := rfl
  realConnect_reconnect := Connection.connect_reconnect
  ping_reconnect := Connection.ping_reconnect
  realQuery_reconnect _ _ _ := rfl
  disconnect_reconnect _ := rfl
  disconnect_db _ := rfl
  ping_db _ r hr := Connection.ping_db hr r
  realQuery_db _ _ _ := rfl
  realQuery_ret := Connection.query_ret
  affectedRows_ok _ _ _ _ := rfl

/-! ### When a transaction is atomic -/

/-- **When a transaction is atomic.** Over every library that behaves as documented, with the
option that `Init` sets, and for every list of updates and everything that the network and the
server do around the calls: the promise is kept exactly under the condition. -/
theorem atomic_iff (hc : c.Lawful) (hr : c.reconnect h = true) (e₀ : Env) (xs : List (Issue U))
    (ending : Ending) (e₁ : Env) :
    Atomic (xs.map Issue.sql) (transaction c h e₀ xs ending e₁) ending ↔
      Atomically (c.db h).session.mode e₀ xs e₁ ending := by
  obtain ⟨hdb₁, hret₁, hr₁⟩ := runStatement_spec (q := .start) (e := e₀) hc hr
  obtain ⟨hdb₂, hret₂, hr₂⟩ := executeUpdates_spec hc hr₁ xs
  -- the handles drop out: what is left is a run of calls on the server's session
  rw [hdb₁] at hdb₂ hret₂
  cases ending with
  | commit =>
    obtain ⟨hdb₃, hret₃, -⟩ := runStatement_spec (q := .commit) (e := e₁) hc hr₂
    rw [hdb₂] at hdb₃ hret₃
    unfold Atomic Atomically transaction startTransaction commit
    dsimp only
    rw [hdb₁, hdb₃, hret₁, hret₂, hret₃, succeeds_iff]
    -- both sides have the same premises
    have hpremises : ∀ {a b d p q : Prop}, (a → b → d → (p ↔ q)) →
        ((a → b → d → p) ↔ (a ∧ b ∧ d → q)) := by
      tauto
    apply hpremises
    rintro hstart ⟨hdone, hcounts⟩ hend
    obtain ⟨batches, hbatches, htogether⟩ :=
      commit_together_iff (session_of_start hstart) hdone hend
    rw [hbatches, List.drop_left]
    rw [map_pair_fst, List.map_eq_nil_iff, List.forall_mem_map, map_pair_singleton] at htogether
    rw [List.map_eq_nil_iff]
    exact htogether
  | rollback =>
    obtain ⟨hdb₃, hret₃, -⟩ := runStatement_spec (q := .rollback) (e := e₁) hc hr₂
    rw [hdb₂] at hdb₃ hret₃
    obtain ⟨hmode, -⟩ := updates_committed ((c.db h).call e₀ .start).1 (xs.map Issue.pair)
    rw [map_pair_snd, call_start] at hmode
    -- the rollback adds nothing to what the updates have committed by themselves
    obtain ⟨batches, hbatches, hspares⟩ := rollback_spares_iff ((c.db h).call e₀ .start).1
      (xs.map Issue.pair) e₁
    rw [map_pair_fst, map_pair_snd, call_start] at hspares
    unfold Atomic Atomically transaction startTransaction rollback
    dsimp only
    rw [hdb₁, hdb₃, hret₃, hbatches, List.drop_left, hspares, call_done_iff, Ne, ← mode_eq_lost,
      linked_mode, hmode, and_imp]

/-- Two updates over a connection that is kept are one batch. -/
theorem atomic_iff_two :
    Atomic [1, 2] (transaction (recordClient ℕ) ⟨⟨.autocommit, []⟩, true, 0⟩ ⟨false, true, .ok 0⟩
      [⟨1, true, ⟨false, true, .ok 1⟩⟩, ⟨2, true, ⟨false, true, .ok 1⟩⟩] .commit
      ⟨false, true, .ok 0⟩) .commit :=
  (atomic_iff recordClient_lawful rfl ⟨false, true, .ok 0⟩
    [⟨1, true, ⟨false, true, .ok 1⟩⟩, ⟨2, true, ⟨false, true, .ok 1⟩⟩] .commit
    ⟨false, true, .ok 0⟩).mpr fun _ => Or.inr (Or.inl ⟨by decide, rfl⟩)

/-- The connection is lost between two updates: all calls return `true`, and only the second
update has been applied. -/
theorem not_atomic_lost : ¬ ∀ (c : MysqlClient ℕ) (h : c.Handle) (e₀ e₁ : Env)
    (xs : List (Issue ℕ)) (ending : Ending), c.Lawful → c.reconnect h = true →
      Atomic (xs.map Issue.sql) (transaction c h e₀ xs ending e₁) ending := by
  intro hall
  have hatomic := hall (recordClient ℕ) ⟨⟨.autocommit, []⟩, true, 0⟩ ⟨false, true, .ok 0⟩
    ⟨false, true, .ok 0⟩ [⟨1, true, ⟨false, true, .ok 1⟩⟩, ⟨2, true, ⟨true, true, .ok 1⟩⟩] .commit
    recordClient_lawful rfl
  rcases hatomic rfl (by decide) rfl with hnil | hmem
  · cases hnil
  · exact absurd hmem (by decide)

end MmorpgServer.DBConn
