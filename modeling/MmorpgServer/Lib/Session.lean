import Mathlib.Data.Int.Basic
import Mathlib.Data.List.Basic
import Mathlib.Tactic.Common

/-!
# Transactions over a connection that may be lost

A server that commits updates in batches, seen from one client. The client's session is lost,
in autocommit mode, or in a transaction. A lost session discards the updates of its open
transaction, and a connection that comes back is a new session in autocommit mode. What the
environment does to a call is a parameter: whether the connection was lost before it, whether
the server can be reached, and how the server replies.

## Main definitions

* `Session`, `Db` — the session and what has been committed
* `Db.linked`, `Db.query`, `Db.call` — reconnecting, a statement, and both
* `Db.updates` — a list of updates
* `Mode`, `Spared` — a session without its data; no update is accepted in autocommit mode

## Main results

* `updates_transaction`, `updates_broken` — updates within a transaction, and when it was lost
* `updates_committed` — the batches that a list of updates commits by itself
* `commit_together_iff`, `rollback_spares_iff` — when a transaction is what it should be
-/

namespace MmorpgServer.Sql

variable {U : Type*}

/-! ### Definitions -/

inductive Session (U : Type*) where
  | lost
  | autocommit
  | transaction (pending : List U)

/-- The session, and the batches that were committed, each at once. -/
@[ext] structure Db (U : Type*) where
  session : Session U
  committed : List (List U)

inductive Stmt (U : Type*) where
  | start
  | update (u : U)
  | commit
  | rollback

/-- How the server replies to a statement that reaches it. -/
inductive Reply where
  /-- it is done, and has changed so many rows -/
  | ok (rows : ℤ)
  /-- it is refused, and nothing changes -/
  | refused
  /-- it is refused, and the open transaction is rolled back -/
  | aborted
  deriving DecidableEq

def Reply.isOk : Reply → Bool
  | .ok _ => true
  | _ => false

/-- What happens around a call. -/
structure Env where
  /-- the connection was lost before the call -/
  lost : Bool
  /-- the server accepts a new connection -/
  reachable : Bool
  reply : Reply
  deriving DecidableEq

/-- The batch that is open. -/
def Session.batch : Session U → List (List U)
  | .transaction us => [us]
  | _ => []

/-- A lost session discards its open transaction. -/
def Db.disconnect (d : Db U) : Db U := { d with session := .lost }

/-- A new session is in autocommit mode. -/
def Db.ping (d : Db U) (reachable : Bool) : Db U :=
  match d.session with
  | .lost => if reachable then { d with session := .autocommit } else d
  | _ => d

/-- The effect of a statement that the server accepts. -/
def Db.exec (d : Db U) : Stmt U → Db U
  | .start => ⟨.transaction [], d.committed ++ d.session.batch⟩
  | .update u =>
    match d.session with
    | .transaction us => ⟨.transaction (us ++ [u]), d.committed⟩
    | session => ⟨session, d.committed ++ [[u]]⟩
  | .commit => ⟨.autocommit, d.committed ++ d.session.batch⟩
  | .rollback => ⟨.autocommit, d.committed⟩

/-- A statement, and whether it is done. -/
def Db.query (d : Db U) (q : Stmt U) (reply : Reply) : Db U × Bool :=
  match d.session, reply with
  | .lost, _ => (d, false)
  | _, .ok _ => (d.exec q, true)
  | _, .refused => (d, false)
  | _, .aborted => ({ d with session := .autocommit }, false)

/-- The session that a statement meets. -/
def Db.linked (d : Db U) (e : Env) : Db U :=
  (if e.lost then d.disconnect else d).ping e.reachable

def Db.call (d : Db U) (e : Env) (q : Stmt U) : Db U × Bool := (d.linked e).query q e.reply

/-- A list of updates, and which of them are done. -/
def Db.updates (d : Db U) : List (U × Env) → Db U × List Bool
  | [] => (d, [])
  | (u, e) :: xs =>
    let r := d.call e (.update u)
    let rest := r.1.updates xs
    (rest.1, r.2 :: rest.2)

variable {d : Db U} {e : Env} {q : Stmt U} {u : U} {us : List U} {xs ys : List (U × Env)}

/-! ### One call -/

@[simp] theorem linked_committed : (d.linked e).committed = d.committed := by
  unfold Db.linked Db.ping Db.disconnect
  split_ifs <;> split <;> rfl

/-- A session that is not lost stays. -/
theorem linked_of_kept (hlost : e.lost = false) (hd : d.session ≠ .lost) : d.linked e = d := by
  unfold Db.linked Db.ping
  rw [hlost, if_neg Bool.false_ne_true]
  cases hs : d.session with
  | lost => exact absurd hs hd
  | autocommit | transaction _ => rfl

/-- A lost connection is replaced by a new session, if there is one. -/
theorem linked_of_lost (hlost : e.lost = true) :
    d.linked e = ⟨if e.reachable then .autocommit else .lost, d.committed⟩ := by
  unfold Db.linked Db.ping Db.disconnect
  rw [if_pos hlost]
  dsimp only
  split_ifs <;> rfl

/-- A session in autocommit mode is replaced by one in autocommit mode, if by any. -/
theorem linked_autocommit (hd : d.session = .autocommit) (hup : (d.linked e).session ≠ .lost) :
    d.linked e = d := by
  cases hlost : e.lost with
  | false => exact linked_of_kept hlost (by rw [hd]; exact nofun)
  | true =>
    rw [linked_of_lost hlost] at hup ⊢
    ext1
    · dsimp only at hup ⊢
      split_ifs at hup ⊢ with hreach
      · exact hd.symm
      · exact absurd rfl hup
    · rfl

/-- A statement that is done met a session, and had its effect. -/
theorem call_of_done (h : (d.call e q).2 = true) :
    (d.linked e).session ≠ .lost ∧ e.reply.isOk = true ∧ (d.call e q).1 = (d.linked e).exec q := by
  unfold Db.call Db.query at h ⊢
  cases hs : (d.linked e).session with
  | lost =>
    rw [hs] at h
    cases h
  | autocommit | transaction _ =>
    rw [hs] at h
    cases hr : e.reply with
    | ok rows => exact ⟨nofun, rfl, rfl⟩
    | refused | aborted =>
      rw [hr] at h
      cases h

theorem call_done_iff :
    (d.call e q).2 = true ↔ (d.linked e).session ≠ .lost ∧ e.reply.isOk = true := by
  refine ⟨fun h => ⟨(call_of_done h).1, (call_of_done h).2.1⟩, ?_⟩
  rintro ⟨hup, hok⟩
  unfold Db.call Db.query
  cases hr : e.reply with
  | ok rows =>
    cases hs : (d.linked e).session with
    | lost => exact absurd hs hup
    | autocommit | transaction _ => rfl
  | refused | aborted =>
    rw [hr] at hok
    cases hok

/-! ### Lists of updates -/

/-- All updates are done. -/
def AllDone (r : List Bool) : Prop := ∀ b ∈ r, b = true

instance (r : List Bool) : Decidable (AllDone r) :=
  inferInstanceAs (Decidable (∀ b ∈ r, b = true))

theorem allDone_cons {b : Bool} {r : List Bool} : AllDone (b :: r) ↔ b = true ∧ AllDone r :=
  List.forall_mem_cons

theorem updates_append :
    d.updates (xs ++ ys) = (((d.updates xs).1.updates ys).1,
      (d.updates xs).2 ++ ((d.updates xs).1.updates ys).2) := by
  induction xs generalizing d with
  | nil => rfl
  | cons x xs ih =>
    rw [List.cons_append, Db.updates, Db.updates, ih]
    rfl

/-- In autocommit mode every update is a batch. -/
theorem updates_autocommit (hd : d.session = .autocommit) (h : AllDone (d.updates xs).2) :
    (d.updates xs).1 = ⟨.autocommit, d.committed ++ xs.map fun x => [x.1]⟩ := by
  induction xs generalizing d with
  | nil =>
    rw [List.map_nil, List.append_nil, ← hd]
    rfl
  | cons x xs ih =>
    rw [Db.updates] at h ⊢
    obtain ⟨hdone, hrest⟩ := allDone_cons.mp h
    obtain ⟨hup, -, heff⟩ := call_of_done hdone
    rw [linked_autocommit hd hup] at heff
    have heff' : (d.call x.2 (.update x.1)).1 = ⟨.autocommit, d.committed ++ [[x.1]]⟩ := by
      rw [heff, Db.exec, hd]
    dsimp only
    rw [ih (by rw [heff']) hrest, heff', List.map_cons, List.append_assoc]
    rfl

/-- Within a transaction every update is pending. -/
theorem updates_transaction (hd : d.session = .transaction us) (h : AllDone (d.updates xs).2)
    (hkept : ∀ x ∈ xs, x.2.lost = false) :
    (d.updates xs).1 = ⟨.transaction (us ++ xs.map Prod.fst), d.committed⟩ := by
  induction xs generalizing d us with
  | nil =>
    rw [List.map_nil, List.append_nil, ← hd]
    rfl
  | cons x xs ih =>
    rw [Db.updates] at h ⊢
    obtain ⟨hx, hkept⟩ := List.forall_mem_cons.mp hkept
    obtain ⟨hdone, hrest⟩ := allDone_cons.mp h
    obtain ⟨-, -, heff⟩ := call_of_done hdone
    rw [linked_of_kept hx (by rw [hd]; exact nofun)] at heff
    have heff' : (d.call x.2 (.update x.1)).1 = ⟨.transaction (us ++ [x.1]), d.committed⟩ := by
      rw [heff, Db.exec, hd]
    have hsession : (d.call x.2 (.update x.1)).1.session = .transaction (us ++ [x.1]) := by
      rw [heff']
    dsimp only
    rw [ih hsession hrest hkept, heff', List.map_cons, List.append_assoc]
    rfl

/-- When the connection is lost within the transaction, the updates before are gone, and those
behind are batches. -/
theorem updates_broken {x : U × Env} (hd : d.session = .transaction us)
    (h : AllDone (d.updates (xs ++ x :: ys)).2) (hkept : ∀ x ∈ xs, x.2.lost = false)
    (hlost : x.2.lost = true) :
    (d.updates (xs ++ x :: ys)).1 =
      ⟨.autocommit, d.committed ++ (x :: ys).map fun x => [x.1]⟩ := by
  rw [updates_append] at h ⊢
  dsimp only at h ⊢
  have hxs : AllDone (d.updates xs).2 := fun b hb => h b (List.mem_append_left _ hb)
  have hys : AllDone ((d.updates xs).1.updates (x :: ys)).2 := fun b hb =>
    h b (List.mem_append_right _ hb)
  -- up to the loss the updates are pending; the call behind it meets a new session
  rw [updates_transaction hd hxs hkept] at hys ⊢
  rw [Db.updates] at hys ⊢
  obtain ⟨hdone, hrest⟩ := allDone_cons.mp hys
  obtain ⟨hup, -, heff⟩ := call_of_done hdone
  rw [linked_of_lost hlost] at hup heff
  -- the update was done, so there was a session to meet
  have hreach : x.2.reachable = true := by
    by_contra hr
    rw [if_neg hr] at hup
    exact hup rfl
  rw [if_pos hreach, Db.exec] at heff
  dsimp only at heff ⊢
  rw [updates_autocommit (by rw [heff]) hrest, heff, List.map_cons, List.append_assoc]
  rfl

/-! ### Sessions without their data -/

inductive Mode where
  | lost
  | autocommit
  | transaction
  deriving DecidableEq

def Session.mode : Session U → Mode
  | .lost => .lost
  | .autocommit => .autocommit
  | .transaction _ => .transaction

def Mode.linked (m : Mode) (e : Env) : Mode :=
  if e.lost ∨ m = .lost then if e.reachable then .autocommit else .lost else m

/-- The mode behind an update. -/
def Mode.replied (m : Mode) (reply : Reply) : Mode :=
  if m ≠ .lost ∧ reply = .aborted then .autocommit else m

/-- The mode behind a list of updates. -/
def Mode.after (m : Mode) : List Env → Mode
  | [] => m
  | e :: es => ((m.linked e).replied e.reply).after es

/-- No update is accepted in autocommit mode. -/
def Spared (m : Mode) : List Env → Prop
  | [] => True
  | e :: es => ¬ (m.linked e = .autocommit ∧ e.reply.isOk = true) ∧
      Spared ((m.linked e).replied e.reply) es

theorem mode_eq_lost : d.session.mode = .lost ↔ d.session = .lost := by
  cases d.session <;> simp [Session.mode]

theorem linked_mode : (d.linked e).session.mode = d.session.mode.linked e := by
  unfold Db.linked Db.ping Db.disconnect Mode.linked
  cases e.lost <;> cases e.reachable <;> cases hs : d.session <;> simp [hs, Session.mode]

/-- The mode behind an update, and what it commits by itself. -/
theorem call_update :
    (d.call e (.update u)).1.session.mode = (d.session.mode.linked e).replied e.reply ∧
      (d.call e (.update u)).1.committed = d.committed ++
        if d.session.mode.linked e = .autocommit ∧ e.reply.isOk = true then [[u]] else [] := by
  rw [← linked_mode, ← linked_committed (d := d) (e := e)]
  unfold Db.call Db.query Mode.replied
  -- every session and every reply
  cases hs : (d.linked e).session <;> cases e.reply <;> simp [hs, Session.mode, Db.exec, Reply.isOk]

/-- The updates that are accepted in autocommit mode are the batches that are committed. -/
theorem updates_committed (d : Db U) (xs : List (U × Env)) :
    (d.updates xs).1.session.mode = d.session.mode.after (xs.map Prod.snd) ∧
      ∃ batches, (d.updates xs).1.committed = d.committed ++ batches ∧
        (∀ b ∈ batches, ∃ u ∈ xs.map Prod.fst, b = [u]) ∧
        (batches = [] ↔ Spared d.session.mode (xs.map Prod.snd)) := by
  induction xs generalizing d with
  | nil => exact ⟨rfl, [], (List.append_nil _).symm, by simp, by simp [Spared]⟩
  | cons x xs ih =>
    obtain ⟨u, e⟩ := x
    -- an update that is accepted in autocommit mode is a batch, any other commits nothing
    obtain ⟨hmode, hcommitted⟩ := call_update (d := d) (e := e) (u := u)
    obtain ⟨hmode', batches, hcommitted', hsingle, hspared⟩ := ih (d.call e (.update u)).1
    rw [hmode] at hmode' hspared
    rw [hcommitted, List.append_assoc] at hcommitted'
    refine ⟨hmode', _, hcommitted', fun b hb => ?_, ?_⟩
    · rcases List.mem_append.mp hb with hb | hb
      · split_ifs at hb
        · exact ⟨u, List.mem_cons_self, List.mem_singleton.mp hb⟩
        · cases hb
      · obtain ⟨v, hv, rfl⟩ := hsingle b hb
        exact ⟨v, List.mem_cons_of_mem u hv, rfl⟩
    · rw [List.append_eq_nil_iff, hspared, List.map_cons, Spared]
      apply and_congr_left
      intro _
      by_cases hauto : d.session.mode.linked e = .autocommit ∧ e.reply.isOk = true
      · rw [if_pos hauto]
        exact ⟨fun h => absurd h (List.cons_ne_nil _ _), fun h => absurd hauto h⟩
      · rw [if_neg hauto]
        exact ⟨fun _ => hauto, fun _ => rfl⟩

/-! ### When calls are done -/

/-- A call that meets an open connection reaches the server. -/
def Env.Reaches (e : Env) : Prop := e.lost = true → e.reachable = true

theorem linked_ne_lost_iff (hd : d.session ≠ .lost) : (d.linked e).session ≠ .lost ↔ e.Reaches := by
  unfold Env.Reaches
  cases hlost : e.lost with
  | false =>
    rw [linked_of_kept hlost hd]
    exact ⟨fun _ hfalse => absurd hfalse Bool.false_ne_true, fun _ => hd⟩
  | true =>
    rw [linked_of_lost hlost]
    cases e.reachable <;> simp

/-- A statement that is done leaves a session. -/
theorem session_of_done (h : (d.call e q).2 = true) : (d.call e q).1.session ≠ .lost := by
  obtain ⟨hup, -, heff⟩ := call_of_done h
  rw [heff]
  unfold Db.exec
  cases q with
  | start | commit | rollback => exact nofun
  | update u =>
    dsimp only
    split
    · exact nofun
    · exact hup

/-- All updates are done if all calls reach the server and are accepted there. -/
theorem updates_done_iff (hd : d.session ≠ .lost) :
    AllDone (d.updates xs).2 ↔ ∀ x ∈ xs, x.2.Reaches ∧ x.2.reply.isOk = true := by
  induction xs generalizing d with
  | nil => exact ⟨fun _ => by simp, fun _ b hb => absurd hb List.not_mem_nil⟩
  | cons x xs ih =>
    rw [Db.updates, allDone_cons, List.forall_mem_cons, ← linked_ne_lost_iff hd, ← call_done_iff]
    apply and_congr_right
    intro hdone
    exact ih (session_of_done hdone)

/-- Updates that are done leave a session. -/
theorem session_of_updates (hd : d.session ≠ .lost) (h : AllDone (d.updates xs).2) :
    (d.updates xs).1.session ≠ .lost := by
  induction xs generalizing d with
  | nil => exact hd
  | cons x xs ih =>
    rw [Db.updates] at h ⊢
    obtain ⟨hdone, hrest⟩ := allDone_cons.mp h
    exact ih (session_of_done hdone) hrest

/-! ### Transactions -/

/-- The mode behind a statement that starts a transaction. -/
def Mode.started (m : Mode) (reply : Reply) : Mode :=
  if m = .lost then .lost
  else
    match reply with
    | .ok _ => .transaction
    | .refused => m
    | .aborted => .autocommit

theorem call_start :
    (d.call e .start).1.session.mode = (d.session.mode.linked e).started e.reply := by
  rw [← linked_mode]
  unfold Db.call Db.query Mode.started
  cases hs : (d.linked e).session <;> cases e.reply <;> simp [hs, Session.mode, Db.exec]

theorem session_of_start (h : (d.call e .start).2 = true) :
    (d.call e .start).1.session = .transaction [] := by
  obtain ⟨-, -, heff⟩ := call_of_done h
  rw [heff]
  rfl

/-- A commit behind updates that are pending in an open transaction. -/
theorem commit_pending (hd : d.session = .transaction us) (h : (d.call e .commit).2 = true) :
    (d.call e .commit).1.committed = d.committed ++ if e.lost then [] else [us] := by
  obtain ⟨hup, -, heff⟩ := call_of_done h
  cases hlost : e.lost with
  | false =>
    rw [heff, linked_of_kept hlost (by rw [hd]; exact nofun), Db.exec, hd]
    rfl
  | true =>
    rw [linked_of_lost hlost] at hup heff
    rw [heff, if_pos rfl]
    have hreach : e.reachable = true := by
      by_contra hr
      rw [if_neg hr] at hup
      exact hup rfl
    rw [if_pos hreach]
    rfl

/-- A commit in autocommit mode. -/
theorem commit_autocommit (hd : d.session = .autocommit) (h : (d.call e .commit).2 = true) :
    (d.call e .commit).1.committed = d.committed := by
  obtain ⟨hup, -, heff⟩ := call_of_done h
  rw [heff, linked_autocommit hd hup, Db.exec, hd]
  exact List.append_nil _

/-- The first update before which the connection was lost. -/
theorem exists_first_lost (h : ¬ ∀ x ∈ xs, x.2.lost = false) :
    ∃ pre x post, xs = pre ++ x :: post ∧ (∀ y ∈ pre, y.2.lost = false) ∧ x.2.lost = true := by
  induction xs with
  | nil => exact absurd (fun x hx => absurd hx List.not_mem_nil) h
  | cons y xs ih =>
    cases hy : y.2.lost with
    | true => exact ⟨[], y, xs, rfl, fun z hz => absurd hz List.not_mem_nil, hy⟩
    | false =>
      obtain ⟨pre, x, post, rfl, hpre, hx⟩ := ih fun hrest =>
        h (List.forall_mem_cons.mpr ⟨hy, hrest⟩)
      exact ⟨y :: pre, x, post, rfl, List.forall_mem_cons.mpr ⟨hy, hpre⟩, hx⟩

/-- The updates of a transaction in which every call was done are one batch if the connection
was kept, or if there is only one update and it was lost before it. -/
theorem commit_together_iff (hd : d.session = .transaction []) (h : AllDone (d.updates xs).2)
    (hcommit : ((d.updates xs).1.call e .commit).2 = true) :
    ∃ batches, ((d.updates xs).1.call e .commit).1.committed = d.committed ++ batches ∧
      ((xs = [] ∨ xs.map Prod.fst ∈ batches) ↔
        xs = [] ∨ ((∀ x ∈ xs, x.2.lost = false) ∧ e.lost = false) ∨
          ∃ x, xs = [x] ∧ x.2.lost = true) := by
  by_cases hkept : ∀ x ∈ xs, x.2.lost = false
  · -- all updates are pending
    have hpending := updates_transaction hd h hkept
    have hbatch := commit_pending (by rw [hpending]) hcommit
    rw [hpending] at hbatch ⊢
    refine ⟨_, hbatch, or_congr_right ?_⟩
    rw [List.nil_append]
    cases hlost : e.lost with
    | false => exact ⟨fun _ => Or.inl ⟨hkept, rfl⟩, fun _ => List.mem_singleton_self _⟩
    | true =>
      refine ⟨fun hmem => absurd hmem List.not_mem_nil, ?_⟩
      rintro (⟨-, hfalse⟩ | ⟨x, rfl, hx⟩)
      · cases hfalse
      · rw [hkept x (List.mem_singleton_self x)] at hx
        cases hx
  · -- the first update before which the connection was lost
    obtain ⟨pre, x, post, rfl, hpre, hx⟩ := exists_first_lost hkept
    have hbroken := updates_broken hd h hpre hx
    have hbatch := commit_autocommit (by rw [hbroken]) hcommit
    rw [hbroken] at hbatch ⊢
    refine ⟨_, hbatch, or_congr_right ?_⟩
    constructor
    · intro hmem
      -- a batch of one update is all of them, so nothing stands before it
      obtain ⟨y, hy, heq⟩ := List.mem_map.mp hmem
      have hlength := congrArg List.length heq
      rw [List.length_singleton, List.length_map, List.length_append, List.length_cons] at hlength
      have hnil : pre = [] ∧ post = [] := by
        constructor <;> refine List.length_eq_zero_iff.mp ?_ <;> omega
      obtain ⟨rfl, rfl⟩ := hnil
      exact Or.inr ⟨x, rfl, hx⟩
    · rintro (⟨hall, -⟩ | ⟨y, hy, -⟩)
      · exact absurd hall hkept
      · rw [hy]
        obtain ⟨rfl, hrest⟩ := List.append_eq_singleton_iff.mp hy |>.resolve_right (by simp)
        rw [hrest]
        exact List.mem_singleton_self _

/-- Before a rollback, no update was committed if none was accepted in autocommit mode. -/
theorem rollback_spares_iff (d : Db U) (xs : List (U × Env)) (e : Env) :
    ∃ batches, ((d.updates xs).1.call e .rollback).1.committed = d.committed ++ batches ∧
      ((∀ u ∈ xs.map Prod.fst, ∀ b ∈ batches, u ∉ b) ↔
        Spared d.session.mode (xs.map Prod.snd)) := by
  obtain ⟨-, batches, hcommitted, hsingle, hspared⟩ := updates_committed d xs
  refine ⟨batches, ?_, ?_⟩
  · -- a rollback commits nothing, whatever session it meets
    rw [← hcommitted, ← linked_committed (d := (d.updates xs).1) (e := e)]
    unfold Db.call Db.query
    split <;> rfl
  · rw [← hspared]
    constructor
    · intro hnone
      apply List.eq_nil_iff_forall_not_mem.mpr
      intro b hb
      obtain ⟨u, hu, rfl⟩ := hsingle b hb
      exact hnone u hu _ hb (List.mem_singleton_self u)
    · rintro rfl u - b hb
      cases hb

end MmorpgServer.Sql
