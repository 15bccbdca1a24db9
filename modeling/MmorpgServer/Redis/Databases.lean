import MmorpgServer.Redis.Server
import MmorpgServer.Lib.Trace

/-!
# In which database commands run

A cache is configured with the index of a database. `Init` selects the database `0`, so the index
plays no part: every command of every connection runs there, and caches with different indices
share their data.

## Main definitions

* `database` — the database of a connection
* `Against` — the commands of a trace run in the database with an index
* `Server`, `World` — two connections and a server
* `Isolated` — the results of the second connection do not depend on the first

## Main results

* `database_eq_zero` — the database of every connection in every run
* `not_isolated` — different indices do not isolate
* `against_iff` — both
-/

namespace MmorpgServer.Redis.Databases

open Machine Trace

variable {s s' : CacheConn} {c : RedisContext} {e : Env} {tr evs : List Event} {ret : ℤ}
  {id : ℕ} {x : Event} {act : Call × Env} {acts : List (Call × Env)} {password : Bytes}

/-! ### The property -/

/-- The constructor with an `int`, as a pool calls it -/
def newCacheConn (dbIndex : Int32) (password : Bytes) : CacheConn :=
  create dbIndex.toUInt32.toUInt16 password

/-- The database of a connection once the event was seen -/
def select (id : ℕ) (db : Int32) : Event → Int32
  | .select c db' true => if c = id then db' else db
  | _ => db

/-- The database of a connection: the one of the last `SELECT` that was accepted, or `0` -/
def database (tr : List Event) (id : ℕ) : Int32 := tr.foldl (select id) 0

/-- The commands of the operations run in the database `dbIndex`. -/
def Against (dbIndex : Int32) (tr : List Event) : Prop :=
  ∀ pre c argv post, tr = pre ++ .data c argv :: post → database pre c = dbIndex

/-- No operation sends its command. -/
def Silent (tr : List Event) : Prop := ∀ c argv, .data c argv ∉ tr

/-! #### Two connections -/

/-- Two connections to a server with its databases -/
structure World (DB : Type) where
  first : CacheConn
  second : CacheConn
  dbs : Int32 → DB

inductive Side where
  | first
  | second
  deriving DecidableEq

/-- A call through one of the connections. What the second one returns is seen. -/
def World.step {DB : Type} (server : Server DB) (w : World DB) :
    Side × Call × Env → Option (World DB × List Result)
  | (.first, act) => (Client.step server ⟨w.first, w.dbs⟩ act).map fun r =>
      (⟨r.1.conn, w.second, r.1.dbs⟩, [])
  | (.second, act) => (Client.step server ⟨w.second, w.dbs⟩ act).map fun r =>
      (⟨w.first, r.1.conn, r.1.dbs⟩, r.2)

/-- Without the calls through the first connection, the second one returns the same. -/
def Isolated {DB : Type} (server : Server DB) (w : World DB) : Prop :=
  ∀ acts u results u' results',
    exec (traced (World.step server)) (w, []) acts = some (u, results) →
    exec (traced (World.step server)) (w, []) (acts.filter fun act => act.1 = .second) =
      some (u', results') →
    results = results'

/-- A server with the commands `SET` and `GET` -/
def keyValue : Server StrMap
  | [cmd, key, value], db =>
    if cmd = bytes "SET" then (Function.update db key (some value), .status (bytes "OK"))
    else (db, .error (bytes "ERR"))
  | [cmd, key], db =>
    if cmd = bytes "GET" then (db, ((db key).map Reply.string).getD .nil)
    else (db, .error (bytes "ERR"))
  | _, db => (db, .error (bytes "ERR"))

/-! ### The database of a connection -/

/-- A `SELECT` is one of the database `0`. -/
def SelectsZero (x : Event) : Prop := ∀ c db ok, x = .select c db ok → db = 0

theorem database_of_selectsZero (h : ∀ x ∈ tr, SelectsZero x) : database tr id = 0 := by
  induction tr using List.reverseRecOn with
  | nil => rfl
  | append_singleton tr x ih =>
    have hrest := ih fun y hy => h y (by simp [hy])
    have hx := h x (by simp)
    unfold database at hrest ⊢
    rw [List.foldl_append, hrest, List.foldl_cons, List.foldl_nil]
    cases x with
    | select c db ok =>
      obtain rfl := hx c db ok rfl
      cases ok with
      | false => rfl
      | true => exact ite_self 0
    | _ => rfl

theorem handshake_selectsZero {c' : RedisContext}
    (h : handshake password c e = some (c', ret, evs)) : ∀ x ∈ evs, SelectsZero x := by
  have hone : ∀ id ok, SelectsZero (.select id 0 ok) := by
    rintro id ok _ _ _ ⟨⟩
    rfl
  have hauth : ∀ id ok, SelectsZero (.auth id ok) := nofun
  unfold handshake at h
  split_ifs at h with hempty
  · obtain ⟨⟨c₁, ret₁⟩, -, h⟩ := Option.bind_eq_some_iff.mp h
    cases h
    simp [hone]
  · obtain ⟨⟨c₁, ok⟩, -, h⟩ := Option.bind_eq_some_iff.mp h
    cases ok with
    | false =>
      cases h
      simp [hauth]
    | true =>
      obtain ⟨⟨c₂, ret₂⟩, -, h⟩ := Option.bind_eq_some_iff.mp h
      cases h
      simp [hone, hauth]

theorem init_selectsZero (h : init s e = some (s', ret, evs)) : ∀ x ∈ evs, SelectsZero x := by
  have hinit : ∀ c ret, SelectsZero (.init c ret) := nofun
  unfold init at h
  cases hctx : s.pContext with
  | some c =>
    simp only [hctx] at h
    cases h
    simp [hinit]
  | none =>
    simp only [hctx] at h
    split_ifs at h with htime
    · cases h
      simp [hinit]
    · cases hconnect : e.connect with
      | null =>
        simp only [hconnect] at h
        cases h
        simp [hinit]
      | failed =>
        simp only [hconnect] at h
        cases h
        simp [SelectsZero]
      | connected =>
        simp only [hconnect] at h
        obtain ⟨⟨c, ret₁, evs₁⟩, hshake, h⟩ := Option.bind_eq_some_iff.mp h
        cases h
        intro x hx
        simp only [List.cons_append, List.mem_cons, List.mem_append, List.not_mem_nil,
          or_false] at hx
        rcases hx with rfl | hx | rfl
        · exact nofun
        · exact handshake_selectsZero hshake x hx
        · exact hinit _ _

theorem step_selectsZero (h : step s act = some (s', evs)) : ∀ x ∈ evs, SelectsZero x := by
  rcases step_cases h with ⟨-, hdeInit⟩ | ⟨-, s₁, ret, evs₁, hinit, hrest⟩
  · unfold deInit at hdeInit
    cases hctx : s.pContext <;> simp only [hctx] at hdeInit <;> cases hdeInit <;>
      simp [SelectsZero]
  · have h₁ := init_selectsZero hinit
    have hsent : ∀ (sent : Option (List Bytes)) id,
        ∀ x ∈ (sent.map (Event.data id)).toList, SelectsZero x := by
      intro sent id x hx
      rw [Option.mem_toList] at hx
      obtain ⟨argv, -, rfl⟩ := Option.map_eq_some_iff.mp hx
      exact nofun
    intro x hx
    rcases hrest with ⟨-, rfl⟩ | ⟨c, -, -, sent, ⟨-, rfl⟩ | ⟨-, rfl⟩⟩
    · exact h₁ x hx
    · rcases List.mem_append.mp hx with hx | hx
      · exact h₁ x hx
      · exact hsent sent c.id x hx
    · rcases List.mem_append.mp hx with hx | hx
      · rcases List.mem_append.mp hx with hx | hx
        · exact h₁ x hx
        · exact hsent sent c.id x hx
      · cases List.mem_singleton.mp hx
        exact nofun

/-- In every run every connection stays in the database `0`. -/
theorem database_eq_zero (hrun : exec (traced step) (s, []) acts = some (s', tr)) {pre post}
    (hsplit : tr = pre ++ post) (id : ℕ) : database pre id = 0 := by
  have hall : ∀ x ∈ tr, SelectsZero x := by
    refine exec_invariant (I := fun st => ∀ x ∈ st.2, SelectsZero x) ?_ (by simp) hrun
    intro st act st' h hone
    obtain ⟨s', evs, hstep, rfl⟩ := traced_eq_some.mp hone
    exact List.forall_mem_append.mpr ⟨h, step_selectsZero hstep⟩
  refine database_of_selectsZero fun x hx => hall x ?_
  rw [hsplit]
  exact List.mem_append_left post hx

/-- The commands of a run are run in the database with an index exactly if it is `0`, or there
are no commands. -/
theorem against_iff_silent (hrun : exec (traced step) (s, []) acts = some (s', tr))
    (dbIndex : Int32) : Against dbIndex tr ↔ dbIndex = 0 ∨ Silent tr := by
  constructor
  · intro h
    refine or_iff_not_imp_right.mpr fun hsilent => ?_
    unfold Silent at hsilent
    push Not at hsilent
    obtain ⟨c, argv, hmem⟩ := hsilent
    obtain ⟨pre, post, hsplit⟩ := List.append_of_mem hmem
    rw [← h pre c argv post hsplit]
    exact database_eq_zero hrun hsplit c
  · rintro (rfl | hsilent) pre c argv post hsplit
    · exact database_eq_zero hrun hsplit c
    · refine absurd ?_ (hsilent c argv)
      rw [hsplit]
      simp

/-! ### Two connections -/

/-- A server that can be reached, and that takes the password -/
def hello : Env := ⟨1, .connected, some (.status (bytes "OK")), some (.status (bytes "OK")),
  some .nil⟩

/-- `Init` with such a server -/
theorem init_hello (dbIndex : Int32) (password : Bytes) :
    ∃ s c evs, init (newCacheConn dbIndex password) hello = some (s, 0, evs) ∧
      s.pContext = some c ∧ c.err = false ∧ c.selected = some 0 := by
  by_cases hempty : password = []
  · subst hempty
    exact ⟨_, _, _, rfl, rfl, rfl, rfl⟩
  · have hshake : handshake password ⟨0, false, false, none⟩ hello =
        some (⟨0, false, true, some 0⟩, 0, [.auth 0 true, .select 0 0 true]) := by
      unfold handshake
      rw [if_neg hempty]
      rfl
    refine ⟨{ newCacheConn dbIndex password with
      pContext := some ⟨0, false, true, some 0⟩
      lastConnectTime := 1
      made := 1 }, _, [.connect 0, .auth 0 true, .select 0 0 true, .init (some 0) 0], ?_, rfl,
      rfl, rfl⟩
    show (handshake password ⟨0, false, false, none⟩ hello).bind _ = _
    rw [hshake]
    rfl

/-- Such a connection sends its first command to the database `0`. -/
theorem client_hello {DB : Type} (server : Server DB) (dbs : Int32 → DB) {call : Call}
    {argv : List Bytes} {r : Result} (dbIndex : Int32) (password : Bytes) (hdata : call.IsData)
    (hcmd : call.cmd = some (.ok argv)) (hresult : call.result (server argv (dbs 0)).2 = some r) :
    ∃ s, Client.step server ⟨newCacheConn dbIndex password, dbs⟩ (call, hello) =
      some (⟨s, Function.update dbs 0 (server argv (dbs 0)).1⟩, [r]) := by
  obtain ⟨s, c, evs, hinit, hctx, herr, hdb⟩ := init_hello dbIndex password
  have hone := Client.step_sent server dbs (r := r) hdata hinit hctx herr hcmd
    (by simp [hello])
  rw [hdb, Option.getD_some] at hone
  exact ⟨s, hone hresult⟩

/-- Connections are not isolated whatever their indices are: what the first one stores, the second
one finds. -/
theorem not_isolated (dbIndex dbIndex' : Int32) (password password' : Bytes) :
    ¬ Isolated keyValue ⟨newCacheConn dbIndex password, newCacheConn dbIndex' password',
      fun _ _ => none⟩ := by
  intro h
  have hset : Call.IsData (.set (bytes "k") (bytes "v")) := trivial
  have hget : Call.IsData (.get (bytes "k")) := trivial
  obtain ⟨s₁, hfirst⟩ := client_hello keyValue (fun _ _ => none) dbIndex
    password hset rfl rfl
  -- `get` behind `set`, and `get` alone
  obtain ⟨s₂, hbehind⟩ := client_hello keyValue (Function.update (fun _ _ => none) 0
      (keyValue [bytes "SET", cstr (bytes "k"), cstr (bytes "v")] fun _ => none).1)
    dbIndex' password' hget (r := .str (bytes "v")) rfl rfl
  obtain ⟨s₃, halone⟩ := client_hello keyValue (fun _ _ => none) dbIndex' password'
    hget (r := .str []) rfl rfl
  have hboth : exec (traced (World.step keyValue)) (⟨newCacheConn dbIndex password,
      newCacheConn dbIndex' password', fun _ _ => none⟩, [])
      [(.first, .set (bytes "k") (bytes "v"), hello), (.second, .get (bytes "k"), hello)] =
        some (_, [.str (bytes "v")]) :=
    (exec_traced_cons (congrArg (Option.map _) hfirst)).mpr
      ((exec_traced_cons (congrArg (Option.map _) hbehind)).mpr rfl)
  have hone : exec (traced (World.step keyValue)) (⟨newCacheConn dbIndex password,
      newCacheConn dbIndex' password', fun _ _ => none⟩, []) [(.second, .get (bytes "k"), hello)] =
        some (_, [.str []]) :=
    (exec_traced_cons (congrArg (Option.map _) halone)).mpr rfl
  have heq := h _ _ _ _ _ hboth hone
  have hlist := Result.str.inj (List.cons.inj heq).1
  exact absurd hlist (by decide)

/-- In every run of a connection, its commands run in the database with the configured index
exactly if the index is `0`, or no command is sent; and whatever the indices of two connections
are, the second one is not isolated from the first. -/
theorem against_iff (dbIndex dbIndex' : Int32) (password password' : Bytes) :
    (∀ acts s tr, exec (traced step) (newCacheConn dbIndex password, []) acts = some (s, tr) →
      (Against dbIndex tr ↔ dbIndex = 0 ∨ Silent tr)) ∧
    (∀ acts s tr, exec (traced step) (newCacheConn dbIndex' password', []) acts = some (s, tr) →
      (Against dbIndex' tr ↔ dbIndex' = 0 ∨ Silent tr)) ∧
    ¬ Isolated keyValue ⟨newCacheConn dbIndex password, newCacheConn dbIndex' password',
      fun _ _ => none⟩ :=
  ⟨fun _ _ _ hrun => against_iff_silent hrun dbIndex,
    fun _ _ _ hrun => against_iff_silent hrun dbIndex',
    not_isolated dbIndex dbIndex' password password'⟩

/-- `flushdb` through a connection that is configured with the index `1` empties the
database `0`. -/
theorem not_against_flushdb :
    ∃ s tr, exec (traced step) (newCacheConn 1 [], []) [(.flushdb, hello)] = some (s, tr) ∧
      .data 0 [bytes "FLUSHDB"] ∈ tr ∧ database tr 0 = 0 ∧ ¬ Against 1 tr := by
  refine ⟨_, _, rfl, by decide, by decide, fun h => ?_⟩
  have hdb := h [.connect 0, .select 0 0 true, .init (some 0) 0] 0 [bytes "FLUSHDB"] [] rfl
  exact absurd hdb (by decide)

end MmorpgServer.Redis.Databases
