import MmorpgServer.Redis.Commands
import MmorpgServer.Redis.Server
import MmorpgServer.Lib.Machine

/-!
# What is stored is read back

Behind `set`, `hset`, `hmset` and `rpush`, the operations that read return what was stored, if the
server implements the commands, the strings have no zero byte, and the commands are shorter than
2 GiB. The server is a parameter; what it is expected to do is stated on a view of its database.

## Main definitions

* `Value`, `Implements` — what a database holds, and what the commands do to it
* `RoundTrips` — what is stored is read back
* `store` — a server

## Main results

* `insertPairs_pairs` — `hgetAll` reads what the server holds
* `roundTrips` — what is stored through a connection is read back
* `verbatim_iff` — the commands of every operation, and the round trips
* `store_implements` — there is such a server
-/

namespace MmorpgServer.Redis.RoundTrip

open Machine Commands

/-! ### The server -/

/-- What a database holds under a key -/
inductive Value where
  | str (x : Bytes)
  | hash (h : List (Bytes × Bytes))
  | list (l : List Bytes)

/-- The fields of a hash, none when there is no such key -/
def hashAt : Option Value → Option (List (Bytes × Bytes))
  | none => some []
  | some (.hash h) => some h
  | _ => none

/-- The elements of a list, none when there is no such key -/
def listAt : Option Value → Option (List Bytes)
  | none => some []
  | some (.list l) => some l
  | _ => none

/-- The elements from `start` to `stop`, both included. A negative number counts from the end. -/
def range {α : Type} (l : List α) (start stop : ℤ) : List α :=
  let first := if start < 0 then start + l.length else start
  let last := if stop < 0 then stop + l.length else stop
  (l.take (last + 1).toNat).drop first.toNat

/-- The fields and values of a hash in a row -/
def flatten {α : Type} (f : Bytes → α) (h : List (Bytes × Bytes)) : List α :=
  h.flatMap fun p => [f p.1, f p.2]

/-- What the commands do, as far as the round trips need it -/
structure Implements {DB : Type} (server : Server DB) (view : DB → Bytes → Option Value) :
    Prop where
  set : ∀ d key value, (server [bytes "SET", key, value] d).2 = .status (bytes "OK") ∧
    view (server [bytes "SET", key, value] d).1 key = some (.str value)
  get : ∀ d key value, view d key = some (.str value) →
    (server [bytes "GET", key] d).2 = .string value
  hset : ∀ d key field value h, hashAt (view d key) = some h → ∃ n h',
    (server [bytes "HSET", key, field, value] d).2 = .integer n ∧
    view (server [bytes "HSET", key, field, value] d).1 key = some (.hash h') ∧
    h'.lookup field = some value
  hget : ∀ d key field value h, hashAt (view d key) = some h → h.lookup field = some value →
    (server [bytes "HGET", key, field] d).2 = .string value
  /-- a hash without fields does not exist -/
  hmset : ∀ d key hash, view d key = none → (hash.map Prod.fst).Nodup → ∃ h,
    hashAt (view (server (bytes "HMSET" :: key :: flatten id hash) d).1 key) = some h ∧
    h.Perm hash
  hgetall : ∀ d key h, hashAt (view d key) = some h →
    (server [bytes "HGETALL", key] d).2 = .array (flatten .string h)
  rpush : ∀ d key value l, listAt (view d key) = some l → ∃ n,
    (server [bytes "RPUSH", key, value] d).2 = .integer n ∧
    listAt (view (server [bytes "RPUSH", key, value] d).1 key) = some (l ++ [value])
  lrange : ∀ d key (start stop : Int64) l, listAt (view d key) = some l →
    (server [bytes "LRANGE", key, decimal start.toInt, decimal stop.toInt] d).2 =
      .array ((range l start.toInt stop.toInt).map .string)

/-! ### The property -/

/-- The calls, one after the other, return `r` in the end. -/
def Ends {DB : Type} (server : Server DB) (w : Client DB) (acts : List (Call × Env))
    (r : Result) : Prop :=
  ∃ u results, exec (traced (Client.step server)) (w, []) acts = some (u, results) ∧
    results.getLast? = some r

/-- What is stored through the connection `s` in its database `db` is read back, when the replies
arrive and nothing is cut off. -/
structure RoundTrips {DB : Type} (server : Server DB) (view : DB → Bytes → Option Value)
    (s : CacheConn) (db : Int32) : Prop where
  set_get : ∀ dbs key value e e', e.answer ≠ none → e'.answer ≠ none →
    Verbatim (.set key value) → Verbatim (.get key) →
    Ends server ⟨s, dbs⟩ [(.set key value, e), (.get key, e')] (.str value)
  hset_hget : ∀ dbs key field value e e', e.answer ≠ none → e'.answer ≠ none →
    Verbatim (.hset key field value) → Verbatim (.hget key field) →
    hashAt (view (dbs db) key) ≠ none →
    Ends server ⟨s, dbs⟩ [(.hset key field value, e), (.hget key field, e')] (.str value)
  hmset_hgetAll : ∀ dbs key hash e e', e.answer ≠ none → e'.answer ≠ none →
    Verbatim (.hmset key hash) → Verbatim (.hgetAll key fun _ => none) →
    (hash.map Prod.fst).Nodup → view (dbs db) key = none →
    Ends server ⟨s, dbs⟩ [(.hmset key hash, e), (.hgetAll key fun _ => none, e')]
      (.map true fun field => hash.lookup field)
  rpush_lrange : ∀ dbs key (pushes : List (Bytes × Env)) start stop retValue l e,
    (∀ p ∈ pushes, p.2.answer ≠ none ∧ Verbatim (.rpush key p.1)) → e.answer ≠ none →
    Verbatim (.lrange key start stop retValue) → listAt (view (dbs db) key) = some l →
    Ends server ⟨s, dbs⟩
      ((pushes.map fun p => (.rpush key p.1, p.2)) ++ [(.lrange key start stop retValue, e)])
      (.list true (retValue ++ range (l ++ pushes.map Prod.fst) start.toInt stop.toInt))

/-! ### Reading a hash -/

variable {DB : Type} {server : Server DB} {view : DB → Bytes → Option Value}
  {dbs dbs' dbs'' : Int32 → DB}
  {s : CacheConn} {c : RedisContext} {e e' : Env} {call call' : Call} {r r' : Result}
  {key field value : Bytes} {h hash : List (Bytes × Bytes)} {l : List Bytes} {m : StrMap}

/-- `insert` of fields and values in a row: a field of the map keeps its value. -/
theorem insertPairs_flatten :
    insertPairs (flatten .string h) m = fun field => (m field).or (h.lookup field) := by
  induction h generalizing m with
  | nil =>
    funext field
    show m field = (m field).or none
    rw [Option.or_none]
  | cons p h ih =>
    show insertPairs (flatten .string h) (if m p.1 = none then Function.update m p.1 (some p.2)
      else m) = _
    rw [ih]
    funext field
    rw [List.lookup_cons]
    by_cases heq : field = p.1
    · subst heq
      cases hm : m p.1 <;> simp [hm]
    · have hbeq : (field == p.1) = false := by simpa using heq
      rw [hbeq]
      split_ifs <;> simp [heq]

/-- In a hash every field has one value, whatever the order. -/
theorem lookup_eq_some (hnodup : (h.map Prod.fst).Nodup) :
    h.lookup field = some value ↔ (field, value) ∈ h := by
  induction h with
  | nil => simp
  | cons p h ih =>
    obtain ⟨hnew, hnodup⟩ := List.nodup_cons.mp hnodup
    rw [List.lookup_cons, List.mem_cons]
    by_cases heq : field = p.1
    · have hout : (field, value) ∉ h := fun hmem => hnew (heq ▸ List.mem_map_of_mem hmem)
      subst heq
      simp [hout, Prod.ext_iff, eq_comm]
    · have hbeq : (field == p.1) = false := by simpa using heq
      rw [hbeq, ← ih hnodup]
      simp [heq, Prod.ext_iff]

theorem lookup_perm (hnodup : (hash.map Prod.fst).Nodup) (hperm : h.Perm hash) (field : Bytes) :
    h.lookup field = hash.lookup field := by
  have hnodup' : (h.map Prod.fst).Nodup := (hperm.map Prod.fst).nodup_iff.mpr hnodup
  apply Option.ext
  intro value
  rw [lookup_eq_some hnodup', lookup_eq_some hnodup]
  exact hperm.mem_iff

/-! ### Round trips -/

/-- A call that stores, and one that reads -/
theorem ends_two (hone : Client.step server ⟨s, dbs⟩ (call, e) = some (⟨s, dbs'⟩, [r]))
    (htwo : Client.step server ⟨s, dbs'⟩ (call', e') = some (⟨s, dbs''⟩, [r'])) :
    Ends server ⟨s, dbs⟩ [(call, e), (call', e')] r' :=
  ⟨_, _, (exec_traced_cons hone).mpr ((exec_traced_cons htwo).mpr rfl), rfl⟩

section Ready

variable (hctx : s.pContext = some c) (herr : c.err = false)
include hctx herr

/-- A call through a connection that is there -/
theorem client_ready {d : DB} {reply : Reply} (hfixed : FixedFormat call)
    (hverbatim : Verbatim call) (hanswer : e.answer ≠ none) (hdb : dbs (c.selected.getD 0) = d)
    (hreply : (server (argv call) d).2 = reply) (hresult : call.result reply = some r) :
    Client.step server ⟨s, dbs⟩ (call, e) = some (⟨s, Function.update dbs (c.selected.getD 0)
      (server (argv call) d).1⟩, [r]) := by
  subst hdb hreply
  exact Client.step_sent server dbs hfixed.isData (init_ready hctx) hctx herr
    ((cmd_verbatim hfixed).mpr hverbatim) hanswer hresult

theorem set_get (himpl : Implements server view) (he : e.answer ≠ none) (he' : e'.answer ≠ none)
    (hverbatim : Verbatim (.set key value)) (hget : Verbatim (.get key)) :
    Ends server ⟨s, dbs⟩ [(.set key value, e), (.get key, e')] (.str value) := by
  obtain ⟨hreply, hview⟩ := himpl.set (dbs (c.selected.getD 0)) key value
  exact ends_two
    (client_ready hctx herr trivial hverbatim he rfl hreply rfl)
    (client_ready hctx herr trivial hget he' (Function.update_self ..)
      (himpl.get _ key value hview) rfl)

theorem hset_hget (himpl : Implements server view) (he : e.answer ≠ none)
    (he' : e'.answer ≠ none) (hverbatim : Verbatim (.hset key field value))
    (hget : Verbatim (.hget key field))
    (hkey : hashAt (view (dbs (c.selected.getD 0)) key) = some h) :
    Ends server ⟨s, dbs⟩ [(.hset key field value, e), (.hget key field, e')] (.str value) := by
  obtain ⟨n, h', hreply, hview, hlookup⟩ := himpl.hset _ key field value h hkey
  have hhash := congrArg hashAt hview
  exact ends_two
    (client_ready hctx herr trivial hverbatim he rfl hreply rfl)
    (client_ready hctx herr trivial hget he' (Function.update_self ..)
      (himpl.hget _ key field value h' hhash hlookup) rfl)

theorem hmset_hgetAll (himpl : Implements server view) (he : e.answer ≠ none)
    (he' : e'.answer ≠ none) (hverbatim : Verbatim (.hmset key hash))
    (hget : Verbatim (.hgetAll key fun _ => none))
    (hnodup : (hash.map Prod.fst).Nodup) (hkey : view (dbs (c.selected.getD 0)) key = none) :
    Ends server ⟨s, dbs⟩ [(.hmset key hash, e), (.hgetAll key fun _ => none, e')]
      (.map true fun field => hash.lookup field) := by
  obtain ⟨h, hview, hperm⟩ := himpl.hmset _ key hash hkey hnodup
  have hresult : Call.result (.hgetAll key fun _ => none) (.array (flatten .string h)) =
      some (.map true fun field => hash.lookup field) := by
    have heven : (flatten Reply.string h).length % 2 = 0 := by
      unfold flatten
      rw [List.length_flatMap]
      simp
    show some (Result.map true (if (flatten Reply.string h).length % 2 = 0 then _ else _)) = _
    rw [if_pos heven, insertPairs_flatten]
    congr 2
    funext field
    exact lookup_perm hnodup hperm field
  exact ends_two
    (client_ready hctx herr trivial hverbatim he rfl rfl rfl)
    (client_ready hctx herr trivial hget he' (Function.update_self ..)
      (himpl.hgetall _ key h hview) hresult)

/-- The elements are appended one after the other. -/
theorem exec_rpush (himpl : Implements server view) {pushes : List (Bytes × Env)}
    (hpushes : ∀ p ∈ pushes, p.2.answer ≠ none ∧ Verbatim (.rpush key p.1))
    (hkey : listAt (view (dbs (c.selected.getD 0)) key) = some l) (results : List Result) :
    ∃ dbs' results', exec (traced (Client.step server)) (⟨s, dbs⟩, results)
        (pushes.map fun p => (.rpush key p.1, p.2)) = some (⟨s, dbs'⟩, results') ∧
      listAt (view (dbs' (c.selected.getD 0)) key) = some (l ++ pushes.map Prod.fst) := by
  induction pushes generalizing dbs l results with
  | nil => exact ⟨dbs, results, rfl, by simpa using hkey⟩
  | cons p pushes ih =>
    obtain ⟨⟨hanswer, hverbatim⟩, hrest⟩ := List.forall_mem_cons.mp hpushes
    obtain ⟨n, hreply, hview⟩ := himpl.rpush _ key p.1 l hkey
    have hfixed : FixedFormat (.rpush key p.1) := trivial
    have hone := client_ready hctx herr hfixed hverbatim hanswer rfl hreply rfl
    have hkey' : listAt (view (Function.update dbs (c.selected.getD 0)
        (server (argv (.rpush key p.1)) (dbs (c.selected.getD 0))).1 (c.selected.getD 0)) key) =
          some (l ++ [p.1]) := by
      rw [Function.update_self]
      exact hview
    obtain ⟨dbs', results', hexec, hend⟩ := ih hrest hkey' (results ++ [.long n])
    refine ⟨dbs', results', (exec_traced_cons hone).mpr hexec, ?_⟩
    rw [hend, List.map_cons, List.append_assoc]
    rfl

theorem rpush_lrange (himpl : Implements server view) {pushes : List (Bytes × Env)}
    {start stop : Int64} {retValue : List Bytes}
    (hpushes : ∀ p ∈ pushes, p.2.answer ≠ none ∧ Verbatim (.rpush key p.1))
    (he : e.answer ≠ none) (hverbatim : Verbatim (.lrange key start stop retValue))
    (hkey : listAt (view (dbs (c.selected.getD 0)) key) = some l) :
    Ends server ⟨s, dbs⟩
      ((pushes.map fun p => (.rpush key p.1, p.2)) ++ [(.lrange key start stop retValue, e)])
      (.list true (retValue ++ range (l ++ pushes.map Prod.fst) start.toInt stop.toInt)) := by
  obtain ⟨dbs', results, hexec, hview⟩ := exec_rpush hctx herr himpl hpushes hkey []
  have hresult : Call.result (.lrange key start stop retValue)
      (.array ((range (l ++ pushes.map Prod.fst) start.toInt stop.toInt).map .string)) =
      some (.list true (retValue ++ range (l ++ pushes.map Prod.fst) start.toInt stop.toInt)) := by
    simp [Call.result, pushAll, listResult, Function.comp_def, Reply.str]
  have hfixed : FixedFormat (.lrange key start stop retValue) := trivial
  have hone := client_ready hctx herr hfixed hverbatim he rfl
    (himpl.lrange _ key start stop _ hview) hresult
  refine ⟨_, _, exec_append_eq_some.mpr ⟨_, hexec, (exec_traced_cons hone).mpr rfl⟩, ?_⟩
  simp

/-- What is stored through a connection is read back. -/
theorem roundTrips (himpl : Implements server view) :
    RoundTrips server view s (c.selected.getD 0) where
  set_get _ _ _ _ _ he he' hverbatim hget := set_get hctx herr himpl he he' hverbatim hget
  hset_hget _ _ _ _ _ _ he he' hverbatim hget hkey := by
    obtain ⟨h, hkey⟩ := Option.ne_none_iff_exists'.mp hkey
    exact hset_hget hctx herr himpl he he' hverbatim hget hkey
  hmset_hgetAll _ _ _ _ _ he he' hverbatim hget hnodup hkey :=
    hmset_hgetAll hctx herr himpl he he' hverbatim hget hnodup hkey
  rpush_lrange _ _ _ _ _ _ _ _ hpushes he hverbatim hkey :=
    rpush_lrange hctx herr himpl hpushes he hverbatim hkey

end Ready

/-- Every operation but `mget` that is called on a connection sends one command, and it has the
arguments of the caller, exactly if no string has a zero byte, and the bounds of `lrange` and the
length of the command are in the range of `int`; then what is stored is read back, if the server
implements the commands. -/
theorem verbatim_iff {DB : Type} {server : Server DB} {view : DB → Bytes → Option Value}
    {s : CacheConn} {c : RedisContext} (hctx : s.pContext = some c) (herr : c.err = false)
    (himpl : Implements server view) :
    (∀ call, FixedFormat call → ∀ e,
      ((∃ s' r evs, run s (call, e) = some (s', r, evs) ∧ commands evs = [argv call]) ↔
        Verbatim call)) ∧
    RoundTrips server view s (c.selected.getD 0) :=
  ⟨fun _ hfixed e => run_commands hfixed hctx herr e, roundTrips hctx herr himpl⟩

/-! ### A server -/

/-- Fields and values in a row, as pairs -/
def pairs : List Bytes → Option (List (Bytes × Bytes))
  | [] => some []
  | [_] => none
  | field :: value :: rest => (pairs rest).map ((field, value) :: ·)

theorem pairs_flatten : pairs (flatten id h) = some h := by
  induction h with
  | nil => rfl
  | cons p h ih =>
    show (pairs (flatten id h)).map (p :: ·) = _
    rw [ih]
    rfl

/-- What a command that needs a value of one type makes of it, or an error -/
def typed {α : Type} (v : Option α) (d : Bytes → Option Value)
    (run : α → (Bytes → Option Value) × Reply) : (Bytes → Option Value) × Reply :=
  match v with
  | some v => run v
  | none => (d, .error (bytes "WRONGTYPE"))

/-- A database of strings, hashes and lists, and its commands -/
def store : Server (Bytes → Option Value)
  | cmd :: key :: args, d =>
    if cmd = bytes "HMSET" then
      match pairs args with
      | some (p :: rest) => typed (hashAt (d key)) d fun h =>
        let others := h.filter fun q => q.1 ∉ (p :: rest).map Prod.fst
        (Function.update d key (some (.hash (p :: rest ++ others))), .status (bytes "OK"))
      | _ => (d, .error (bytes "ERR"))
    else
      match args with
      | [] =>
        if cmd = bytes "GET" then
          match d key with
          | none => (d, .nil)
          | some (.str value) => (d, .string value)
          | some _ => (d, .error (bytes "WRONGTYPE"))
        else if cmd = bytes "HGETALL" then
          typed (hashAt (d key)) d fun h => (d, .array (flatten .string h))
        else (d, .error (bytes "ERR"))
      | [x] =>
        if cmd = bytes "SET" then
          (Function.update d key (some (.str x)), .status (bytes "OK"))
        else if cmd = bytes "HGET" then
          typed (hashAt (d key)) d fun h => (d, ((h.lookup x).map Reply.string).getD .nil)
        else if cmd = bytes "RPUSH" then
          typed (listAt (d key)) d fun l =>
            (Function.update d key (some (.list (l ++ [x]))), .integer (Int64.ofNat (l.length + 1)))
        else (d, .error (bytes "ERR"))
      | [x, y] =>
        if cmd = bytes "HSET" then
          typed (hashAt (d key)) d fun h =>
            (Function.update d key (some (.hash ((x, y) :: h.filter fun q => q.1 ≠ x))),
              .integer (if h.lookup x = none then 1 else 0))
        else if cmd = bytes "LRANGE" then
          typed (listAt (d key)) d fun l =>
            (d, .array ((range l (undecimal x) (undecimal y)).map .string))
        else (d, .error (bytes "ERR"))
      | _ => (d, .error (bytes "ERR"))
  | _, d => (d, .error (bytes "ERR"))

theorem store_implements : Implements store id where
  set d key value := ⟨rfl, Function.update_self ..⟩
  get d key value hkey := by
    have hkey : d key = some (.str value) := hkey
    simp +decide [store, hkey]
  hset d key field value h hkey := by
    have hkey : hashAt (d key) = some h := hkey
    simp +decide [store, hkey, typed]
  hget d key field value h hkey hlookup := by
    have hkey : hashAt (d key) = some h := hkey
    simp +decide [store, hkey, typed, hlookup]
  hmset d key hash hkey _ := by
    have hkey : d key = none := hkey
    cases hash with
    | nil =>
      refine ⟨[], ?_, List.Perm.refl _⟩
      simp +decide [store, flatten, pairs, hkey, hashAt]
    | cons p rest =>
      refine ⟨p :: rest, ?_, List.Perm.refl _⟩
      simp +decide [store, pairs_flatten, hkey, hashAt, typed]
  hgetall d key h hkey := by
    have hkey : hashAt (d key) = some h := hkey
    simp +decide [store, hkey, typed]
  rpush d key value l hkey := by
    have hkey : listAt (d key) = some l := hkey
    have hend : ∀ l, listAt (some (.list l)) = some l := fun _ => rfl
    simp +decide [store, hkey, typed, hend]
  lrange d key start stop l hkey := by
    have hkey : listAt (d key) = some l := hkey
    simp +decide [store, hkey, typed, undecimal_decimal]

/-! ### Examples -/

/-- An object with a connection -/
def connected : CacheConn := ⟨some ⟨0, false, false, some 0⟩, 1, 0, [], 1⟩

/-- The reply arrives. -/
def arrives : Env := ⟨2, .null, none, none, some .nil⟩

theorem verbatim_iff_store :
    (∀ call, FixedFormat call → ∀ e,
      ((∃ s' r evs, run connected (call, e) = some (s', r, evs) ∧ commands evs = [argv call]) ↔
        Verbatim call)) ∧
    RoundTrips store id connected 0 := by
  have herr : RedisContext.err ⟨0, false, false, some 0⟩ = false := rfl
  exact verbatim_iff rfl herr store_implements

/-- A value with a zero byte is stored up to it, and the bound `2 ^ 32` of `lrange` is sent
as `0`. -/
theorem arguments_cut :
    ((run connected (.set (bytes "k") [97, 0, 98], arrives)).map fun r => commands r.2.2) =
        some [[bytes "SET", bytes "k", [97]]] ∧
      argv (.set (bytes "k") [97, 0, 98]) = [bytes "SET", bytes "k", [97, 0, 98]] ∧
      Ends store ⟨connected, fun _ _ => none⟩
        [(.set (bytes "k") [97, 0, 98], arrives), (.get (bytes "k"), arrives)] (.str [97]) ∧
      ((run connected (.lrange (bytes "k") 0 4294967296 [], arrives)).map fun r =>
        commands r.2.2) = some [[bytes "LRANGE", bytes "k", bytes "0", bytes "0"]] :=
  ⟨rfl, rfl, ⟨_, _, rfl, rfl⟩, rfl⟩

end MmorpgServer.Redis.RoundTrip
