import MmorpgServer.Redis.Calls

/-!
# A connection and its server

The server is a parameter: what a command does to a database, and the reply. A call through a
connection runs the command that is sent in the database of the connection.

## Main definitions

* `Server`, `Client` — a server, and one connection to it
* `serve` — what the server does during a call
* `Client.step` — a call, with what it returns

## Main results

* `Client.step_eq`, `Client.step_sent` — a command that is sent is run, and its reply returned
* `Client.step_not_sent` — without a command, the operation fails
-/

namespace MmorpgServer.Redis

/-- What a server does to a database and replies, given the arguments of a command -/
abbrev Server (DB : Type) := List Bytes → DB → DB × Reply

/-- A connection to a server with its databases -/
structure Client (DB : Type) where
  conn : CacheConn
  dbs : Int32 → DB

variable {DB : Type} {server : Server DB} {dbs : Int32 → DB} {s s₁ : CacheConn}
  {c : RedisContext} {call : Call} {e : Env} {evs : List Event} {argv : List Bytes} {r : Result}

/-- What the server does during a call: it runs the command that is sent on the connection, in the
database that was selected, or in `0`. The reply is lost if `e` has none. -/
def serve (server : Server DB) (dbs : Int32 → DB) (s : CacheConn) (call : Call) (e : Env) :
    (Int32 → DB) × Option Reply :=
  match init s e with
  | some (s, 0, _) =>
    match s.pContext, call.cmd with
    | some c, some (.ok argv) =>
      if c.err then (dbs, none)
      else
        let db := c.selected.getD 0
        let (d, reply) := server argv (dbs db)
        (Function.update dbs db d, e.answer.map fun _ => reply)
    | _, _ => (dbs, none)
  | _ => (dbs, none)

/-- A call through the connection; what it returns is seen. -/
def Client.step (server : Server DB) (w : Client DB) (act : Call × Env) :
    Option (Client DB × List Result) :=
  let (dbs, answer) := serve server w.dbs w.conn act.1 act.2
  (run w.conn (act.1, { act.2 with answer := answer })).map fun r => (⟨r.1, dbs⟩, [r.2.1])

/-- A command that is sent is run in the database of the connection, and the operation makes
something of the reply. -/
theorem Client.step_eq (server : Server DB) (dbs : Int32 → DB) (hdata : call.IsData)
    (hinit : init s e = some (s₁, 0, evs)) (hctx : s₁.pContext = some c) (herr : c.err = false)
    (hcmd : call.cmd = some (.ok argv)) (hanswer : e.answer ≠ none) :
    Client.step server ⟨s, dbs⟩ (call, e) =
      (call.result (server argv (dbs (c.selected.getD 0))).2).map fun r =>
        (⟨s₁, Function.update dbs (c.selected.getD 0)
          (server argv (dbs (c.selected.getD 0))).1⟩, [r]) := by
  obtain ⟨answer, hanswer⟩ := Option.ne_none_iff_exists'.mp hanswer
  have hserve : serve server dbs s call e =
      (Function.update dbs (c.selected.getD 0) (server argv (dbs (c.selected.getD 0))).1,
        some (server argv (dbs (c.selected.getD 0))).2) := by
    unfold serve
    rw [hinit, hcmd]
    simp [hctx, herr, hanswer]
  have hinit' : init s { e with answer := some (server argv (dbs (c.selected.getD 0))).2 } =
      some (s₁, 0, evs) := hinit
  unfold Client.step
  dsimp only
  rw [hserve]
  dsimp only
  rw [run_eq_operation hdata, hcmd, operation_sent hinit' hctx herr]
  simp [Function.comp_def]

/-- What the operation makes of the reply is returned. -/
theorem Client.step_sent (server : Server DB) (dbs : Int32 → DB) (hdata : call.IsData)
    (hinit : init s e = some (s₁, 0, evs)) (hctx : s₁.pContext = some c) (herr : c.err = false)
    (hcmd : call.cmd = some (.ok argv)) (hanswer : e.answer ≠ none)
    (hresult : call.result (server argv (dbs (c.selected.getD 0))).2 = some r) :
    Client.step server ⟨s, dbs⟩ (call, e) = some (⟨s₁, Function.update dbs (c.selected.getD 0)
      (server argv (dbs (c.selected.getD 0))).1⟩, [r]) := by
  rw [Client.step_eq server dbs hdata hinit hctx herr hcmd hanswer, hresult]
  rfl

/-- Without a command that is well-formed, an operation fails if it returns. -/
theorem Client.step_not_sent {w : Client DB} (hdata : call.IsData)
    (hinit : init s e = some (s₁, 0, evs)) (hcmd : ∀ argv, call.cmd ≠ some (.ok argv))
    (h : Client.step server ⟨s, dbs⟩ (call, e) = some (w, [r])) : r = call.fail := by
  have hstep : Client.step server ⟨s, dbs⟩ (call, e) =
      (run s (call, { e with answer := (serve server dbs s call e).2 })).map fun r =>
        (⟨r.1, (serve server dbs s call e).1⟩, [r.2.1]) := rfl
  rw [hstep] at h
  obtain ⟨⟨s', r', evs'⟩, hrun, heq⟩ := Option.map_eq_some_iff.mp h
  have hinit' : init s { e with answer := (serve server dbs s call e).2 } = some (s₁, 0, evs) :=
    hinit
  rw [run_eq_operation hdata] at hrun
  have hfail := (operation_not_sent hinit' hcmd hrun).1
  simp only [Prod.mk.injEq, List.cons.injEq, and_true] at heq
  rw [← heq.2, hfail]

end MmorpgServer.Redis
