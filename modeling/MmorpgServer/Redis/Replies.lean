import MmorpgServer.Redis.Calls

/-!
# What becomes of an error reply

The operations look at the type of a reply or not, each in its own way. Some return a value that is
not the one they return without a connection when the server replies with an error.

## Main definitions

* `value` — what a call returns
* `Reported` — the operation reports an error as a failure

## Main results

* `result_error_iff` — what an operation makes of an error
* `error_reported_iff` — every operation in every state; and an acknowledged flush
-/

namespace MmorpgServer.Redis.Replies

variable {s s₀ s₁ s₂ : CacheConn} {c : RedisContext} {e e₀ : Env} {ret : ℤ}
  {evs evs₀ : List Event} {call : Call} {argv : List Bytes} {reply : Reply} {r : Result}

/-- What a call returns, with the container of the caller behind it -/
def value (r : Option (CacheConn × Result × List Event)) : Option Result := r.map fun r => r.2.1

/-- The operations that report an error as a failure. Those that return the text of the reply do so
when there is none. -/
def Reported : Call → (msg : Bytes) → Prop
  | .get _, _ | .hget _ _, _ | .isExists _, _ | .del _, _ | .hdel _ _, _ | .flushdb, _ => True
  | .set _ _, msg | .setex _ _ _, msg | .hmset _ _, msg => msg = []
  | _, _ => False

/-- Every operation makes something of an error. It is the value of a failure for some of them. -/
theorem result_error_iff (hdata : call.IsData) (msg : Bytes) :
    ∃ r, call.result (.error msg) = some r ∧ (r = call.fail ↔ Reported call msg) := by
  cases call with
  | init => exact hdata.elim
  | deInit => exact hdata.elim
  | _ => exact ⟨_, rfl, by simp [Call.fail, Reported, listResult, Reply.str, Reply.long]⟩

/-- A reply to the command is what the operation returns its value for. -/
theorem value_reply (hdata : call.IsData) (hinit : init s e = some (s₁, 0, evs))
    (hctx : s₁.pContext = some c) (herr : c.err = false) (hcmd : call.cmd = some (.ok argv))
    (hresult : call.result reply = some r) :
    value (run s (call, { e with answer := some reply })) = some r := by
  have hinit' : init s { e with answer := some reply } = some (s₁, 0, evs) := hinit
  rw [run_eq_operation hdata, hcmd, operation_sent hinit' hctx herr]
  simp [hresult, value]

/-- When `Init` fails, every operation returns its value for that. -/
theorem value_unready (hdata : call.IsData) (hinit : init s e = some (s₁, ret, evs))
    (hret : ret ≠ 0) : value (run s (call, e)) = some call.fail := by
  rw [run_eq_operation hdata, operation_unready hinit hret]
  rfl

/-- Every operation whose command is answered with an error returns the same as when `Init` fails,
exactly if it reports errors. An acknowledged flush is not reported as a success. -/
theorem error_reported_iff (hdata : call.IsData) (hinit : init s e = some (s₁, 0, evs))
    (hctx : s₁.pContext = some c) (herr : c.err = false) (hcmd : call.cmd = some (.ok argv))
    (hfail : init s₀ e₀ = some (s₂, ret, evs₀)) (hret : ret ≠ 0) (msg : Bytes) :
    (value (run s (call, { e with answer := some (.error msg) })) = value (run s₀ (call, e₀)) ↔
      Reported call msg) ∧
    value (run s (.flushdb, { e with answer := some (.status (bytes "OK")) })) =
      some (.bool false) := by
  constructor
  · obtain ⟨r, hresult, hiff⟩ := result_error_iff hdata msg
    rw [value_reply hdata hinit hctx herr hcmd hresult, value_unready hdata hfail hret]
    simp [hiff]
  · exact value_reply trivial hinit hctx herr rfl rfl

/-- A server that can be reached, and one that cannot -/
def up (answer : Reply) : Env := ⟨1, .connected, none, some (.status (bytes "OK")), some answer⟩

def down : Env := ⟨1, .null, none, none, none⟩

/-- `get` on a key of another type, through a new connection -/
theorem error_reported_iff_get :
    (value (run (create 0 []) (.get (bytes "k"), up (.error (bytes "WRONGTYPE")))) =
        value (run (create 0 []) (.get (bytes "k"), down)) ↔
      Reported (.get (bytes "k")) (bytes "WRONGTYPE")) ∧
    value (run (create 0 []) (.flushdb, up (.status (bytes "OK")))) = some (.bool false) := by
  have hdata : Call.IsData (.get (bytes "k")) := trivial
  have hinit : init (create 0 []) (up .nil) = some (_, 0, _) := rfl
  have hfail : init (create 0 []) down = some (_, 1, _) := rfl
  exact error_reported_iff hdata hinit rfl rfl rfl hfail (by decide) (bytes "WRONGTYPE")

/-- `set` returns the text of an error, `lpush` the length `0`, and `mget` that it succeeded. -/
theorem error_not_reported :
    value (run (create 0 []) (.set (bytes "k") (bytes "v"), up (.error (bytes "OOM")))) =
        some (.str (bytes "OOM")) ∧
      value (run (create 0 []) (.set (bytes "k") (bytes "v"), down)) = some (.str []) ∧
      value (run (create 0 []) (.lpush (bytes "k") (bytes "v"), up (.error (bytes "WRONGTYPE")))) =
        some (.long 0) ∧
      value (run (create 0 []) (.lpush (bytes "k") (bytes "v"), down)) = some (.long (-1)) ∧
      value (run (create 0 []) (.mget [bytes "k"] fun _ => none, up (.error (bytes "LOADING")))) =
        some (.map true fun _ => none) ∧
      value (run (create 0 []) (.mget [bytes "k"] fun _ => none, down)) =
        some (.map false fun _ => none) ∧
      value (run (create 0 []) (.flushdb, up (.status (bytes "OK")))) = some (.bool false) :=
  ⟨rfl, rfl, rfl, rfl, rfl, rfl, rfl⟩

end MmorpgServer.Redis.Replies
