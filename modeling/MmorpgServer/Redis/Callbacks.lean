import MmorpgServer.Redis.AsyncCommands
import MmorpgServer.Redis.DictWalk

/-!
# Every callback has the reply to its command

The callbacks of a connection are called in the order of their commands, each with the reply to its
own command, and with `NULL` when the connection is freed before. The callbacks may send commands,
disconnect, and free the connection. This is about commands that neither subscribe nor monitor.

## Main definitions

* `Regular` — what arrives was written by a server, and what is called is regular
* `Fifo` — what holds between the steps of the event loop

## Main results

* `callbacks_exact` — which callback is called with which reply
* `callbacks_complete` — no reply is left between two events
-/

namespace MmorpgServer.Redis.Async

open Wire Machine
open Session

variable {S : RedisServer} {s s' : Session} {a : Added} {label : Label} {acts : List Label}
  {script : List UserCall} {cb : RedisCallback} {reply : Option ReplyObject}

namespace Session

/-- The connection under an asynchronous one -/
def link (s : Session) : Link := ⟨s.ac.c, .idle, s.sent, s.received, s.commands, s.given⟩

end Session

/-- What holds in every phase -/
structure Core (S : RedisServer) (s : Session) : Prop where
  linked : Linked S s.link
  block : s.ac.c.block = false
  subscribed : s.ac.subscribed = false
  monitoring : s.ac.monitoring = false
  inCallback : s.ac.inCallback = false
  invalid : s.ac.invalid = []
  channels : s.ac.channels = dictCreate
  patterns : s.ac.patterns = dictCreate
  count : s.callbacks.length = s.commands.length
  queue : s.answered.map Prod.fst ++ s.ac.replies = s.callbacks
  runs : s.runs = s.answered.flatMap fun r => ran r.1 r.2

/-- While the connection is there, every callback that does not wait has its reply, and what is to
be written will be. -/
structure Alive (s : Session) : Prop where
  freeing : s.ac.freeing = false
  replies : s.answered.map Prod.snd = s.given.map some
  writing : s.ac.c.obuf ≠ [] → s.ac.writing = true

/-- While the connection is freed, no command is taken. Callbacks are called with `NULL` only
after an error, or where the program has freed the connection. -/
structure Ending (s : Session) : Prop where
  closed : s.ac.disconnecting = true ∨ s.ac.freeing = true
  replies : ∃ n, s.answered.map Prod.snd = s.given.map some ++ List.replicate n none ∧
    (n ≠ 0 → s.ac.c.err ≠ none ∨ s.ac.freeing = true)
  lost : s.ac.replies ≠ [] → s.ac.c.err ≠ none ∨ s.ac.freeing = true

/-- What holds in each phase -/
def Standing (s : Session) : Prop :=
  match s.phase with
  | .idle => Alive s ∧ s.given = (seen s.received).map object
  | .processing _ => Alive s
  | .teardown stage => Ending s ∧ (stage = .replies ∨ s.ac.replies = [] ∧
      (stage = .invalid ∨ stage = .channels dictGetIterator ∨ stage = .patterns dictGetIterator))
  | .freed => Ending s ∧ s.ac.replies = []
  | .crashed => False

theorem standing_teardown {stage : Stage} (hphase : s.phase = .teardown stage) (h : Ending s)
    (hstage : stage = .replies ∨ s.ac.replies = [] ∧
      (stage = .invalid ∨ stage = .channels dictGetIterator ∨ stage = .patterns dictGetIterator)) :
    Standing s := by
  unfold Standing
  rw [hphase]
  exact ⟨h, hstage⟩

/-- What holds between the steps of the event loop -/
structure Fifo (S : RedisServer) (s : Session) : Prop where
  core : Core S s
  standing : Standing s

theorem fifo_start (S : RedisServer) : Fifo S .start where
  core := { linked := linked_start S false, block := rfl, subscribed := rfl, monitoring := rfl,
            inCallback := rfl, invalid := rfl, channels := rfl, patterns := rfl, count := rfl,
            queue := rfl, runs := rfl }
  standing := ⟨⟨rfl, rfl, fun h => absurd rfl h⟩,
    (congrArg (List.map object) (seen_stream S [])).symm⟩

/-! ### Commands are added -/

/-- Commands go behind those that were taken before. -/
theorem Linked.add (h : Linked S s.link) (hadds : s.Adds a)
    (hfits : s.ac.c.obuf.length + (a.argvs.flatMap wire).length < 2 ^ 31) :
    Linked S (s.add a).link := by
  refine { h with out := ?_, small := ?_, fits := ?_, flushed := ?_ }
  · show s.sent ++ (s.ac.c.obuf ++ a.argvs.flatMap wire) = (s.commands ++ a.argvs).flatMap wire
    rw [← List.append_assoc, List.flatMap_append]
    exact congrArg (· ++ a.argvs.flatMap wire) h.out
  · intro argv hmem
    rcases List.mem_append.mp hmem with hmem | hmem
    · exact h.small argv hmem
    · exact hadds.small argv hmem
  · show (s.ac.c.obuf ++ a.argvs.flatMap wire).length < 2 ^ 31
    rwa [List.length_append]
  · exact fun hphase => absurd hphase (by simp [link])

theorem Core.add (h : Core S s) (hadds : s.Adds a)
    (hfits : s.ac.c.obuf.length + (a.argvs.flatMap wire).length < 2 ^ 31) : Core S (s.add a) := by
  refine { h with linked := Linked.add h.linked hadds hfits, count := ?_, queue := ?_ }
  · show (s.callbacks ++ a.cbs).length = (s.commands ++ a.argvs).length
    rw [List.length_append, List.length_append, h.count, hadds.length]
  · show s.answered.map Prod.fst ++ (s.ac.replies ++ a.cbs) = s.callbacks ++ a.cbs
    rw [← List.append_assoc, h.queue]

/-- A callback no longer waits: it is called with its reply, and adds to the connection. -/
theorem Core.answer {cbs : List RedisCallback} (h : Core S s) (reply : Option ReplyObject)
    (hcbs : s.ac.replies = cb :: cbs)
    (hfine : ∀ c ∈ script, Fine c)
    (hbytes : s.ac.c.obuf.length + scriptBytes script < 2 ^ 31) :
    ∃ a, redisRunCallback { s with
          ac := { s.ac with replies := cbs }
          answered := s.answered ++ [(cb, reply)] } cb reply script =
        Session.add { s with
          ac := { s.ac with replies := cbs }
          answered := s.answered ++ [(cb, reply)]
          runs := s.runs ++ ran cb reply } a ∧
      s.Adds a ∧
      Core S (Session.add { s with
          ac := { s.ac with replies := cbs }
          answered := s.answered ++ [(cb, reply)]
          runs := s.runs ++ ran cb reply } a) := by
  obtain ⟨a, hrun, hadds, hlen⟩ := @redisRunCallback_adds { s with
    ac := { s.ac with replies := cbs }
    answered := s.answered ++ [(cb, reply)] } script cb reply hfine h.subscribed h.inCallback
    (by omega)
  have hcore : Core S { s with
      ac := { s.ac with replies := cbs }
      answered := s.answered ++ [(cb, reply)]
      runs := s.runs ++ ran cb reply } := by
    refine { h with linked := { h.linked with }, queue := ?_, runs := ?_ }
    · show (s.answered ++ [(cb, reply)]).map Prod.fst ++ cbs = s.callbacks
      rw [← h.queue, hcbs, List.map_append, List.append_assoc]
      rfl
    · show s.runs ++ ran cb reply = (s.answered ++ [(cb, reply)]).flatMap fun r => ran r.1 r.2
      rw [List.flatMap_append, ← h.runs, List.flatMap_singleton]
  have hfits : s.ac.c.obuf.length + (a.argvs.flatMap wire).length < 2 ^ 31 := by omega
  exact ⟨a, hrun, { hadds with }, hcore.add { hadds with } hfits⟩

theorem Alive.add (h : Alive s) (hadds : s.Adds a) (hfree : (s.add a).ac.freeing = false) :
    Alive (s.add a) where
  freeing := hfree
  replies := h.replies
  writing := by
    intro hobuf
    by_cases hargvs : a.argvs = []
    · refine hadds.writing (.inl (h.writing fun hnil => hobuf ?_))
      show s.ac.c.obuf ++ a.argvs.flatMap wire = []
      rw [hnil, hargvs]
      rfl
    · exact hadds.writing (.inr hargvs)

/-! ### The connection is closed -/

/-- The connection is going to be freed, for one of the reasons that the client has. -/
theorem Alive.ending (h : Alive s) (hclosed : s.ac.disconnecting = true ∨ s.ac.freeing = true)
    (hlost : s.ac.replies ≠ [] → s.ac.c.err ≠ none ∨ s.ac.freeing = true) : Ending s where
  closed := hclosed
  replies := ⟨0, by rw [h.replies, List.replicate_zero, List.append_nil], fun hne => absurd rfl hne⟩
  lost := hlost

/-- A connection is closed after an error, or when no callback waits. -/
theorem Fifo.disconnectNow (hcore : Core S s) (halive : Alive s) (hphase : s.phase ≠ .crashed)
    (hwhy : s.ac.c.err ≠ none ∨ s.ac.replies = [] ∧ s.ac.disconnecting = true) :
    Fifo S s.redisAsyncDisconnectNow := by
  unfold redisAsyncDisconnectNow
  rw [if_neg hphase]
  dsimp only
  by_cases herr : s.ac.c.err = none
  · obtain ⟨hnil, hdis⟩ := hwhy.resolve_left fun hne => hne herr
    rw [if_pos herr, if_pos hnil]
    refine ⟨{ hcore with linked := { hcore.linked with } }, ?_, .inl rfl⟩
    exact Alive.ending { halive with } (.inl hdis) fun hne => absurd hnil hne
  · rw [if_neg herr]
    refine ⟨{ hcore with linked := { hcore.linked with } }, ?_, .inl rfl⟩
    exact Alive.ending { halive with } (.inl rfl) fun _ => .inl herr

/-! ### Calls of the program -/

theorem Fifo.call {c : UserCall} (h : Fifo S s) (hphase : s.phase = .idle) (hfine : Fine c)
    (hbytes : s.ac.c.obuf.length + callBytes c < 2 ^ 31) : Fifo S (s.call c) := by
  obtain ⟨hcore, hstand⟩ := h
  unfold Standing at hstand
  rw [hphase] at hstand
  obtain ⟨halive, hwaiting⟩ := hstand
  cases c with
  | command fn privdata cmd =>
    obtain ⟨a, hcall, hadds, hlen, hfree⟩ := call_adds hfine hcore.subscribed (by omega) (.inr rfl)
    rw [hcall]
    refine ⟨hcore.add hadds (by omega), ?_⟩
    unfold Standing
    rw [show (s.add a).phase = .idle from hphase]
    exact ⟨halive.add hadds ((hfree rfl).trans halive.freeing), hwaiting⟩
  | disconnect =>
    unfold Session.call redisAsyncDisconnect
    dsimp only
    split
    · next hnow =>
      exact Fifo.disconnectNow { hcore with linked := { hcore.linked with } } { halive with }
        (by simp [hphase]) (.inr ⟨hnow.2, rfl⟩)
    · refine ⟨{ hcore with linked := { hcore.linked with } }, ?_⟩
      unfold Standing
      rw [hphase]
      exact ⟨{ halive with }, hwaiting⟩
  | free =>
    unfold Session.call redisAsyncFree
    dsimp only
    rw [if_pos (by simp [hcore.inCallback])]
    refine ⟨{ hcore with linked := { hcore.linked with } }, ?_, .inl rfl⟩
    exact { closed := .inr rfl
            replies := ⟨0, by rw [halive.replies, List.replicate_zero, List.append_nil],
              fun hne => absurd rfl hne⟩
            lost := fun _ => .inr rfl }

/-! ### The socket is ready -/

/-- A script of the connect callback and of the disconnect callback: commands only -/
structure Outside (s : Session) (script : List UserCall) : Prop where
  fine : ∀ c ∈ script, Fine c
  commands : ∀ c ∈ script, isCommand c = true
  bytes : s.ac.c.obuf.length + scriptBytes script < 2 ^ 31

/-- Such a script adds to the connection, and frees nothing. -/
theorem Outside.run (h : Outside s script) (hsub : s.ac.subscribed = false) :
    ∃ a, s.runOutside script = s.add a ∧ s.Adds a ∧
      s.ac.c.obuf.length + (a.argvs.flatMap wire).length < 2 ^ 31 ∧
      (s.add a).ac.freeing = s.ac.freeing := by
  have hbytes := h.bytes
  obtain ⟨a, hscript, hadds, hlen, hfree⟩ := script_adds h.fine hsub (by omega) (.inr h.commands)
  refine ⟨a, ?_, hadds, by omega, hfree h.commands⟩
  unfold runOutside
  dsimp only
  rw [hscript]
  exact if_pos rfl

/-- A connection at rest -/
structure Rests (S : RedisServer) (s : Session) : Prop where
  core : Core S s
  phase : s.phase = .idle
  alive : Alive s
  waiting : s.given = (seen s.received).map object

theorem Fifo.rests (h : Fifo S s) (hphase : s.phase = .idle) : Rests S s := by
  obtain ⟨hcore, hstand⟩ := h
  unfold Standing at hstand
  rw [hphase] at hstand
  exact ⟨hcore, hphase, hstand.1, hstand.2⟩

theorem Rests.fifo (h : Rests S s) : Fifo S s := by
  refine ⟨h.core, ?_⟩
  unfold Standing
  rw [h.phase]
  exact ⟨h.alive, h.waiting⟩

theorem Rests.outside (h : Rests S s) (hscript : Outside s script) :
    Rests S (s.runOutside script) ∧ (s.runOutside script).received = s.received ∧
      (s.runOutside script).sent = s.sent ∧
      (s.runOutside script).ac.c.err = s.ac.c.err ∧
      (s.runOutside script).ac.c.reader = s.ac.c.reader := by
  obtain ⟨a, hrun, hadds, hfits, hfree⟩ := hscript.run h.core.subscribed
  rw [hrun]
  exact ⟨⟨h.core.add hadds hfits, h.phase, h.alive.add hadds (hfree.trans h.alive.freeing),
    h.waiting⟩, rfl, rfl, rfl, rfl⟩

/-- What the first event on a socket does -/
theorem Rests.handleConnect (h : Rests S s) {check : SocketCheck} (hscript : Outside s script) :
    ((s.redisAsyncHandleConnect check script).2 = false →
      Fifo S (s.redisAsyncHandleConnect check script).1) ∧
    ((s.redisAsyncHandleConnect check script).2 = true →
      Rests S (s.redisAsyncHandleConnect check script).1 ∧
        (s.redisAsyncHandleConnect check script).1.received = s.received ∧
        (s.redisAsyncHandleConnect check script).1.sent = s.sent ∧
        (s.redisAsyncHandleConnect check script).1.ac.c.err = s.ac.c.err ∧
        (s.redisAsyncHandleConnect check script).1.ac.c.reader = s.ac.c.reader) := by
  unfold redisAsyncHandleConnect
  by_cases hconnected : s.ac.connected = true
  · rw [if_pos hconnected]
    exact ⟨fun hfalse => absurd hfalse (by simp), fun _ => ⟨h, rfl, rfl, rfl, rfl⟩⟩
  · rw [if_neg hconnected]
    cases check with
    | ok =>
      refine ⟨fun hfalse => absurd hfalse (by simp), fun _ => ?_⟩
      have hrests : Rests S { s with ac := { s.ac with connected := true } } :=
        ⟨{ h.core with linked := { h.core.linked with } }, h.phase, { h.alive with }, h.waiting⟩
      dsimp only
      split
      · exact hrests.outside ⟨hscript.fine, hscript.commands, hscript.bytes⟩
      · exact ⟨hrests, rfl, rfl, rfl, rfl⟩
    | inProgress strerror =>
      refine ⟨fun _ => ?_, fun htrue => absurd htrue (by simp)⟩
      have hrests : Rests S { s with
          ac := { s.ac with c := redisSetError s.ac.c (some .io) strerror } } :=
        ⟨{ h.core with linked := { h.core.linked with } }, h.phase, { h.alive with }, h.waiting⟩
      exact hrests.fifo
    | failed strerror =>
      refine ⟨fun _ => ?_, fun htrue => absurd htrue (by simp)⟩
      have hrests : Rests S { s with
          ac := { s.ac with c := redisSetError s.ac.c (some .io) strerror } } :=
        ⟨{ h.core with linked := { h.core.linked with } }, h.phase, { h.alive with }, h.waiting⟩
      dsimp only
      split
      · obtain ⟨hrests', -, -, herr, -⟩ :=
          hrests.outside ⟨hscript.fine, hscript.commands, hscript.bytes⟩
        refine Fifo.disconnectNow hrests'.core hrests'.alive (by rw [hrests'.phase]; simp) (.inl ?_)
        rw [herr]
        simp [redisSetError]
      · refine Fifo.disconnectNow hrests.core hrests.alive (by rw [hrests.phase]; simp) (.inl ?_)
        simp [redisSetError]

/-- Bytes arrive. -/
theorem Rests.read (h : Rests S s) {res : ReadResult} (hreadable : Link.readable res = true)
    (hserved : Served S s.link (.read res)) :
    Fifo S (match redisBufferRead s.ac.c res with
      | (c, false) => redisAsyncDisconnectNow { s with
          received := s.received ++ Link.arrived s.ac.c res
          ac := { s.ac with c } }
      | (c, true) => { s with
          received := s.received ++ Link.arrived s.ac.c res
          ac := { s.ac with c, reading := true }
          phase := .processing ⟨none, 0, 0⟩ }) := by
  have hspec := redisBufferRead_spec s.ac.c res h.core.linked.reader_err
  have hstep : s.link.step (.read res) = some { s.link with
      context := (redisBufferRead s.ac.c res).1
      received := s.received ++ Link.arrived s.ac.c res } := by
    unfold Link.step
    dsimp only
    rw [if_neg (by simp [link, hreadable])]
    rcases hread : redisBufferRead s.ac.c res with ⟨c, _ | _⟩
    · rw [show s.link.context = s.ac.c from rfl, hread]
      rfl
    · rw [show s.link.context = s.ac.c from rfl, hread]
      exact if_neg (by simp [link])
  obtain ⟨hlinked, -, -, -⟩ := h.core.linked.read hserved hstep
  have halive : Alive s := h.alive
  rcases hread : redisBufferRead s.ac.c res with ⟨c, _ | _⟩
  · rw [hread] at hspec hlinked
    refine Fifo.disconnectNow
      { h.core with linked := hlinked, block := hspec.block.trans h.core.block }
      ⟨halive.freeing, halive.replies, ?_⟩ (by simp [h.phase]) (.inl (hspec.failed rfl))
    intro hobuf
    exact halive.writing (hspec.obuf ▸ hobuf)
  · rw [hread] at hspec hlinked
    refine ⟨{ h.core with linked := hlinked, block := hspec.block.trans h.core.block },
      halive.freeing, halive.replies, ?_⟩
    intro hobuf
    exact halive.writing (hspec.obuf ▸ hobuf)

/-- Bytes are written. -/
theorem Rests.write (h : Rests S s) {res : WriteResult}
    (hwritable : Link.writable s.ac.c res = true) :
    Fifo S (match redisBufferWrite s.ac.c res with
      | (c, none) => redisAsyncDisconnectNow { s with
          sent := s.sent ++ Link.taken s.ac.c res
          ac := { s.ac with c } }
      | (c, some done) => { s with
          sent := s.sent ++ Link.taken s.ac.c res
          ac := { s.ac with c, writing := !done, reading := true } }) := by
  have hspec := redisBufferWrite_spec s.ac.c res h.core.linked.fits hwritable
  have hstep : s.link.step (.write res) = some { s.link with
      context := (redisBufferWrite s.ac.c res).1
      sent := s.sent ++ Link.taken s.ac.c res } := by
    unfold Link.step
    dsimp only
    rw [show s.link.context = s.ac.c from rfl, hwritable, if_neg (by simp [link])]
    rcases hwrite : redisBufferWrite s.ac.c res with ⟨c, _ | done⟩
    · rfl
    · simp [link]
  obtain ⟨hlinked, -, -, -, -⟩ := h.core.linked.write hstep
  have halive : Alive s := h.alive
  rcases hwrite : redisBufferWrite s.ac.c res with ⟨c, _ | done⟩
  · rw [hwrite] at hspec hlinked
    have hobuf : c.obuf ≠ [] → s.ac.c.obuf ≠ [] := by
      intro hne hnil
      have hout := hspec.out
      rw [hnil] at hout
      exact hne (List.append_eq_nil_iff.mp hout).2
    refine Fifo.disconnectNow
      { h.core with linked := hlinked, block := hspec.block.trans h.core.block }
      ⟨halive.freeing, halive.replies, fun hne => halive.writing (hobuf hne)⟩ (by simp [h.phase])
      (.inl (hspec.failed rfl))
  · rw [hwrite] at hspec hlinked
    refine Rests.fifo ⟨{ h.core with linked := hlinked, block := hspec.block.trans h.core.block },
      h.phase, ⟨halive.freeing, halive.replies, fun hne => ?_⟩, h.waiting⟩
    cases done with
    | false => rfl
    | true => exact absurd ((hspec.ok true rfl).2 rfl) hne

theorem Rests.handleRead (h : Rests S s) {check : SocketCheck} {res : ReadResult}
    (hscript : Outside s script) (hreadable : Link.readable res = true)
    (hserved : Served S s.link (.read res)) :
    Fifo S (s.redisAsyncHandleRead check res script) := by
  obtain ⟨hfailed, hok⟩ := h.handleConnect hscript
  unfold redisAsyncHandleRead
  rcases hconnect : s.redisAsyncHandleConnect check script with ⟨s', _ | _⟩
  · rw [hconnect] at hfailed
    exact hfailed rfl
  · rw [hconnect] at hok
    obtain ⟨hrests, hreceived, hsent, herr, hreader⟩ := hok rfl
    have harrived : Link.arrived s'.ac.c res = Link.arrived s.ac.c res := by
      cases res with
      | failed errno strerror => rfl
      | data buf => rw [Link.arrived, Link.arrived, herr]
    have hserved' : Served S s'.link (.read res) := by
      show s'.received ++ Link.arrived s'.ac.c res <+: S.stream (seen s'.sent) ∧
        s'.ac.c.reader.buf.length + (Link.arrived s'.ac.c res).length < 2 ^ 31
      rw [harrived, hreceived, hsent, hreader]
      exact hserved
    have hcrash : s'.phase ≠ .crashed := by rw [hrests.phase]; simp
    have hread := hrests.read hreadable hserved'
    dsimp only
    rw [if_neg hcrash]
    exact hread

theorem Rests.handleWrite (h : Rests S s) {check : SocketCheck} {res : WriteResult}
    (hscript : Outside s script)
    (hstep : s.redisAsyncHandleWrite check res script = some s') : Fifo S s' := by
  obtain ⟨hfailed, hok⟩ := h.handleConnect hscript
  unfold redisAsyncHandleWrite at hstep
  rcases hconnect : s.redisAsyncHandleConnect check script with ⟨s₁, _ | _⟩
  · rw [hconnect] at hfailed hstep
    obtain rfl := Option.some.inj hstep
    exact hfailed rfl
  · rw [hconnect] at hok hstep
    obtain ⟨hrests, -⟩ := hok rfl
    have hcrash : s₁.phase ≠ .crashed := by rw [hrests.phase]; simp
    dsimp only at hstep
    rw [if_neg hcrash] at hstep
    split at hstep
    · exact absurd hstep (by simp)
    · next hwritable =>
      have hwrite := hrests.write (by simpa using hwritable)
      rcases hres : redisBufferWrite s₁.ac.c res with ⟨c, _ | done⟩
      · rw [hres] at hwrite hstep
        obtain rfl := Option.some.inj hstep
        exact hwrite
      · rw [hres] at hwrite hstep
        obtain rfl := Option.some.inj hstep
        exact hwrite

/-! ### A reply is given to its callback -/

/-- The server replies to commands only: a callback waits for each reply. -/
theorem Core.waits (h : Core S s) (hmore : s.answered.length < s.given.length) :
    s.ac.replies ≠ [] := by
  intro hnil
  have hgiven : s.given.length ≤ (seen s.sent).length := by
    have hle := h.linked.given_answers.length_le
    rwa [List.length_map, RedisServer.length_answers] at hle
  have hseen : (seen s.sent).length ≤ s.commands.length := by
    have hle := h.linked.seen_commands.length_le
    rwa [List.length_map] at hle
  have hqueue := congrArg List.length h.queue
  have hcount := h.count
  rw [hnil, List.append_nil, List.length_map] at hqueue
  omega

/-- What the loop of `redisProcessCallbacks` keeps -/
theorem Core.deliver {reply : ReplyObject} {cbs : List RedisCallback} (h : Core S s)
    (hphase : s.phase ≠ .crashed) (hcbs : s.ac.replies = cb :: cbs)
    (hfree : s.ac.freeing = false)
    (hreplies : s.answered.map Prod.snd ++ [some reply] = s.given.map some)
    (hwriting : s.ac.c.obuf ≠ [] → s.ac.writing = true)
    (hfine : ∀ c ∈ script, Fine c)
    (hbytes : s.ac.c.obuf.length + scriptBytes script < 2 ^ 31) :
    Fifo S (Session.deliver { s with
      ac := { s.ac with replies := cbs }
      answered := s.answered ++ [(cb, some reply)] } cb reply script) := by
  obtain ⟨a, hrun, hadds, hcore⟩ := h.answer (some reply) hcbs hfine hbytes
  have hanswered : (s.answered ++ [(cb, some reply)]).map Prod.snd = s.given.map some := by
    rw [List.map_append, ← hreplies]
    rfl
  unfold Session.deliver
  by_cases hnull : cb.fn = none
  · rw [if_pos hnull]
    unfold redisRunCallback at hrun
    rw [if_pos hnull] at hrun
    rw [← hrun] at hcore
    exact ⟨{ hcore with linked := { hcore.linked with } }, hfree, hanswered, hwriting⟩
  · rw [if_neg hnull]
    dsimp only
    rw [hrun]
    rw [if_neg (by exact hphase)]
    have halive : Alive { s with
        ac := { s.ac with replies := cbs }
        answered := s.answered ++ [(cb, some reply)]
        runs := s.runs ++ ran cb (some reply) } := ⟨hfree, hanswered, hwriting⟩
    split
    · next hfreeing =>
      refine ⟨{ hcore with linked := { hcore.linked with } }, ?_, .inl rfl⟩
      exact { closed := .inr hfreeing
              replies := ⟨0, by rw [List.replicate_zero, List.append_nil]; exact hanswered,
                fun hne => absurd rfl hne⟩
              lost := fun _ => .inr hfreeing }
    · next hnot =>
      have halive' := halive.add (a := a) { hadds with } (by simpa using hnot)
      exact ⟨{ hcore with linked := { hcore.linked with } }, { halive' with }⟩

theorem Fifo.process (h : Fifo S s) {cb : RedisCallback} (hphase : s.phase = .processing cb)
    (hfine : ∀ c ∈ script, Fine c)
    (hbytes : s.ac.c.obuf.length + scriptBytes script < 2 ^ 31) :
    Fifo S (s.redisProcessCallbacks cb script) := by
  obtain ⟨hcore, hstand⟩ := h
  unfold Standing at hstand
  rw [hphase] at hstand
  have halive : Alive s := hstand
  obtain ⟨hok, hholds, hnone⟩ := hcore.linked.getReply
  unfold redisProcessCallbacks redisGetReplyFromReader
  rcases hreply : redisReaderGetReply s.ac.c.reader with ⟨r, reply, ok⟩
  have hcontext : s.link.context = s.ac.c := rfl
  rw [hcontext, hreply] at hok hholds hnone
  obtain rfl : ok = true := hok
  cases reply with
  | none =>
    rw [Option.toList_none, List.append_nil] at hholds
    have hwaiting : s.given = (seen s.received).map object := hnone rfl
    have hlinked : Linked S { s.link with context := { s.ac.c with reader := r } } :=
      { hcore.linked with holds := hholds }
    dsimp only
    split
    · next hclean =>
      refine Fifo.disconnectNow { hcore with linked := hlinked } { halive with } (by simp [hphase])
        (.inr ⟨hclean.2.2, hclean.1⟩)
    · rw [if_neg (by simp [hcore.monitoring])]
      exact ⟨{ hcore with linked := hlinked }, { halive with }, hwaiting⟩
  | some reply =>
    have hcore' : Core S { s with
        ac := { s.ac with c := { s.ac.c with reader := r } }
        given := s.given ++ [reply] } :=
      { hcore with linked := { hcore.linked with
          holds := hholds, waiting := fun hne => absurd rfl hne } }
    have hlength : s.answered.length = s.given.length := by
      have hreplies := congrArg List.length halive.replies
      rwa [List.length_map, List.length_map] at hreplies
    have hne : s.ac.replies ≠ [] := hcore'.waits (by
      show s.answered.length < (s.given ++ [reply]).length
      rw [List.length_append, hlength, List.length_singleton]
      omega)
    obtain ⟨cb', cbs, hcbs⟩ := List.exists_cons_of_ne_nil hne
    dsimp only
    split
    · next cb₁ cbs₁ hcbs₁ =>
      refine hcore'.deliver (by rw [hphase]; simp) hcbs₁ halive.freeing ?_ halive.writing hfine
        hbytes
      show s.answered.map Prod.snd ++ [some reply] = (s.given ++ [reply]).map some
      rw [halive.replies, List.map_append]
      rfl
    · next hnil => exact absurd hnil hne

/-! ### The connection is freed -/

/-- There is nothing in a table where nothing was added. -/
theorem dictNext_create {β : Type} :
    ∃ it, dictNext (dictCreate : Dict Bytes β) dictGetIterator = some (it, none) := by
  have hat := at_start (dictCreate : Dict Bytes β)
  obtain ⟨it, hnext, -⟩ := hat.next (@valid_create _ _ callbackDict)
  exact ⟨it, hnext⟩

/-- A callback that still waits is called with `NULL`. -/
theorem Ending.answer {cbs : List RedisCallback} (h : Ending s) (hcore : Core S s)
    (hphase : s.phase = .teardown .replies) (hcbs : s.ac.replies = cb :: cbs)
    (hfine : ∀ c ∈ script, Fine c)
    (hbytes : s.ac.c.obuf.length + scriptBytes script < 2 ^ 31) :
    Fifo S (redisRunCallback { s with
      ac := { s.ac with replies := cbs }
      answered := s.answered ++ [(cb, none)] } cb none script) := by
  obtain ⟨a, hrun, hadds, hcore'⟩ := hcore.answer none hcbs hfine hbytes
  have hlost := h.lost (by rw [hcbs]; simp)
  rw [hrun]
  refine ⟨hcore', standing_teardown hphase ?_ (.inl rfl)⟩
  obtain ⟨n, hreplies, -⟩ := h.replies
  exact { closed := h.closed.imp hadds.disconnecting hadds.freeing
          replies := by
            refine ⟨n + 1, ?_, fun _ => hlost.imp_right hadds.freeing⟩
            show (s.answered ++ [(cb, none)]).map Prod.snd = _
            rw [List.map_append, hreplies, List.replicate_succ', ← List.append_assoc]
            rfl
          lost := fun _ => hlost.imp_right hadds.freeing }

/-- The connection is gone, and the program is told. -/
theorem Ending.freeSelf (h : Ending s) (hcore : Core S s) (hnil : s.ac.replies = [])
    (hcrash : s.phase ≠ .crashed) (houtside : Outside s script) :
    Fifo S (s.freeSelf script) := by
  unfold Session.freeSelf
  split
  · have houtside' : Outside { s with disconnected := some (s.ac.freeing || s.ac.err = none) }
        script := ⟨houtside.fine, houtside.commands, houtside.bytes⟩
    obtain ⟨a, hrun, hadds, hfits, -⟩ := houtside'.run hcore.subscribed
    have hcore₀ : Core S { s with disconnected := some (s.ac.freeing || s.ac.err = none) } :=
      { hcore with linked := { hcore.linked with } }
    have hcore' := hcore₀.add hadds hfits
    have hargvs := hadds.refused h.closed
    have hcbs : a.cbs = [] := List.eq_nil_of_length_eq_zero (by rw [hadds.length, hargvs]; rfl)
    have hempty : s.ac.replies ++ a.cbs = [] := by rw [hnil, hcbs]; rfl
    dsimp only
    rw [hrun, if_neg (by exact hcrash)]
    refine ⟨{ hcore' with linked := { hcore'.linked with } }, ?_, hempty⟩
    obtain ⟨n, hreplies, hwhy⟩ := h.replies
    exact { closed := h.closed.imp hadds.disconnecting hadds.freeing
            replies := ⟨n, hreplies, fun hn => (hwhy hn).imp_right hadds.freeing⟩
            lost := fun hne => absurd hempty hne }
  · exact ⟨{ hcore with linked := { hcore.linked with } }, { h with }, hnil⟩

/-- A connection is freed, one callback after the other. -/
theorem Fifo.freeNow (h : Fifo S s) {stage : Stage} (hphase : s.phase = .teardown stage)
    (hfine : ∀ c ∈ script, Fine c)
    (hbytes : s.ac.c.obuf.length + scriptBytes script < 2 ^ 31)
    (houtside : ∀ it, stage = .patterns it → Outside s script) :
    Fifo S (s.redisAsyncFreeNow stage script) := by
  obtain ⟨hcore, hstand⟩ := h
  unfold Standing at hstand
  rw [hphase] at hstand
  obtain ⟨hending, hstage⟩ := hstand
  obtain ⟨end_, hnext⟩ := @dictNext_create RedisCallback
  unfold redisAsyncFreeNow
  cases stage with
  | replies =>
    dsimp only
    split
    · next cb cbs hcbs => exact hending.answer hcore hphase hcbs hfine hbytes
    · next hnil =>
      exact ⟨{ hcore with linked := { hcore.linked with } },
        standing_teardown rfl { hending with } (.inr ⟨hnil, .inl rfl⟩)⟩
  | invalid =>
    obtain ⟨hnil, -⟩ := hstage.resolve_left (by simp)
    dsimp only
    rw [hcore.invalid]
    exact ⟨{ hcore with linked := { hcore.linked with } },
      standing_teardown rfl { hending with } (.inr ⟨hnil, .inr (.inl rfl)⟩)⟩
  | channels it =>
    obtain ⟨hnil, hit⟩ := hstage.resolve_left (by simp)
    obtain rfl : it = dictGetIterator := by simpa using hit
    rw [← hcore.channels] at hnext
    dsimp only
    rw [hnext]
    exact ⟨{ hcore with linked := { hcore.linked with } },
      standing_teardown rfl { hending with } (.inr ⟨hnil, .inr (.inr rfl)⟩)⟩
  | patterns it =>
    obtain ⟨hnil, hit⟩ := hstage.resolve_left (by simp)
    obtain rfl : it = dictGetIterator := by simpa using hit
    rw [← hcore.patterns] at hnext
    dsimp only
    rw [hnext]
    exact hending.freeSelf hcore hnil (by rw [hphase]; simp) (houtside _ rfl)

/-! ### Runs -/

/-- The program calls regular functions, the connect and the disconnect callback only send commands,
and what arrives was written by the server, for the commands that it has received. No buffer grows
to 2 GiB. -/
def Regular (S : RedisServer) (s : Session) : Label → Prop
  | .call c => Fine c ∧ s.ac.c.obuf.length + callBytes c < 2 ^ 31
  | .setConnectCallback => True
  | .setDisconnectCallback => True
  | .handleRead _ res script => Outside s script ∧ Served S s.link (.read res)
  | .handleWrite _ _ script => Outside s script
  | .turn script => (∀ c ∈ script, Fine c) ∧
      s.ac.c.obuf.length + scriptBytes script < 2 ^ 31 ∧
      ∀ it, s.phase = .teardown (.patterns it) → Outside s script

theorem Fifo.step (h : Fifo S s) (hregular : Regular S s label) (hstep : s.step label = some s') :
    Fifo S s' := by
  cases label with
  | call c =>
    unfold Session.step at hstep
    dsimp only at hstep
    split at hstep
    · next hphase =>
      obtain rfl := Option.some.inj hstep
      exact h.call hphase hregular.1 hregular.2
    · exact absurd hstep (by simp)
  | setConnectCallback =>
    unfold Session.step at hstep
    dsimp only at hstep
    split at hstep
    · next hphase =>
      obtain rfl := Option.some.inj hstep
      obtain ⟨hcore, -, halive, hwaiting⟩ := h.rests hphase
      refine Rests.fifo ?_
      unfold redisAsyncSetConnectCallback
      split
      · exact ⟨hcore, hphase, halive, hwaiting⟩
      · exact ⟨{ hcore with linked := { hcore.linked with } }, hphase,
          ⟨halive.freeing, halive.replies, fun _ => rfl⟩, hwaiting⟩
    · exact absurd hstep (by simp)
  | setDisconnectCallback =>
    unfold Session.step at hstep
    dsimp only at hstep
    split at hstep
    · next hphase =>
      obtain rfl := Option.some.inj hstep
      obtain ⟨hcore, -, halive, hwaiting⟩ := h.rests hphase
      refine Rests.fifo ?_
      unfold redisAsyncSetDisconnectCallback
      split
      · exact ⟨hcore, hphase, halive, hwaiting⟩
      · exact ⟨{ hcore with linked := { hcore.linked with } }, hphase, { halive with }, hwaiting⟩
    · exact absurd hstep (by simp)
  | handleRead check res script =>
    unfold Session.step at hstep
    dsimp only at hstep
    split at hstep
    · next hboth =>
      obtain rfl := Option.some.inj hstep
      exact (h.rests hboth.1).handleRead hregular.1 hboth.2 hregular.2
    · exact absurd hstep (by simp)
  | handleWrite check res script =>
    unfold Session.step at hstep
    dsimp only at hstep
    split at hstep
    · next hphase => exact (h.rests hphase).handleWrite hregular hstep
    · exact absurd hstep (by simp)
  | turn script =>
    obtain ⟨hfine, hbytes, houtside⟩ := hregular
    unfold Session.step at hstep
    dsimp only at hstep
    split at hstep
    · next cb hphase =>
      obtain rfl := Option.some.inj hstep
      exact h.process hphase hfine hbytes
    · next stage hphase =>
      obtain rfl := Option.some.inj hstep
      exact h.freeNow hphase hfine hbytes fun it heq => houtside it (heq ▸ hphase)
    · exact absurd hstep (by simp)

theorem fifo_of_exec (hregular : Guarded Session.step (Regular S) .start acts)
    (hrun : exec Session.step .start acts = some s) : Fifo S s :=
  exec_invariant_of_guarded (fun _ _ _ hguard h hstep => h.step hguard hstep) hregular
    (fifo_start S) hrun

theorem Core.given_eq (h : Core S s) :
    s.given = ((S.answers (s.commands.map value)).take s.given.length).map object := by
  have hinitial := h.linked.given_answers.trans ((S.answers_mono h.linked.seen_commands).map object)
  rw [List.map_take]
  exact List.prefix_iff_eq_take.mp hinitial

theorem flatMap_ran (l : List (RedisCallback × Option ReplyObject)) :
    (l.flatMap fun r => ran r.1 r.2) = l.filter fun r => r.1.fn ≠ none := by
  induction l with
  | nil => rfl
  | cons r l ih =>
    rw [List.flatMap_cons, ih, List.filter_cons]
    by_cases hnull : r.1.fn = none
    · simp [ran, hnull]
    · simp [ran, hnull]

/-- What holds of the replies in every phase -/
theorem Fifo.answered_eq (h : Fifo S s) :
    s.phase ≠ .crashed ∧
      (∃ n, s.answered.map Prod.snd = s.given.map some ++ List.replicate n none ∧
        (n ≠ 0 → s.ac.c.err ≠ none ∨ s.ac.freeing = true)) ∧
      (s.phase = .freed → s.ac.replies = []) := by
  obtain ⟨-, hstand⟩ := h
  unfold Standing at hstand
  have halive : Alive s → ∃ n, s.answered.map Prod.snd = s.given.map some ++ List.replicate n none ∧
      (n ≠ 0 → s.ac.c.err ≠ none ∨ s.ac.freeing = true) := fun halive =>
    ⟨0, by rw [halive.replies, List.replicate_zero, List.append_nil], fun hne => absurd rfl hne⟩
  cases hphase : s.phase with
  | idle =>
    rw [hphase] at hstand
    exact ⟨by simp, halive hstand.1, by simp⟩
  | processing cb =>
    rw [hphase] at hstand
    exact ⟨by simp, halive hstand, by simp⟩
  | teardown stage =>
    rw [hphase] at hstand
    exact ⟨by simp, hstand.1.replies, by simp⟩
  | freed =>
    rw [hphase] at hstand
    exact ⟨by simp, hstand.1.replies, fun _ => hstand.2⟩
  | crashed =>
    rw [hphase] at hstand
    exact absurd hstand id

/-- Whatever the callbacks do, and however the bytes go out and come in: no assertion fails and
nothing is used that was freed; the callbacks are called in the order of their commands, each once,
and the callback of a command is called with the reply of the server to this command. Callbacks are
called with `NULL` only behind all these, when the connection is freed after an error or by the
program; when it is gone, every callback was called. -/
theorem callbacks_exact (hregular : Guarded Session.step (Regular S) .start acts)
    (hrun : exec Session.step .start acts = some s) :
    s.phase ≠ .crashed ∧ s.callbacks.length = s.commands.length ∧
      s.answered.map Prod.fst ++ s.ac.replies = s.callbacks ∧
      (∃ n, s.answered.map Prod.snd =
          ((S.answers (s.commands.map value)).take s.given.length).map (fun v => some (object v)) ++
            List.replicate n none ∧
        (n ≠ 0 → s.ac.c.err ≠ none ∨ s.ac.freeing = true)) ∧
      s.runs = (s.answered.filter fun r => r.1.fn ≠ none) ∧
      (s.phase = .freed → s.answered.map Prod.fst = s.callbacks) := by
  have h := fifo_of_exec hregular hrun
  obtain ⟨hcrash, ⟨n, hreplies, hwhy⟩, hfreed⟩ := h.answered_eq
  refine ⟨hcrash, h.core.count, h.core.queue, ⟨n, ?_, hwhy⟩,
    h.core.runs.trans (flatMap_ran s.answered), fun hphase => ?_⟩
  · rw [hreplies]
    conv_lhs => rw [h.core.given_eq]
    rw [List.map_map]
    rfl
  · have hqueue := h.core.queue
    rwa [hfreed hphase, List.append_nil] at hqueue

/-- Between two events no reply is left: when all replies have arrived, no callback waits. What is
to be written is written, for the event loop waits until it can be. -/
theorem callbacks_complete (hregular : Guarded Session.step (Regular S) .start acts)
    (hrun : exec Session.step .start acts = some s) (hphase : s.phase = .idle) :
    s.sent ++ s.ac.c.obuf = s.commands.flatMap wire ∧
      (s.ac.c.obuf ≠ [] → s.ac.writing = true) ∧
      s.answered.length = (seen s.received).length ∧
      (s.received = S.stream (s.commands.map value) → s.ac.replies = []) := by
  obtain ⟨hcore, -, halive, hwaiting⟩ := (fifo_of_exec hregular hrun).rests hphase
  have hlength : s.answered.length = (seen s.received).length := by
    have hreplies := congrArg List.length halive.replies
    rwa [List.length_map, List.length_map, hwaiting, List.length_map] at hreplies
  refine ⟨hcore.linked.out, halive.writing, hlength, fun hreceived => ?_⟩
  have hqueue := congrArg List.length hcore.queue
  have hcount := hcore.count
  rw [hreceived, seen_stream, RedisServer.length_answers, List.length_map] at hlength
  rw [List.length_append, List.length_map] at hqueue
  exact List.eq_nil_of_length_eq_zero (by omega)

instance Outside.decidable (s : Session) (script : List UserCall) : Decidable (Outside s script) :=
  decidable_of_iff ((∀ c ∈ script, Fine c) ∧ (∀ c ∈ script, isCommand c = true) ∧
      s.ac.c.obuf.length + scriptBytes script < 2 ^ 31)
    ⟨fun ⟨hfine, hcommands, hbytes⟩ => ⟨hfine, hcommands, hbytes⟩,
      fun ⟨hfine, hcommands, hbytes⟩ => ⟨hfine, hcommands, hbytes⟩⟩

instance Regular.decidable (S : RedisServer) (s : Session) :
    ∀ label, Decidable (Regular S s label)
  | .call _ => inferInstanceAs (Decidable (_ ∧ _))
  | .setConnectCallback => isTrue trivial
  | .setDisconnectCallback => isTrue trivial
  | .handleRead _ _ _ => inferInstanceAs (Decidable (_ ∧ _))
  | .handleWrite _ _ script => inferInstanceAs (Decidable (Outside s script))
  | .turn script =>
    match hphase : s.phase with
    | .teardown (.patterns it) =>
      decidable_of_iff ((∀ c ∈ script, Fine c) ∧
          s.ac.c.obuf.length + scriptBytes script < 2 ^ 31 ∧ Outside s script)
        ⟨fun ⟨hfine, hbytes, houtside⟩ => ⟨hfine, hbytes, fun _ _ => houtside⟩,
          fun ⟨hfine, hbytes, houtside⟩ => ⟨hfine, hbytes, houtside it hphase⟩⟩
    | .idle | .processing _ | .freed | .crashed | .teardown .replies | .teardown .invalid
    | .teardown (.channels _) =>
      decidable_of_iff ((∀ c ∈ script, Fine c) ∧ s.ac.c.obuf.length + scriptBytes script < 2 ^ 31)
        ⟨fun ⟨hfine, hbytes⟩ =>
            ⟨hfine, hbytes, fun it heq => absurd (hphase.symm.trans heq) (by simp)⟩,
          fun ⟨hfine, hbytes, _⟩ => ⟨hfine, hbytes⟩⟩

/-- A command whose callback sends another one and disconnects; a second command is sent by the
connect callback. The bytes of the second reply come in two pieces. -/
def threeCallbacks : List Label :=
  [.setConnectCallback, .setDisconnectCallback,
    .call (.command (some 1) 7 (.ok [bytes "INCR", bytes "k"])),
    .handleWrite .ok (.written 41) [.command (some 2) 8 (.ok [bytes "GET", bytes "k"])],
    .handleRead .ok (.data (bytes ":1\r\n:2")) [],
    .turn [.command (some 3) 9 (.ok [bytes "INCR", bytes "k"]), .disconnect], .turn [],
    .handleWrite .ok (.written 21) [], .handleRead .ok (.data (bytes "\r\n:3\r\n")) [],
    .turn [], .turn [], .turn [], .turn [], .turn [], .turn [], .turn []]

theorem callbacks_exact_threeCallbacks : ∃ s, exec Session.step .start threeCallbacks = some s ∧
    s.phase = .freed ∧ s.answered.map Prod.fst = s.callbacks ∧ s.runs.length = 3 := by
  have hshape : (exec Session.step .start threeCallbacks).map
      (fun s => (s.phase, s.runs.length)) = some (.freed, 3) := by decide +kernel
  obtain ⟨s, hrun, heq⟩ := Option.map_eq_some_iff.mp hshape
  obtain ⟨hphase, hlength⟩ := Prod.mk.inj heq
  obtain ⟨-, -, -, -, -, hall⟩ := @callbacks_exact counter _ _ (by decide +kernel) hrun
  exact ⟨s, hrun, hphase, hall hphase, hlength⟩

theorem callbacks_complete_threeCallbacks : ∃ s,
    exec Session.step .start (threeCallbacks.take 7) = some s ∧ s.phase = .idle ∧
      s.ac.writing = true ∧ s.answered.length = (seen s.received).length := by
  have hshape : (exec Session.step .start (threeCallbacks.take 7)).map
      (fun s => (s.phase, s.ac.c.obuf.length)) = some (.idle, 21) := by decide +kernel
  obtain ⟨s, hrun, heq⟩ := Option.map_eq_some_iff.mp hshape
  obtain ⟨hphase, hlength⟩ := Prod.mk.inj heq
  have hobuf : s.ac.c.obuf ≠ [] := List.ne_nil_of_length_pos (by omega)
  obtain ⟨-, hwriting, hanswered, -⟩ :=
    @callbacks_complete counter _ _ (by decide +kernel) hrun hphase
  exact ⟨s, hrun, hphase, hwriting hobuf, hanswered⟩

end MmorpgServer.Redis.Async
