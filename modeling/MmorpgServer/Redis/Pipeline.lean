import MmorpgServer.Redis.Context

/-!
# Commands and their replies

A server reads the commands that it receives, and answers each of them with one reply, in their
order; the answer may depend on all the commands before. Whatever the socket does with the bytes
on both ways, the replies that a connection gives are those to its commands, in their order.

## Main definitions

* `RedisServer` — the replies to commands, and how they are written
* `Served` — what arrives on the socket was written by the server
* `Linked` — what holds between the calls

## Main results

* `pipelined` — the replies that are given are those to the commands
* `redisCommand_refines` — a command whose reply is waited for has the outcome of `redisCommand`
-/

namespace MmorpgServer.Redis.Wire

open Machine
open Resp (Value Encodes EncodesAll)

/-! ### Servers -/

/-- A server: its reply to the last one of some commands, and how it writes the reply -/
structure RedisServer where
  reply : List Value → Value
  written : List Value → Bytes
  encodes : ∀ cmds, Encodes limits 0 (reply cmds) (written cmds)

namespace RedisServer

variable (S : RedisServer) {cmds cmds' : List Value}

/-- The commands up to each of them -/
def histories (cmds : List Value) : List (List Value) :=
  (List.range cmds.length).map fun i => cmds.take (i + 1)

/-- The replies to commands -/
def answers (cmds : List Value) : List Value := (histories cmds).map S.reply

/-- The replies as they are written, one behind the other -/
def stream (cmds : List Value) : Bytes := (histories cmds).flatMap S.written

theorem histories_mono (h : cmds <+: cmds') : histories cmds <+: histories cmds' := by
  obtain ⟨rest, rfl⟩ := h
  refine ⟨(List.range rest.length).map fun i => (cmds ++ rest).take (cmds.length + i + 1), ?_⟩
  unfold histories
  rw [List.length_append, List.range_add, List.map_append, List.map_map]
  congr 1
  apply List.map_congr_left
  intro i hi
  rw [List.take_append_of_le_length (List.mem_range.mp hi)]

theorem answers_mono (h : cmds <+: cmds') : S.answers cmds <+: S.answers cmds' :=
  (histories_mono h).map S.reply

theorem stream_mono (h : cmds <+: cmds') : S.stream cmds <+: S.stream cmds' := by
  obtain ⟨rest, hrest⟩ := histories_mono h
  refine ⟨rest.flatMap S.written, ?_⟩
  unfold stream
  rw [← hrest, List.flatMap_append]

@[simp] theorem length_answers (cmds : List Value) : (S.answers cmds).length = cmds.length := by
  simp [answers, histories]

/-- The reply to the last command -/
theorem answers_concat (cmds : List Value) (cmd : Value) :
    S.answers (cmds ++ [cmd]) = S.answers cmds ++ [S.reply (cmds ++ [cmd])] := by
  obtain ⟨rest, hrest⟩ := S.answers_mono (List.prefix_append cmds [cmd])
  have hlen := congrArg List.length hrest
  rw [List.length_append, length_answers, length_answers, List.length_append,
    List.length_singleton] at hlen
  obtain ⟨v, rfl⟩ := List.length_eq_one_iff.mp (by omega : rest.length = 1)
  rw [← hrest]
  congr 2
  have hlast := congrArg List.getLast? hrest
  rw [List.getLast?_concat] at hlast
  unfold answers histories at hlast
  rw [List.length_append, List.length_singleton, List.range_succ, List.map_append,
    List.map_append] at hlast
  have htake : (cmds ++ [cmd]).take (cmds.length + 1) = cmds ++ [cmd] :=
    List.take_of_length_le (by simp)
  simpa [htake] using hlast

theorem encodesAll_stream (cmds : List Value) :
    EncodesAll limits 0 (S.answers cmds) (S.stream cmds) := by
  unfold answers stream
  induction histories cmds with
  | nil => exact .nil
  | cons h hs ih => exact .cons (S.encodes h) ih

end RedisServer

/-! ### What is read of a stream -/

variable {S : RedisServer} {w w' : Link} {label : Label} {acts : List Label} {u v : Bytes}

/-- The values that a stream encodes from its beginning -/
def seen (u : Bytes) : List Value := (protocol.run Resp.fresh u).1.out

/-- A command as a value -/
def value (argv : List Bytes) : Value := .array (argv.map .bulk)

theorem seen_mono (h : u <+: v) : seen u <+: seen v := by
  obtain ⟨rest, rfl⟩ := h
  unfold seen
  rw [StreamReader.run_append]
  exact Resp.out_prefix_run _ _

theorem run_of_encodesAll {vs : List Value} (h : EncodesAll limits 0 vs u) :
    protocol.run Resp.fresh u = (⟨vs, [], none, none⟩, []) := by
  have hrun := Resp.run_encodesAll_out h [] []
  rw [List.append_nil, List.nil_append] at hrun
  exact hrun.trans (StreamReader.run_of_none rfl)

theorem seen_stream (S : RedisServer) (cmds : List Value) :
    seen (S.stream cmds) = S.answers cmds := by
  unfold seen
  rw [run_of_encodesAll (S.encodesAll_stream cmds)]

/-- A stream that can go on to encode values has no fault. -/
theorem fault_eq_none {vs : List Value} (h : EncodesAll limits 0 vs v) (hinitial : u <+: v) :
    (protocol.run Resp.fresh u).1.fault = none := by
  obtain ⟨rest, rfl⟩ := hinitial
  cases hfault : (protocol.run Resp.fresh u).1.fault with
  | none => rfl
  | some f =>
    have hrun := Resp.run_of_fault hfault rest
    rw [run_of_encodesAll h] at hrun
    rw [← hrun] at hfault
    exact absurd hfault (by simp)

/-- The commands that have gone out -/
theorem seen_sent {cmds : List (List Bytes)} (hlen : ∀ argv ∈ cmds, (wire argv).length < 2 ^ 31)
    (h : u <+: cmds.flatMap wire) : seen u <+: cmds.map value := by
  have hseen := seen_mono h
  unfold seen at hseen ⊢
  rwa [run_of_encodesAll (encodesAll_wire hlen)] at hseen

/-! ### Between the calls -/

/-- What arrives was written by the server, for the commands that it has received. Neither buffer
grows to 2 GiB. -/
def Served (S : RedisServer) (w : Link) : Label → Prop
  | .append (.ok argv) => w.context.obuf.length + (wire argv).length < 2 ^ 31
  | .read res => w.received ++ Link.arrived w.context res <+: S.stream (seen w.sent) ∧
      w.context.reader.buf.length + (Link.arrived w.context res).length < 2 ^ 31
  | _ => True

/-- What holds between the calls -/
structure Linked (S : RedisServer) (w : Link) : Prop where
  out : w.sent ++ w.context.obuf = w.commands.flatMap wire
  small : ∀ argv ∈ w.commands, (wire argv).length < 2 ^ 31
  fits : w.context.obuf.length < 2 ^ 31
  served : w.received <+: S.stream (seen w.sent)
  holds : Holds ⟨w.context.reader, w.received, w.given⟩
  flushed : w.phase = .reading → w.context.obuf = []
  /-- a call waits only when everything that was received was given -/
  waiting : w.phase ≠ .idle → w.given = (seen w.received).map object

theorem linked_start (S : RedisServer) (block : Bool) : Linked S (.start block) where
  out := rfl
  small := by simp [Link.start]
  fits := Nat.two_pow_pos 31
  served := List.nil_prefix
  holds := holds_start
  flushed := by simp [Link.start]
  waiting := fun h => absurd rfl h

/-- The parser sees no error in what the server writes. -/
theorem Linked.reader_err (h : Linked S w) : w.context.reader.err = none := by
  obtain ⟨s, u, hrun, -, hfail | hwaits⟩ := h.holds
  · obtain ⟨f, -, hf⟩ := hfail
    have hfault := fault_eq_none (S.encodesAll_stream _) h.served
    rw [hrun, StreamReader.run_of_none (Resp.step_of_fault hf), hf] at hfault
    exact absurd hfault (by simp)
  · exact hwaits.err

theorem getReply_err {r : RedisReader} (h : (redisReaderGetReply r).2.2 = false) :
    (redisReaderGetReply r).1.err ≠ none := by
  unfold redisReaderGetReply at h ⊢
  by_cases herr : r.err ≠ none
  · rw [if_pos herr]
    exact herr
  · rw [if_neg herr] at h ⊢
    by_cases hempty : r.buf.length = 0
    · rw [if_pos hempty] at h
      exact absurd h (by simp)
    · rw [if_neg hempty] at h ⊢
      dsimp only at h ⊢
      generalize RedisReader.processItems _ = q at h ⊢
      split at h
      · next herr' =>
        rw [if_pos herr']
        exact herr'
      · split at h <;> exact absurd h (by simp)

/-- What the parser makes of being asked -/
theorem Linked.getReply (h : Linked S w) :
    (redisReaderGetReply w.context.reader).2.2 = true ∧
      Holds ⟨(redisReaderGetReply w.context.reader).1, w.received,
        w.given ++ (redisReaderGetReply w.context.reader).2.1.toList⟩ ∧
      ((redisReaderGetReply w.context.reader).2.1 = none →
        w.given = (seen w.received).map object) := by
  have hholds := Holds.step (show Reception.Fits _ .getReply from trivial) h.holds rfl
  refine ⟨?_, hholds, fun hnone => (h.holds.exhausted hnone).1⟩
  cases hok : (redisReaderGetReply w.context.reader).2.2 with
  | true => rfl
  | false =>
    have hlinked : Linked S { w with
        context := { w.context with reader := (redisReaderGetReply w.context.reader).1 }
        given := w.given ++ (redisReaderGetReply w.context.reader).2.1.toList
        phase := .idle } :=
      { out := h.out, small := h.small, fits := h.fits, served := h.served, holds := hholds,
        flushed := by simp, waiting := fun hne => absurd rfl hne }
    exact absurd hlinked.reader_err (getReply_err hok)

theorem Link.ask_commands (w : Link) (next : Phase) : (w.ask next).commands = w.commands := by
  unfold Link.ask
  rcases redisGetReplyFromReader w.context with ⟨c, _ | reply, _ | _⟩ <;> rfl

/-- A reply is asked for: it is given, or the call waits. -/
theorem Linked.ask (h : Linked S w) {next : Phase} (hnext : next = .reading → w.context.obuf = []) :
    Linked S (w.ask next) ∧ (w.ask next).context.err = w.context.err ∧
      (w.ask next).context.block = w.context.block ∧
      (((w.ask next).given = w.given ∧
          (w.ask next).phase = if w.context.block then next else .idle) ∨
        ∃ reply, (w.ask next).given = w.given ++ [reply] ∧ (w.ask next).phase = .idle) := by
  obtain ⟨hok, hholds, hnone⟩ := h.getReply
  have hask : w.ask next =
      match (redisReaderGetReply w.context.reader).2.1 with
      | none => { w with
          context := { w.context with reader := (redisReaderGetReply w.context.reader).1 }
          phase := if w.context.block then next else .idle }
      | some reply => { w with
          context := { w.context with reader := (redisReaderGetReply w.context.reader).1 }
          phase := .idle, given := w.given ++ [reply] } := by
    unfold Link.ask redisGetReplyFromReader
    generalize redisReaderGetReply w.context.reader = res at hok
    obtain ⟨r, reply, ok⟩ := res
    obtain rfl : ok = true := hok
    cases reply <;> rfl
  rw [hask]
  cases hreply : (redisReaderGetReply w.context.reader).2.1 with
  | none =>
    rw [hreply, Option.toList_none, List.append_nil] at hholds
    refine ⟨{ out := h.out, small := h.small, fits := h.fits, served := h.served, holds := hholds,
              flushed := fun hphase => ?_, waiting := fun _ => hnone hreply }, rfl, rfl,
      .inl ⟨rfl, rfl⟩⟩
    apply hnext
    dsimp only at hphase
    split at hphase
    · exact hphase
    · exact absurd hphase (by simp)
  | some reply =>
    rw [hreply] at hholds
    exact ⟨{ out := h.out, small := h.small, fits := h.fits, served := h.served, holds := hholds,
             flushed := by simp, waiting := fun hne => absurd rfl hne }, rfl, rfl,
      .inr ⟨reply, rfl, rfl⟩⟩

variable {c : RedisContext}

/-- What `redisBufferWrite` does: what the socket takes, it no longer has. -/
structure Writes (c : RedisContext) (res : WriteResult) (c' : RedisContext) (done : Option Bool) :
    Prop where
  out : Link.taken c res ++ c'.obuf = c.obuf
  reader : c'.reader = c.reader
  block : c'.block = c.block
  failed : done = none → c'.err ≠ none
  ok : ∀ b, done = some b → c'.err = c.err ∧ (b = true → c'.obuf = [])

theorem redisBufferWrite_spec (c : RedisContext) (res : WriteResult)
    (hfits : c.obuf.length < 2 ^ 31) (hres : Link.writable c res = true) :
    Writes c res (redisBufferWrite c res).1 (redisBufferWrite c res).2 := by
  unfold redisBufferWrite
  by_cases herr : c.err = none
  · rw [if_neg (by simp [herr])]
    by_cases hempty : c.obuf.length > 0
    · rw [if_pos hempty]
      cases res with
      | failed errno strerror =>
        dsimp only
        split
        · exact ⟨rfl, rfl, rfl, by simp, fun b hb => ⟨rfl, fun htrue => by
            rw [htrue] at hb
            simpa using hb⟩⟩
        · exact ⟨rfl, rfl, rfl, fun _ => by simp [redisSetError], by simp⟩
      | written n =>
        have hn : n ≤ c.obuf.length := by simpa [Link.writable] using hres
        have hint : toInt (c.obuf.length : ℤ) = c.obuf.length :=
          toInt_of_lt (by omega) (by omega)
        have hrest : (if n > 0 then
            if (n : ℤ) = toInt c.obuf.length then { c with obuf := [] }
            else { c with obuf := sdsrange c.obuf n (-1) }
          else c) = { c with obuf := c.obuf.drop n } := by
          rw [hint]
          split
          · split
            · next hall => rw [List.drop_eq_nil_of_le (by omega)]
            · rw [sdsrange_drop hn hfits]
          · next hzero =>
            obtain rfl : n = 0 := by omega
            rw [List.drop_zero]
        dsimp only
        rw [hrest]
        refine ⟨?_, rfl, rfl, by simp, fun b hb => ⟨rfl, fun htrue => ?_⟩⟩
        · rw [Link.taken, if_pos herr]
          exact List.take_append_drop n c.obuf
        · rw [htrue] at hb
          exact List.eq_nil_of_length_eq_zero (by simpa using hb)
    · rw [if_neg hempty]
      have hnil : c.obuf = [] := List.eq_nil_of_length_eq_zero (by omega)
      refine ⟨?_, rfl, rfl, by simp, fun _ _ => ⟨rfl, fun _ => hnil⟩⟩
      cases res with
      | failed errno strerror => rfl
      | written n => simp [Link.taken, hnil]
  · rw [if_pos herr]
    refine ⟨?_, rfl, rfl, fun _ => herr, by simp⟩
    cases res with
    | failed errno strerror => rfl
    | written n => simp [Link.taken, herr]

/-- What `redisBufferRead` does with a parser that has seen no error -/
structure ReadsInto (c : RedisContext) (res : ReadResult) (c' : RedisContext) (ok : Bool) :
    Prop where
  reader : c'.reader = { c.reader with buf := c.reader.buf ++ Link.arrived c res }
  obuf : c'.obuf = c.obuf
  block : c'.block = c.block
  failed : ok = false → c'.err ≠ none
  ok : ok = true → c'.err = c.err

theorem redisBufferRead_spec (c : RedisContext) (res : ReadResult)
    (hreader : c.reader.err = none) :
    ReadsInto c res (redisBufferRead c res).1 (redisBufferRead c res).2 := by
  have hnothing : { c.reader with buf := c.reader.buf ++ [] } = c.reader := by
    rw [List.append_nil]
  unfold redisBufferRead
  by_cases herr : c.err = none
  · rw [if_neg (by simp [herr])]
    cases res with
    | failed errno strerror =>
      dsimp only
      split
      · exact ⟨hnothing.symm, rfl, rfl, by simp, fun _ => rfl⟩
      · exact ⟨hnothing.symm, rfl, rfl, fun _ => by simp [redisSetError], by simp⟩
    | data buf =>
      have harrived : Link.arrived c (.data buf) = buf := if_pos herr
      cases buf with
      | nil =>
        exact ⟨by rw [harrived]; exact hnothing.symm, rfl, rfl,
          fun _ => by simp [redisSetError], by simp⟩
      | cons b buf =>
        have hfeed : redisReaderFeed c.reader (b :: buf) =
            ({ c.reader with buf := c.reader.buf ++ b :: buf }, true) := if_neg (by simp [hreader])
        simp only [hfeed]
        exact ⟨by rw [harrived], rfl, rfl, by simp, fun _ => rfl⟩
  · rw [if_pos herr]
    refine ⟨?_, rfl, rfl, fun _ => herr, by simp⟩
    have harrived : Link.arrived c res = [] := by
      cases res with
      | failed errno strerror => rfl
      | data buf => exact if_neg herr
    rw [harrived]
    exact hnothing.symm

/-! ### Steps -/

theorem Linked.append {cmd : Formatted} (h : Linked S w) (hserved : Served S w (.append cmd))
    (hstep : w.step (.append cmd) = some w') : Linked S w' := by
  unfold Link.step at hstep
  dsimp only at hstep
  split at hstep
  · next hidle =>
    obtain ⟨⟨c, ok⟩, happend, rfl⟩ := Option.map_eq_some_iff.mp hstep
    cases cmd with
    | undefined => exact absurd happend (by simp [redisAppendCommand])
    | invalid | memory =>
      obtain ⟨rfl, -⟩ := Prod.mk.inj (Option.some.inj happend)
      have hnone : w.commands ++ [] = w.commands := List.append_nil _
      unfold Link.appended
      rw [hnone]
      exact { h with }
    | ok argv =>
      obtain ⟨rfl, -⟩ := Prod.mk.inj (Option.some.inj happend)
      have hlen : w.context.obuf.length + (wire argv).length < 2 ^ 31 := hserved
      refine { h with out := ?_, small := ?_, fits := ?_, flushed := ?_ }
      · dsimp only
        rw [← List.append_assoc, h.out, List.flatMap_append, Link.appended, List.flatMap_singleton]
      · intro argv' hmem
        rcases List.mem_append.mp hmem with hmem | hmem
        · exact h.small argv' hmem
        · obtain rfl := List.mem_singleton.mp hmem
          omega
      · rwa [List.length_append]
      · exact fun hphase => absurd (hidle.symm.trans hphase) (by simp)
  · exact absurd hstep (by simp)

/-- How a call of the socket ends: the caller is told of an error, goes on, or has its reply. -/
inductive Ends (w w' : Link) : Prop
  | error : w'.given = w.given → w'.phase = .idle → w'.context.err ≠ none → Ends w w'
  | more : w'.given = w.given → w'.context.err = w.context.err →
      (w'.phase = .idle → w.phase = .idle) → Ends w w'
  | reply (reply : ReplyObject) : w'.given = w.given ++ [reply] → w'.context.err = w.context.err →
      w'.phase = .idle → Ends w w'

theorem Linked.write {res : WriteResult} (h : Linked S w) (hstep : w.step (.write res) = some w') :
    Linked S w' ∧ Ends w w' ∧ w'.commands = w.commands ∧
      w'.context.block = w.context.block ∧ (w.context.err ≠ none → w'.context.err ≠ none) := by
  unfold Link.step at hstep
  dsimp only at hstep
  split at hstep
  · exact absurd hstep (by simp)
  · next hcan =>
    obtain ⟨hphase, hres⟩ := not_or.mp hcan
    have hspec := redisBufferWrite_spec w.context res h.fits (by simpa using hres)
    have hfits : (redisBufferWrite w.context res).1.obuf.length < 2 ^ 31 := by
      have hlen := congrArg List.length hspec.out
      have hbound := h.fits
      rw [List.length_append] at hlen
      omega
    have hout : w.sent ++ Link.taken w.context res ++ (redisBufferWrite w.context res).1.obuf =
        w.commands.flatMap wire := by rw [List.append_assoc, hspec.out, h.out]
    have hserved : w.received <+: S.stream (seen (w.sent ++ Link.taken w.context res)) :=
      h.served.trans (S.stream_mono (seen_mono (List.prefix_append _ _)))
    have hholds : Holds ⟨(redisBufferWrite w.context res).1.reader, w.received, w.given⟩ := by
      rw [hspec.reader]
      exact h.holds
    split at hstep
    · next c heq =>
      obtain rfl := Option.some.inj hstep
      rw [heq] at hspec hfits hout hholds
      refine ⟨{ out := hout, small := h.small, fits := hfits, served := hserved, holds := hholds,
                flushed := by simp, waiting := fun hne => absurd rfl hne }, ?_, rfl, hspec.block,
        fun _ => hspec.failed rfl⟩
      exact .error rfl rfl (hspec.failed rfl)
    · next c done heq =>
      obtain rfl := Option.some.inj hstep
      rw [heq] at hspec hfits hout hholds
      obtain ⟨herr, hdone⟩ := hspec.ok done rfl
      refine ⟨{ out := hout, small := h.small, fits := hfits, served := hserved, holds := hholds,
                flushed := fun hreading => ?_, waiting := fun hne => ?_ }, ?_, rfl, hspec.block,
        fun hne => by rwa [herr]⟩
      · dsimp only at hreading
        split at hreading
        · next hboth => exact hdone hboth.2
        · exact absurd hreading hphase
      · apply h.waiting
        dsimp only at hne
        split at hne
        · next hboth => rw [hboth.1]; simp
        · exact hne
      · refine .more rfl herr fun hidle => ?_
        dsimp only at hidle
        split at hidle
        · exact absurd hidle (by simp)
        · exact hidle

theorem Linked.read {res : ReadResult} (h : Linked S w) (hserved : Served S w (.read res))
    (hstep : w.step (.read res) = some w') :
    Linked S w' ∧ (w.context.block = true → Ends w w') ∧ w'.commands = w.commands ∧
      w'.context.block = w.context.block := by
  unfold Link.step at hstep
  dsimp only at hstep
  split at hstep
  · exact absurd hstep (by simp)
  · next hcan =>
    obtain ⟨hinitial, hsize⟩ := hserved
    have hspec := redisBufferRead_spec w.context res h.reader_err
    have hobuf := hspec.obuf
    -- the parser is fed what arrives
    have hfed : redisReaderFeed w.context.reader (Link.arrived w.context res) =
        ((redisBufferRead w.context res).1.reader, true) := by
      rw [hspec.reader]
      exact if_neg (by simp [h.reader_err])
    have hholds : Holds ⟨(redisBufferRead w.context res).1.reader,
        w.received ++ Link.arrived w.context res, w.given⟩ := by
      have hfits : Reception.Fits ⟨w.context.reader, w.received, w.given⟩
          (.feed (Link.arrived w.context res)) := hsize
      refine Holds.step hfits h.holds ?_
      show some _ = some _
      simp only [hfed, if_true]
    split at hstep
    · next c heq =>
      obtain rfl := Option.some.inj hstep
      rw [heq] at hspec hholds hobuf
      exact ⟨{ out := hobuf ▸ h.out, small := h.small, fits := hobuf ▸ h.fits, served := hinitial,
               holds := hholds, flushed := by simp, waiting := fun hne => absurd rfl hne },
        fun _ => .error rfl rfl (hspec.failed rfl), rfl, hspec.block⟩
    · next c heq =>
      rw [heq] at hspec hholds hobuf
      split at hstep
      · next hreading =>
        obtain rfl := Option.some.inj hstep
        have hlinked : Linked S { w with
            context := c, phase := .idle, received := w.received ++ Link.arrived w.context res } :=
          { out := hobuf ▸ h.out, small := h.small, fits := hobuf ▸ h.fits, served := hinitial,
            holds := hholds, flushed := by simp, waiting := fun hne => absurd rfl hne }
        obtain ⟨hask, herr, hblock, hends⟩ := @Linked.ask S _ hlinked .reading
          fun _ => hobuf.trans (h.flushed hreading)
        refine ⟨hask, fun hb => ?_, Link.ask_commands _ _, hblock.trans hspec.block⟩
        rcases hends with ⟨hgiven, hphase⟩ | ⟨reply, hgiven, hphase⟩
        · refine .more hgiven (herr.trans (hspec.ok rfl)) fun hidle => ?_
          have hblocking : c.block = true := hspec.block.trans hb
          exact absurd (hphase.symm.trans hidle) (by simp [hblocking])
        · exact .reply reply hgiven (herr.trans (hspec.ok rfl)) hphase
      · next hidle =>
        obtain rfl := Option.some.inj hstep
        have hphase : w.phase = .idle := by
          cases hw : w.phase with
          | idle => rfl
          | writing => exact absurd (.inl hw) hcan
          | reading => exact absurd hw hidle
        exact ⟨{ out := hobuf ▸ h.out, small := h.small, fits := hobuf ▸ h.fits, served := hinitial,
                 holds := hholds, flushed := fun hr => absurd hr hidle,
                 waiting := fun hne => absurd hphase hne },
          fun _ => .more rfl (hspec.ok rfl) fun h => h, rfl, hspec.block⟩

theorem Linked.step (h : Linked S w) (hserved : Served S w label) (hstep : w.step label = some w') :
    Linked S w' := by
  cases label with
  | append cmd => exact h.append hserved hstep
  | getReply =>
    unfold Link.step at hstep
    dsimp only at hstep
    split at hstep
    · obtain rfl := Option.some.inj hstep
      exact (h.ask (by simp)).1
    · exact absurd hstep (by simp)
  | write res => exact (h.write hstep).1
  | read res => exact (h.read hserved hstep).1

/-! ### Runs -/

theorem linked_of_exec {block : Bool} (hserved : Guarded Link.step (Served S) (.start block) acts)
    (hrun : exec Link.step (.start block) acts = some w) : Linked S w :=
  exec_invariant_of_guarded (fun _ _ _ hguard h hstep => h.step hguard hstep) hserved
    (linked_start S block) hrun

/-- The replies that are given are those to the commands that the server has received. -/
theorem Linked.given_answers (h : Linked S w) :
    w.given <+: (S.answers (seen w.sent)).map object := by
  obtain ⟨s, u, hrun, hgiven, -⟩ := h.holds
  have hout : s.out <+: seen w.received := by
    unfold seen
    rw [hrun]
    exact Resp.out_prefix_run s u
  have hreceived := seen_mono h.served
  rw [seen_stream] at hreceived
  have hgiven' : w.given = s.out.map object := hgiven
  rw [hgiven']
  exact (hout.trans hreceived).map object

theorem Linked.seen_commands (h : Linked S w) : seen w.sent <+: w.commands.map value :=
  seen_sent h.small (h.out ▸ List.prefix_append _ _)

/-- In every run, with commands that are appended at any time, the bytes of the commands go out in
their order, and the replies that come back are those of the server to the commands, one for each,
in their order. The parser sees no error. A call that waits, and has received all the replies,
waits for no command. -/
theorem pipelined {block : Bool} (hserved : Guarded Link.step (Served S) (.start block) acts)
    (hrun : exec Link.step (.start block) acts = some w) :
    w.sent ++ w.context.obuf = w.commands.flatMap wire ∧
      w.given <+: (S.answers (w.commands.map value)).map object ∧
      w.context.reader.err = none ∧
      (w.phase = .reading → w.received = S.stream (w.commands.map value) →
        w.given = (S.answers (w.commands.map value)).map object) := by
  have h := linked_of_exec hserved hrun
  refine ⟨h.out, h.given_answers.trans ((S.answers_mono h.seen_commands).map object),
    h.reader_err, ?_⟩
  intro hreading hreceived
  have hgiven := h.waiting (by simp [hreading])
  rwa [hreceived, seen_stream] at hgiven

instance Served.decidable (S : RedisServer) (w : Link) : ∀ label, Decidable (Served S w label)
  | .append (.ok _) => inferInstanceAs (Decidable (_ < _))
  | .append .invalid | .append .memory => isTrue trivial
  | .append .undefined => isTrue trivial
  | .getReply => isTrue trivial
  | .write _ => isTrue trivial
  | .read _ => inferInstanceAs (Decidable (_ ∧ _))

/-- A server that answers every command with the number of commands that it has seen -/
def counter : RedisServer where
  reply cmds := .integer (cmds.length % 1000)
  written cmds := 58 :: (Decimal.printInt (cmds.length % 1000) ++ Resp.crlf)
  encodes cmds := .integer (by omega) (by omega)

/-- Two commands and two replies, with a socket that takes and gives a few bytes at a time -/
def twoReplies : List Label :=
  [.append (.ok [bytes "INCR", bytes "k"]), .append (.ok [bytes "INCR", bytes "k"]), .getReply,
    .write (.written 9), .write (.failed .eintr []), .write (.written 33),
    .read (.data (bytes ":1\r")), .read (.data (bytes "\n:2\r\n")), .getReply]

theorem exec_twoReplies : (exec Link.step (.start true) twoReplies).map
    (fun w => (w.given.length, w.phase, w.sent.length)) = some (2, .idle, 42) := by
  decide +kernel

theorem pipelined_twoReplies : ∃ w, exec Link.step (.start true) twoReplies = some w ∧
    w.given.length = 2 ∧ w.given <+: (counter.answers (w.commands.map value)).map object := by
  obtain ⟨w, hrun, hshape⟩ := Option.map_eq_some_iff.mp exec_twoReplies
  exact ⟨w, hrun, congrArg Prod.fst hshape, (pipelined (by decide +kernel) hrun).2.1⟩

/-! ### A command and its reply -/

mutual

/-- A value as a reply -/
def replyOf : Value → Reply
  | .status t => .status t
  | .error t => .error t
  | .integer n => .integer (Int64.ofInt n)
  | .bulk t => .string t
  | .array items => .array (repliesOf items)
  | .nil => .nil

def repliesOf : List Value → List Reply
  | [] => []
  | v :: vs => replyOf v :: repliesOf vs

end

/-- The call goes on until its last step. -/
def Within (w : Link) (rest : List Label) : Prop :=
  Guarded Link.step (fun w _ => w.phase ≠ .idle) w rest

/-- A call that waits ends with a reply or with an error. -/
theorem call_returns {rest : List Label} (h : Linked S w) (hblock : w.context.block = true)
    (hphase : w.phase ≠ .idle) (herr : w.context.err = none)
    (hserved : Guarded Link.step (Served S) w rest) (hwithin : Within w rest)
    (hrun : exec Link.step w rest = some w') (hidle : w'.phase = .idle) :
    Linked S w' ∧ w'.commands = w.commands ∧
      ((w'.given = w.given ∧ w'.context.err ≠ none) ∨
        ∃ reply, w'.given = w.given ++ [reply] ∧ w'.context.err = none) := by
  induction rest generalizing w with
  | nil =>
    obtain rfl := Option.some.inj hrun
    exact absurd hidle hphase
  | cons label rest ih =>
    obtain ⟨w₁, hstep, hrest⟩ := exec_cons_eq_some.mp hrun
    have hone : Linked S w₁ ∧ Ends w w₁ ∧ w₁.commands = w.commands ∧
        w₁.context.block = w.context.block := by
      cases label with
      | append cmd => exact absurd hstep (by simp [Link.step, hphase])
      | getReply => exact absurd hstep (by simp [Link.step, hphase])
      | write res =>
        obtain ⟨hlinked, hends, hcommands, hblock', -⟩ := h.write hstep
        exact ⟨hlinked, hends, hcommands, hblock'⟩
      | read res =>
        obtain ⟨hlinked, hends, hcommands, hblock'⟩ := h.read hserved.1 hstep
        exact ⟨hlinked, hends hblock, hcommands, hblock'⟩
    obtain ⟨hlinked, hends, hcommands, hblock'⟩ := hone
    -- behind its last step the call takes no other one
    have hlast : w₁.phase = .idle → w' = w₁ := by
      intro hidle₁
      cases rest with
      | nil => exact (Option.some.inj hrest).symm
      | cons label' rest => exact absurd hidle₁ (hwithin.2 w₁ hstep).1
    cases hends with
    | error hgiven hidle₁ herr₁ =>
      obtain rfl := hlast hidle₁
      exact ⟨hlinked, hcommands, .inl ⟨hgiven, herr₁⟩⟩
    | reply reply hgiven herr₁ hidle₁ =>
      obtain rfl := hlast hidle₁
      exact ⟨hlinked, hcommands, .inr ⟨reply, hgiven, herr₁.trans herr⟩⟩
    | more hgiven herr₁ hback =>
      obtain ⟨hlinked', hcommands', hout⟩ := ih hlinked (hblock'.trans hblock)
        (fun hidle₁ => hphase (hback hidle₁)) (herr₁.trans herr) (hserved.2 w₁ hstep)
        (hwithin.2 w₁ hstep) hrest
      rw [hgiven] at hout
      exact ⟨hlinked', hcommands'.trans hcommands, hout⟩

/-- A call on a connection that has seen an error is told so by the first call of the socket. -/
theorem call_fails {rest : List Label} (hphase : w.phase = .writing) (herr : w.context.err ≠ none)
    (hwithin : Within w rest) (hrun : exec Link.step w rest = some w') (hidle : w'.phase = .idle) :
    w'.given = w.given ∧ w'.commands = w.commands ∧ w'.context.err = w.context.err := by
  cases rest with
  | nil =>
    obtain rfl := Option.some.inj hrun
    exact absurd (hphase.symm.trans hidle) (by simp)
  | cons label rest =>
    obtain ⟨w₁, hstep, hrest⟩ := exec_cons_eq_some.mp hrun
    cases label with
    | append cmd => exact absurd hstep (by simp [Link.step, hphase])
    | getReply => exact absurd hstep (by simp [Link.step, hphase])
    | read res => exact absurd hstep (by simp [Link.step, hphase])
    | write res =>
      have hwrite : redisBufferWrite w.context res = (w.context, none) := if_pos herr
      have hfirst := hwithin.2 w₁ hstep
      unfold Link.step at hstep
      dsimp only at hstep
      rw [hwrite] at hstep
      split at hstep
      · exact absurd hstep (by simp)
      · obtain rfl := Option.some.inj hstep
        cases rest with
        | nil =>
          obtain rfl := Option.some.inj hrest
          exact ⟨rfl, rfl, rfl⟩
        | cons label' rest =>
          have hne := hfirst.1
          exact absurd rfl hne

theorem Link.ask_sent (w : Link) (next : Phase) : (w.ask next).sent = w.sent := by
  unfold Link.ask
  rcases redisGetReplyFromReader w.context with ⟨c, _ | reply, _ | _⟩ <;> rfl

/-- Whether a connection blocks is not changed. -/
theorem Linked.block_step (h : Linked S w) (hserved : Served S w label)
    (hstep : w.step label = some w') : w'.context.block = w.context.block := by
  cases label with
  | append cmd =>
    unfold Link.step at hstep
    dsimp only at hstep
    split at hstep
    · obtain ⟨⟨c, ok⟩, happend, rfl⟩ := Option.map_eq_some_iff.mp hstep
      cases cmd with
      | undefined => exact absurd happend (by simp [redisAppendCommand])
      | invalid | memory | ok =>
        obtain ⟨rfl, -⟩ := Prod.mk.inj (Option.some.inj happend)
        rfl
    · exact absurd hstep (by simp)
  | getReply =>
    unfold Link.step at hstep
    dsimp only at hstep
    split at hstep
    · obtain rfl := Option.some.inj hstep
      exact (h.ask (by simp)).2.2.1
    · exact absurd hstep (by simp)
  | write res => exact (h.write hstep).2.2.2.1
  | read res => exact (h.read hserved hstep).2.2.2

theorem block_of_exec {block : Bool} (hserved : Guarded Link.step (Served S) (.start block) acts)
    (hrun : exec Link.step (.start block) acts = some w) : w.context.block = block := by
  refine (exec_invariant_of_guarded (I := fun w => Linked S w ∧ w.context.block = block) ?_ hserved
    ⟨linked_start S block, rfl⟩ hrun).2
  rintro w label w' hguard ⟨h, hblock⟩ hstep
  exact ⟨h.step hguard hstep, (h.block_step hguard hstep).trans hblock⟩

/-- A command that is appended where all replies are given has to be waited for. -/
theorem Linked.send {argv : List Bytes} {w₂ : Link} (h : Linked S w) (hphase : w.phase = .idle)
    (hblock : w.context.block = true) (hsync : w.given.length = w.commands.length)
    (hserved : Served S w (.append (.ok argv)))
    (hrun : exec Link.step w [.append (.ok argv), .getReply] = some w₂) :
    Linked S w₂ ∧ w₂.phase = .writing ∧ w₂.given = w.given ∧
      w₂.commands = w.commands ++ [argv] ∧ w₂.context.err = w.context.err ∧
      w₂.context.block = true := by
  obtain ⟨w₁, happend, hrest⟩ := exec_cons_eq_some.mp hrun
  obtain ⟨w₃, hget, hnil⟩ := exec_cons_eq_some.mp hrest
  obtain rfl := Option.some.inj hnil
  have h₁ := h.append hserved happend
  have hw₁ : w₁ = { w with
      context := { w.context with obuf := w.context.obuf ++ wire argv }
      commands := w.commands ++ [argv] } := by
    unfold Link.step at happend
    dsimp only at happend
    rw [if_pos hphase] at happend
    exact (Option.some.inj happend).symm
  have hw₂ : w₃ = w₁.ask .writing := by
    unfold Link.step at hget
    dsimp only at hget
    rw [if_pos (by rw [hw₁]; exact hphase)] at hget
    exact (Option.some.inj hget).symm
  obtain ⟨h₂, herr, hblock₂, hends⟩ := @Linked.ask S _ h₁ .writing (by simp)
  have hcommands := Link.ask_commands w₁ .writing
  have hsent := Link.ask_sent w₁ .writing
  rw [← hw₂] at h₂ herr hblock₂ hends hcommands hsent
  subst hw₁
  rcases hends with ⟨hgiven, hwriting⟩ | ⟨reply, hgiven, -⟩
  · exact ⟨h₂, by rw [hwriting]; exact if_pos hblock, hgiven, hcommands, herr, hblock₂.trans hblock⟩
  · -- the server has not received the command
    have hgivenlen := h₂.given_answers.length_le
    have hseen := h.seen_commands.length_le
    rw [hgiven, hsent, List.length_append, List.length_map, RedisServer.length_answers] at hgivenlen
    rw [List.length_map] at hseen
    simp only [List.length_singleton] at hgivenlen
    omega

/-- With all its replies given, a connection sends a command and waits for the reply: this has an
outcome of `redisCommand`, and the reply, if there is one, is the answer of the server to this
command. -/
theorem redisCommand_refines {argv : List Bytes} {rest : List Label} {c : Redis.RedisContext}
    (hserved : Guarded Link.step (Served S) (.start true) acts)
    (hreach : exec Link.step (.start true) acts = some w) (hphase : w.phase = .idle)
    (hsync : w.given.length = w.commands.length) (hc : c.err = w.context.err.isSome)
    (hserved' : Guarded Link.step (Served S) w (.append (.ok argv) :: .getReply :: rest))
    (hwithin : ∀ w₂, exec Link.step w [.append (.ok argv), .getReply] = some w₂ → Within w₂ rest)
    (hrun : exec Link.step w (.append (.ok argv) :: .getReply :: rest) = some w')
    (hidle : w'.phase = .idle) :
    ∃ answer sent,
      (answer = none ∧ w'.given = w.given ∨
        answer = some (replyOf (S.reply (w'.commands.map value))) ∧
          w'.given = w.given ++ [object (S.reply (w'.commands.map value))] ∧
          w'.given.length = w'.commands.length) ∧
      redisCommand c (.ok argv) answer =
        some ({ c with err := w'.context.err.isSome }, answer, sent) := by
  have h := linked_of_exec hserved hreach
  have hblock := block_of_exec hserved hreach
  obtain ⟨w₁, happend, hrest⟩ := exec_cons_eq_some.mp hrun
  obtain ⟨w₂, hget, hrest⟩ := exec_cons_eq_some.mp hrest
  have hfirst : exec Link.step w [.append (.ok argv), .getReply] = some w₂ :=
    exec_cons_eq_some.mpr ⟨w₁, happend, exec_cons_eq_some.mpr ⟨w₂, hget, rfl⟩⟩
  obtain ⟨h₂, hwriting, hgiven, hcommands, herr, hblock₂⟩ :=
    h.send hphase hblock hsync hserved'.1 hfirst
  have hserved₂ := (hserved'.2 w₁ happend).2 w₂ hget
  cases hfail : w.context.err with
  | some type =>
    obtain ⟨hgiven', -, herr'⟩ := call_fails hwriting (by rw [herr, hfail]; simp)
      (hwithin w₂ hfirst) hrest hidle
    have hsame : w'.context.err.isSome = c.err := by rw [hc, herr', herr]
    refine ⟨none, none, .inl ⟨rfl, hgiven'.trans hgiven⟩, ?_⟩
    have hctrue : c.err = true := by rw [hc, hfail]; rfl
    rw [hsame]
    exact if_pos hctrue
  | none =>
    have hcfalse : c.err = false := by rw [hc, hfail]; rfl
    obtain ⟨h', hcommands', ⟨hgiven', herr'⟩ | ⟨reply, hgiven', herr'⟩⟩ :=
      call_returns h₂ hblock₂ (by simp [hwriting]) (herr.trans hfail) hserved₂ (hwithin w₂ hfirst)
        hrest hidle
    · have hsome : w'.context.err.isSome = true := Option.isSome_iff_ne_none.mpr herr'
      refine ⟨none, some argv, .inl ⟨rfl, hgiven'.trans hgiven⟩, ?_⟩
      rw [hsome]
      unfold redisCommand
      simp [hcfalse]
    · have hinitial := h'.given_answers.trans ((S.answers_mono h'.seen_commands).map object)
      have hlen : w'.given.length = w'.commands.length := by
        rw [hgiven', hgiven, hcommands', hcommands, List.length_append, List.length_append, hsync]
        rfl
      have hall := hinitial.eq_of_length (by simp [hlen])
      -- the last reply is the answer to the last command
      have hcmds : w'.commands.map value = w.commands.map value ++ [value argv] := by
        rw [hcommands', hcommands, List.map_append]
        rfl
      rw [hgiven', hgiven, hcmds, S.answers_concat, List.map_append] at hall
      have hreply := (List.append_inj' hall rfl).2
      rw [← hcmds] at hreply
      have hreply' := List.head_eq_of_cons_eq hreply
      refine ⟨some (replyOf (S.reply (w'.commands.map value))), some argv,
        .inr ⟨rfl, by rw [hgiven', hgiven, hreply'], hlen⟩, ?_⟩
      have hsame : w'.context.err.isSome = c.err := by rw [herr', hcfalse]; rfl
      rw [hsame]
      exact if_neg (by simp [hcfalse])

/-- A command that goes out in two pieces, and whose reply comes in two -/
def slowCommand : List Label :=
  [.write (.written 20), .write (.written 1), .read (.data (bytes ":1")),
    .read (.data (bytes "\r\n"))]

theorem redisCommand_refines_slowCommand : ∃ w', exec Link.step (.start true)
      (.append (.ok [bytes "INCR", bytes "k"]) :: .getReply :: slowCommand) = some w' ∧
    ∃ answer sent, redisCommand ⟨0, false, false, none⟩ (.ok [bytes "INCR", bytes "k"]) answer =
      some (⟨0, w'.context.err.isSome, false, none⟩, answer, sent) := by
  have hshape : (exec Link.step (.start true)
      (.append (.ok [bytes "INCR", bytes "k"]) :: .getReply :: slowCommand)).map Link.phase =
        some .idle := by decide +kernel
  obtain ⟨w', hrun, hidle⟩ := Option.map_eq_some_iff.mp hshape
  obtain ⟨answer, sent, -, hcommand⟩ := @redisCommand_refines counter _ _ [] _ _
    ⟨0, false, false, none⟩ trivial rfl rfl rfl rfl (by decide +kernel)
    (fun w₂ h => by
      obtain rfl := Option.some.inj h
      unfold Within
      decide +kernel) hrun hidle
  exact ⟨w', hrun, answer, sent, hcommand⟩

end MmorpgServer.Redis.Wire
