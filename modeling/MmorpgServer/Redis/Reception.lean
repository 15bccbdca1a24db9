import MmorpgServer.Redis.Parsing
import MmorpgServer.Lib.Machine

/-!
# Replies that arrive in pieces

Bytes are fed to the parser in pieces of any size, and between them replies are asked for, any
number of times. What the parser gives are the replies that the bytes encode.

## Main definitions

* `Reception` — the parser, the bytes that were fed, and the replies that it gave
* `Fits` — the buffer stays below 2 GiB

## Main results

* `replies_exact` — the replies that are given are those that are encoded
* `pieces_irrelevant` — it does not matter how the bytes were cut into pieces
* `error_final` — after an error there was nothing to be given
-/

namespace MmorpgServer.Redis

open Resp (Encodes EncodesAll Value Frame State)
open Machine

/-- The parser, the bytes that it was fed, and the replies that it gave -/
structure Reception where
  reader : RedisReader
  fed : Bytes
  given : List ReplyObject

inductive ReaderCall where
  | feed (buf : Bytes)
  | getReply
  deriving DecidableEq

namespace Reception

/-- A new parser -/
def start : Reception := ⟨redisReaderCreate, [], []⟩

/-- Bytes that the parser refuses were not fed. -/
def step (w : Reception) : ReaderCall → Option Reception
  | .feed buf =>
    let res := redisReaderFeed w.reader buf
    some { w with reader := res.1, fed := if res.2 then w.fed ++ buf else w.fed }
  | .getReply =>
    let res := redisReaderGetReply w.reader
    some { w with reader := res.1, given := w.given ++ res.2.1.toList }

/-- The buffer stays so short that its positions are `int`s. -/
def Fits (w : Reception) : ReaderCall → Prop
  | .feed buf => w.reader.buf.length + buf.length < 2 ^ 31
  | .getReply => True

instance Fits.decidable (w : Reception) : ∀ call, Decidable (w.Fits call)
  | .feed _ => inferInstanceAs (Decidable (_ < _))
  | .getReply => isTrue trivial

/-- There is no reply in what was fed that was not given. -/
def Exhausted (w : Reception) : Prop := (redisReaderGetReply w.reader).2.1 = none

end Reception

/-! ### Between the calls -/

variable {r r' : RedisReader} {s : State} {u : Bytes} {w w' : Reception} {acts : List ReaderCall}
  {call : ReaderCall}

/-- Between two calls the parser stands in front of a reply, or within one. It needs more input
where its buffer is empty. -/
inductive Waits (r : RedisReader) (s : State) (u : Bytes) : Prop
  | idle (out : List Value) : r.err = none → r.rstack = [] → r.reply = none →
      r.pos ≤ r.buf.length → r.buf.length < 2 ^ 31 → s = ⟨out, [], none, none⟩ →
      u = r.unread → Waits r s u
  | within : Sim r s u → (r.buf = [] → protocol.step s u = none) → Waits r s u

theorem Waits.err (h : Waits r s u) : r.err = none := by
  cases h with
  | idle _ herr => exact herr
  | within hsim _ => exact hsim.err

theorem Waits.fault (h : Waits r s u) : s.fault = none := by
  cases h with
  | idle _ _ _ _ _ _ hs => rw [hs]
  | within hsim _ => exact hsim.fault

/-- Bytes arrive. -/
theorem Waits.feed {buf : Bytes} (h : Waits r s u) (hfits : r.buf.length + buf.length < 2 ^ 31) :
    Waits { r with buf := r.buf ++ buf } s (u ++ buf) := by
  have hunread : r.pos ≤ r.buf.length →
      RedisReader.unread { r with buf := r.buf ++ buf } = r.unread ++ buf := by
    intro hle
    unfold RedisReader.unread
    exact List.drop_append_of_le_length hle
  have hle : r.pos ≤ r.buf.length → r.pos ≤ (r.buf ++ buf).length := by
    intro hle
    rw [List.length_append]
    omega
  have hlt : (r.buf ++ buf).length < 2 ^ 31 := by rwa [List.length_append]
  cases h with
  | idle out herr hstack hreply hpos _ hs hu =>
    exact .idle out herr hstack hreply (hle hpos) hlt hs (by rw [hunread hpos, hu])
  | within hsim hempty =>
    refine .within { err := hsim.err, tasks := hsim.tasks, reply := hsim.reply,
                     depth := hsim.depth, le := hle hsim.le, fits := hlt, fault := hsim.fault,
                     type := hsim.type,
                     unread := by rw [hunread hsim.le, hsim.unread] } ?_
    intro hnil
    obtain ⟨hbuf, rfl⟩ := List.append_eq_nil_iff.mp hnil
    rw [List.append_nil]
    exact hempty hbuf

/-- A reply is asked for: the task of the root is there. -/
theorem Waits.root (h : Waits r s u) :
    Sim (if r.rstack = [] then { r with rstack := [.root] } else r) s u := by
  cases h with
  | idle out herr hstack hreply hle hlt hs hu =>
    subst hs
    rw [if_pos hstack]
    exact { err := herr, tasks := trivial, reply := hreply, depth := Nat.zero_le _, le := hle,
            fits := hlt, fault := rfl, type := ⟨.root, [], rfl, rfl⟩, unread := hu }
  | within hsim _ =>
    rwa [if_neg hsim.tasks.ne_nil]

/-- Where the buffer is empty there is nothing to be read. -/
theorem Waits.step_of_nil (h : Waits r s u) (hbuf : r.buf = []) : protocol.step s u = none := by
  cases h with
  | idle out _ _ _ _ _ hs hu =>
    subst hs
    rw [hu, RedisReader.unread, hbuf, List.drop_nil]
    rfl
  | within _ hempty => exact hempty hbuf

/-- What was consumed can be discarded. -/
theorem discard_spec (hle : r.pos ≤ r.buf.length) (hfits : r.buf.length < 2 ^ 31) :
    ∃ buf pos, r.discard = { r with buf := buf, pos := pos } ∧ buf.drop pos = r.unread ∧
      pos ≤ buf.length ∧ buf.length < 2 ^ 31 := by
  unfold RedisReader.discard
  split
  · refine ⟨_, _, rfl, ?_, Nat.zero_le _, ?_⟩
    · rw [sdsrange_drop hle hfits]
      rfl
    · rw [sdsrange_drop hle hfits, List.length_drop]
      omega
  · exact ⟨_, _, rfl, rfl, hle, hfits⟩

/-- The parser has seen an error. -/
def Failed (r : RedisReader) (s : State) : Prop :=
  ∃ f, r = redisReaderCreate.setError .protocol (faultText f) ∧ s.fault = some f

/-- The parser in the state `s`, with `u` to be read, has been asked for a reply. -/
structure Asked (res : RedisReader × Option ReplyObject × Bool) (s : State) (u : Bytes)
    (out : List Value) : Prop where
  stands : Failed res.1 s ∨ Waits res.1 s u
  out : s.out.map object = out.map object ++ res.2.1.toList
  exhausted : res.2.1 = none → protocol.step s u = none

/-- What is read when a reply is asked for -/
theorem Waits.getReply (h : Waits r s u) : ∃ s' u', protocol.run s u = protocol.run s' u' ∧
    Asked (redisReaderGetReply r) s' u' s.out := by
  unfold redisReaderGetReply
  rw [if_neg (by simp [h.err])]
  by_cases hempty : r.buf.length = 0
  · rw [if_pos hempty]
    have hbuf := List.eq_nil_of_length_eq_zero hempty
    exact ⟨s, u, rfl, .inr h, (List.append_nil _).symm, fun _ => h.step_of_nil hbuf⟩
  · rw [if_neg hempty]
    obtain ⟨s', u', hrun, hout, hwait⟩ := processItems_spec _ h.root
    refine ⟨s', u', hrun, ?_⟩
    dsimp only
    generalize RedisReader.processItems _ = q at hout hwait
    cases hout with
    | fault f hq hf hsout =>
      subst hq
      rw [if_pos (by simp)]
      exact ⟨.inl ⟨f, rfl, hf⟩, by rw [hsout]; exact (List.append_nil _).symm,
        fun _ => Resp.step_of_fault hf⟩
    | done v herr hnil hreply hle hfits hs hu =>
      obtain ⟨buf, pos, hdiscard, hunread, hle', hfits'⟩ := discard_spec hle hfits
      rw [if_neg (by simp [herr]), hdiscard, if_pos hnil]
      refine ⟨.inr (.idle (s.out ++ [v]) herr hnil rfl hle' hfits' hs (hu.trans hunread.symm)), ?_,
        fun hnone => absurd (hreply.symm.trans hnone) (by simp)⟩
      dsimp only
      rw [hs, List.map_append, hreply]
      rfl
    | more hsim hsout =>
      obtain ⟨buf, pos, hdiscard, hunread, hle', hfits'⟩ := discard_spec hsim.le hsim.fits
      have hne := hsim.tasks.ne_nil
      rw [if_neg (by simp [hsim.err]), hdiscard, if_neg hne]
      refine ⟨.inr (.within ?_ fun _ => hwait hne), by rw [hsout]; exact (List.append_nil _).symm,
        fun _ => hwait hne⟩
      exact { err := hsim.err, tasks := hsim.tasks, reply := hsim.reply, depth := hsim.depth,
              le := hle', fits := hfits', fault := hsim.fault, type := hsim.type,
              unread := hsim.unread.trans hunread.symm }

/-! ### Runs -/

/-- The replies that were given are those that a reader of the protocol has read, which can go on
reading like it can from the beginning. -/
def Holds (w : Reception) : Prop :=
  ∃ s u, protocol.run Resp.fresh w.fed = protocol.run s u ∧ w.given = s.out.map object ∧
    (Failed w.reader s ∨ Waits w.reader s u)

theorem holds_start : Holds .start :=
  ⟨Resp.fresh, [], rfl, rfl, .inr (.idle [] rfl rfl rfl le_rfl (by decide) rfl rfl)⟩

theorem Failed.err (h : Failed r s) : r.err = some .protocol := by
  obtain ⟨f, rfl, -⟩ := h
  rfl

theorem Holds.step (hfits : w.Fits call) (h : Holds w) (hstep : w.step call = some w') :
    Holds w' := by
  obtain ⟨s, u, hrun, hgiven, hstands⟩ := h
  cases call with
  | feed buf =>
    obtain rfl := Option.some.inj hstep
    rcases hstands with hfail | hwaits
    · have hrefused : redisReaderFeed w.reader buf = (w.reader, false) :=
        if_pos (by simp [hfail.err])
      refine ⟨s, u, ?_, hgiven, .inl ?_⟩
      · rw [hrefused]
        exact hrun
      · rw [hrefused]
        exact hfail
    · have hfed : redisReaderFeed w.reader buf =
          ({ w.reader with buf := w.reader.buf ++ buf }, true) := if_neg (by simp [hwaits.err])
      refine ⟨s, u ++ buf, ?_, hgiven, .inr ?_⟩
      · rw [hfed]
        dsimp only
        rw [if_pos rfl, StreamReader.run_append, hrun, ← StreamReader.run_append]
      · rw [hfed]
        exact hwaits.feed hfits
  | getReply =>
    obtain rfl := Option.some.inj hstep
    rcases hstands with hfail | hwaits
    · have hrefused : redisReaderGetReply w.reader = (w.reader, none, false) :=
        if_pos (by simp [hfail.err])
      refine ⟨s, u, hrun, ?_, .inl ?_⟩
      · rw [hrefused, hgiven]
        exact List.append_nil _
      · rw [hrefused]
        exact hfail
    · obtain ⟨s', u', hrun', hasked⟩ := hwaits.getReply
      exact ⟨s', u', hrun.trans hrun', by rw [hasked.out, ← hgiven], hasked.stands⟩

theorem holds_of_exec (hfits : Guarded Reception.step Reception.Fits .start acts)
    (hrun : exec Reception.step .start acts = some w) : Holds w :=
  exec_invariant_of_guarded (fun _ _ _ hguard h hstep => h.step hguard hstep) hfits holds_start hrun

theorem length_chrtos (b : UInt8) : (chrtos b).length ≤ 6 := by
  unfold chrtos
  split_ifs <;> simp [bytes]

/-- No text of an error is cut off. -/
theorem length_faultText (f : Resp.Fault) : (faultText f).length ≤ 127 := by
  cases f with
  | kind b =>
    have hlen := length_chrtos b
    have hfront : (bytes "Protocol error, got ").length = 20 := by decide
    have hback : (bytes " as reply type byte").length = 19 := by decide
    show (protocolByte b).length ≤ 127
    unfold protocolByte
    rw [List.length_append, List.length_append]
    omega
  | integer | bulkLength | bulkRange | arrayLength | arrayRange | depth => decide

/-- A parser that has failed shows the fault. -/
theorem Failed.errstr (h : Failed r s) : r.errstr = (s.fault.map faultText).getD [] := by
  obtain ⟨f, rfl, hf⟩ := h
  rw [hf]
  exact List.take_of_length_le (length_faultText f)

/-- Where a parser is asked in vain, everything that can be read was given. -/
theorem Holds.exhausted (h : Holds w) (hex : w.Exhausted) :
    w.given = (protocol.run Resp.fresh w.fed).1.out.map object ∧
      (redisReaderGetReply w.reader).1.err =
        (protocol.run Resp.fresh w.fed).1.fault.map (fun _ => .protocol) ∧
      ((redisReaderGetReply w.reader).1.err ≠ none → (redisReaderGetReply w.reader).1.errstr =
        ((protocol.run Resp.fresh w.fed).1.fault.map faultText).getD []) := by
  obtain ⟨s, u, hrun, hgiven, hfail | hwaits⟩ := h
  · have hrefused : redisReaderGetReply w.reader = (w.reader, none, false) :=
      if_pos (by simp [hfail.err])
    have hfault := hfail
    obtain ⟨f, hr, hf⟩ := hfault
    rw [hrun.trans (StreamReader.run_of_none (Resp.step_of_fault hf)), hrefused]
    exact ⟨hgiven, by rw [hfail.err, hf]; rfl, fun _ => hfail.errstr⟩
  · obtain ⟨s', u', hrun', hasked⟩ := hwaits.getReply
    have hwait := hasked.exhausted hex
    have hout := hasked.out
    rw [hex, Option.toList_none, List.append_nil] at hout
    rw [hrun.trans (hrun'.trans (StreamReader.run_of_none hwait)), hgiven, hout]
    refine ⟨rfl, ?_⟩
    rcases hasked.stands with hfail | hwaits'
    · have hfault := hfail
      obtain ⟨f, -, hf⟩ := hfault
      exact ⟨by rw [hfail.err, hf]; rfl, fun _ => hfail.errstr⟩
    · rw [hwaits'.err, hwaits'.fault]
      exact ⟨rfl, fun hne => absurd rfl hne⟩

/-- However the bytes arrive and whenever replies are asked for, the replies that are given are
those that the bytes encode, one behind the other, and none is missing where the parser is asked
in vain. -/
theorem replies_exact (hfits : Guarded Reception.step Reception.Fits .start acts)
    (hrun : exec Reception.step .start acts = some w) :
    ∃ vs, w.given = vs.map object ∧ (∃ b, EncodesAll limits 0 vs b ∧ b <+: w.fed) ∧
      (w.Exhausted → ∀ vs' b, EncodesAll limits 0 vs' b → b <+: w.fed → vs' <+: vs) := by
  have h := holds_of_exec hfits hrun
  have hcopy := h
  obtain ⟨s, u, hsplit, hgiven, -⟩ := hcopy
  have hinitial : s.out <+: (protocol.run Resp.fresh w.fed).1.out := by
    rw [hsplit]
    exact Resp.out_prefix_run s u
  refine ⟨s.out, hgiven, Resp.prefix_out_iff.mp hinitial, fun hex vs' b hall hb => ?_⟩
  have hlength := congrArg List.length (hgiven.symm.trans (h.exhausted hex).1)
  rw [List.length_map, List.length_map] at hlength
  rw [hinitial.eq_of_length hlength]
  exact Resp.prefix_out_iff.mpr ⟨b, hall, hb⟩

/-- Two replies, the first of which arrives in two pieces -/
def pieces : List ReaderCall :=
  [.feed (bytes "*2\r\n+O"), .getReply, .feed (bytes "K\r\n$1\r\na\r\n:-12\r\n"), .getReply,
    .getReply]

theorem exec_total (acts : List ReaderCall) (w : Reception) :
    ∃ w', exec Reception.step w acts = some w' := by
  induction acts generalizing w with
  | nil => exact ⟨w, rfl⟩
  | cons call acts ih => cases call <;> exact ih _

theorem replies_exact_pieces : ∃ w vs, exec Reception.step .start pieces = some w ∧
    w.given = vs.map object ∧ (∃ b, EncodesAll limits 0 vs b ∧ b <+: w.fed) ∧
      (w.Exhausted → ∀ vs' b, EncodesAll limits 0 vs' b → b <+: w.fed → vs' <+: vs) := by
  obtain ⟨w, hrun⟩ := exec_total pieces .start
  exact ⟨w, (replies_exact (by decide +kernel) hrun).imp fun vs h => ⟨hrun, h⟩⟩

/-- It does not matter how the bytes were cut into pieces, and when replies were asked for. -/
theorem pieces_irrelevant {acts' : List ReaderCall}
    (hfits : Guarded Reception.step Reception.Fits .start acts)
    (hfits' : Guarded Reception.step Reception.Fits .start acts')
    (hrun : exec Reception.step .start acts = some w)
    (hrun' : exec Reception.step .start acts' = some w') (hfed : w.fed = w'.fed)
    (hex : w.Exhausted) (hex' : w'.Exhausted) :
    w.given = w'.given ∧
      (redisReaderGetReply w.reader).1.err = (redisReaderGetReply w'.reader).1.err ∧
      ((redisReaderGetReply w.reader).1.err ≠ none →
        (redisReaderGetReply w.reader).1.errstr = (redisReaderGetReply w'.reader).1.errstr) := by
  obtain ⟨hgiven, herr, htext⟩ := (holds_of_exec hfits hrun).exhausted hex
  obtain ⟨hgiven', herr', htext'⟩ := (holds_of_exec hfits' hrun').exhausted hex'
  rw [← hfed] at hgiven' herr' htext'
  refine ⟨hgiven.trans hgiven'.symm, herr.trans herr'.symm, fun hne => ?_⟩
  exact (htext hne).trans (htext' (herr'.trans herr.symm ▸ hne)).symm

/-- The same bytes in one piece -/
def onePiece : List ReaderCall :=
  [.feed (bytes "*2\r\n+OK\r\n$1\r\na\r\n:-12\r\n"), .getReply, .getReply]

theorem pieces_irrelevant_pieces : ∃ w w', exec Reception.step .start pieces = some w ∧
    exec Reception.step .start onePiece = some w' ∧ w.given = w'.given := by
  obtain ⟨w, hrun⟩ := exec_total pieces .start
  obtain ⟨w', hrun'⟩ := exec_total onePiece .start
  have hfed : (exec Reception.step .start pieces).map Reception.fed =
      (exec Reception.step .start onePiece).map Reception.fed := by decide +kernel
  have hex : ((exec Reception.step .start pieces).map fun w =>
      (redisReaderGetReply w.reader).2.1.isNone) = some true := by decide +kernel
  have hex' : ((exec Reception.step .start onePiece).map fun w =>
      (redisReaderGetReply w.reader).2.1.isNone) = some true := by decide +kernel
  rw [hrun, hrun'] at hfed
  rw [hrun] at hex
  rw [hrun'] at hex'
  exact ⟨w, w', hrun, hrun', (pieces_irrelevant (by decide +kernel) (by decide +kernel) hrun hrun'
    (Option.some.inj hfed) (Option.isNone_iff_eq_none.mp (Option.some.inj hex))
    (Option.isNone_iff_eq_none.mp (Option.some.inj hex'))).1⟩

/-- An error is final, and it is right: the parser gives nothing more and takes nothing more, and
however the bytes go on, they encode no reply that was not given. -/
theorem error_final {acts' : List ReaderCall}
    (hfits : Guarded Reception.step Reception.Fits .start acts)
    (hrun : exec Reception.step .start acts = some w) (herr : w.reader.err ≠ none)
    (hrest : exec Reception.step w acts' = some w') :
    w' = w ∧ ∀ u vs b, EncodesAll limits 0 vs b → b <+: w.fed ++ u →
      vs.map object <+: w.given := by
  obtain ⟨s, u, hsplit, hgiven, hfail | hwaits⟩ := holds_of_exec hfits hrun
  · constructor
    · refine exec_invariant (I := fun v => v = w) ?_ rfl hrest
      rintro v call v' rfl hstep
      cases call with
      | feed buf =>
        have hrefused : redisReaderFeed v.reader buf = (v.reader, false) := if_pos herr
        obtain rfl := Option.some.inj hstep
        rw [hrefused]
        rfl
      | getReply =>
        have hrefused : redisReaderGetReply v.reader = (v.reader, none, false) := if_pos herr
        obtain rfl := Option.some.inj hstep
        rw [hrefused, Option.toList_none, List.append_nil]
    · intro v vs b hall hb
      obtain ⟨f, -, hf⟩ := hfail
      have hstop := hsplit.trans (StreamReader.run_of_none (Resp.step_of_fault hf))
      have hfault : (protocol.run Resp.fresh w.fed).1.fault = some f := by rw [hstop]; exact hf
      have hinitial := Resp.prefix_out_iff.mpr ⟨b, hall, hb⟩
      rw [Resp.run_of_fault hfault, hstop] at hinitial
      rw [hgiven]
      exact hinitial.map object
  · exact absurd hwaits.err herr

/-- A reply, and a byte that announces none -/
def badByte : List ReaderCall := [.feed (bytes "+OK\r\nx"), .getReply, .getReply]

theorem error_final_badByte : ∃ w, exec Reception.step .start badByte = some w ∧
    exec Reception.step w pieces = some w ∧ ∀ u vs b, EncodesAll limits 0 vs b →
      b <+: w.fed ++ u → vs.map object <+: w.given := by
  obtain ⟨w, hrun⟩ := exec_total badByte .start
  obtain ⟨w', hrest⟩ := exec_total pieces w
  have herr : (exec Reception.step .start badByte).map (fun w => w.reader.err) =
      some (some .protocol) := by decide +kernel
  rw [hrun] at herr
  have hne : w.reader.err ≠ none := fun hnone => by simp [hnone] at herr
  obtain ⟨rfl, hright⟩ := error_final (by decide +kernel) hrun hne hrest
  exact ⟨w', hrun, hrest, hright⟩

/-! ### The stack of tasks -/

/-- The states that the loop of `redisReaderGetReply` passes -/
inductive LoopState : RedisReader → RedisReader → Prop
  | first (r : RedisReader) : LoopState r r
  | item {r r' : RedisReader} : r.rstack ≠ [] → r.processItem.2 = true →
      LoopState r.processItem.1 r' → LoopState r r'

/-- Every task but the root is one of an array, for an element that the array has. -/
def ElementTasks : List RedisReadTask → Prop
  | cur :: prv :: tasks =>
    prv.type = some .array ∧ 0 ≤ cur.idx ∧ cur.idx < prv.elements ∧ ElementTasks (prv :: tasks)
  | _ => True

theorem Tasks.elementTasks : ∀ {tasks : List RedisReadTask} {stack : List Frame},
    Tasks tasks stack → ElementTasks tasks
  | [_], [], _ => trivial
  | _ :: _ :: _, _ :: _, ⟨hidx, helements, htype, hrest⟩ =>
    ⟨htype, by omega, by omega, hrest.elementTasks⟩

/-- The stack has room, the cursor is in the buffer, and the assertions of `moveToNextTask` hold. -/
structure Safe (r : RedisReader) : Prop where
  stack : r.rstack.length ≤ 9
  cursor : r.pos ≤ r.buf.length
  elements : ElementTasks r.rstack

theorem Sim.safe (h : Sim r s u) : Safe r := by
  have hdepth := h.depth
  have hlength := h.tasks.length_eq
  exact ⟨by omega, h.le, h.tasks.elementTasks⟩

theorem safe_of_rstack (hstack : r.rstack = []) (hle : r.pos ≤ r.buf.length) : Safe r :=
  ⟨by simp [hstack], hle, by rw [hstack]; trivial⟩

theorem Sim.safe_of_loopState (h : LoopState r r') :
    ∀ {s : State} {u : Bytes}, Sim r s u → Safe r' := by
  induction h with
  | first r => exact fun hsim => hsim.safe
  | @item r r' hne hok hrest ih =>
    intro s u hsim
    obtain ⟨s', u', -, hout, -⟩ := processItem_spec hsim
    -- the loop does not go on where the reply is complete, or has an error
    have hstop : ∀ {q : RedisReader}, LoopState q r' → q.rstack = [] → q.pos ≤ q.buf.length →
        Safe r' := by
      intro q hq hnil hle
      cases hq with
      | first => exact safe_of_rstack hnil hle
      | item hne' => exact absurd hnil hne'
    cases hout with
    | fault f hr => exact hstop hrest (by rw [hr]; rfl) (by rw [hr]; exact le_rfl)
    | done v herr hnil hreply hle => exact hstop hrest hnil hle
    | more hsim' => exact ih hsim'

/-- Whenever an item is processed, in any run, the task stack stays in its nine entries, the
cursor in the buffer, and what the code asserts about the tasks is so. -/
theorem loop_safe (hfits : Guarded Reception.step Reception.Fits .start acts)
    (hrun : exec Reception.step .start acts = some w) (herr : w.reader.err = none)
    (hloop : LoopState
      (if w.reader.rstack = [] then { w.reader with rstack := [.root] } else w.reader) r) :
    Safe r := by
  obtain ⟨s, u, -, -, hfail | hwaits⟩ := holds_of_exec hfits hrun
  · exact absurd (herr.symm.trans hfail.err) (by simp)
  · exact hwaits.root.safe_of_loopState hloop

theorem loop_safe_pieces : ∃ w, exec Reception.step .start pieces = some w ∧ ∀ r, LoopState
    (if w.reader.rstack = [] then { w.reader with rstack := [.root] } else w.reader) r →
      Safe r := by
  obtain ⟨w, hrun⟩ := exec_total pieces .start
  have herr : (exec Reception.step .start pieces).map (fun w => w.reader.err) = some none := by
    decide +kernel
  rw [hrun] at herr
  exact ⟨w, hrun, fun r => loop_safe (by decide +kernel) hrun (Option.some.inj herr)⟩

end MmorpgServer.Redis
