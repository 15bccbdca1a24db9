import MmorpgServer.Redis.Reading

/-!
# The items of a reply

Each item that the parser processes is a step or two of a reader of the protocol: what is on the
stack of tasks are the arrays that the reader has not read to their end, and the reply has been
built up to the place that is read now.

## Main definitions

* `Sim` — the parser stands where the reader stands
* `Outcome` — what an item leads to

## Main results

* `processItem_spec` — an item is processed like the reader does it
* `processItems_spec` — the loop of `redisReaderGetReply` ends with a reply, with an error, or
  where more input is needed
-/

namespace MmorpgServer.Redis

open Resp (Frame Kind Value Fault State)

/-- `read.c` has a stack of nine tasks, and the number of elements is an `int`. -/
def limits : Resp.Limits := ⟨8, 2 ^ 31 - 1, by decide⟩

/-- The reader of the protocol -/
abbrev protocol : StreamReader State UInt8 := Resp.reader limits

def typeOfKind : Kind → ReplyType
  | .error => .error
  | .status => .status
  | .integer => .integer
  | .bulk => .string
  | .array => .array

/-- The text of an error -/
def faultText : Fault → Bytes
  | .kind b => protocolByte b
  | .integer => bytes "Bad integer value"
  | .bulkLength => bytes "Bad bulk string length"
  | .bulkRange => bytes "Bulk string length out of range"
  | .arrayLength => bytes "Bad multi-bulk length"
  | .arrayRange => bytes "Multi-bulk length out of range"
  | .depth => bytes "No support for nested multi bulk replies with depth > 7"

/-! ### The stack of tasks -/

/-- The tasks of the arrays that are being read, and the root -/
def Tasks : List RedisReadTask → List Frame → Prop
  | [_], [] => True
  | cur :: prv :: tasks, f :: stack =>
    cur.idx = f.items.length ∧ prv.elements = f.items.length + f.left + 1 ∧
      prv.type = some .array ∧ Tasks (prv :: tasks) stack
  | _, _ => False

variable {r r' : RedisReader} {s s' : State} {u u' : Bytes} {stack : List Frame}
  {tasks : List RedisReadTask} {cur : RedisReadTask} {k : Kind} {v : Value} {out : List Value}

theorem Tasks.length_eq : ∀ {tasks : List RedisReadTask} {stack : List Frame}, Tasks tasks stack →
    tasks.length = stack.length + 1
  | [_], [], _ => rfl
  | _ :: _ :: _, _ :: _, h => congrArg (· + 1) h.2.2.2.length_eq

theorem Tasks.ne_nil (h : Tasks tasks stack) : tasks ≠ [] :=
  List.ne_nil_of_length_eq_add_one h.length_eq

/-- The indices of the tasks lead to the place that is read now. -/
theorem Tasks.places : ∀ {tasks : List RedisReadTask} {stack : List Frame}, Tasks tasks stack →
    (tasks.dropLast.map fun task => task.idx.toNat).reverse = places stack
  | [_], [], _ => rfl
  | cur :: prv :: tasks, f :: stack, h => by
    have hrest := h.2.2.2.places
    rw [List.dropLast_cons_cons, List.map_cons, List.reverse_cons, hrest, h.1, Int.toNat_natCast]
    unfold Redis.places
    rw [List.map_cons, List.reverse_cons]

/-- The current task can have any type. -/
theorem Tasks.congr_head {cur' : RedisReadTask} (h : Tasks (cur :: tasks) stack)
    (hidx : cur'.idx = cur.idx) : Tasks (cur' :: tasks) stack := by
  cases tasks with
  | nil =>
    cases stack with
    | nil => trivial
    | cons f stack => exact absurd h id
  | cons prv tasks =>
    cases stack with
    | nil => exact absurd h id
    | cons f stack => exact ⟨hidx.trans h.1, h.2⟩

/-- The parser has read up to a place: the arrays that it is in, and the reply so far -/
structure Builds (r : RedisReader) (stack : List Frame) : Prop where
  err : r.err = none
  tasks : Tasks r.rstack stack
  reply : r.reply = plug stack none
  depth : stack.length ≤ 8
  le : r.pos ≤ r.buf.length
  fits : r.buf.length < 2 ^ 31

/-- The parser stands where the reader stands: in state `s`, with `u` to be read. -/
structure Sim (r : RedisReader) (s : State) (u : Bytes) : Prop extends Builds r s.stack where
  fault : s.fault = none
  type : ∃ cur tasks, r.rstack = cur :: tasks ∧ cur.type = s.kind.map typeOfKind
  unread : u = r.unread

/-- What an item leads to, when the values `out` were read before it -/
inductive Outcome (r : RedisReader) (out : List Value) (s : State) (u : Bytes) : Prop
  | fault (f : Fault) : r = redisReaderCreate.setError .protocol (faultText f) →
      s.fault = some f → s.out = out → Outcome r out s u
  | done (v : Value) : r.err = none → r.rstack = [] → r.reply = some (object v) →
      r.pos ≤ r.buf.length → r.buf.length < 2 ^ 31 → s = ⟨out ++ [v], [], none, none⟩ →
      u = r.unread → Outcome r out s u
  | more : Sim r s u → s.out = out → Outcome r out s u

/-- The object of the current task is put where it belongs. -/
theorem Builds.create (h : Builds r stack) (obj : ReplyObject) :
    (r.create obj).reply = plug stack (some obj) := by
  have hpath : r.path = places stack := h.tasks.places
  unfold RedisReader.create
  dsimp only
  cases stack with
  | nil => rw [hpath]; exact if_pos rfl
  | cons f stack =>
    have hne : places (f :: stack) ≠ [] := by
      unfold places
      simp
    rw [hpath, if_neg hne, h.reply, attach_plug (by simp)]

/-- The next task is that of the next place, or the reply is complete. -/
theorem moveToNextTask_spec : ∀ {tasks : List RedisReadTask} {stack : List Frame} (v : Value),
    Tasks tasks stack →
    ((Resp.close v stack).1 = [] ∧ Tasks (moveToNextTask tasks) (Resp.close v stack).2 ∧
      (Resp.close v stack).2.length ≤ stack.length ∧
      (∃ cur tasks', moveToNextTask tasks = cur :: tasks' ∧ cur.type = none) ∧
      plug stack (some (object v)) = plug (Resp.close v stack).2 none) ∨
    ∃ w, Resp.close v stack = ([w], []) ∧ moveToNextTask tasks = [] ∧
      plug stack (some (object v)) = some (object w)
  | [_], [], v, _ => .inr ⟨v, rfl, rfl, rfl⟩
  | cur :: prv :: tasks, f :: stack, v, h => by
    obtain ⟨hidx, helements, htype, hrest⟩ := h
    by_cases hlast : f.left = 0
    · -- the array is complete, and is itself an element
      have hmove : moveToNextTask (cur :: prv :: tasks) = moveToNextTask (prv :: tasks) := by
        rw [moveToNextTask, if_pos (by omega)]
      have hplug : plug (f :: stack) (some (object v)) =
          plug stack (some (object (.array (f.items ++ [v])))) := by
        rw [plug, hlast, object, objects_eq, objects_eq, List.map_append]
        rfl
      rw [Resp.close, if_pos hlast, hmove, hplug]
      rcases moveToNextTask_spec (.array (f.items ++ [v])) hrest with
        ⟨hout, htasks, hlen, hcur, heq⟩ | hdone
      · exact .inl ⟨hout, htasks, hlen.trans (Nat.le_succ _), hcur, heq⟩
      · exact .inr hdone
    · have hmove : moveToNextTask (cur :: prv :: tasks) =
          { type := none, elements := -1, idx := cur.idx + 1 } :: prv :: tasks := by
        rw [moveToNextTask, if_neg (by omega)]
      rw [Resp.close, if_neg hlast, hmove]
      refine .inl ⟨rfl, ⟨?_, ?_, htype, hrest⟩, le_rfl, ⟨_, _, rfl, rfl⟩, ?_⟩
      · rw [List.length_append, List.length_singleton]
        push_cast
        omega
      · rw [List.length_append, List.length_singleton]
        push_cast
        omega
      · have hleft : f.left = f.left - 1 + 1 := by omega
        rw [plug, plug]
        dsimp only
        rw [objects_eq (f.items ++ [v]), List.map_append, ← objects_eq]
        conv_lhs => rw [hleft, List.replicate_succ]
        rw [List.append_assoc]
        rfl

/-- A value has been read. -/
theorem Builds.put (h : Builds r stack) (v : Value) (hstack : s.stack = stack) :
    Outcome ((r.create (object v)).next) s.out (s.put v) r.unread := by
  subst hstack
  have hreply := h.create (object v)
  rcases moveToNextTask_spec v h.tasks with
    ⟨hout, htasks, hlen, htype, hplug⟩ | ⟨w, hclose, hmove, hplug⟩
  · apply Outcome.more
    · exact { err := h.err, tasks := htasks, reply := hreply.trans hplug,
              depth := hlen.trans h.depth, le := h.le, fits := h.fits, fault := rfl,
              type := htype, unread := rfl }
    · unfold State.put
      rw [hout, List.append_nil]
  · refine Outcome.done w ?_ hmove (hreply.trans hplug) ?_ ?_ ?_ rfl
    · exact h.err
    · exact h.le
    · exact h.fits
    · unfold State.put
      rw [hclose]

/-! ### Items -/

theorem Builds.moveTo (h : Builds r stack) {pos : ℕ} (hle : pos ≤ r.buf.length) :
    Builds { r with pos := pos } stack :=
  { err := h.err, tasks := h.tasks, reply := h.reply, depth := h.depth, le := hle,
    fits := h.fits }

theorem Builds.length_unread_lt (h : Builds r stack) : r.unread.length < 2 ^ 31 := by
  have hfits := h.fits
  rw [RedisReader.length_unread]
  omega

/-- The parser finds the line that the reader splits off. -/
theorem Builds.readLine (h : Builds r stack) :
    r.readLine = (Resp.splitLine r.unread).map fun p =>
      (p.1, { r with pos := r.pos + p.1.length + 2 }) := by
  unfold RedisReader.readLine
  rw [seekNewline_eq h.length_unread_lt, Option.map_map]
  cases hline : Resp.splitLine r.unread with
  | none => rfl
  | some p =>
    obtain ⟨hsplit, -⟩ := Resp.splitLine_eq_some hline
    simp only [Option.map_some, Function.comp_apply, Int.toNat_natCast]
    rw [hsplit, List.append_assoc, List.take_left]

/-- What is behind the line -/
theorem unread_line {l : Bytes} (hline : Resp.splitLine r.unread = some (l, u)) :
    RedisReader.unread { r with pos := r.pos + l.length + 2 } = u ∧
      r.pos + l.length + 2 ≤ r.buf.length := by
  obtain ⟨hsplit, -⟩ := Resp.splitLine_eq_some hline
  have hlen := congrArg List.length hsplit
  rw [RedisReader.length_unread, List.length_append, List.length_append] at hlen
  simp only [Resp.crlf, List.length_cons, List.length_nil] at hlen
  constructor
  · show r.buf.drop (r.pos + l.length + 2) = u
    have hdrop : r.buf.drop (r.pos + l.length + 2) = r.unread.drop (l.length + 2) := by
      unfold RedisReader.unread
      rw [List.drop_drop, ← Nat.add_assoc]
    rw [hdrop, hsplit, List.drop_left' (by simp [Resp.crlf])]
  · omega

/-- What the parser makes of an item of which the reader takes a step, or none -/
def ItemSpec (r : RedisReader) (s : State) (u : Bytes) (res : RedisReader × Bool) : Prop :=
  (protocol.step s u = none ∧ res = (r, false)) ∨
    ∃ s' u', protocol.step s u = some (s', u') ∧ Outcome res.1 s.out s' u' ∧
      (res.2 = false → ∃ f, s'.fault = some f)

theorem processLineItem_spec (h : Sim r s u) (hkind : s.kind = some k) (hbulk : k ≠ .bulk)
    (harray : k ≠ .array) : ItemSpec r s u (r.processLineItem (typeOfKind k)) := by
  obtain rfl := h.unread
  unfold RedisReader.processLineItem
  rw [h.toBuilds.readLine]
  cases hline : Resp.splitLine r.unread with
  | none =>
    exact .inl ⟨Resp.step_wait hkind (fun heq => absurd heq harray) hline, rfl⟩
  | some p =>
    obtain ⟨l, u⟩ := p
    obtain ⟨hunread, hle⟩ := unread_line hline
    have hbuilds := h.toBuilds.moveTo hle
    refine .inr ⟨_, u, Resp.step_line h.fault hkind hbulk harray hline, ?_⟩
    simp only [Option.map_some]
    unfold Resp.lineStep
    cases k with
    | integer =>
      rw [string2ll_eq]
      cases hread : Resp.readInt l with
      | none => exact ⟨.fault .integer rfl rfl rfl, fun _ => ⟨_, rfl⟩⟩
      | some n =>
        exact ⟨hunread ▸ hbuilds.put (.integer n) rfl, by simp [typeOfKind]⟩
    | error => exact ⟨hunread ▸ hbuilds.put (.error l) rfl, by simp [typeOfKind]⟩
    | status => exact ⟨hunread ▸ hbuilds.put (.status l) rfl, by simp [typeOfKind]⟩
    | bulk => exact absurd rfl hbulk
    | array => exact absurd rfl harray

theorem toInt_ofInt {l : Bytes} {n : ℤ} (h : Resp.readInt l = some n) :
    (Int64.ofInt n).toInt = n := by
  obtain ⟨-, hlow, hhigh⟩ := Resp.readInt_eq_some h
  exact Int64.toInt_ofInt_of_le hlow hhigh

theorem processBulkItem_spec (h : Sim r s u) (hkind : s.kind = some .bulk) :
    ItemSpec r s u r.processBulkItem := by
  obtain rfl := h.unread
  unfold RedisReader.processBulkItem
  rw [seekNewline_eq h.length_unread_lt]
  cases hline : Resp.splitLine r.unread with
  | none =>
    exact .inl ⟨Resp.step_wait hkind (by simp) hline, rfl⟩
  | some p =>
    obtain ⟨l, u⟩ := p
    obtain ⟨hunread, hle⟩ := unread_line hline
    obtain ⟨hsplit, -⟩ := Resp.splitLine_eq_some hline
    have hstep : protocol.step s r.unread = Resp.bulkStep s l u :=
      Resp.step_bulk h.fault hkind hline
    have htake : r.unread.take l.length = l := by
      rw [hsplit, List.append_assoc, List.take_left]
    have hdrop : r.unread.drop (l.length + 2) = u := by
      rw [hsplit, List.drop_left' (by simp [Resp.crlf])]
    unfold ItemSpec
    rw [hstep]
    unfold Resp.bulkStep
    simp only [Option.map_some, Int.toNat_natCast, htake, hdrop, string2ll_eq]
    cases hread : Resp.readInt l with
    | none => exact .inr ⟨_, u, rfl, .fault .bulkLength rfl rfl rfl, fun _ => ⟨_, rfl⟩⟩
    | some n =>
      have hn := toInt_ofInt hread
      have hlt : Int64.ofInt n < -1 ↔ n < -1 := by
        rw [Int64.lt_iff_toInt_lt, hn]
        exact Iff.rfl
      have heq : Int64.ofInt n = -1 ↔ n = -1 := by
        rw [← Int64.toInt_inj, hn]
        exact Iff.rfl
      have hlen := congrArg List.length hunread
      rw [RedisReader.length_unread] at hlen
      have hfits : r.pos + (l.length + 2 + n.toNat + 2) ≤ r.buf.length ↔
          n.toNat + 2 ≤ u.length := by
        dsimp only at hlen
        omega
      simp only [Option.map_some, hlt, heq, hn, hfits]
      split_ifs with hneg hnil hbuf
      · exact .inr ⟨_, u, rfl, .fault .bulkRange rfl rfl rfl, fun _ => ⟨_, rfl⟩⟩
      · refine .inr ⟨_, u, rfl, ?_, by simp⟩
        exact hunread ▸ (h.toBuilds.moveTo hle).put .nil rfl
      · -- the string is in the buffer
        have hend := hfits.mpr hbuf
        have hrest : RedisReader.unread { r with pos := r.pos + (l.length + 2 + n.toNat + 2) } =
            u.drop (n.toNat + 2) := by
          rw [← hunread]
          unfold RedisReader.unread
          rw [List.drop_drop]
          congr 1
          dsimp only
          omega
        refine .inr ⟨_, _, rfl, ?_, by simp⟩
        rw [← hrest]
        exact (h.toBuilds.moveTo hend).put (.bulk (u.take n.toNat)) rfl
      · exact .inl ⟨rfl, rfl⟩

theorem processMultiBulkItem_spec (h : Sim r s u) (hkind : s.kind = some .array) :
    ItemSpec r s u r.processMultiBulkItem := by
  obtain rfl := h.unread
  have hlength := h.tasks.length_eq
  unfold RedisReader.processMultiBulkItem
  by_cases hdepth : s.stack.length = 8
  · rw [if_pos (by omega)]
    exact .inr ⟨_, _, Resp.step_depth (L := limits) h.fault hkind hdepth,
      .fault .depth rfl rfl rfl, fun _ => ⟨_, rfl⟩⟩
  · rw [if_neg (by omega), h.toBuilds.readLine]
    cases hline : Resp.splitLine r.unread with
    | none =>
      exact .inl ⟨Resp.step_wait hkind (fun _ => hdepth) hline, rfl⟩
    | some p =>
      obtain ⟨l, u⟩ := p
      obtain ⟨hunread, hle⟩ := unread_line hline
      have hbuilds := h.toBuilds.moveTo hle
      refine .inr ⟨_, u, Resp.step_array (L := limits) h.fault hkind hdepth hline, ?_⟩
      unfold Resp.arrayStep
      simp only [Option.map_some, string2ll_eq]
      cases hread : Resp.readInt l with
      | none => exact ⟨.fault .arrayLength rfl rfl rfl, fun _ => ⟨_, rfl⟩⟩
      | some n =>
        have hn := toInt_ofInt hread
        have hrange : Int64.ofInt n < -1 ∨ Int64.ofInt n > 2 ^ 31 - 1 ↔
            n < -1 ∨ (limits.count : ℤ) < n := by
          rw [gt_iff_lt, Int64.lt_iff_toInt_lt, Int64.lt_iff_toInt_lt, hn]
          exact Iff.rfl
        have heq : Int64.ofInt n = -1 ↔ n = -1 := by
          rw [← Int64.toInt_inj, hn]
          exact Iff.rfl
        simp only [Option.map_some, hrange, heq, hn]
        by_cases hbad : n < -1 ∨ (limits.count : ℤ) < n
        · rw [if_pos hbad, if_pos hbad]
          exact ⟨.fault .arrayRange rfl rfl rfl, fun _ => ⟨_, rfl⟩⟩
        · rw [if_neg hbad, if_neg hbad]
          by_cases hnil : n = -1
          · rw [if_pos hnil, if_pos hnil]
            exact ⟨hunread ▸ hbuilds.put .nil rfl, by simp⟩
          · rw [if_neg hnil, if_neg hnil]
            by_cases hzero : n = 0
            · subst hzero
              rw [if_neg (by decide), if_pos rfl]
              exact ⟨hunread ▸ hbuilds.put (.array []) rfl, by simp⟩
            · rw [if_pos (by omega), if_neg hzero]
              obtain ⟨cur, tasks, hstack, htype⟩ := h.type
              have hreply := hbuilds.create (.array (List.replicate n.toNat none))
              have htasks := h.tasks
              have hleft : ((n.toNat - 1 : ℕ) : ℤ) = n - 1 := by omega
              rw [hstack] at htasks hreply
              simp only [RedisReader.create_rstack, hstack]
              -- the first element of the array is read next
              have hlimit := h.depth
              refine ⟨.more { err := h.err, tasks := ⟨rfl, ?_, ?_, ?_⟩, reply := ?_,
                              depth := by rw [List.length_cons]; omega, le := hle,
                              fits := h.fits, fault := h.fault, type := ⟨_, _, rfl, rfl⟩,
                              unread := hunread.symm } rfl, by simp⟩
              · rw [hleft, List.length_nil]
                push_cast
                omega
              · rw [htype, hkind]
                rfl
              · exact htasks.congr_head rfl
              · rw [plug]
                refine hreply.trans ?_
                have hsucc : n.toNat = n.toNat - 1 + 1 := by omega
                conv_lhs => rw [hsucc, List.replicate_succ]
                rfl

theorem processTyped_spec (h : Sim r s u) (hkind : s.kind = some k) :
    ItemSpec r s u (r.processTyped (typeOfKind k)) := by
  cases k with
  | bulk => exact processBulkItem_spec h hkind
  | array => exact processMultiBulkItem_spec h hkind
  | error => exact processLineItem_spec h hkind (by decide) (by decide)
  | status => exact processLineItem_spec h hkind (by decide) (by decide)
  | integer => exact processLineItem_spec h hkind (by decide) (by decide)

theorem typeOf_eq (b : UInt8) : RedisReader.typeOf b = (Kind.ofByte b).map typeOfKind := by
  have hbytes : byte '-' = 45 ∧ byte '+' = 43 ∧ byte ':' = 58 ∧ byte '$' = 36 ∧ byte '*' = 42 :=
    ⟨rfl, rfl, rfl, rfl, rfl⟩
  obtain ⟨herror, hstatus, hinteger, hstring, harray⟩ := hbytes
  unfold RedisReader.typeOf Kind.ofByte
  rw [herror, hstatus, hinteger, hstring, harray]
  split_ifs <;> rfl

/-- An item is processed like the reader does it: when it is not read to its end, either the
reader waits, or there is an error. -/
theorem processItem_spec (h : Sim r s u) : ∃ s' u',
    protocol.run s u = protocol.run s' u' ∧ Outcome r.processItem.1 s.out s' u' ∧
      (r.processItem.2 = false → protocol.step s' u' = none) := by
  -- an item of which the type is known
  have typed : ∀ {r : RedisReader} {s : State} {u : Bytes} {k : Kind}, Sim r s u →
      s.kind = some k → ∃ s' u', protocol.run s u = protocol.run s' u' ∧
        Outcome (r.processTyped (typeOfKind k)).1 s.out s' u' ∧
        ((r.processTyped (typeOfKind k)).2 = false → protocol.step s' u' = none) := by
    intro r s u k h hkind
    rcases processTyped_spec h hkind with ⟨hwait, heq⟩ | ⟨s', u', hstep, hout, herr⟩
    · rw [heq]
      exact ⟨s, u, rfl, .more h rfl, fun _ => hwait⟩
    · refine ⟨s', u', StreamReader.run_of_some hstep, hout, fun hfalse => ?_⟩
      obtain ⟨f, hf⟩ := herr hfalse
      exact Resp.step_of_fault hf
  obtain ⟨cur, tasks, hstack, htype⟩ := h.type
  unfold RedisReader.processItem
  simp only [hstack, htype]
  cases hkind : s.kind with
  | some k =>
    simp only [Option.map_some]
    exact typed h hkind
  | none =>
    simp only [Option.map_none]
    obtain rfl := h.unread
    cases hunread : r.unread with
    | nil =>
      rw [hunread] at h
      refine ⟨s, [], rfl, .more h rfl, fun _ => ?_⟩
      show Resp.step limits s [] = none
      unfold Resp.step
      rw [if_pos h.fault, hkind]
    | cons b u =>
      have hstep := Resp.step_kind (L := limits) h.fault hkind b (u := u)
      have hrun : protocol.run s (b :: u) = protocol.run (Resp.kindStep s b) u :=
        StreamReader.run_of_some hstep
      rw [hrun]
      simp only [typeOf_eq]
      unfold Resp.kindStep
      cases hbyte : Kind.ofByte b with
      | none =>
        exact ⟨_, u, rfl, .fault (.kind b) rfl rfl rfl,
          fun _ => Resp.step_of_fault (L := limits) (s := s.fail (.kind b)) (u := u) rfl⟩
      | some k =>
        simp only [Option.map_some]
        have hlen := congrArg List.length hunread
        rw [RedisReader.length_unread, List.length_cons] at hlen
        have htail : RedisReader.unread { r with pos := r.pos + 1 } = u := by
          show r.buf.drop (r.pos + 1) = u
          rw [← List.drop_drop, show r.buf.drop r.pos = b :: u from hunread]
          rfl
        have htasks := h.tasks
        rw [hstack] at htasks
        apply typed (s := { s with kind := some k })
        · exact { err := h.err, tasks := htasks.congr_head rfl, reply := h.reply,
                  depth := h.depth, le := by dsimp only; omega, fits := h.fits, fault := h.fault,
                  type := ⟨_, _, rfl, rfl⟩, unread := htail.symm }
        · rfl

/-! ### The loop -/

theorem processItems_of_nil (h : r.rstack = []) : r.processItems = r := by
  rw [RedisReader.processItems, if_pos h]

theorem processItems_of_cons (h : r.rstack ≠ []) :
    r.processItems = if r.processItem.2 = true then r.processItem.1.processItems
      else r.processItem.1 := by
  rw [RedisReader.processItems, if_neg h]
  split
  · next heq => rw [heq, if_neg (by simp)]
  · next heq => rw [heq, if_pos rfl]

/-- The loop ends with a reply, with an error, or where more input is needed. -/
theorem processItems_spec (r : RedisReader) : ∀ {s : State} {u : Bytes}, Sim r s u → ∃ s' u',
    protocol.run s u = protocol.run s' u' ∧ Outcome r.processItems s.out s' u' ∧
      (r.processItems.rstack ≠ [] → protocol.step s' u' = none) := by
  induction hn : r.unread.length using Nat.strongRecOn generalizing r with
  | ind n ih =>
    intro s u h
    obtain ⟨s₁, u₁, hrun, hout, hwait⟩ := processItem_spec h
    rw [processItems_of_cons h.tasks.ne_nil]
    cases hok : r.processItem.2 with
    | false => exact ⟨s₁, u₁, hrun, hout, fun _ => hwait hok⟩
    | true =>
      rw [if_pos rfl]
      cases hout with
      | fault f hr hf hsout =>
        have hnil : r.processItem.1.rstack = [] := by rw [hr]; rfl
        rw [processItems_of_nil hnil]
        exact ⟨s₁, u₁, hrun, .fault f hr hf hsout, fun hne => absurd hnil hne⟩
      | done v herr hnil hreply hle hfits hs hu =>
        rw [processItems_of_nil hnil]
        exact ⟨s₁, u₁, hrun, .done v herr hnil hreply hle hfits hs hu, fun hne => absurd hnil hne⟩
      | more hsim hsout =>
        have hlt := (RedisReader.processItem_advances hok).length_lt
        obtain ⟨s', u', hrun', hout', hwait'⟩ := ih _ (hn ▸ hlt) _ rfl hsim
        exact ⟨s', u', hrun.trans hrun', hsout ▸ hout', hwait'⟩

end MmorpgServer.Redis
