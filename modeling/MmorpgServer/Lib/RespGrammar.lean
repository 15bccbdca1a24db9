import MmorpgServer.Lib.Resp

/-!
# What a reader of the protocol accepts

The reader accepts the grammar, and nothing else: what encodes a value is read as that value, and
a value that was read was encoded. Two bytes must stand behind a string, but they need not be a
line break.

## Main definitions

* `Reads` — what the reader has made of a stream

## Main results

* `readInt_printInt`, `readInt_eq_some` — the numbers that are read are those that were printed
* `run_encodes` — what encodes a value is read as that value
* `reads` — every value that the reader has read was encoded in the stream
* `prefix_out_iff` — the values that are read are those that are encoded, one behind the other
* `run_of_fault` — behind a fault no value is read
-/

namespace MmorpgServer.Resp

open Decimal

variable {L : Limits} {s s' : State} {u u' v l t e : Bytes} {n : ℤ} {d : ℕ} {k : Kind}

/-! ### Numbers in lines -/

theorem oneLine_of_forall_ne : ∀ {t : Bytes}, (∀ b ∈ t, b ≠ 13) → OneLine t
  | [], _ => rfl
  | [_], _ => rfl
  | a :: b :: t, h => by
    obtain ⟨ha, ht⟩ := List.forall_mem_cons.mp h
    have hrest : OneLine (b :: t) := oneLine_of_forall_ne ht
    unfold OneLine at hrest ⊢
    rw [splitLine, if_neg (fun hbreak => ha hbreak.1), hrest]
    rfl

theorem ne_of_mem_print (m : ℕ) : ∀ b ∈ print m, b ≠ 13 := by
  rintro b hb rfl
  exact absurd (isDigit_of_mem_print m 13 hb) (by decide)

theorem oneLine_print (m : ℕ) : OneLine (print m) := oneLine_of_forall_ne (ne_of_mem_print m)

theorem oneLine_printInt (n : ℤ) : OneLine (printInt n) := by
  cases n with
  | ofNat m => exact oneLine_print m
  | negSucc m =>
    apply oneLine_of_forall_ne
    intro b hb
    rcases List.mem_cons.mp hb with rfl | hb
    · decide
    · exact ne_of_mem_print (m + 1) b hb

theorem signedValue_printInt (n : ℤ) : signedValue (printInt n) = n := by
  cases n with
  | ofNat m =>
    rw [printInt]
    cases hprint : print m with
    | nil => exact absurd hprint print_ne_nil
    | cons b l =>
      have hsign : b ≠ 45 := by
        rintro rfl
        exact absurd (isDigit_of_mem_print m 45 (hprint ▸ List.mem_cons_self)) (by decide)
      rw [signedValue, if_neg hsign, ← hprint, value_print]
      rfl
  | negSucc m =>
    rw [printInt, signedValue, if_pos rfl, value_print]
    rfl

/-- What is printed is read. -/
theorem readInt_printInt (hlow : -2 ^ 63 ≤ n) (hhigh : n < 2 ^ 63) :
    readInt (printInt n) = some n := by
  unfold readInt
  rw [signedValue_printInt]
  exact if_pos ⟨rfl, hlow, hhigh⟩

/-- What is read was printed. -/
theorem readInt_eq_some (h : readInt l = some n) :
    l = printInt n ∧ -2 ^ 63 ≤ n ∧ n < 2 ^ 63 := by
  unfold readInt at h
  split at h
  · next hcond =>
    obtain rfl := Option.some.inj h
    exact ⟨hcond.1.symm, hcond.2⟩
  · exact absurd h (by simp)

theorem readInt_print {m : ℕ} (h : m < 2 ^ 63) : readInt (print m) = some (m : ℤ) :=
  readInt_printInt (n := Int.ofNat m) (by simp only [Int.ofNat_eq_natCast]; omega)
    (by simp only [Int.ofNat_eq_natCast]; omega)

/-! ### What is encoded is read -/

theorem put_of_left_zero {f : Frame} {stack : List Frame} (v : Value)
    (hstack : s.stack = f :: stack) (hleft : f.left = 0) :
    s.put v = { s with stack := stack }.put (.array (f.items ++ [v])) := by
  unfold State.put
  rw [hstack, close, if_pos hleft]

theorem put_of_left_pos {f : Frame} {stack : List Frame} (v : Value)
    (hstack : s.stack = f :: stack) (hleft : f.left ≠ 0) :
    s.put v = ⟨s.out, ⟨f.items ++ [v], f.left - 1⟩ :: stack, none, none⟩ := by
  unfold State.put
  rw [hstack, close, if_neg hleft, List.append_nil]

/-- The byte in front of a value says of what kind it is. -/
theorem run_kind (hfault : s.fault = none) (hkind : s.kind = none) (k : Kind) :
    (reader L).run s (k.byte :: u) = (reader L).run { s with kind := some k } u := by
  have hbyte : Kind.ofByte k.byte = some k := by cases k <;> decide
  rw [StreamReader.run_of_some (step_kind hfault hkind k.byte), kindStep, hbyte]

theorem run_line (hfault : s.fault = none) (hkind : s.kind = none) (hbulk : k ≠ .bulk)
    (harray : k ≠ .array) (hline : OneLine t) :
    (reader L).run s (k.byte :: (t ++ crlf) ++ u) =
      (reader L).run (lineStep { s with kind := some k } k t) u := by
  rw [List.cons_append, run_kind hfault hkind]
  exact StreamReader.run_of_some
    (step_line hfault rfl hbulk harray (splitLine_of_oneLine hline u))

theorem run_bulk (hfault : s.fault = none) (hkind : s.kind = none) (hline : OneLine t)
    {w w' : Bytes} (hbulk : bulkStep { s with kind := some .bulk } t w = some (s', w')) :
    (reader L).run s (36 :: (t ++ crlf ++ w)) = (reader L).run s' w' := by
  rw [show (36 : UInt8) = Kind.bulk.byte from rfl, run_kind hfault hkind]
  apply StreamReader.run_of_some
  rw [← hbulk]
  have hkind' : { s with kind := some Kind.bulk }.kind = some .bulk := rfl
  exact step_bulk (L := L) hfault hkind' (splitLine_of_oneLine hline w)

theorem run_array (hfault : s.fault = none) (hkind : s.kind = none)
    (hdepth : s.stack.length < L.depth) (hline : OneLine t) :
    (reader L).run s (42 :: (t ++ crlf ++ u)) =
      (reader L).run (arrayStep L { s with kind := some .array } t) u := by
  rw [show (42 : UInt8) = Kind.array.byte from rfl, run_kind hfault hkind]
  exact StreamReader.run_of_some
    (step_array hfault rfl (Nat.ne_of_lt hdepth) (splitLine_of_oneLine hline u))

theorem bulkStep_bulk (hlen : t.length < 2 ^ 63) (he : e.length = 2) :
    bulkStep { s with kind := some .bulk } (print t.length) (t ++ e ++ u) =
      some (s.put (.bulk t), u) := by
  have hfits : t.length + 2 ≤ (t ++ e ++ u).length := by
    simp only [List.length_append]
    omega
  unfold bulkStep
  simp only [readInt_print hlen]
  rw [if_neg (by omega), if_neg (by omega), Int.toNat_natCast, if_pos hfits, List.append_assoc,
    List.take_left, ← List.append_assoc, List.drop_left' (by rw [List.length_append, he])]
  rfl

theorem bulkStep_nil :
    bulkStep { s with kind := some .bulk } (printInt (-1)) u = some (s.put .nil, u) := by
  unfold bulkStep
  rw [readInt_printInt (by decide) (by decide)]
  rfl

theorem arrayStep_nil :
    arrayStep L { s with kind := some .array } (printInt (-1)) = s.put .nil := by
  have hrange : ¬ ((-1 : ℤ) < -1 ∨ (L.count : ℤ) < -1) := by omega
  unfold arrayStep
  rw [readInt_printInt (by decide) (by decide)]
  dsimp only
  rw [if_neg hrange, if_pos rfl]
  rfl

/-- An array with elements is opened. -/
theorem arrayStep_push {m : ℕ} (hpos : 0 < m) (hm : m < 2 ^ 63) (hcount : m ≤ L.count) :
    arrayStep L { s with kind := some .array } (print m) =
      { s with stack := ⟨[], m - 1⟩ :: s.stack, kind := none } := by
  unfold arrayStep
  rw [readInt_print hm]
  dsimp only
  rw [if_neg (by omega), if_neg (by omega), if_neg (by omega), Int.toNat_natCast]

theorem arrayStep_empty :
    arrayStep L { s with kind := some .array } (print 0) = s.put (.array []) := by
  have hrange : ¬ ((0 : ℤ) < -1 ∨ (L.count : ℤ) < 0) := by omega
  have hread : readInt (print 0) = some 0 := readInt_print (by decide)
  unfold arrayStep
  rw [hread]
  dsimp only
  rw [if_neg hrange, if_neg (by decide), if_pos rfl]
  rfl

mutual

/-- What encodes a value is read as that value. -/
theorem run_encodes {d : ℕ} {v : Value} {b : Bytes} (h : Encodes L d v b) (s : State)
    (hfault : s.fault = none) (hkind : s.kind = none) (hdepth : s.stack.length = d) (u : Bytes) :
    (reader L).run s (b ++ u) = (reader L).run (s.put v) u :=
  match h with
  | .status hline => run_line (k := .status) hfault hkind (by decide) (by decide) hline
  | .error hline => run_line (k := .error) hfault hkind (by decide) (by decide) hline
  | .integer (n := n) hlow hhigh => by
    have hread := readInt_printInt hlow hhigh
    refine (run_line (k := .integer) hfault hkind (by decide) (by decide)
      (oneLine_printInt n)).trans ?_
    rw [lineStep, if_pos rfl, hread]
    rfl
  | .bulk (t := t) (e := e) hlen he => by
    have hread := readInt_print hlen
    show (reader L).run s (36 :: (print t.length ++ crlf ++ (t ++ e) ++ u)) = _
    rw [List.append_assoc]
    exact run_bulk hfault hkind (oneLine_print t.length) (bulkStep_bulk hlen he)
  | .nilBulk => by
    exact run_bulk hfault hkind (oneLine_printInt (-1)) bulkStep_nil
  | .nilArray hlt => by
    rw [← arrayStep_nil]
    exact run_array hfault hkind (hdepth ▸ hlt) (oneLine_printInt (-1))
  | .array hlt _ .nil => by
    rw [List.append_nil, List.length_nil, ← arrayStep_empty (L := L)]
    exact run_array hfault hkind (hdepth ▸ hlt) (oneLine_print 0)
  | @Encodes.array _ _ (w :: ws) b hlt hcount hitems => by
    have hm : (w :: ws).length < 2 ^ 63 := lt_of_le_of_lt hcount L.count_lt
    have hopen := run_array (L := L) (u := b ++ u) hfault hkind (hdepth ▸ hlt)
      (oneLine_print (w :: ws).length)
    rw [arrayStep_push (by simp) hm hcount] at hopen
    rw [List.cons_append, List.append_assoc, hopen]
    exact run_encodesAll hitems { s with stack := ⟨[], ws.length⟩ :: s.stack, kind := none }
      ⟨[], ws.length⟩ s.stack hfault rfl rfl (hdepth ▸ rfl) rfl u

/-- What encodes the missing elements of the innermost array is read as them. -/
theorem run_encodesAll {d : ℕ} {vs : List Value} {b : Bytes} (h : EncodesAll L d vs b) (s : State)
    (f : Frame) (stack : List Frame) (hfault : s.fault = none) (hkind : s.kind = none)
    (hstack : s.stack = f :: stack) (hdepth : stack.length + 1 = d)
    (hleft : f.left + 1 = vs.length) (u : Bytes) :
    (reader L).run s (b ++ u) =
      (reader L).run ({ s with stack := stack }.put (.array (f.items ++ vs))) u :=
  match h with
  | .nil => absurd hleft (by simp)
  | @EncodesAll.cons _ _ v [] _ _ hv .nil => by
    have hzero : f.left = 0 := by simpa using hleft
    rw [List.append_nil, run_encodes hv s hfault hkind (by rw [hstack]; exact hdepth) u,
      put_of_left_zero v hstack hzero]
  | @EncodesAll.cons _ _ v (w :: ws) _ bs hv hws => by
    have hlast : f.left = ws.length + 1 := by simpa using hleft
    have hfirst := run_encodes hv s hfault hkind (by rw [hstack]; exact hdepth) (bs ++ u)
    rw [put_of_left_pos v hstack (by omega)] at hfirst
    have hrest := run_encodesAll hws ⟨s.out, ⟨f.items ++ [v], f.left - 1⟩ :: stack, none, none⟩
      ⟨f.items ++ [v], f.left - 1⟩ stack rfl rfl rfl hdepth
      (by rw [List.length_cons, hlast]; rfl) u
    rw [List.append_assoc] at hrest ⊢
    exact hfirst.trans hrest

end

/-- Values behind each other are read one after the other. -/
theorem run_encodesAll_out {vs : List Value} {b : Bytes} (h : EncodesAll L 0 vs b)
    (out : List Value) (u : Bytes) :
    (reader L).run ⟨out, [], none, none⟩ (b ++ u) =
      (reader L).run ⟨out ++ vs, [], none, none⟩ u := by
  induction vs generalizing out b with
  | nil =>
    cases h
    rw [List.nil_append, List.append_nil]
  | cons v vs ih =>
    cases h with
    | cons hv hvs =>
      rw [List.append_assoc, run_encodes hv _ rfl rfl rfl, List.append_cons]
      exact ih hvs (out ++ [v])

/-! ### What is read was encoded -/

theorem EncodesAll.append {d : ℕ} {vs ws : List Value} {b c : Bytes} (hvs : EncodesAll L d vs b)
    (hws : EncodesAll L d ws c) : EncodesAll L d (vs ++ ws) (b ++ c) := by
  induction vs generalizing b with
  | nil =>
    cases hvs
    exact hws
  | cons v vs ih =>
    cases hvs with
    | cons hv hvs =>
      rw [List.append_assoc]
      exact .cons hv (ih hvs)

theorem EncodesAll.singleton {d : ℕ} {v : Value} {b : Bytes} (h : Encodes L d v b) :
    EncodesAll L d [v] b := by
  have hcons := EncodesAll.cons h .nil
  rwa [List.append_nil] at hcons

theorem EncodesAll.of_append {d : ℕ} {vs ws : List Value} {b : Bytes}
    (h : EncodesAll L d (vs ++ ws) b) :
    ∃ c c', b = c ++ c' ∧ EncodesAll L d vs c ∧ EncodesAll L d ws c' := by
  induction vs generalizing b with
  | nil => exact ⟨[], b, rfl, .nil, h⟩
  | cons v vs ih =>
    cases h with
    | cons hv hrest =>
      obtain ⟨c, c', rfl, hvs, hws⟩ := ih hrest
      exact ⟨_, c', by rw [List.append_assoc], .cons hv hvs, hws⟩

/-- The bytes of the arrays that are open: their announcements, and the elements that were read -/
inductive Open (L : Limits) : List Frame → Bytes → Prop
  | nil : Open L [] []
  | cons {f stack b c} : Open L stack b → stack.length < L.depth →
      f.items.length + f.left + 1 ≤ L.count → EncodesAll L (stack.length + 1) f.items c →
      Open L (f :: stack) (b ++ 42 :: (print (f.items.length + f.left + 1) ++ crlf ++ c))

/-- What was read closes the arrays that it completes. -/
theorem Open.close {stack : List Frame} {b : Bytes} (h : Open L stack b) :
    ∀ {v : Value} {c : Bytes}, Encodes L stack.length v c → ∃ d b',
      b ++ c = d ++ b' ∧ EncodesAll L 0 (Resp.close v stack).1 d ∧
        Open L (Resp.close v stack).2 b' := by
  induction h with
  | nil =>
    intro v c hv
    exact ⟨c, [], (List.append_nil c).symm, .singleton hv, .nil⟩
  | @cons f stack b c' hstack hdepth hcount hitems ih =>
    intro v c hv
    have hall : EncodesAll L (stack.length + 1) (f.items ++ [v]) (c' ++ c) :=
      hitems.append (.singleton hv)
    rw [Resp.close]
    split
    · next hlast =>
      -- the array is complete
      have hlen : f.items.length + f.left + 1 = (f.items ++ [v]).length := by
        rw [List.length_append, List.length_singleton]
        omega
      have harray := Encodes.array hdepth (hlen ▸ hcount) hall
      rw [← hlen] at harray
      obtain ⟨d, b', heq, hout, hopen⟩ := ih harray
      refine ⟨d, b', ?_, hout, hopen⟩
      rw [← heq]
      simp only [List.append_assoc, List.cons_append]
    · next hlast =>
      have hlen : f.items.length + f.left + 1 =
          (f.items ++ [v]).length + (f.left - 1) + 1 := by
        rw [List.length_append, List.length_singleton]
        omega
      have hopen := Open.cons (f := ⟨f.items ++ [v], f.left - 1⟩) hstack hdepth (hlen ▸ hcount) hall
      refine ⟨[], _, ?_, .nil, hopen⟩
      rw [hlen]
      simp only [List.append_assoc, List.cons_append, List.nil_append]

/-- What the reader has made of the stream `w`, of which `rest` is not read: the values that were
read are encoded at its beginning, and behind them stands what is being read. -/
structure Reads (L : Limits) (w : Bytes) (s : State) (rest : Bytes) : Prop where
  out : ∃ c, EncodesAll L 0 s.out c ∧ c <+: w
  rest : s.fault = none → ∃ c b, EncodesAll L 0 s.out c ∧ Open L s.stack b ∧
    w = c ++ b ++ (s.kind.toList.map Kind.byte ++ rest)

variable {w rest rest' : Bytes}

theorem Reads.fail (h : Reads L w s rest) (f : Fault) : Reads L w (s.fail f) rest' :=
  ⟨h.out, fun hfault => absurd hfault (by simp)⟩

theorem Reads.put {v : Value} {c : Bytes} (h : Reads L w s rest) (hfault : s.fault = none)
    (hv : Encodes L s.stack.length v c)
    (hrest : s.kind.toList.map Kind.byte ++ rest = c ++ rest') : Reads L w (s.put v) rest' := by
  obtain ⟨c₀, b, hout, hopen, hw⟩ := h.rest hfault
  obtain ⟨d, b', heq, hclosed, hopen'⟩ := hopen.close hv
  have hall : EncodesAll L 0 (s.put v).out (c₀ ++ d) := hout.append hclosed
  have hsplit : w = c₀ ++ d ++ b' ++ rest' := by
    rw [hw, hrest]
    simp only [← List.append_assoc]
    rw [List.append_assoc c₀, heq, ← List.append_assoc]
  exact ⟨⟨_, hall, by rw [hsplit, List.append_assoc]; exact List.prefix_append ..⟩,
    fun _ => ⟨_, b', hall, hopen', hsplit⟩⟩

theorem byte_of_ofByte {b : UInt8} (h : Kind.ofByte b = some k) : b = k.byte := by
  unfold Kind.ofByte at h
  split_ifs at h <;> obtain rfl := Option.some.inj h <;> assumption

theorem Reads.kindStep {b : UInt8} (h : Reads L w s (b :: rest)) (hfault : s.fault = none)
    (hkind : s.kind = none) : Reads L w (kindStep s b) rest := by
  unfold Resp.kindStep
  split
  · exact h.fail _
  · next k hbyte =>
    obtain rfl := byte_of_ofByte hbyte
    obtain ⟨c, b, hout, hopen, hw⟩ := h.rest hfault
    rw [hkind] at hw
    exact ⟨h.out, fun _ => ⟨c, b, hout, hopen, hw⟩⟩

/-- A kind, and a line behind it -/
theorem kind_line (hkind : s.kind = some k) (hline : splitLine rest = some (l, rest')) :
    s.kind.toList.map Kind.byte ++ rest = k.byte :: (l ++ crlf) ++ rest' := by
  rw [hkind, (splitLine_eq_some hline).1]
  rfl

theorem Reads.lineStep (h : Reads L w s rest) (hfault : s.fault = none) (hkind : s.kind = some k)
    (hbulk : k ≠ .bulk) (harray : k ≠ .array) (hline : splitLine rest = some (l, rest')) :
    Reads L w (lineStep s k l) rest' := by
  have hbytes := kind_line hkind hline
  have hone := (splitLine_eq_some hline).2
  unfold Resp.lineStep
  cases k with
  | integer =>
    rw [if_pos rfl]
    cases hread : readInt l with
    | none => exact h.fail _
    | some n =>
      obtain ⟨rfl, hlow, hhigh⟩ := readInt_eq_some hread
      exact h.put hfault (.integer hlow hhigh) hbytes
  | error => exact h.put hfault (.error hone) hbytes
  | status => exact h.put hfault (.status hone) hbytes
  | bulk => exact absurd rfl hbulk
  | array => exact absurd rfl harray

theorem printInt_toNat {n : ℤ} (h : 0 ≤ n) : printInt n = print n.toNat := by
  obtain ⟨m, rfl⟩ := Int.eq_ofNat_of_zero_le h
  rfl

theorem Reads.bulkStep (h : Reads L w s rest) (hfault : s.fault = none)
    (hkind : s.kind = some .bulk) (hline : splitLine rest = some (l, u))
    (hbulk : bulkStep s l u = some (s', rest')) : Reads L w s' rest' := by
  have hbytes := kind_line hkind hline
  unfold Resp.bulkStep at hbulk
  cases hread : readInt l with
  | none =>
    rw [hread] at hbulk
    obtain ⟨rfl, rfl⟩ := Prod.mk.inj (Option.some.inj hbulk)
    exact h.fail _
  | some n =>
    obtain ⟨rfl, hlow, hhigh⟩ := readInt_eq_some hread
    simp only [hread] at hbulk
    split_ifs at hbulk with hneg hnil hfits
    · obtain ⟨rfl, rfl⟩ := Prod.mk.inj (Option.some.inj hbulk)
      exact h.fail _
    · obtain ⟨rfl, rfl⟩ := Prod.mk.inj (Option.some.inj hbulk)
      subst hnil
      exact h.put hfault .nilBulk hbytes
    · obtain ⟨rfl, rfl⟩ := Prod.mk.inj (Option.some.inj hbulk)
      have hlen : (u.take n.toNat).length = n.toNat := List.length_take_of_le (by omega)
      have hend : ((u.drop n.toNat).take 2).length = 2 :=
        List.length_take_of_le (by rw [List.length_drop]; omega)
      have henc := Encodes.bulk (L := L) (d := s.stack.length) (t := u.take n.toNat)
        (e := (u.drop n.toNat).take 2) (by rw [hlen]; omega) hend
      rw [hlen] at henc
      apply h.put hfault henc
      rw [hbytes, printInt_toNat (by omega)]
      -- the string, the two bytes behind it, and what follows
      have hsplit : u = u.take n.toNat ++ ((u.drop n.toNat).take 2 ++ u.drop (n.toNat + 2)) := by
        rw [← List.drop_drop, List.take_append_drop, List.take_append_drop]
      rw [List.cons_append, List.append_assoc]
      conv_lhs => rw [hsplit]
      simp only [Kind.byte, List.append_assoc, List.cons_append]

theorem Reads.arrayStep (h : Reads L w s rest) (hfault : s.fault = none)
    (hkind : s.kind = some .array) (hdepth : s.stack.length < L.depth)
    (hline : splitLine rest = some (l, rest')) : Reads L w (arrayStep L s l) rest' := by
  have hbytes := kind_line hkind hline
  unfold Resp.arrayStep
  cases hread : readInt l with
  | none => exact h.fail _
  | some n =>
    obtain ⟨rfl, hlow, hhigh⟩ := readInt_eq_some hread
    dsimp only
    split_ifs with hrange hnil hempty
    · exact h.fail _
    · subst hnil
      exact h.put hfault (.nilArray hdepth) hbytes
    · subst hempty
      refine h.put hfault (.array hdepth (Nat.zero_le _) .nil) ?_
      rw [hbytes, List.append_nil]
      rfl
    · -- the array is open, and none of its elements is read
      obtain ⟨c, b, hout, hopen, hw⟩ := h.rest hfault
      have hlen : ([] : List Value).length + (n.toNat - 1) + 1 = n.toNat := by
        rw [List.length_nil]
        omega
      have hpush := Open.cons (f := ⟨[], n.toNat - 1⟩) hopen hdepth (by rw [hlen]; omega) .nil
      rw [hlen] at hpush
      refine ⟨h.out, fun _ => ⟨c, _, hout, hpush, ?_⟩⟩
      rw [hw, hbytes, printInt_toNat (by omega)]
      simp only [Kind.byte, List.append_assoc, List.cons_append, List.append_nil,
        Option.toList_none, List.map_nil, List.nil_append]

/-- The arrays that are open are not nested too deep. -/
theorem Open.length_le {stack : List Frame} {b : Bytes} (h : Open L stack b) :
    stack.length ≤ L.depth := by
  cases h with
  | nil => exact Nat.zero_le _
  | cons _ hlt _ _ => exact hlt

/-- One step of the reader -/
theorem Reads.step (h : Reads L w s rest) (hstep : step L s rest = some (s', rest')) :
    Reads L w s' rest' := by
  obtain ⟨hfault, hcases⟩ := step_cases hstep
  rcases hcases with ⟨b, hkind, rfl, rfl⟩ | ⟨l, u, hkind, hline, hbulk⟩ |
    ⟨hkind, hdepth, rfl, rfl⟩ | ⟨l, hkind, hdepth, hline, rfl⟩ |
    ⟨k, l, hkind, hbulk, harray, hline, rfl⟩
  · exact h.kindStep hfault hkind
  · exact h.bulkStep hfault hkind hline hbulk
  · exact h.fail _
  · obtain ⟨_, _, -, hopen, -⟩ := h.rest hfault
    exact h.arrayStep hfault hkind (lt_of_le_of_ne hopen.length_le hdepth) hline
  · exact h.lineStep hfault hkind hbulk harray hline

/-- Every value that the reader has read was encoded in the stream. -/
theorem reads (L : Limits) (w : Bytes) :
    Reads L w ((reader L).run fresh w).1 ((reader L).run fresh w).2 := by
  apply StreamReader.run_invariant (I := Reads L w) (fun _ _ _ _ h hstep => h.step hstep)
  exact ⟨⟨[], .nil, List.nil_prefix⟩, fun _ => ⟨[], [], .nil, .nil, rfl⟩⟩

/-! ### What is read -/

/-- A step takes back nothing that was read. -/
theorem out_prefix_step (h : Resp.step L s u = some (s', u')) : s.out <+: s'.out := by
  have hput : ∀ v, s.out <+: (s.put v).out := fun v => List.prefix_append ..
  obtain ⟨hfault, hcases⟩ := step_cases h
  rcases hcases with ⟨b, -, -, rfl⟩ | ⟨l, v, -, -, hbulk⟩ | ⟨-, -, rfl, -⟩ | ⟨l, -, -, -, rfl⟩ |
    ⟨k, l, -, -, -, -, rfl⟩
  · unfold Resp.kindStep
    split <;> exact List.prefix_rfl
  · unfold Resp.bulkStep at hbulk
    split at hbulk
    · obtain ⟨rfl, -⟩ := Prod.mk.inj (Option.some.inj hbulk)
      exact List.prefix_rfl
    · split_ifs at hbulk <;> obtain ⟨rfl, -⟩ := Prod.mk.inj (Option.some.inj hbulk)
      · exact List.prefix_rfl
      · exact hput _
      · exact hput _
  · exact List.prefix_rfl
  · unfold Resp.arrayStep
    split
    · exact List.prefix_rfl
    · split_ifs
      · exact List.prefix_rfl
      · exact hput _
      · exact hput _
      · exact List.prefix_rfl
  · unfold Resp.lineStep
    split_ifs
    · split
      · exact List.prefix_rfl
      · exact hput _
    · exact hput _
    · exact hput _

theorem out_prefix_run (s : State) (u : Bytes) : s.out <+: ((reader L).run s u).1.out := by
  apply StreamReader.run_invariant (R := reader L) (I := fun s' _ => s.out <+: s'.out)
    (fun _ _ _ _ h hstep => h.trans (out_prefix_step hstep))
  exact List.prefix_rfl

/-- The values that are read are those that are encoded in the stream, one behind the other. -/
theorem prefix_out_iff {vs : List Value} :
    vs <+: ((reader L).run fresh w).1.out ↔ ∃ b, EncodesAll L 0 vs b ∧ b <+: w := by
  constructor
  · rintro ⟨ws, hout⟩
    obtain ⟨c, hall, hinitial⟩ := (reads L w).out
    rw [← hout] at hall
    obtain ⟨d, d', rfl, hvs, -⟩ := hall.of_append
    exact ⟨d, hvs, (List.prefix_append d d').trans hinitial⟩
  · rintro ⟨b, hall, rest, rfl⟩
    rw [fresh, run_encodesAll_out hall [] rest, List.nil_append]
    exact out_prefix_run ⟨vs, [], none, none⟩ rest

theorem step_of_fault {f : Fault} (h : s.fault = some f) : Resp.step L s u = none := by
  unfold Resp.step
  rw [if_neg (by rw [h]; simp)]

/-- Behind a fault no value is read, whatever arrives. -/
theorem run_of_fault {f : Fault} (h : ((reader L).run fresh w).1.fault = some f) (u : Bytes) :
    ((reader L).run fresh (w ++ u)).1 = ((reader L).run fresh w).1 := by
  rw [StreamReader.run_append, StreamReader.run_of_none (step_of_fault h)]

end MmorpgServer.Resp
