import MmorpgServer.Lib.Decimal
import MmorpgServer.Lib.Stream

/-!
# The serialization protocol of Redis

A value is written as a byte that says what it is, a line, and what the line announces: the bytes
of a string, or the elements of an array, which are values again. A reader of values keeps a stack
of the arrays that it has not read to their end.

## Main definitions

* `Value`, `Encodes` — a value, and the bytes it can be written as
* `State`, `reader` — the reader of a stream of values
* `Limits` — how deep arrays may be nested, and how many elements they may have

## Main results

* `splitLine_eq_some`, `splitLine_of_oneLine` — the lines that are split off
* `step_cases` — what a step of the reader can do
-/

namespace MmorpgServer.Resp

open Decimal

abbrev Bytes := List UInt8

inductive Value where
  | status (text : Bytes)
  | error (text : Bytes)
  | integer (n : ℤ)
  | bulk (text : Bytes)
  | array (items : List Value)
  | nil

/-! ### Lines -/

def crlf : Bytes := [13, 10]

/-- What stands in front of the first line break, and what stands behind it -/
def splitLine : Bytes → Option (Bytes × Bytes)
  | a :: b :: u =>
    if a = 13 ∧ b = 10 then some ([], u)
    else (splitLine (b :: u)).map fun p => (a :: p.1, p.2)
  | _ => none

/-- There is no line break in a text. -/
def OneLine (t : Bytes) : Prop := splitLine t = none

/-- The number that a sign and digits stand for -/
def signedValue : Bytes → ℤ
  | [] => 0
  | b :: l => if b = 45 then -(value l : ℤ) else value (b :: l)

/-- A number of 64 bits as it is printed -/
def readInt (l : Bytes) : Option ℤ :=
  if printInt (signedValue l) = l ∧ -2 ^ 63 ≤ signedValue l ∧ signedValue l < 2 ^ 63 then
    some (signedValue l)
  else none

/-! ### The grammar -/

/-- How many arrays may be open, and how many elements an array may have -/
structure Limits where
  depth : ℕ
  count : ℕ
  count_lt : count < 2 ^ 63

mutual

/-- With `d` arrays around it, a value can be written like this. -/
inductive Encodes (L : Limits) : ℕ → Value → Bytes → Prop
  | status {d t} : OneLine t → Encodes L d (.status t) (43 :: (t ++ crlf))
  | error {d t} : OneLine t → Encodes L d (.error t) (45 :: (t ++ crlf))
  | integer {d n} : -2 ^ 63 ≤ n → n < 2 ^ 63 →
      Encodes L d (.integer n) (58 :: (printInt n ++ crlf))
  /-- two bytes stand behind a string -/
  | bulk {d t e} : t.length < 2 ^ 63 → e.length = 2 →
      Encodes L d (.bulk t) (36 :: (print t.length ++ crlf ++ (t ++ e)))
  | nilBulk {d} : Encodes L d .nil (36 :: (printInt (-1) ++ crlf))
  | nilArray {d} : d < L.depth → Encodes L d .nil (42 :: (printInt (-1) ++ crlf))
  | array {d items b} : d < L.depth → items.length ≤ L.count → EncodesAll L (d + 1) items b →
      Encodes L d (.array items) (42 :: (print items.length ++ crlf ++ b))

/-- Values that are written one behind the other -/
inductive EncodesAll (L : Limits) : ℕ → List Value → Bytes → Prop
  | nil {d} : EncodesAll L d [] []
  | cons {d v vs b bs} : Encodes L d v b → EncodesAll L d vs bs →
      EncodesAll L d (v :: vs) (b ++ bs)

end

/-! ### The reader -/

inductive Kind where
  | error
  | status
  | integer
  | bulk
  | array
  deriving DecidableEq

def Kind.ofByte (b : UInt8) : Option Kind :=
  if b = 45 then some .error
  else if b = 43 then some .status
  else if b = 58 then some .integer
  else if b = 36 then some .bulk
  else if b = 42 then some .array
  else none

/-- The byte that announces a kind -/
def Kind.byte : Kind → UInt8
  | .error => 45
  | .status => 43
  | .integer => 58
  | .bulk => 36
  | .array => 42

/-- Why a stream is not read any further -/
inductive Fault where
  | kind (b : UInt8)
  | integer
  | bulkLength
  | bulkRange
  | arrayLength
  | arrayRange
  | depth
  deriving DecidableEq

/-- An array that is being read: its elements so far, and how many are missing behind the one that
is read now -/
structure Frame where
  items : List Value
  left : ℕ

structure State where
  /-- the values that were read -/
  out : List Value
  /-- the arrays that are being read, the inner ones first -/
  stack : List Frame
  /-- the kind of the value that is being read -/
  kind : Option Kind
  fault : Option Fault

def fresh : State := ⟨[], [], none, none⟩

/-- A value has been read. It can be the last one of an array. -/
def close (v : Value) : List Frame → List Value × List Frame
  | [] => ([v], [])
  | f :: stack =>
    if f.left = 0 then close (.array (f.items ++ [v])) stack
    else ([], ⟨f.items ++ [v], f.left - 1⟩ :: stack)

def State.put (s : State) (v : Value) : State :=
  ⟨s.out ++ (close v s.stack).1, (close v s.stack).2, none, none⟩

def State.fail (s : State) (f : Fault) : State := { s with fault := some f }

/-- The byte that announces a value -/
def kindStep (s : State) (b : UInt8) : State :=
  match Kind.ofByte b with
  | none => s.fail (.kind b)
  | some k => { s with kind := some k }

/-- A line that holds a value -/
def lineStep (s : State) (k : Kind) (l : Bytes) : State :=
  if k = .integer then
    match readInt l with
    | none => s.fail .integer
    | some n => s.put (.integer n)
  else if k = .error then s.put (.error l)
  else s.put (.status l)

/-- The line `l` announces a string, of which `u` has arrived. -/
def bulkStep (s : State) (l u : Bytes) : Option (State × Bytes) :=
  match readInt l with
  | none => some (s.fail .bulkLength, u)
  | some n =>
    if n < -1 then some (s.fail .bulkRange, u)
    else if n = -1 then some (s.put .nil, u)
    else if n.toNat + 2 ≤ u.length then
      some (s.put (.bulk (u.take n.toNat)), u.drop (n.toNat + 2))
    else none

/-- The line `l` announces an array. -/
def arrayStep (L : Limits) (s : State) (l : Bytes) : State :=
  match readInt l with
  | none => s.fail .arrayLength
  | some n =>
    if n < -1 ∨ L.count < n then s.fail .arrayRange
    else if n = -1 then s.put .nil
    else if n = 0 then s.put (.array [])
    else { s with stack := ⟨[], n.toNat - 1⟩ :: s.stack, kind := none }

/-- One step: a kind, a line, or a string -/
def step (L : Limits) (s : State) (u : Bytes) : Option (State × Bytes) :=
  if s.fault = none then
    match s.kind, u with
    | none, [] => none
    | none, b :: u => some (kindStep s b, u)
    | some .bulk, u => (splitLine u).bind fun p => bulkStep s p.1 p.2
    | some .array, u =>
      if s.stack.length = L.depth then some (s.fail .depth, u)
      else (splitLine u).map fun p => (arrayStep L s p.1, p.2)
    | some k, u => (splitLine u).map fun p => (lineStep s k p.1, p.2)
  else none

variable {L : Limits} {s s' : State} {u u' v l t e : Bytes} {n : ℤ} {d : ℕ} {k : Kind}

/-! ### Lines that are split off -/

theorem splitLine_append : ∀ {u : Bytes} {l u' : Bytes}, splitLine u = some (l, u') →
    ∀ v, splitLine (u ++ v) = some (l, u' ++ v)
  | a :: b :: u, l, u', h, v => by
    rw [splitLine] at h
    rw [List.cons_append, List.cons_append, splitLine]
    split at h
    · next hbreak =>
      obtain ⟨rfl, rfl⟩ := Prod.mk.inj (Option.some.inj h)
      rw [if_pos hbreak]
    · next hbreak =>
      obtain ⟨p, hp, heq⟩ := Option.map_eq_some_iff.mp h
      obtain ⟨rfl, rfl⟩ := Prod.mk.inj heq
      rw [if_neg hbreak, ← List.cons_append, splitLine_append hp v]
      rfl

/-- What is split off, and the line break behind it -/
theorem splitLine_eq_some : ∀ {u : Bytes} {l u' : Bytes}, splitLine u = some (l, u') →
    u = l ++ crlf ++ u' ∧ OneLine l
  | a :: b :: u, l, u', h => by
    rw [splitLine] at h
    split at h
    · next hbreak =>
      obtain ⟨rfl, rfl⟩ := Prod.mk.inj (Option.some.inj h)
      obtain ⟨rfl, rfl⟩ := hbreak
      exact ⟨rfl, rfl⟩
    · next hbreak =>
      obtain ⟨⟨m, w⟩, hp, heq⟩ := Option.map_eq_some_iff.mp h
      obtain ⟨rfl, rfl⟩ := Prod.mk.inj heq
      obtain ⟨hsplit, hone⟩ := splitLine_eq_some hp
      refine ⟨by rw [hsplit]; rfl, ?_⟩
      unfold OneLine at hone ⊢
      cases m with
      | nil => rfl
      | cons c m =>
        obtain rfl : b = c := List.head_eq_of_cons_eq hsplit
        rw [splitLine, if_neg hbreak, hone]
        rfl

/-- A text without a line break is split off as it is. -/
theorem splitLine_of_oneLine : ∀ {t : Bytes}, OneLine t →
    ∀ u, splitLine (t ++ crlf ++ u) = some (t, u)
  | [], _, u => rfl
  | [a], _, u => by
    show splitLine (a :: 13 :: 10 :: u) = _
    rw [splitLine, if_neg (by rintro ⟨-, h⟩; exact absurd h (by decide))]
    rfl
  | a :: b :: t, h, u => by
    unfold OneLine at h
    rw [splitLine] at h
    split at h
    · exact absurd h (by simp)
    · next hbreak =>
      rw [Option.map_eq_none_iff] at h
      show splitLine (a :: b :: (t ++ crlf ++ u)) = _
      rw [splitLine, if_neg hbreak, ← List.cons_append, ← List.cons_append,
        splitLine_of_oneLine (t := b :: t) h u]
      rfl

theorem length_splitLine (h : splitLine u = some (l, u')) : u'.length + 2 ≤ u.length := by
  obtain ⟨rfl, -⟩ := splitLine_eq_some h
  simp only [crlf, List.length_append, List.length_cons, List.length_nil]
  omega

/-! ### The steps of the reader -/

@[simp] theorem put_fault (v : Value) : (s.put v).fault = none := rfl

@[simp] theorem put_kind (v : Value) : (s.put v).kind = none := rfl

@[simp] theorem fail_fault (f : Fault) : (s.fail f).fault = some f := rfl

theorem bulkStep_append (h : bulkStep s l u = some (s', u')) (v : Bytes) :
    bulkStep s l (u ++ v) = some (s', u' ++ v) := by
  unfold bulkStep at h ⊢
  cases hn : readInt l with
  | none =>
    rw [hn] at h
    obtain ⟨rfl, rfl⟩ := Prod.mk.inj (Option.some.inj h)
    rfl
  | some n =>
    simp only [hn] at h ⊢
    split at h
    · next hlt =>
      obtain ⟨rfl, rfl⟩ := Prod.mk.inj (Option.some.inj h)
      rw [if_pos hlt]
    · next hlt =>
      rw [if_neg hlt]
      split at h
      · next hnil =>
        obtain ⟨rfl, rfl⟩ := Prod.mk.inj (Option.some.inj h)
        rw [if_pos hnil]
      · next hnil =>
        rw [if_neg hnil]
        split at h
        · next hlen =>
          obtain ⟨rfl, rfl⟩ := Prod.mk.inj (Option.some.inj h)
          rw [if_pos (by rw [List.length_append]; omega), List.take_append_of_le_length (by omega),
            List.drop_append_of_le_length hlen]
        · exact absurd h (by simp)

theorem length_bulkStep (h : bulkStep s l u = some (s', u')) : u'.length ≤ u.length := by
  unfold bulkStep at h
  cases hn : readInt l with
  | none =>
    rw [hn] at h
    obtain ⟨rfl, rfl⟩ := Prod.mk.inj (Option.some.inj h)
    exact le_rfl
  | some n =>
    simp only [hn] at h
    split_ifs at h with hlt hnil hlen
    · obtain ⟨rfl, rfl⟩ := Prod.mk.inj (Option.some.inj h)
      exact le_rfl
    · obtain ⟨rfl, rfl⟩ := Prod.mk.inj (Option.some.inj h)
      exact le_rfl
    · obtain ⟨rfl, rfl⟩ := Prod.mk.inj (Option.some.inj h)
      rw [List.length_drop]
      omega

/-- What a step can do -/
theorem step_cases (h : step L s u = some (s', u')) : s.fault = none ∧
    ((∃ b, s.kind = none ∧ u = b :: u' ∧ s' = kindStep s b) ∨
    (∃ l w, s.kind = some .bulk ∧ splitLine u = some (l, w) ∧ bulkStep s l w = some (s', u')) ∨
    (s.kind = some .array ∧ s.stack.length = L.depth ∧ s' = s.fail .depth ∧ u' = u) ∨
    (∃ l, s.kind = some .array ∧ s.stack.length ≠ L.depth ∧ splitLine u = some (l, u') ∧
      s' = arrayStep L s l) ∨
    (∃ k l, s.kind = some k ∧ k ≠ .bulk ∧ k ≠ .array ∧ splitLine u = some (l, u') ∧
      s' = lineStep s k l)) := by
  unfold step at h
  split at h
  · next hfault =>
    refine ⟨hfault, ?_⟩
    split at h
    · exact absurd h (by simp)
    · next b w hkind =>
      obtain ⟨rfl, rfl⟩ := Prod.mk.inj (Option.some.inj h)
      exact .inl ⟨b, hkind, rfl, rfl⟩
    · next hkind =>
      obtain ⟨⟨l, w⟩, hline, hbulk⟩ := Option.bind_eq_some_iff.mp h
      exact .inr (.inl ⟨l, w, hkind, hline, hbulk⟩)
    · next hkind =>
      split at h
      · next hdepth =>
        obtain ⟨rfl, rfl⟩ := Prod.mk.inj (Option.some.inj h)
        exact .inr (.inr (.inl ⟨hkind, hdepth, rfl, rfl⟩))
      · next hdepth =>
        obtain ⟨⟨l, w⟩, hline, heq⟩ := Option.map_eq_some_iff.mp h
        obtain ⟨rfl, rfl⟩ := Prod.mk.inj heq
        exact .inr (.inr (.inr (.inl ⟨l, hkind, hdepth, hline, rfl⟩)))
    · next k hbulk harray hkind =>
      obtain ⟨⟨l, w⟩, hline, heq⟩ := Option.map_eq_some_iff.mp h
      obtain ⟨rfl, rfl⟩ := Prod.mk.inj heq
      exact .inr (.inr (.inr (.inr ⟨k, l, hkind, hbulk, harray, hline, rfl⟩)))
  · exact absurd h (by simp)

theorem step_kind (hfault : s.fault = none) (hkind : s.kind = none) (b : UInt8) :
    step L s (b :: u) = some (kindStep s b, u) := by
  unfold step
  rw [if_pos hfault, hkind]

theorem step_bulk (hfault : s.fault = none) (hkind : s.kind = some .bulk)
    (hline : splitLine u = some (l, v)) : step L s u = bulkStep s l v := by
  unfold step
  rw [if_pos hfault, hkind]
  show (splitLine u).bind _ = _
  rw [hline]
  rfl

theorem step_depth (hfault : s.fault = none) (hkind : s.kind = some .array)
    (hdepth : s.stack.length = L.depth) : step L s u = some (s.fail .depth, u) := by
  unfold step
  rw [if_pos hfault, hkind]
  show (if _ then _ else _) = _
  rw [if_pos hdepth]

theorem step_array (hfault : s.fault = none) (hkind : s.kind = some .array)
    (hdepth : s.stack.length ≠ L.depth) (hline : splitLine u = some (l, v)) :
    step L s u = some (arrayStep L s l, v) := by
  unfold step
  rw [if_pos hfault, hkind]
  show (if _ then _ else _) = _
  rw [if_neg hdepth, hline]
  rfl

theorem step_line (hfault : s.fault = none) (hkind : s.kind = some k) (hbulk : k ≠ .bulk)
    (harray : k ≠ .array) (hline : splitLine u = some (l, v)) :
    step L s u = some (lineStep s k l, v) := by
  unfold step
  rw [if_pos hfault, hkind]
  cases k with
  | bulk => exact absurd rfl hbulk
  | array => exact absurd rfl harray
  | error | status | integer =>
    show (splitLine u).map _ = _
    rw [hline]
    rfl

/-- A value needs its line. -/
theorem step_wait (hkind : s.kind = some k) (hdepth : k = .array → s.stack.length ≠ L.depth)
    (hline : splitLine u = none) : step L s u = none := by
  unfold step
  rw [hkind]
  split
  · cases k with
    | bulk =>
      show (splitLine u).bind _ = none
      rw [hline]
      rfl
    | array =>
      show (if _ then _ else (splitLine u).map _) = none
      rw [if_neg (hdepth rfl), hline]
      rfl
    | error | status | integer =>
      show (splitLine u).map _ = none
      rw [hline]
      rfl
  · rfl

/-- The reader of a stream of values -/
def reader (L : Limits) : StreamReader State UInt8 where
  step := step L
  size s u := u.length + if s.fault = none then 1 else 0
  size_lt {s u s' u'} h := by
    -- a step takes bytes from the stream, or is the last one
    obtain ⟨hfault, hcases⟩ := step_cases h
    rw [if_pos hfault]
    have hle : (if s'.fault = none then 1 else 0) ≤ 1 := by split <;> omega
    rcases hcases with ⟨b, -, rfl, -⟩ | ⟨l, w, -, hline, hbulk⟩ | ⟨-, -, rfl, rfl⟩ |
      ⟨l, -, -, hline, -⟩ | ⟨k, l, -, -, -, hline, -⟩
    · rw [List.length_cons]
      omega
    · have hlen := length_splitLine hline
      have hrest := length_bulkStep hbulk
      omega
    · rw [fail_fault, if_neg (by simp)]
      omega
    · have hlen := length_splitLine hline
      omega
    · have hlen := length_splitLine hline
      omega
  step_append {s u s' u'} h v := by
    obtain ⟨hfault, hcases⟩ := step_cases h
    rcases hcases with ⟨b, hkind, rfl, rfl⟩ | ⟨l, w, hkind, hline, hbulk⟩ |
      ⟨hkind, hdepth, rfl, rfl⟩ | ⟨l, hkind, hdepth, hline, rfl⟩ |
      ⟨k, l, hkind, hbulk, harray, hline, rfl⟩
    · exact step_kind hfault hkind b
    · rw [step_bulk hfault hkind (splitLine_append hline v), bulkStep_append hbulk v]
    · exact step_depth hfault hkind hdepth
    · exact step_array hfault hkind hdepth (splitLine_append hline v)
    · exact step_line hfault hkind hbulk harray (splitLine_append hline v)

end MmorpgServer.Resp
