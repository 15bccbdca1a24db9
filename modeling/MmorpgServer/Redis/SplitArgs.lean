import MmorpgServer.Redis.Sds
import Mathlib.Data.List.TakeWhile

/-!
# Quoted strings

`sdscatrepr` writes a string between quotes, with escapes for what cannot be printed.
`sdssplitargs` reads a line of such strings, and of words without quotes.

## Main definitions

* `sdscatrepr` — append a string in quotes
* `sdssplitargs` — the arguments in a line

## Main results

* `tokenLoop_repr` — a string in quotes is read as one token
* `splitargs_repr` — what was quoted is read back
-/

namespace MmorpgServer.Redis

/-! ### Writing -/

/-- The backslash and the two quotes -/
def backslash : UInt8 := 92

def quote : UInt8 := 34

def apostrophe : UInt8 := 39

/-- `isprint` -/
def isprint (b : UInt8) : Bool := 32 ≤ b && b ≤ 126

/-- A digit of `%x` -/
def printHex (d : UInt8) : UInt8 := if d < 10 then 48 + d else 87 + d

/-- What `sdscatrepr` appends for a byte -/
def reprByte (b : UInt8) : Bytes :=
  if b = backslash ∨ b = quote then [backslash, b]
  else if b = 10 then [backslash, byte 'n']
  else if b = 13 then [backslash, byte 'r']
  else if b = 9 then [backslash, byte 't']
  else if b = 7 then [backslash, byte 'a']
  else if b = 8 then [backslash, byte 'b']
  else if isprint b then [b]
  else [backslash, byte 'x'] ++ [printHex (b / 16), printHex (b % 16)]

/-- `sdscatrepr` -/
def sdscatrepr (s p : Bytes) : Bytes :=
  p.foldl (fun s b => s ++ reprByte b) (s ++ [quote]) ++ [quote]

/-! ### Reading -/

/-- `is_hex_digit` -/
def isHexDigit (c : UInt8) : Bool :=
  (byte '0' ≤ c && c ≤ byte '9') || (byte 'a' ≤ c && c ≤ byte 'f') ||
    (byte 'A' ≤ c && c ≤ byte 'F')

/-- `hex_digit_to_int` -/
def hexDigitToInt (c : UInt8) : UInt8 :=
  if byte '0' ≤ c ∧ c ≤ byte '9' then c - 48
  else if byte 'a' ≤ c ∧ c ≤ byte 'f' then c - 87
  else if byte 'A' ≤ c ∧ c ≤ byte 'F' then c - 55
  else 0

/-- The byte that an escape stands for, by the character behind the backslash -/
def unescape (c : UInt8) : UInt8 :=
  if c = byte 'n' then 10
  else if c = byte 'r' then 13
  else if c = byte 't' then 9
  else if c = byte 'b' then 8
  else if c = byte 'a' then 7
  else c

/-- Where the loop over a token is: `inq` is `double`, and `insq` is `single`. -/
inductive Quote where
  | plain | double | single
  deriving DecidableEq

/-- A blank follows, or the end of the line. -/
def blankAhead (p : Bytes) : Bool := p.head?.all isspace

/-- The loop of `sdssplitargs` over a token, with what is behind the token; `skip` characters belong
to the last escape. There is no token where a quote is not closed, or is followed by something. -/
def tokenLoop : (p : Bytes) → (skip : ℕ) → Quote → (current : Bytes) → Option (Bytes × Bytes)
  | _ :: p, skip + 1, q, current => tokenLoop p skip q current
  | [], _, .plain, current => some (current, [])
  | [], _, _, _ => none
  | c :: p, 0, .double, current =>
    if c = backslash ∧ p.take 1 = bytes "x" ∧ (p[1]?).any isHexDigit ∧ (p[2]?).any isHexDigit then
      let b := hexDigitToInt (p.getD 1 0) * 16 + hexDigitToInt (p.getD 2 0)
      tokenLoop p 3 .double (current ++ [b])
    else if c = backslash ∧ p ≠ [] then tokenLoop p 1 .double (current ++ [unescape (p.headD 0)])
    else if c = quote then if blankAhead p then some (current, p) else none
    else tokenLoop p 0 .double (current ++ [c])
  | c :: p, 0, .single, current =>
    if c = backslash ∧ p.take 1 = [apostrophe] then tokenLoop p 1 .single (current ++ [apostrophe])
    else if c = apostrophe then if blankAhead p then some (current, p) else none
    else tokenLoop p 0 .single (current ++ [c])
  | c :: p, 0, .plain, current =>
    if c = 32 ∨ c = 10 ∨ c = 13 ∨ c = 9 then some (current, p)
    else if c = quote then tokenLoop p 0 .double current
    else if c = apostrophe then tokenLoop p 0 .single current
    else tokenLoop p 0 .plain (current ++ [c])

/-- What is behind a token is shorter than what was read. -/
theorem length_tokenLoop {p current token rest : Bytes} {skip : ℕ} {q : Quote}
    (h : tokenLoop p skip q current = some (token, rest)) : rest.length ≤ p.length - 1 := by
  induction p generalizing skip q current with
  | nil =>
    cases q with
    | plain =>
      obtain ⟨-, rfl⟩ := Prod.mk.inj (Option.some.inj h)
      exact le_rfl
    | double => exact absurd h (by simp [tokenLoop])
    | single => exact absurd h (by simp [tokenLoop])
  | cons c p ih =>
    rw [List.length_cons, Nat.add_sub_cancel]
    -- the loop goes on behind `c`, or the token ends here
    have hnext : ∀ skip q current, tokenLoop p skip q current = some (token, rest) →
        rest.length ≤ p.length := fun _ _ _ h => (ih h).trans (Nat.sub_le _ _)
    have hend : ∀ current, some (current, p) = some (token, rest) → rest.length ≤ p.length := by
      intro current heq
      obtain ⟨-, rfl⟩ := Prod.mk.inj (Option.some.inj heq)
      exact le_rfl
    cases skip with
    | succ skip => exact hnext _ _ _ h
    | zero =>
      cases q with
      | plain =>
        rw [tokenLoop] at h
        split_ifs at h
        · exact hend _ h
        all_goals exact hnext _ _ _ h
      | double =>
        rw [tokenLoop] at h
        split_ifs at h
        · exact hnext _ _ _ h
        · exact hnext _ _ _ h
        · exact hend _ h
        · exact hnext _ _ _ h
      | single =>
        rw [tokenLoop] at h
        split_ifs at h
        · exact hnext _ _ _ h
        · exact hend _ h
        · exact hnext _ _ _ h

/-- The loop of `sdssplitargs`; `argv` are the arguments that were read. -/
def splitLoop (p : Bytes) (argv : List Bytes) : Option (List Bytes) :=
  match _h : p.dropWhile isspace with
  | [] => some argv
  | c :: rest =>
    match _htoken : tokenLoop (c :: rest) 0 .plain [] with
    | none => none
    | some (token, rest) => splitLoop rest (argv ++ [token])
termination_by p.length
decreasing_by
  have hle := length_tokenLoop _htoken
  have hdrop := (List.dropWhile_suffix isspace (l := p)).length_le
  rw [_h] at hdrop
  simp only [List.length_cons] at hle hdrop
  omega

/-- `sdssplitargs` -/
def sdssplitargs (line : Bytes) : Option (List Bytes) := splitLoop (cstr line) []

/-! ### Reading what was written -/

theorem sdscatrepr_eq (s p : Bytes) :
    sdscatrepr s p = s ++ quote :: (p.flatMap reprByte ++ [quote]) := by
  have hloop : ∀ s : Bytes, p.foldl (fun s b => s ++ reprByte b) s = s ++ p.flatMap reprByte := by
    induction p with
    | nil => simp
    | cons b p ih =>
      intro s
      rw [List.foldl_cons, ih, List.flatMap_cons, List.append_assoc]
  unfold sdscatrepr
  rw [hloop, List.append_assoc, List.append_assoc]
  rfl

/-- An escape of one character -/
theorem tokenLoop_escape {c : UInt8} (hc : c ≠ byte 'x') (p current : Bytes) :
    tokenLoop (backslash :: c :: p) 0 .double current =
      tokenLoop p 0 .double (current ++ [unescape c]) := by
  have hx : ¬(c :: p).take 1 = bytes "x" := by
    intro heq
    exact hc (List.cons.inj heq).1
  rw [tokenLoop, if_neg fun h => hx h.2.1, if_pos ⟨rfl, List.cons_ne_nil _ _⟩]
  rfl

/-- Two hexadecimal digits are read as the byte that they were written for. -/
theorem hex_roundtrip (b : UInt8) : isHexDigit (printHex (b / 16)) = true ∧
    isHexDigit (printHex (b % 16)) = true ∧
      hexDigitToInt (printHex (b / 16)) * 16 + hexDigitToInt (printHex (b % 16)) = b := by
  have hall : ∀ n < 256, isHexDigit (printHex (UInt8.ofNat n / 16)) = true ∧
      isHexDigit (printHex (UInt8.ofNat n % 16)) = true ∧
      hexDigitToInt (printHex (UInt8.ofNat n / 16)) * 16 +
        hexDigitToInt (printHex (UInt8.ofNat n % 16)) = UInt8.ofNat n := by decide +kernel
  have hb := hall b.toNat b.toNat_lt
  rwa [UInt8.ofNat_toNat] at hb

/-- What was written for a byte is read as this byte. -/
theorem tokenLoop_reprByte (b : UInt8) (p current : Bytes) :
    tokenLoop (reprByte b ++ p) 0 .double current =
      tokenLoop p 0 .double (current ++ [b]) := by
  unfold reprByte
  split_ifs with hquote hn hr ht ha hb hprint
  · have hne : b ≠ byte 'x' := by rcases hquote with rfl | rfl <;> decide
    have hsame : unescape b = b := by rcases hquote with rfl | rfl <;> decide
    exact (tokenLoop_escape hne p current).trans (by rw [hsame])
  · subst hn
    exact tokenLoop_escape (by decide) p current
  · subst hr
    exact tokenLoop_escape (by decide) p current
  · subst ht
    exact tokenLoop_escape (by decide) p current
  · subst ha
    exact tokenLoop_escape (by decide) p current
  · subst hb
    exact tokenLoop_escape (by decide) p current
  · -- the byte stands for itself
    obtain ⟨hslash, hdouble⟩ := not_or.mp hquote
    rw [List.singleton_append, tokenLoop, if_neg fun h => hslash h.1, if_neg fun h => hslash h.1,
      if_neg hdouble]
  · obtain ⟨hhigh, hlow, hval⟩ := hex_roundtrip b
    have hshape : [backslash, byte 'x'] ++ [printHex (b / 16), printHex (b % 16)] ++ p =
        backslash :: byte 'x' :: printHex (b / 16) :: printHex (b % 16) :: p := rfl
    rw [hshape, tokenLoop, if_pos ⟨rfl, rfl, by simpa using hhigh, by simpa using hlow⟩]
    simp only [tokenLoop, List.getD_cons_succ, List.getD_cons_zero, hval]

/-- A string in quotes is read as one token, where a blank follows or nothing. -/
theorem tokenLoop_repr {rest : Bytes} (hrest : blankAhead rest = true) (p current : Bytes) :
    tokenLoop (p.flatMap reprByte ++ quote :: rest) 0 .double current =
      some (current ++ p, rest) := by
  induction p generalizing current with
  | nil =>
    rw [List.flatMap_nil, List.nil_append, tokenLoop, if_neg fun h => absurd h.1 (by decide),
      if_neg fun h => absurd h.1 (by decide), if_pos rfl, if_pos hrest, List.append_nil]
  | cons b p ih =>
    rw [List.flatMap_cons, List.append_assoc, tokenLoop_reprByte, ih, List.append_assoc,
      List.singleton_append]

theorem splitLoop_of_blank {p : Bytes} (h : ∀ b ∈ p, isspace b = true) (argv : List Bytes) :
    splitLoop p argv = some argv := by
  rw [splitLoop]
  split
  · rfl
  · next c rest heq =>
    rw [List.dropWhile_eq_nil_iff.mpr h] at heq
    exact absurd heq (by simp)

/-- Blanks are skipped, and a string in quotes is one argument. -/
theorem splitLoop_repr {lead rest : Bytes} (hlead : ∀ b ∈ lead, isspace b = true)
    (hrest : blankAhead rest = true) (arg : Bytes) (argv : List Bytes) :
    splitLoop (lead ++ quote :: (arg.flatMap reprByte ++ quote :: rest)) argv =
      splitLoop rest (argv ++ [arg]) := by
  have hdrop : (lead ++ quote :: (arg.flatMap reprByte ++ quote :: rest)).dropWhile isspace =
      quote :: (arg.flatMap reprByte ++ quote :: rest) := by
    rw [List.dropWhile_append_of_pos hlead, List.dropWhile_cons_of_neg (by decide)]
  have htoken : tokenLoop (quote :: (arg.flatMap reprByte ++ quote :: rest)) 0 .plain [] =
      some (arg, rest) := by
    rw [tokenLoop, if_neg (by decide), if_pos rfl, tokenLoop_repr hrest, List.nil_append]
  rw [splitLoop]
  split
  · next heq => exact absurd (heq.symm.trans hdrop) (by simp)
  · next c p heq =>
    rw [hdrop] at heq
    rw [← heq, htoken]

/-- A line of strings in quotes, with blanks in front and behind each of them -/
def quotedLine (lead : Bytes) (args : List (Bytes × Bytes)) : Bytes :=
  args.foldl (fun s a => sdscatrepr s a.1 ++ a.2) lead

theorem quotedLine_cons (lead : Bytes) (a : Bytes × Bytes) (args : List (Bytes × Bytes)) :
    quotedLine lead (a :: args) =
      lead ++ quote :: (a.1.flatMap reprByte ++ quote :: quotedLine a.2 args) := by
  have happend : ∀ (args : List (Bytes × Bytes)) (s t : Bytes),
      quotedLine (s ++ t) args = s ++ quotedLine t args := by
    intro args
    induction args with
    | nil => exact fun _ _ => rfl
    | cons a args ih =>
      intro s t
      show quotedLine (sdscatrepr (s ++ t) a.1 ++ a.2) args =
        s ++ quotedLine (sdscatrepr t a.1 ++ a.2) args
      rw [← ih, sdscatrepr_eq, sdscatrepr_eq]
      simp only [List.append_assoc]
  show quotedLine (sdscatrepr lead a.1 ++ a.2) args = _
  rw [happend, sdscatrepr_eq]
  simp only [List.append_assoc, List.cons_append, List.nil_append]

/-- The blanks of a line: they are blanks, and there is one between any two strings. -/
structure Spaced (lead : Bytes) (args : List (Bytes × Bytes)) : Prop where
  lead : ∀ b ∈ lead, isspace b = true
  blanks : ∀ a ∈ args, ∀ b ∈ a.2, isspace b = true
  between : ∀ a ∈ args.dropLast, a.2 ≠ []

theorem spaced_iff (lead : Bytes) (args : List (Bytes × Bytes)) :
    (lead.all isspace && args.all (fun a => a.2.all isspace) &&
      args.dropLast.all fun a => !a.2.isEmpty) = true ↔ Spaced lead args := by
  simp only [Bool.and_eq_true, List.all_eq_true, Bool.not_eq_true', List.isEmpty_eq_false_iff]
  exact ⟨fun ⟨⟨hlead, hblanks⟩, hbetween⟩ => ⟨hlead, hblanks, hbetween⟩,
    fun ⟨hlead, hblanks, hbetween⟩ => ⟨⟨hlead, hblanks⟩, hbetween⟩⟩

instance (lead : Bytes) (args : List (Bytes × Bytes)) : Decidable (Spaced lead args) :=
  decidable_of_iff _ (spaced_iff lead args)

variable {lead : Bytes} {args : List (Bytes × Bytes)} {a : Bytes × Bytes}

theorem Spaced.tail (h : Spaced lead (a :: args)) : Spaced a.2 args where
  lead := h.blanks a List.mem_cons_self
  blanks a' ha' := h.blanks a' (List.mem_cons_of_mem _ ha')
  between := by
    intro a' ha'
    cases args with
    | nil => exact absurd ha' List.not_mem_nil
    | cons b args => exact h.between a' (List.mem_cons_of_mem _ ha')

/-- Behind a string there is a blank, or nothing. -/
theorem Spaced.blankAhead (h : Spaced lead (a :: args)) :
    blankAhead (quotedLine a.2 args) = true := by
  cases hblanks : a.2 with
  | nil =>
    cases args with
    | nil => rfl
    | cons b args => exact absurd hblanks (h.between a List.mem_cons_self)
  | cons b blanks =>
    have hb : isspace b = true := h.blanks a List.mem_cons_self b (hblanks ▸ List.mem_cons_self)
    cases args with
    | nil => exact hb
    | cons a' args =>
      rw [quotedLine_cons]
      exact hb

theorem splitLoop_quotedLine (h : Spaced lead args) (argv : List Bytes) :
    splitLoop (quotedLine lead args) argv = some (argv ++ args.map Prod.fst) := by
  induction args generalizing lead argv with
  | nil =>
    rw [List.map_nil, List.append_nil]
    exact splitLoop_of_blank h.lead argv
  | cons a args ih =>
    rw [quotedLine_cons, splitLoop_repr h.lead h.blankAhead, ih h.tail, List.map_cons,
      List.append_assoc, List.singleton_append]

/-- Nothing that is written ends a string. -/
theorem zero_not_mem_quotedLine (h : Spaced lead args) : 0 ∉ quotedLine lead args := by
  have hrepr : ∀ b : UInt8, 0 ∉ reprByte b := by
    have hall : ∀ n < 256, (reprByte (UInt8.ofNat n)).all (fun c => c.toNat != 0) = true := by
      decide +kernel
    intro b hmem
    have hb := hall b.toNat b.toNat_lt
    rw [UInt8.ofNat_toNat] at hb
    exact absurd (List.all_eq_true.mp hb 0 hmem) (by decide)
  have hblank : ∀ b, isspace b = true → b ≠ 0 := by
    rintro b hb rfl
    exact absurd hb (by decide)
  induction args generalizing lead with
  | nil => exact fun hmem => hblank 0 (h.lead 0 hmem) rfl
  | cons a args ih =>
    rw [quotedLine_cons]
    intro hmem
    rcases List.mem_append.mp hmem with hmem | hmem
    · exact hblank 0 (h.lead 0 hmem) rfl
    rcases List.mem_cons.mp hmem with heq | hmem
    · exact absurd heq (by decide)
    rcases List.mem_append.mp hmem with hmem | hmem
    · obtain ⟨b, -, hb⟩ := List.mem_flatMap.mp hmem
      exact hrepr b hb
    rcases List.mem_cons.mp hmem with heq | hmem
    · exact absurd heq (by decide)
    · exact ih h.tail hmem

/-- What `sdscatrepr` has written is read back by `sdssplitargs`: any bytes, in any number of
strings, with any blanks between them. -/
theorem splitargs_repr (h : Spaced lead args) :
    sdssplitargs (quotedLine lead args) = some (args.map Prod.fst) := by
  have hcstr : cstr (quotedLine lead args) = quotedLine lead args := by
    apply List.takeWhile_eq_self_iff.mpr
    intro b hb
    have hne : b ≠ 0 := fun heq => zero_not_mem_quotedLine h (heq ▸ hb)
    simpa using hne
  unfold sdssplitargs
  rw [hcstr, splitLoop_quotedLine h, List.nil_append]

/-- An empty string, and one with all kinds of bytes -/
theorem splitargs_repr_twoStrings :
    sdssplitargs (quotedLine [9] [([], [32, 10]), ([0, 92, 34, 120, 10, 255, 65], [])]) =
      some [[], [0, 92, 34, 120, 10, 255, 65]] :=
  splitargs_repr (by decide)

end MmorpgServer.Redis
