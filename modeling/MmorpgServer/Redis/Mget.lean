import MmorpgServer.Redis.Commands
import MmorpgServer.Redis.Server
import Mathlib.Data.List.Induction

/-!
# The keys of `mget`

`mget` joins its keys with spaces and gives the string to the library as the format of a command,
which takes it apart again. It sets the keys of the caller by the positions of the replies. The two
agree as long as what is sent are the keys; else a store with one string tells them apart.

## Main definitions

* `AnswersMget` — what the server replies to `MGET`
* `Maps` — `mget` maps its keys to their values
* `Plain`, `Clean` — the keys come out of the format as they are, and so do the values

## Main results

* `formatLoop_plain` — plain keys are the arguments of the command
* `formatLoop_keys` — keys without spaces are as many arguments, and others where there is an escape
* `maps_iff_plain` — the keys and the values that `mget` maps
-/

namespace MmorpgServer.Redis.Mget

open Commands

variable {args out keys sent : List Bytes} {fmt cur k k₀ x v rest : Bytes} {b : UInt8}
  {touched : Bool} {strs : Bytes → Option Bytes} {m m' : StrMap} {i : ℕ}

/-! ### One character of the format -/

theorem percent_iff : [b] = bytes "%" ↔ b = 37 := by simp [bytes]

theorem space_iff : [b] = bytes " " ↔ b = 32 := by simp [bytes]

/-- What one character of a format without arguments does: it ends an argument, it is skipped, it
belongs to the argument, or it is an escape with the next one. -/
theorem formatLoop_cases (h : formatLoop (b :: fmt) 0 [] cur touched args = .ok out) :
    (b = 32 ∧ touched = true ∧ formatLoop fmt 0 [] [] false (args ++ [cur]) = .ok out) ∨
    (b = 32 ∧ touched = false ∧ formatLoop fmt 0 [] cur false args = .ok out) ∨
    (b ≠ 32 ∧ (b = 37 → fmt = []) ∧ formatLoop fmt 0 [] (cur ++ [b]) true args = .ok out) ∨
    ∃ fmt', b = 37 ∧ fmt = 37 :: fmt' ∧
      formatLoop fmt' 0 [] (cur ++ [37]) true args = .ok out := by
  unfold formatLoop at h
  simp only [percent_iff, space_iff] at h
  split_ifs at h with hesc hspace htouched
  · -- without arguments, only a second `%` goes on
    obtain ⟨rfl, hne⟩ := hesc
    obtain ⟨b', fmt', rfl⟩ := List.exists_cons_of_ne_nil hne
    cases hconv : conversion (b' :: fmt') <;> rw [hconv] at h <;> try cases h
    have hb' : b' = 37 := by
      unfold conversion at hconv
      split_ifs at hconv with hstr hother hpercent
      exact percent_iff.mp hpercent
    exact Or.inr (Or.inr (Or.inr ⟨fmt', rfl, by rw [hb'], h⟩))
  · exact Or.inl ⟨hspace, htouched, h⟩
  · obtain rfl : touched = false := by simpa using htouched
    exact Or.inr (Or.inl ⟨hspace, rfl, h⟩)
  · exact Or.inr (Or.inr (Or.inl ⟨hspace, fun hb => not_not.mp fun hne => hesc ⟨hb, hne⟩, h⟩))

theorem formatLoop_ordinary (hspace : b ≠ 32) (hpercent : b = 37 → fmt = []) :
    formatLoop (b :: fmt) 0 [] cur touched args =
      formatLoop fmt 0 [] (cur ++ [b]) true args := by
  conv_lhs => unfold formatLoop
  simp only [percent_iff, space_iff]
  rw [if_neg fun hesc => hesc.2 (hpercent hesc.1), if_neg hspace]

theorem formatLoop_space :
    formatLoop (32 :: fmt) 0 [] cur true args = formatLoop fmt 0 [] [] false (args ++ [cur]) :=
  rfl

/-! ### Plain keys -/

/-- The keys are not empty, have neither spaces nor zero bytes, and only the last byte of the last
one can be a `%`. -/
structure Plain (keys : List Bytes) : Prop where
  word : ∀ k ∈ keys, k ≠ [] ∧ 0 ∉ k ∧ 32 ∉ k
  percent : 37 ∉ ((bytes " ").intercalate keys).dropLast

/-- The first byte of a format is not an escape if there is a `%` at its end at most. -/
theorem percent_cons (h : 37 ∉ (b :: fmt).dropLast) :
    (b = 37 → fmt = []) ∧ 37 ∉ fmt.dropLast := by
  cases fmt with
  | nil => simp
  | cons b' fmt =>
    rw [List.dropLast_cons_of_ne_nil (List.cons_ne_nil _ _), List.mem_cons, not_or] at h
    exact ⟨fun hb => absurd hb.symm h.1, h.2⟩

theorem percent_append_iff :
    37 ∉ (k ++ 32 :: fmt).dropLast ↔ 37 ∉ k ∧ 37 ∉ fmt.dropLast := by
  rw [List.dropLast_append_cons, List.mem_append, not_or]
  cases fmt <;> simp

theorem intercalate_cons_cons (k' : Bytes) :
    (bytes " ").intercalate (k :: k' :: keys) =
      k ++ 32 :: (bytes " ").intercalate (k' :: keys) := by
  rw [List.intercalate_cons_cons, List.append_assoc]
  rfl

/-- A word is read into the argument. -/
theorem formatLoop_word (hne : k ≠ []) (hspace : 32 ∉ k)
    (hpercent : 37 ∉ (k ++ rest).dropLast) :
    formatLoop (k ++ rest) 0 [] cur touched args = formatLoop rest 0 [] (cur ++ k) true args := by
  induction k generalizing cur touched with
  | nil => exact absurd rfl hne
  | cons b k ih =>
    rw [List.mem_cons, not_or] at hspace
    rw [List.cons_append] at hpercent ⊢
    obtain ⟨hesc, hrest⟩ := percent_cons hpercent
    rw [formatLoop_ordinary (Ne.symm hspace.1) hesc]
    cases k with
    | nil => rfl
    | cons b' k =>
      rw [ih (List.cons_ne_nil _ _) hspace.2 hrest, List.append_assoc]
      rfl

/-- Plain keys become the arguments. -/
theorem formatLoop_plain (hword : ∀ k ∈ keys, k ≠ [] ∧ 0 ∉ k ∧ 32 ∉ k)
    (hpercent : 37 ∉ ((bytes " ").intercalate keys).dropLast) :
    formatLoop ((bytes " ").intercalate keys) 0 [] [] false args = .ok (args ++ keys) := by
  induction keys generalizing args with
  | nil => simp [formatLoop]
  | cons k keys ih =>
    obtain ⟨⟨hne, -, hspace⟩, hrest⟩ := List.forall_mem_cons.mp hword
    cases keys with
    | nil =>
      rw [List.intercalate_singleton] at hpercent ⊢
      have hread : formatLoop (k ++ []) 0 [] [] false args =
          formatLoop [] 0 [] ([] ++ k) true args :=
        formatLoop_word hne hspace (by simpa using hpercent)
      simpa [formatLoop] using hread
    | cons k' keys =>
      rw [intercalate_cons_cons] at hpercent ⊢
      rw [formatLoop_word hne hspace hpercent, formatLoop_space,
        ih hrest (percent_append_iff.mp hpercent).2, List.append_assoc]
      rfl

/-! ### Any keys -/

/-- What is read has no empty arguments, and neither spaces nor zero bytes in them. -/
theorem formatLoop_words (hfmt : 0 ∉ fmt) (hcur : 0 ∉ cur ∧ 32 ∉ cur)
    (htouched : touched = true → cur ≠ [])
    (h : formatLoop fmt 0 [] cur touched args = .ok out) :
    ∃ toks, out = args ++ toks ∧ ∀ x ∈ toks, x ≠ [] ∧ 0 ∉ x ∧ 32 ∉ x := by
  -- an escape takes two bytes, so the induction is on the length
  induction hlen : fmt.length using Nat.strong_induction_on generalizing fmt cur touched args with
  | _ n ih =>
  subst hlen
  cases fmt with
  | nil =>
    simp only [formatLoop, Formatted.ok.injEq] at h
    subst h
    cases touched with
    | false => exact ⟨[], by simp, by simp⟩
    | true => exact ⟨[cur], rfl, by simpa using ⟨htouched rfl, hcur⟩⟩
  | cons b fmt =>
    have hchar : ∀ b' : UInt8, b' ≠ 0 → b' ≠ 32 → 0 ∉ cur ++ [b'] ∧ 32 ∉ cur ++ [b'] := by
      intro b' hzero hspace
      simpa using ⟨⟨hcur.1, hzero.symm⟩, hcur.2, hspace.symm⟩
    rw [List.mem_cons, not_or] at hfmt
    rcases formatLoop_cases h with ⟨-, ht, hnext⟩ | ⟨-, ht, hnext⟩ | ⟨hspace, -, hnext⟩ |
      ⟨fmt', -, rfl, hnext⟩
    · -- a space ends the argument, which has been touched and is therefore not empty
      obtain ⟨toks, rfl, htoks⟩ := ih _ (Nat.lt_succ_self _) hfmt.2 (by simp) (by simp) hnext rfl
      refine ⟨cur :: toks, by simp, ?_⟩
      exact List.forall_mem_cons.mpr ⟨⟨htouched ht, hcur⟩, htoks⟩
    · exact ih _ (Nat.lt_succ_self _) hfmt.2 hcur (by simp) hnext rfl
    · exact ih _ (Nat.lt_succ_self _) hfmt.2 (hchar b (Ne.symm hfmt.1) hspace) (by simp) hnext rfl
    · -- `%%` is read as one `%`
      have hzero : 0 ∉ fmt' := fun hmem => hfmt.2 (List.mem_cons_of_mem _ hmem)
      have hlt : fmt'.length < (b :: 37 :: fmt').length := by
        simp only [List.length_cons]
        omega
      exact ih _ hlt hzero (hchar 37 (by decide) (by decide)) (by simp) hnext rfl

/-- A word is read into the argument, and is shorter there if it has an escape. -/
theorem formatLoop_escapes (hne : k ≠ []) (hspace : 32 ∉ k) (hrest : rest.head? ≠ some 37)
    (h : formatLoop (k ++ rest) 0 [] cur touched args = .ok out) :
    ∃ x, formatLoop rest 0 [] (cur ++ x) true args = .ok out ∧ x.length ≤ k.length ∧
      (x.length = k.length → 37 ∉ k.dropLast ∧ (37 ∈ k → rest = [])) := by
  induction hlen : k.length using Nat.strong_induction_on generalizing k cur touched with
  | _ n ih =>
  subst hlen
  obtain ⟨b, k, rfl⟩ := List.exists_cons_of_ne_nil hne
  rw [List.mem_cons, not_or] at hspace
  rw [List.cons_append] at h
  rcases formatLoop_cases h with ⟨hb, -⟩ | ⟨hb, -⟩ | ⟨-, hesc, hnext⟩ | ⟨fmt', rfl, hfmt, hnext⟩
  · exact absurd hb.symm hspace.1
  · exact absurd hb.symm hspace.1
  · -- the byte is read as it is
    cases k with
    | nil =>
      refine ⟨[b], hnext, le_rfl, fun _ => ⟨by simp, fun hmem => ?_⟩⟩
      exact hesc (List.mem_singleton.mp hmem).symm
    | cons b' k =>
      obtain ⟨x, hx, hle, heq⟩ :=
        ih _ (Nat.lt_succ_self _) (List.cons_ne_nil _ _) hspace.2 hnext rfl
      refine ⟨b :: x, by simpa using hx, Nat.succ_le_succ hle, fun hlen => ?_⟩
      obtain ⟨hlast, hmem⟩ := heq (Nat.succ.inj hlen)
      have hb : 37 ≠ b := fun hb => List.cons_ne_nil _ _ (hesc hb.symm)
      rw [List.dropLast_cons_of_ne_nil (List.cons_ne_nil _ _), List.mem_cons, List.mem_cons]
      exact ⟨not_or.mpr ⟨hb, hlast⟩, fun h => hmem (h.resolve_left hb)⟩
  · -- the escape is in the word, which is longer than what is read of it
    cases k with
    | nil =>
      rw [List.nil_append] at hfmt
      exact absurd (by rw [hfmt]; rfl) hrest
    | cons b' k =>
      obtain ⟨rfl, rfl⟩ := List.cons.inj hfmt
      cases k with
      | nil => exact ⟨[37], hnext, by simp, by simp⟩
      | cons b' k =>
        have hspace' : 32 ∉ b' :: k := fun hmem => hspace.2 (List.mem_cons_of_mem _ hmem)
        obtain ⟨x, hx, hle, -⟩ :=
          ih (b' :: k).length (by simp only [List.length_cons]; omega) (List.cons_ne_nil _ _)
            hspace' hnext rfl
        refine ⟨37 :: x, by simpa using hx, ?_, ?_⟩
        · simp only [List.length_cons] at hle ⊢
          omega
        · simp only [List.length_cons] at hle ⊢
          omega

/-- Keys that are not empty and have no spaces are as many arguments, and have no escapes if they
are the arguments. -/
theorem formatLoop_keys (hword : ∀ k ∈ keys, k ≠ [] ∧ 32 ∉ k)
    (h : formatLoop ((bytes " ").intercalate keys) 0 [] [] false args = .ok out) :
    ∃ toks, out = args ++ toks ∧ toks.length = keys.length ∧
      (toks = keys → 37 ∉ ((bytes " ").intercalate keys).dropLast) := by
  induction keys generalizing args with
  | nil =>
    simp only [List.intercalate_nil, formatLoop, Formatted.ok.injEq] at h
    exact ⟨[], by simpa using h.symm, rfl, by simp⟩
  | cons k keys ih =>
    obtain ⟨⟨hne, hspace⟩, hrest⟩ := List.forall_mem_cons.mp hword
    cases keys with
    | nil =>
      rw [List.intercalate_singleton] at h ⊢
      rw [← List.append_nil k] at h
      obtain ⟨x, hx, -, heq⟩ := formatLoop_escapes hne hspace (by simp) h
      simp only [List.nil_append, formatLoop, if_true, Formatted.ok.injEq] at hx
      refine ⟨[x], hx.symm, rfl, fun htoks => ?_⟩
      obtain ⟨rfl, -⟩ := List.cons.inj htoks
      exact (heq rfl).1
    | cons k' keys =>
      rw [intercalate_cons_cons] at h ⊢
      obtain ⟨x, hx, -, heq⟩ := formatLoop_escapes hne hspace (by simp) h
      rw [formatLoop_space] at hx
      obtain ⟨toks, rfl, hlen, htoks⟩ := ih hrest hx
      refine ⟨x :: toks, by simp, by simp [hlen], fun hcons => ?_⟩
      obtain ⟨rfl, rfl⟩ := List.cons.inj hcons
      -- a `%` in a key that is not the last would need another byte behind it
      refine percent_append_iff.mpr ⟨fun hmem => ?_, htoks rfl⟩
      exact absurd ((heq rfl).2 hmem) (List.cons_ne_nil _ _)

/-! ### The replies -/

/-- An element of the reply to `MGET` -/
def element : Option Bytes → Reply
  | some v => .string v
  | none => .nil

theorem mgetLoop_element (elements : List Reply) (found : Option Bytes) :
    mgetLoop keys (element found :: elements) i m = match found with
      | none => mgetLoop keys elements (i + 1) m
      | some v => keys[i]?.bind fun key =>
        mgetLoop keys elements (i + 1) (Function.update m key (some (cstr v))) := by
  cases found <;> rfl

/-- A map, with what was found for the keys put into it -/
def merge {κ α : Type} [DecidableEq κ] (keys : List κ) (found m : κ → Option α) : κ → Option α :=
  fun k => if k ∈ keys then (found k).or (m k) else m k

section Merge
variable {κ α : Type} [DecidableEq κ] {ks : List κ} {found f : κ → Option α} {k : κ}

theorem merge_of_mem (h : k ∈ ks) : merge ks found f k = (found k).or (f k) := if_pos h

theorem merge_of_not_mem (h : k ∉ ks) : merge ks found f k = f k := if_neg h

theorem merge_nil : merge [] found f = f := rfl

/-- Nothing is put for a key that was not found. -/
theorem merge_cons_none (hnone : found k = none) : merge (k :: ks) found f = merge ks found f := by
  funext k'
  by_cases hmem : k' ∈ ks
  · rw [merge_of_mem hmem, merge_of_mem (List.mem_cons_of_mem k hmem)]
  · by_cases hk : k' = k
    · subst hk
      rw [merge_of_not_mem hmem, merge_of_mem List.mem_cons_self, hnone, Option.none_or]
    · rw [merge_of_not_mem hmem, merge_of_not_mem (by simp [hk, hmem])]

/-- What was found for the first key can be put before the others. -/
theorem merge_cons_some {a : α} (hsome : found k = some a) :
    merge (k :: ks) found f = merge ks found (Function.update f k (some a)) := by
  funext k'
  by_cases hk : k' = k
  · subst hk
    rw [merge_of_mem List.mem_cons_self, hsome, Option.some_or]
    by_cases hmem : k' ∈ ks
    · rw [merge_of_mem hmem, hsome, Option.some_or]
    · rw [merge_of_not_mem hmem, Function.update_self]
  · by_cases hmem : k' ∈ ks
    · rw [merge_of_mem hmem, merge_of_mem (List.mem_cons_of_mem k hmem), Function.update_of_ne hk]
    · rw [merge_of_not_mem hmem, merge_of_not_mem (by simp [hk, hmem]), Function.update_of_ne hk]

end Merge

/-- When the elements are those of the keys, the keys get their values. -/
theorem mgetLoop_keys (pre post : List Bytes) (m : StrMap) :
    mgetLoop (pre ++ post) (post.map fun k => element (strs k)) pre.length m =
      some (merge post (fun k => (strs k).map cstr) m) := by
  -- `pre` are the keys whose elements have been read
  induction post generalizing pre m with
  | nil => simp [mgetLoop, merge_nil]
  | cons k₀ post ih =>
    have hshift := fun m => ih (pre ++ [k₀]) m
    simp only [List.append_assoc, List.singleton_append, List.length_append, List.length_singleton]
      at hshift
    rw [List.map_cons, mgetLoop_element]
    cases hstr : strs k₀ with
    | none =>
      dsimp only
      rw [hshift, merge_cons_none (by simp [hstr])]
    | some v =>
      dsimp only
      rw [List.getElem?_append_right le_rfl, Nat.sub_self, List.getElem?_cons_zero,
        Option.bind_some, hshift, merge_cons_some (a := cstr v) (by simp [hstr])]

/-- Keys are set at the positions of the strings that were found, and no others; a key that is set
remains so. -/
theorem mgetLoop_set (h : mgetLoop keys (sent.map fun x => element (strs x)) i m = some m') :
    (∀ k, m k ≠ none → m' k ≠ none) ∧
    (∀ j x, sent[j]? = some x → strs x ≠ none → ∃ k, keys[i + j]? = some k ∧ m' k ≠ none) ∧
    ((∃ k, m k = none ∧ m' k ≠ none) → ∃ x ∈ sent, strs x ≠ none) := by
  induction sent generalizing i m with
  | nil =>
    simp only [List.map_nil, mgetLoop, Option.some.injEq] at h
    subst h
    exact ⟨fun k hk => hk, by simp, by simp⟩
  | cons x₀ sent ih =>
    rw [List.map_cons, mgetLoop_element] at h
    cases hstr : strs x₀ with
    | none =>
      rw [hstr] at h
      obtain ⟨hkeep, hset, hfound⟩ := ih h
      refine ⟨hkeep, fun j x hj hx => ?_, fun hk => ?_⟩
      · cases j with
        | zero =>
          obtain rfl : x₀ = x := by simpa using hj
          exact absurd hstr hx
        | succ j =>
          rw [← Nat.add_assoc, Nat.add_right_comm]
          exact hset j x (by simpa using hj) hx
      · obtain ⟨x, hmem, hx⟩ := hfound hk
        exact ⟨x, List.mem_cons_of_mem _ hmem, hx⟩
    | some v =>
      rw [hstr] at h
      obtain ⟨key, hkey, h⟩ := Option.bind_eq_some_iff.mp h
      obtain ⟨hkeep, hset, -⟩ := ih h
      refine ⟨fun k hk => hkeep k ?_, fun j x hj hx => ?_, fun _ => ⟨x₀, by simp, by simp [hstr]⟩⟩
      · by_cases heq : k = key
        · simp [heq]
        · rwa [Function.update_of_ne heq]
      · cases j with
        | zero => exact ⟨key, hkey, hkeep key (by simp)⟩
        | succ j =>
          rw [← Nat.add_assoc, Nat.add_right_comm]
          exact hset j x (by simpa using hj) hx

/-- If every store with one string has its key set, and no other one, then what is sent is a
beginning of the keys that has all of them. -/
theorem prefix_of_single (v : Bytes)
    (h : ∀ k₀, mgetLoop keys
      (sent.map fun x => element (Function.update (fun _ => none) k₀ (some v) x)) 0
      (fun _ => none) =
        some (merge keys (Function.update (fun _ => none) k₀ (some v)) fun _ => none)) :
    sent <+: keys ∧ keys ⊆ sent := by
  constructor
  · rw [List.prefix_iff_getElem?]
    intro j hj
    -- a string in what is sent at `j` is set at key `j`
    obtain ⟨-, hset, -⟩ := mgetLoop_set (h sent[j])
    obtain ⟨k, hk, hne⟩ := hset j sent[j] (List.getElem?_eq_getElem hj) (by simp)
    rw [Nat.zero_add] at hk
    rw [merge_of_mem (List.mem_of_getElem? hk), Option.or_none] at hne
    obtain rfl : k = sent[j] := by
      by_contra hother
      exact hne (Function.update_of_ne hother _ _)
    exact hk
  · intro k hk
    -- a string in a key can be set only if the key is sent
    obtain ⟨-, -, hfound⟩ := mgetLoop_set (h k)
    obtain ⟨x, hx, hne⟩ := hfound ⟨k, rfl, by simp [merge_of_mem hk]⟩
    obtain rfl : x = k := by
      by_contra hother
      exact hne (Function.update_of_ne hother _ _)
    exact hx

/-! ### The property -/

/-- What the server replies to `MGET`, as far as it is needed; `strings` are the strings of a
database by their keys. -/
structure AnswersMget {DB : Type} (server : Server DB) (strings : DB → Bytes → Option Bytes) :
    Prop where
  /-- one element for each argument -/
  values : ∀ d k keys, (server (bytes "MGET" :: k :: keys) d).2 =
    .array ((k :: keys).map fun x => element (strings d x))
  /-- an error without arguments -/
  noKeys : ∀ d, ∃ msg, (server [bytes "MGET"] d).2 = .error msg
  /-- there are databases with one string -/
  single : ∀ k v, ∃ d, strings d = Function.update (fun _ => none) k (some v)

/-- `mget` returns true, and the strings of the keys are put into the map of the caller. -/
def Maps {DB : Type} (server : Server DB) (s : CacheConn) (dbs : Int32 → DB) (e : Env)
    (keys : List Bytes) (retValue : StrMap) (strs : Bytes → Option Bytes) : Prop :=
  ∃ w, Client.step server ⟨s, dbs⟩ (.mget keys retValue, e) =
    some (w, [.map true (merge keys strs retValue)])

/-- The strings of the keys have no zero byte. -/
def Clean (keys : List Bytes) (strs : Bytes → Option Bytes) : Prop :=
  ∀ k ∈ keys, ∀ v, strs k = some v → 0 ∉ v

variable {DB : Type} {server : Server DB} {strings : DB → Bytes → Option Bytes}
  {dbs : Int32 → DB} {s s₁ : CacheConn} {c : RedisContext} {e : Env} {evs : List Event}
  {retValue : StrMap}

theorem isData_mget : (Call.mget keys retValue).IsData := trivial

theorem cmd_mget : (Call.mget keys retValue).cmd =
    if keys = [] ∨ (bytes " ").intercalate keys = [] then none
    else some (match
        formatLoop (cstr ((bytes " ").intercalate keys)) 0 [] [] false [bytes "MGET"] with
      | .ok argv => assemble argv
      | failed => failed) :=
  rfl

theorem intercalate_eq_nil (hkeys : keys ≠ []) (hword : ∀ k ∈ keys, k ≠ []) :
    (bytes " ").intercalate keys ≠ [] := by
  obtain ⟨k, keys, rfl⟩ := List.exists_cons_of_ne_nil hkeys
  have hne := hword k (by simp)
  cases keys <;> simp [hne]

theorem zero_intercalate (hword : ∀ k ∈ keys, 0 ∉ k) : 0 ∉ (bytes " ").intercalate keys := by
  induction keys with
  | nil => simp
  | cons k keys ih =>
    obtain ⟨hk, hrest⟩ := List.forall_mem_cons.mp hword
    cases keys with
    | nil => simpa using hk
    | cons k' keys =>
      rw [intercalate_cons_cons, List.mem_append, not_or, List.mem_cons, not_or]
      exact ⟨hk, by decide, ih hrest⟩

/-- The command of plain keys has them as its arguments, if it is made. -/
theorem cmd_plain (hplain : Plain keys) (hkeys : keys ≠ []) :
    (Call.mget keys retValue).cmd = some (assemble (bytes "MGET" :: keys)) := by
  have hne := intercalate_eq_nil hkeys fun k hk => (hplain.word k hk).1
  have hzero := zero_intercalate fun k hk => (hplain.word k hk).2.1
  rw [cmd_mget, if_neg (not_or.mpr ⟨hkeys, hne⟩), cstr_eq_self.mpr hzero,
    formatLoop_plain hplain.word hplain.percent]
  rfl

/-- The command of `mget` has its name in front of the arguments. If these are a beginning of the
keys and have all of them, the keys are plain, and they are sent. -/
theorem plain_of_cmd {argv : List Bytes}
    (hcmd : (Call.mget keys retValue).cmd = some (.ok argv)) :
    ∃ sent, argv = bytes "MGET" :: sent ∧
      (sent <+: keys → keys ⊆ sent → Plain keys ∧ Short (.mget keys fun _ => none)) := by
  rw [cmd_mget] at hcmd
  split_ifs at hcmd
  have hmade := Option.some.inj hcmd
  split at hmade
  next out hread =>
    obtain ⟨rfl, hshort⟩ := assemble_eq_ok.mp hmade
    obtain ⟨sent, rfl, hsent⟩ := formatLoop_words zero_not_mem_cstr (by simp) (by simp) hread
    refine ⟨sent, rfl, fun hbegins hsub => ?_⟩
    have hword : ∀ k ∈ keys, k ≠ [] ∧ 0 ∉ k ∧ 32 ∉ k := fun k hk => hsent k (hsub hk)
    rw [cstr_eq_self.mpr (zero_intercalate fun k hk => (hword k hk).2.1)] at hread
    obtain ⟨toks, htoks, hlen, hpercent⟩ :=
      formatLoop_keys (fun k hk => ⟨(hword k hk).1, (hword k hk).2.2⟩) hread
    obtain rfl : sent = toks := List.append_cancel_left htoks
    obtain rfl : sent = keys := hbegins.eq_of_length hlen
    exact ⟨⟨hword, hpercent rfl⟩, hshort⟩
  next hnot => exact absurd hmade (hnot argv)

/-- `mget` maps its keys exactly if a command is sent whose reply makes it do so. -/
theorem maps_iff_sent (hinit : init s e = some (s₁, 0, evs)) (hctx : s₁.pContext = some c)
    (herr : c.err = false) (hanswer : e.answer ≠ none) :
    Maps server s dbs e keys retValue strs ↔ ∃ argv,
      (Call.mget keys retValue).cmd = some (.ok argv) ∧
      (Call.mget keys retValue).result (server argv (dbs (c.selected.getD 0))).2 =
        some (.map true (merge keys strs retValue)) := by
  constructor
  · rintro ⟨w, hstep⟩
    by_cases hsent : ∃ argv, (Call.mget keys retValue).cmd = some (.ok argv)
    · obtain ⟨argv, hcmd⟩ := hsent
      refine ⟨argv, hcmd, ?_⟩
      rw [Client.step_eq server dbs isData_mget hinit hctx herr hcmd hanswer] at hstep
      obtain ⟨r, hr, heq⟩ := Option.map_eq_some_iff.mp hstep
      simp only [Prod.mk.injEq, List.cons.injEq, and_true] at heq
      rw [hr, heq.2]
    · -- nothing is sent, so that `mget` returns false
      have hfail := Client.step_not_sent isData_mget hinit (not_exists.mp hsent) hstep
      simp [Call.fail] at hfail
  · rintro ⟨argv, hcmd, hresult⟩
    exact ⟨_, Client.step_sent server dbs isData_mget hinit hctx herr hcmd hanswer hresult⟩

theorem result_array (elements : List Reply) : (Call.mget keys retValue).result (.array elements) =
    (mgetLoop keys elements 0 retValue).map fun m => .map true m :=
  rfl

/-- Plain keys whose command is short are mapped exactly if their strings are clean. -/
theorem maps_iff_clean (hserver : AnswersMget server strings) (hplain : Plain keys)
    (hshort : Short (.mget keys fun _ => none)) (hkeys : keys ≠ [])
    (hinit : init s e = some (s₁, 0, evs)) (hctx : s₁.pContext = some c)
    (herr : c.err = false) (hanswer : e.answer ≠ none) :
    Maps server s dbs e keys retValue (strings (dbs (c.selected.getD 0))) ↔
      Clean keys (strings (dbs (c.selected.getD 0))) := by
  have hcmd : (Call.mget keys retValue).cmd = some (.ok (bytes "MGET" :: keys)) := by
    rw [cmd_plain hplain hkeys]
    exact congrArg some (assemble_eq_ok.mpr ⟨rfl, hshort⟩)
  generalize hdb : dbs (c.selected.getD 0) = d
  have hreply : (server (bytes "MGET" :: keys) d).2 =
      .array (keys.map fun x => element (strings d x)) := by
    obtain ⟨k, keys, rfl⟩ := List.exists_cons_of_ne_nil hkeys
    exact hserver.values d k keys
  have hloop : mgetLoop keys (keys.map fun x => element (strings d x)) 0 retValue =
      some (merge keys (fun k => (strings d k).map cstr) retValue) :=
    mgetLoop_keys [] keys retValue
  rw [maps_iff_sent hinit hctx herr hanswer]
  simp only [hcmd, Option.some.injEq, Formatted.ok.injEq, exists_eq_left', hdb, hreply,
    result_array, hloop, Option.map_some, Result.map.injEq, true_and]
  rw [funext_iff]
  constructor
  · intro h k hk v hv
    have hcstr := h k
    rw [merge_of_mem hk, merge_of_mem hk, hv] at hcstr
    exact cstr_eq_self.mp (Option.some.inj hcstr)
  · intro hclean k
    by_cases hk : k ∈ keys
    · rw [merge_of_mem hk, merge_of_mem hk]
      cases hv : strings d k with
      | none => rfl
      | some v =>
        rw [Option.map_some, cstr_eq_self.mpr (hclean k hk v hv)]
    · rw [merge_of_not_mem hk, merge_of_not_mem hk]

/-- Keys that are mapped whatever clean strings the server has are plain, and their command is
short. -/
theorem plain_of_maps (hserver : AnswersMget server strings)
    (hinit : init s e = some (s₁, 0, evs)) (hctx : s₁.pContext = some c)
    (herr : c.err = false) (hanswer : e.answer ≠ none)
    (h : ∀ dbs : Int32 → DB, Clean keys (strings (dbs (c.selected.getD 0))) →
      Maps server s dbs e keys (fun _ => none) (strings (dbs (c.selected.getD 0)))) :
    Plain keys ∧ Short (.mget keys fun _ => none) := by
  have hsingle : ∀ k₀ : Bytes, ∃ d, strings d = Function.update (fun _ => none) k₀ (some []) ∧
      ∃ argv, (Call.mget keys fun _ => none).cmd = some (.ok argv) ∧
      (Call.mget keys fun _ => none).result (server argv d).2 =
        some (.map true (merge keys (strings d) fun _ => none)) := by
    intro k₀
    obtain ⟨d, hd⟩ := hserver.single k₀ []
    have hclean : Clean keys (strings d) := by
      intro k hk v hv
      rw [hd, Function.update_apply] at hv
      split_ifs at hv
      cases hv
      exact List.not_mem_nil
    exact ⟨d, hd, (maps_iff_sent hinit hctx herr hanswer).mp (h (fun _ => d) hclean)⟩
  obtain ⟨-, -, argv, hcmd, -⟩ := hsingle []
  obtain ⟨sent, rfl, hplain⟩ := plain_of_cmd hcmd
  have hloop : ∀ k₀ : Bytes, mgetLoop keys
      (sent.map fun x => element (Function.update (fun _ => none) k₀ (some []) x)) 0
      (fun _ => none) =
        some (merge keys (Function.update (fun _ => none) k₀ (some [])) fun _ => none) := by
    intro k₀
    obtain ⟨d, hd, argv, hcmd', hresult⟩ := hsingle k₀
    obtain rfl : bytes "MGET" :: sent = argv := by simpa [hcmd] using hcmd'
    cases sent with
    | nil =>
      -- the reply is an error, and nothing is set
      obtain ⟨msg, hmsg⟩ := hserver.noKeys d
      rw [hmsg] at hresult
      have hmap := Option.some.inj hresult
      simp only [Result.map.injEq, true_and, hd] at hmap
      rw [← hmap]
      rfl
    | cons x sent =>
      rw [hserver.values, result_array] at hresult
      obtain ⟨m, hm, heq⟩ := Option.map_eq_some_iff.mp hresult
      simp only [Result.map.injEq, true_and, hd] at heq hm
      rw [hm, heq]
  obtain ⟨hbegins, hsub⟩ := prefix_of_single [] hloop
  exact hplain hbegins hsub

/-- Through every connection to every server that answers `MGET`, a vector of keys is mapped to its
strings whatever clean strings the server has exactly if the keys are plain and their command is
short; and such keys are mapped exactly if their strings are clean. -/
theorem maps_iff_plain (hserver : AnswersMget server strings) (hkeys : keys ≠ [])
    (hinit : init s e = some (s₁, 0, evs)) (hctx : s₁.pContext = some c) (herr : c.err = false)
    (hanswer : e.answer ≠ none) :
    ((∀ (dbs : Int32 → DB) retValue, Clean keys (strings (dbs (c.selected.getD 0))) →
      Maps server s dbs e keys retValue (strings (dbs (c.selected.getD 0)))) ↔
        Plain keys ∧ Short (.mget keys fun _ => none)) ∧
    (Plain keys → Short (.mget keys fun _ => none) → ∀ (dbs : Int32 → DB) retValue,
      (Maps server s dbs e keys retValue (strings (dbs (c.selected.getD 0))) ↔
        Clean keys (strings (dbs (c.selected.getD 0))))) := by
  have hclean : Plain keys → Short (.mget keys fun _ => none) → ∀ (dbs : Int32 → DB) retValue,
      (Maps server s dbs e keys retValue (strings (dbs (c.selected.getD 0))) ↔
        Clean keys (strings (dbs (c.selected.getD 0)))) := fun hplain hshort dbs retValue =>
    maps_iff_clean hserver hplain hshort hkeys hinit hctx herr hanswer
  refine ⟨⟨fun h => ?_, fun ⟨hplain, hshort⟩ dbs retValue =>
    (hclean hplain hshort dbs retValue).mpr⟩, hclean⟩
  exact plain_of_maps hserver hinit hctx herr hanswer fun dbs => h dbs _

/-! ### Examples -/

/-- A server that knows `MGET`, with databases of strings -/
def table : Server StrMap := fun argv d =>
  (d, if argv.head? ≠ some (bytes "MGET") then .error (bytes "ERR unknown command")
    else if argv.tail = [] then .error (bytes "ERR wrong number of arguments")
    else .array (argv.tail.map fun k => element (d k)))

theorem table_answersMget : AnswersMget table id where
  values d k keys := by simp [table]
  noKeys d := ⟨_, rfl⟩
  single k v := ⟨_, rfl⟩

/-- A server that can be reached, and whose reply arrives -/
def reached : Env := ⟨1, .connected, none, some (.status (bytes "OK")), some .nil⟩

theorem maps_iff_plain_two :
    ((∀ (dbs : Int32 → StrMap) retValue, Clean [bytes "a", bytes "b%"] (dbs 0) →
      Maps table (create 0 []) dbs reached [bytes "a", bytes "b%"] retValue (dbs 0)) ↔
        Plain [bytes "a", bytes "b%"] ∧ Short (.mget [bytes "a", bytes "b%"] fun _ => none)) ∧
    (Plain [bytes "a", bytes "b%"] → Short (.mget [bytes "a", bytes "b%"] fun _ => none) →
      ∀ (dbs : Int32 → StrMap) retValue,
      (Maps table (create 0 []) dbs reached [bytes "a", bytes "b%"] retValue (dbs 0) ↔
        Clean [bytes "a", bytes "b%"] (dbs 0))) := by
  have hinit : init (create 0 []) reached = some (_, 0, _) := rfl
  exact maps_iff_plain (c := ⟨0, false, false, some 0⟩) table_answersMget (List.cons_ne_nil _ _)
    hinit rfl rfl nofun

/-- Of the keys `a b` and `c`, the server is asked for `a`, `b` and `c`. With a string in `b`, the
key `c` gets it, and with one in `c` a key behind the last one is read. A second `%` is not sent. -/
theorem keys_shifted :
    let keys := [bytes "a b", bytes "c"]
    let one : StrMap := Function.update (fun _ => none) (bytes "b") (some (bytes "1"))
    let other : StrMap := Function.update (fun _ => none) (bytes "c") (some (bytes "1"))
    (∃ w, Client.step table ⟨create 0 [], fun _ => one⟩ (.mget keys fun _ => none, reached) =
        some (w, [.map true other])) ∧
      ¬ Maps table (create 0 []) (fun _ => one) reached keys (fun _ => none) one ∧
      Client.step table ⟨create 0 [], fun _ => other⟩ (.mget keys fun _ => none, reached) = none ∧
      (Call.mget [bytes "%%"] fun _ => none).cmd = some (.ok [bytes "MGET", bytes "%"]) := by
  intro keys one other
  have hstep : ∃ w, Client.step table ⟨create 0 [], fun _ => one⟩
      (.mget keys fun _ => none, reached) = some (w, [.map true other]) := ⟨_, rfl⟩
  refine ⟨hstep, ?_, rfl, rfl⟩
  rintro ⟨w, hmaps⟩
  obtain ⟨w', hstep⟩ := hstep
  rw [hstep] at hmaps
  simp only [Option.some.injEq, Prod.mk.injEq, List.cons.injEq, and_true, Result.map.injEq,
    true_and] at hmaps
  have hvalue := congrFun hmaps.2 (bytes "c")
  exact absurd hvalue (by decide)

end MmorpgServer.Redis.Mget
