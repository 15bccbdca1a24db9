import MmorpgServer.Redis.Calls
import Mathlib.Data.List.TakeWhile

/-!
# The arguments of the commands

The operations pass strings with `c_str()` and numbers with the conversions of `printf`. A string
arrives up to its first zero byte, `lrange` passes its bounds to `%d`, which takes an `int`, and a
command whose length is not an `int` is not sent.

## Main definitions

* `undecimal` — the number that was printed
* `argv` — the arguments that a command should have
* `FixedFormat` — the operations but `mget`
* `Verbatim` — the strings have no zero byte, and the bounds of `lrange` and the length of the
  command are in the range of `int`

## Main results

* `undecimal_decimal`, `decimal_inj` — numbers are printed faithfully
* `cmd_verbatim` — when the command has the arguments that it should have
* `run_commands` — every operation on every connection
-/

namespace MmorpgServer.Redis

variable {s : CacheConn} {c : RedisContext} {e : Env} {call : Call} {x : Bytes} {n : ℤ}
  {l : List Bytes}

/-! ### Numbers -/

/-- The number with these digits -/
def undigits (x : Bytes) : ℕ := x.foldl (fun n b => 10 * n + (b.toNat - 48)) 0

/-- The number that `decimal` has printed -/
def undecimal : Bytes → ℤ
  | [] => 0
  | b :: x => if b = 45 then -undigits x else undigits (b :: x)

theorem bytes_repr (n : ℕ) :
    bytes n.repr = (Nat.toDigits 10 n).map fun c => UInt8.ofNat c.toNat := by
  unfold bytes
  rw [Nat.toList_repr]

/-- A digit stays what it is as a byte. -/
theorem toNat_digit {c : Char} (h : c.isDigit = true) :
    (UInt8.ofNat c.toNat).toNat = c.toNat ∧ c.toNat ≠ 45 := by
  have hrange := Char.isDigit_iff_toNat.mp h
  simp only [Char.reduceToNat] at hrange
  rw [UInt8.toNat_ofNat']
  omega

theorem undigits_repr (n : ℕ) : undigits (bytes n.repr) = n := by
  have hdigits : ∀ c ∈ Nat.toDigits 10 n, c.isDigit = true := fun c hc =>
    Nat.isDigit_of_mem_toDigits (by decide) (by decide) hc
  rw [bytes_repr, undigits, List.foldl_map]
  refine Eq.trans ?_ (Nat.ofDigitChars_ten_toDigits (n := n))
  rw [Nat.ofDigitChars_eq_foldl]
  -- one digit after the other, in front of which the number is the same
  generalize Nat.toDigits 10 n = digits, 0 = init at hdigits
  induction digits generalizing init with
  | nil => rfl
  | cons c digits ih =>
    obtain ⟨hc, hrest⟩ := List.forall_mem_cons.mp hdigits
    rw [List.foldl_cons, List.foldl_cons, (toNat_digit hc).1]
    exact ih _ hrest

theorem undecimal_decimal (n : ℤ) : undecimal (decimal n) = n := by
  cases n with
  | ofNat n =>
    show undecimal (bytes n.repr) = n
    have hdigits := undigits_repr n
    rw [bytes_repr] at hdigits ⊢
    cases hlist : Nat.toDigits 10 n with
    | nil => exact absurd hlist Nat.toDigits_ne_nil
    | cons c digits =>
      rw [hlist] at hdigits
      have hc : c.isDigit = true :=
        Nat.isDigit_of_mem_toDigits (n := n) (b := 10) (by decide) (by decide) (by simp [hlist])
      have hne : UInt8.ofNat c.toNat ≠ 45 := by
        intro heq
        have hnat := congrArg UInt8.toNat heq
        rw [(toNat_digit hc).1] at hnat
        exact (toNat_digit hc).2 hnat
      rw [List.map_cons] at hdigits ⊢
      rw [undecimal, if_neg hne, hdigits]
  | negSucc n =>
    show undecimal (bytes ("-" ++ (n + 1).repr)) = _
    have hsplit : bytes ("-" ++ (n + 1).repr) = 45 :: bytes (n + 1).repr := by
      unfold bytes
      rw [String.toList_append, List.map_append]
      rfl
    rw [hsplit, undecimal, if_pos rfl, undigits_repr]
    rfl

/-- Different numbers are printed differently. -/
theorem decimal_inj {m : ℤ} : decimal m = decimal n ↔ m = n := by
  constructor
  · intro h
    rw [← undecimal_decimal m, h, undecimal_decimal]
  · rintro rfl
    rfl

/-! ### Arguments -/

namespace Commands

/-- The arguments that the command of an operation should have: its name, the strings of the caller,
and his numbers -/
def argv : Call → List Bytes
  | .init | .deInit => []
  | .get key => [bytes "GET", key]
  | .set key value => [bytes "SET", key, value]
  | .setex key timeout value => [bytes "SETEX", key, decimal timeout.toInt, value]
  | .mget keys _ => bytes "MGET" :: keys
  | .incr key => [bytes "INCR", key]
  | .decr key => [bytes "DECR", key]
  | .incrBy key value => [bytes "INCRBY", key, decimal value.toInt]
  | .isExists key => [bytes "EXISTS", key]
  | .del key => [bytes "DEL", key]
  | .hdel key field => [bytes "HDEL", key, field]
  | .hget key field => [bytes "HGET", key, field]
  | .hgetAll key _ => [bytes "HGETALL", key]
  | .hset key field value => [bytes "HSET", key, field, value]
  | .hincrBy key field value => [bytes "HINCRBY", key, field, decimal value.toInt]
  | .hmset key hash => bytes "HMSET" :: key :: hash.flatMap fun p => [p.1, p.2]
  | .hmget key fields _ => bytes "HMGET" :: key :: fields
  | .lpush key value => [bytes "LPUSH", key, value]
  | .rpush key value => [bytes "RPUSH", key, value]
  | .llen key => [bytes "LLEN", key]
  | .lrange key start stop _ => [bytes "LRANGE", key, decimal start.toInt, decimal stop.toInt]
  | .flushdb => [bytes "FLUSHDB"]

/-- The strings of the caller -/
def strings : Call → List Bytes
  | .init | .deInit | .flushdb => []
  | .get key | .incr key | .decr key | .incrBy key _ | .isExists key | .del key | .hgetAll key _
  | .llen key | .lrange key _ _ _ => [key]
  | .set key value | .setex key _ value | .lpush key value | .rpush key value => [key, value]
  | .hdel key field | .hget key field | .hincrBy key field _ => [key, field]
  | .hset key field value => [key, field, value]
  | .hmset key hash => key :: hash.flatMap fun p => [p.1, p.2]
  | .hmget key fields _ => key :: fields
  | .mget keys _ => keys

/-- The numbers that are passed as a `long` and printed with `%d` -/
def bounds : Call → List Int64
  | .lrange _ start stop _ => [start, stop]
  | _ => []

/-- The number is in the range of `int`. -/
def FitsInt (n : Int64) : Prop :=
  Int32.minValue.toInt ≤ n.toInt ∧ n.toInt ≤ Int32.maxValue.toInt

/-- The length of the command is an `int`, and where `malloc` is asked for one byte more, so is
that number. -/
def Short : Call → Prop
  | .hmset key hash => totlen (argv (.hmset key hash)) < 2 ^ 31
  | .hmget key fields retValue => totlen (argv (.hmget key fields retValue)) < 2 ^ 31
  | call => totlen (argv call) + 1 < 2 ^ 31

/-- The strings have no zero byte, the numbers for `%d` are in the range of `int`, and so is the
length of the command. -/
structure Verbatim (call : Call) : Prop where
  zero : ∀ x ∈ strings call, 0 ∉ x
  fits : ∀ n ∈ bounds call, FitsInt n
  short : Short call

/-- The data operations but `mget`, whose keys are part of the format -/
def FixedFormat : Call → Prop
  | .init | .deInit | .mget _ _ => False
  | _ => True

theorem FixedFormat.isData (h : FixedFormat call) : call.IsData := by
  cases call with
  | init | deInit | mget => exact h.elim
  | _ => trivial

/-- The commands that operations have sent -/
def commands (evs : List Event) : List (List Bytes) :=
  evs.filterMap fun
    | .data _ argv => some argv
    | _ => none

theorem cstr_eq_self : cstr x = x ↔ 0 ∉ x := by
  unfold cstr
  rw [List.takeWhile_eq_self_iff]
  constructor
  · intro h hmem
    simpa using h 0 hmem
  · intro h b hb
    have hne : b ≠ 0 := fun heq => h (heq ▸ hb)
    simpa using hne

theorem zero_not_mem_cstr : 0 ∉ cstr x := by
  intro hmem
  simpa using List.mem_takeWhile_imp hmem

theorem map_cstr_eq_self : l.map cstr = l ↔ ∀ x ∈ l, 0 ∉ x := by
  induction l with
  | nil => simp
  | cons x l ih => simp [ih, cstr_eq_self]

/-- A `long` that is read as an `int` is the same number exactly if it is in the range. -/
theorem toInt32_eq_self {n : Int64} : n.toInt32.toInt = n.toInt ↔ FitsInt n := by
  have hmin : Int32.minValue.toInt = -2147483648 := by decide
  have hmax : Int32.maxValue.toInt = 2147483647 := by decide
  rw [FitsInt, hmin, hmax, Int64.toInt_toInt32, Int.bmod_def]
  omega

theorem assemble_eq_ok {sent out : List Bytes} :
    assemble sent = .ok out ↔ sent = out ∧ totlen out + 1 < 2 ^ 31 := by
  unfold assemble
  constructor
  · intro h
    split_ifs at h with hshort
    obtain rfl := Formatted.ok.inj h
    exact ⟨rfl, hshort⟩
  · rintro ⟨rfl, hshort⟩
    exact if_pos hshort

theorem assembleSds_eq_ok {sent out : List Bytes} :
    assembleSds sent = .ok out ↔ sent = out ∧ totlen out < 2 ^ 31 := by
  unfold assembleSds
  constructor
  · intro h
    split_ifs at h with hshort
    obtain rfl := Formatted.ok.inj h
    exact ⟨rfl, hshort⟩
  · rintro ⟨rfl, hshort⟩
    exact if_pos hshort

/-- The arguments that an operation passes are those of its command exactly if nothing is cut
off. -/
theorem verbatim_of_argv {sent : List Bytes}
    (hargv : sent = argv call ↔ (∀ x ∈ strings call, 0 ∉ x) ∧ ∀ n ∈ bounds call, FitsInt n) :
    sent = argv call ∧ Short call ↔ Verbatim call := by
  rw [hargv]
  exact ⟨fun h => ⟨h.1.1, h.1.2, h.2⟩, fun h => ⟨⟨h.zero, h.fits⟩, h.short⟩⟩

/-- Every operation but `mget` gives the library the command that it should exactly if nothing is
cut off. -/
theorem cmd_verbatim (hfixed : FixedFormat call) :
    call.cmd = some (.ok (argv call)) ↔ Verbatim call := by
  cases call with
  | init | deInit | mget => exact hfixed.elim
  | hmset key hash =>
    refine Option.some_inj.trans (assembleSds_eq_ok.trans (verbatim_of_argv ?_))
    have hname : 0 ∉ bytes "HMSET" := by decide
    refine map_cstr_eq_self.trans ?_
    simp only [strings, bounds, List.forall_mem_cons, hname, not_false_eq_true, true_and,
      List.not_mem_nil, false_implies, implies_true, and_true]
  | hmget key fields retValue =>
    refine Option.some_inj.trans (assembleSds_eq_ok.trans (verbatim_of_argv ?_))
    have hname : 0 ∉ bytes "HMGET" := by decide
    refine map_cstr_eq_self.trans ?_
    simp only [strings, bounds, List.forall_mem_cons, hname, not_false_eq_true, true_and,
      List.not_mem_nil, false_implies, implies_true, and_true]
  | lrange key start stop retValue =>
    refine Option.some_inj.trans (assemble_eq_ok.trans (verbatim_of_argv ?_))
    simp [argv, strings, bounds, cstr_eq_self, decimal_inj, toInt32_eq_self,
      -Int64.toInt_toInt32]
  | _ =>
    refine Option.some_inj.trans (assemble_eq_ok.trans (verbatim_of_argv ?_))
    simp [argv, strings, bounds, cstr_eq_self]

/-- Every operation but `mget` makes something of every reply. -/
theorem result_total (hfixed : FixedFormat call) (reply : Reply) :
    ∃ r, call.result reply = some r := by
  cases call with
  | init | deInit | mget => exact hfixed.elim
  | _ => cases reply <;> exact ⟨_, rfl⟩

/-- Every operation but `mget` sends the command that it should, and no other one, when it is called
on a connection, exactly if nothing is cut off. -/
theorem run_commands (hfixed : FixedFormat call) (hctx : s.pContext = some c)
    (herr : c.err = false) (e : Env) :
    (∃ s' r evs, run s (call, e) = some (s', r, evs) ∧ commands evs = [argv call]) ↔
      Verbatim call := by
  rw [← cmd_verbatim hfixed, run_eq_operation hfixed.isData]
  constructor
  · rintro ⟨s', r, evs, hrun, hsent⟩
    by_cases hcmd : ∃ argv, call.cmd = some (.ok argv)
    · obtain ⟨sent, hcmd⟩ := hcmd
      rw [hcmd, operation_sent (init_ready hctx) hctx herr] at hrun
      obtain rfl : sent = argv call := by
        cases hanswer : e.answer with
        | none =>
          rw [hanswer] at hrun
          cases hrun
          exact (List.cons.inj hsent).1
        | some reply =>
          rw [hanswer] at hrun
          obtain ⟨r', -, heq⟩ := Option.map_eq_some_iff.mp hrun
          cases heq
          exact (List.cons.inj hsent).1
      exact hcmd
    · -- the library has made no command, and nothing is sent
      obtain ⟨-, rfl | ⟨c', rfl⟩⟩ := operation_not_sent (init_ready hctx) (not_exists.mp hcmd) hrun
      · cases hsent
      · cases hsent
  · intro hcmd
    rw [hcmd, operation_sent (init_ready hctx) hctx herr]
    cases e.answer with
    | none => exact ⟨_, _, _, rfl, rfl⟩
    | some reply =>
      obtain ⟨r, hresult⟩ := result_total hfixed reply
      dsimp only
      rw [hresult]
      exact ⟨_, _, _, rfl, rfl⟩

end Commands

end MmorpgServer.Redis
