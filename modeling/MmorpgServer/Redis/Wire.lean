import MmorpgServer.Redis.Reception

/-!
# Commands as bytes

A command is sent as an array of its arguments. Its length `totlen` is computed first, and the bytes
are put into a buffer of that length, with `sprintf` or with `sdscatfmt`.

## Main definitions

* `wire` — the loop of `redisvFormatCommand` and of `redisFormatCommandArgv`
* `redisFormatSdsCommandArgv` — the same command as a dynamic string

## Main results

* `length_wire` — the length that is computed is the length of the command
* `redisFormatSdsCommandArgv_eq` — both ways make the same command
* `commands_read` — what is formatted is what the parser reads, however it arrives
-/

namespace MmorpgServer.Redis.Wire

open Decimal Machine
open Resp (Value Encodes EncodesAll)

/-! ### Commands -/

/-- What `sprintf` makes of `$%zu\r\n`, and the argument behind it -/
def bulk (arg : Bytes) : Bytes :=
  bytes "$" ++ print arg.length ++ bytes "\r\n" ++ arg ++ bytes "\r\n"

/-- The command that `redisvFormatCommand` and `redisFormatCommandArgv` build of its arguments -/
def wire (argv : List Bytes) : Bytes :=
  argv.foldl (fun cmd arg => cmd ++ bulk arg) (bytes "*" ++ print argv.length ++ bytes "\r\n")

/-- `redisFormatSdsCommandArgv`: the command and its length. The length of an argument is read as
an `unsigned int` here. -/
def redisFormatSdsCommandArgv (argv : List Bytes) : Option (Bytes × ℕ) :=
  (sdscatfmt [] (bytes "*%i\r\n") [.int (Int32.ofNat argv.length)]).bind fun cmd =>
    (argv.foldlM (fun cmd arg =>
      (sdscatfmt cmd (bytes "$%u\r\n") [.uint (UInt32.ofNat arg.length)]).map fun cmd =>
        cmd ++ arg ++ bytes "\r\n") cmd).map fun cmd => (cmd, totlen argv)

variable {argv : List Bytes} {n : ℕ}

/-! ### The length that is computed -/

theorem length_print_add_four (h : 10000 ≤ n) :
    (print n).length = (print (n / 10000)).length + 4 := by
  have hstep : ∀ m, 10 ≤ m → (print m).length = (print (m / 10)).length + 1 := by
    intro m hm
    rw [print_of_le hm, List.length_append, List.length_singleton]
  have hdiv : n / 10 / 10 / 10 / 10 = n / 10000 := by omega
  rw [hstep n (by omega), hstep (n / 10) (by omega), hstep (n / 10 / 10) (by omega),
    hstep (n / 10 / 10 / 10) (by omega), hdiv]

theorem countDigitsLoop_eq (result : ℕ) :
    countDigitsLoop n result + 1 = result + (print n).length := by
  induction n, result using countDigitsLoop.induct with
  | case1 n result h =>
    rw [countDigitsLoop, if_pos h, print_of_lt h, List.length_singleton]
  | case2 n result h h' =>
    rw [countDigitsLoop, if_neg h, if_pos h', print_of_le (by omega), print_of_lt (by omega)]
    rfl
  | case3 n result h h' h'' =>
    rw [countDigitsLoop, if_neg h, if_neg h', if_pos h'', print_of_le (by omega),
      print_of_le (by omega), print_of_lt (by omega)]
    rfl
  | case4 n result h h' h'' h''' =>
    rw [countDigitsLoop, if_neg h, if_neg h', if_neg h'', if_pos h''', print_of_le (by omega),
      print_of_le (by omega), print_of_le (by omega), print_of_lt (by omega)]
    rfl
  | case5 n result h h' h'' h''' ih =>
    rw [countDigitsLoop, if_neg h, if_neg h', if_neg h'', if_neg h''', ih,
      length_print_add_four (n := n) (by omega)]
    omega

/-- `countDigits` counts the digits. -/
theorem countDigits_eq (n : ℕ) : countDigits n = (print n).length := by
  have hloop := countDigitsLoop_eq (n := n) 1
  unfold countDigits
  omega

theorem length_bulk (arg : Bytes) : (bulk arg).length = bulklen arg.length := by
  have hcrlf : (bytes "\r\n").length = 2 := by decide
  have hdollar : (bytes "$").length = 1 := by decide
  unfold bulk bulklen
  rw [countDigits_eq]
  simp only [List.length_append, hcrlf, hdollar]

theorem wire_eq (argv : List Bytes) :
    wire argv = bytes "*" ++ print argv.length ++ bytes "\r\n" ++ argv.flatMap bulk := by
  unfold wire
  generalize bytes "*" ++ print argv.length ++ bytes "\r\n" = cmd
  induction argv generalizing cmd with
  | nil => rw [List.foldl_nil, List.flatMap_nil, List.append_nil]
  | cons arg argv ih => rw [List.foldl_cons, ih, List.flatMap_cons, List.append_assoc]

/-- The buffer of the computed length is filled exactly: what the code asserts is so. -/
theorem length_wire (argv : List Bytes) : (wire argv).length = totlen argv := by
  have hfold : ∀ (argv : List Bytes) (n : ℕ),
      argv.foldl (fun n arg => n + bulklen arg.length) n = n + (argv.flatMap bulk).length := by
    intro argv
    induction argv with
    | nil => intro n; rfl
    | cons arg argv ih =>
      intro n
      rw [List.foldl_cons, ih, List.flatMap_cons, List.length_append, length_bulk, Nat.add_assoc]
  have hcrlf : (bytes "\r\n").length = 2 := by decide
  have hstar : (bytes "*").length = 1 := by decide
  unfold totlen
  rw [wire_eq, hfold, countDigits_eq]
  simp only [List.length_append, hcrlf, hstar]

/-! ### The two ways to build a command -/

theorem sdscatfmt_int {s : Bytes} (hn : n < 2 ^ 31) :
    sdscatfmt s (bytes "*%i\r\n") [.int (Int32.ofNat n)] =
      some (s ++ bytes "*" ++ print n ++ bytes "\r\n") := by
  have hint : (Int32.ofNat n).toInt64.toInt = n := by
    rw [Int32.toInt_toInt64, Int32.toInt_ofNat_of_lt hn]
  have hfmt : bytes "*%i\r\n" = [42, 37, 105, 13, 10] := by decide
  rw [hfmt]
  simp [sdscatfmt, sdsll2str_eq, hint, byte]
  rfl

theorem sdscatfmt_uint {s : Bytes} (hn : n < 2 ^ 32) :
    sdscatfmt s (bytes "$%u\r\n") [.uint (UInt32.ofNat n)] =
      some (s ++ bytes "$" ++ print n ++ bytes "\r\n") := by
  have huint : (UInt32.ofNat n).toUInt64.toNat = n := by
    rw [UInt32.toNat_toUInt64, UInt32.toNat_ofNat_of_lt' hn]
  have hfmt : bytes "$%u\r\n" = [36, 37, 117, 13, 10] := by decide
  rw [hfmt]
  simp [sdscatfmt, sdsull2str_eq, huint, byte]
  rfl

theorem length_le_totlen {arg : Bytes} (h : arg ∈ argv) : arg.length ≤ (wire argv).length := by
  obtain ⟨l, l', rfl⟩ := List.append_of_mem h
  rw [wire_eq, List.flatMap_append, List.flatMap_cons]
  simp only [List.length_append, bulk]
  omega

theorem length_le_length_wire (argv : List Bytes) : argv.length ≤ (wire argv).length := by
  have hbulk : ∀ argv : List Bytes, argv.length ≤ (argv.flatMap bulk).length := by
    intro argv
    induction argv with
    | nil => exact le_rfl
    | cons arg argv ih =>
      have hlen := length_bulk arg
      unfold bulklen at hlen
      rw [List.flatMap_cons, List.length_append, List.length_cons]
      omega
  rw [wire_eq, List.length_append]
  exact (hbulk argv).trans (Nat.le_add_left _ _)

/-- Both ways make the same command, of the length that is computed. -/
theorem redisFormatSdsCommandArgv_eq (hlen : (wire argv).length < 2 ^ 31) :
    redisFormatSdsCommandArgv argv = some (wire argv, (wire argv).length) := by
  have hloop : ∀ (args : List Bytes) (cmd : Bytes), (∀ arg ∈ args, arg.length < 2 ^ 32) →
      args.foldlM (fun cmd arg =>
        (sdscatfmt cmd (bytes "$%u\r\n") [.uint (UInt32.ofNat arg.length)]).map fun cmd =>
          cmd ++ arg ++ bytes "\r\n") cmd =
        some (args.foldl (fun cmd arg => cmd ++ bulk arg) cmd) := by
    intro args
    induction args with
    | nil => intro cmd _; rfl
    | cons arg args ih =>
      intro cmd h
      obtain ⟨harg, hargs⟩ := List.forall_mem_cons.mp h
      rw [List.foldlM_cons, sdscatfmt_uint harg, List.foldl_cons, ← ih _ hargs]
      simp only [Option.map_some, bulk, List.append_assoc]
      rfl
  have hargs : ∀ arg ∈ argv, arg.length < 2 ^ 32 := by
    intro arg harg
    have hle := length_le_totlen harg
    omega
  have hargc := length_le_length_wire argv
  unfold redisFormatSdsCommandArgv
  rw [sdscatfmt_int (by omega), Option.bind_some, hloop argv _ hargs, length_wire]
  rfl

/-! ### Commands that are read -/

/-- A command is encoded as an array of strings. -/
theorem encodes_wire (hlen : (wire argv).length < 2 ^ 31) :
    Encodes limits 0 (.array (argv.map .bulk)) (wire argv) := by
  have hargc := length_le_length_wire argv
  have hbulks : ∀ args : List Bytes, (∀ arg ∈ args, arg.length < 2 ^ 63) →
      EncodesAll limits 1 (args.map .bulk) (args.flatMap bulk) := by
    intro args
    induction args with
    | nil => exact fun _ => .nil
    | cons arg args ih =>
      intro h
      obtain ⟨harg, hargs⟩ := List.forall_mem_cons.mp h
      have henc : Encodes limits 1 (.bulk arg) (bulk arg) := by
        have hcons := Encodes.bulk (L := limits) (d := 1) (t := arg) (e := Resp.crlf) harg rfl
        have heq : bulk arg = 36 :: (print arg.length ++ Resp.crlf ++ (arg ++ Resp.crlf)) := by
          unfold bulk
          simp only [List.append_assoc]
          rfl
        rwa [heq]
      exact .cons henc (ih hargs)
  have hargs : ∀ arg ∈ argv, arg.length < 2 ^ 63 := by
    intro arg harg
    have hle := length_le_totlen harg
    omega
  have harray := @Encodes.array limits 0 (argv.map .bulk) _ (by decide)
    (by rw [List.length_map]; show argv.length ≤ 2 ^ 31 - 1; omega) (hbulks argv hargs)
  rw [List.length_map] at harray
  rw [wire_eq]
  exact harray

theorem encodesAll_wire {cmds : List (List Bytes)}
    (hlen : ∀ argv ∈ cmds, (wire argv).length < 2 ^ 31) :
    EncodesAll limits 0 (cmds.map fun argv => .array (argv.map .bulk)) (cmds.flatMap wire) := by
  induction cmds with
  | nil => exact .nil
  | cons argv cmds ih =>
    obtain ⟨hargv, hcmds⟩ := List.forall_mem_cons.mp hlen
    exact .cons (encodes_wire hargv) (ih hcmds)

/-- The arguments of a command as the parser gives them -/
def argumentsObject (argv : List Bytes) : ReplyObject :=
  .array (argv.map fun arg => some (.string .string arg))

theorem object_arguments (argv : List Bytes) :
    object (.array (argv.map .bulk)) = argumentsObject argv := by
  rw [object, objects_eq, List.map_map]
  rfl

/-- The state of a reader that has read commands to their end -/
theorem run_commands {cmds : List (List Bytes)}
    (hlen : ∀ argv ∈ cmds, (wire argv).length < 2 ^ 31) :
    protocol.run Resp.fresh (cmds.flatMap wire) =
      (⟨cmds.map fun argv => .array (argv.map .bulk), [], none, none⟩, []) := by
  have hrun := Resp.run_encodesAll_out (encodesAll_wire hlen) [] []
  rw [List.append_nil, List.nil_append] at hrun
  exact hrun.trans (StreamReader.run_of_none rfl)

/-- Commands are formatted in the same way whether `malloc` or a dynamic string holds them, and
in whatever pieces they arrive, a parser gives their arguments, command by command. -/
theorem commands_read {cmds : List (List Bytes)} {w : Reception} {acts : List ReaderCall}
    (hlen : ∀ argv ∈ cmds, (wire argv).length < 2 ^ 31)
    (hfits : Guarded Reception.step Reception.Fits .start acts)
    (hrun : exec Reception.step .start acts = some w) (hfed : w.fed = cmds.flatMap wire)
    (hex : w.Exhausted) :
    (∀ argv ∈ cmds, redisFormatSdsCommandArgv argv = some (wire argv, totlen argv)) ∧
      w.given = cmds.map argumentsObject ∧ (redisReaderGetReply w.reader).1.err = none := by
  obtain ⟨hgiven, herr, -⟩ := (holds_of_exec hfits hrun).exhausted hex
  rw [hfed, run_commands hlen] at hgiven herr
  refine ⟨fun argv hargv => ?_, ?_, herr⟩
  · rw [redisFormatSdsCommandArgv_eq (hlen argv hargv), length_wire]
  · rw [hgiven, List.map_map]
    exact congrArg (fun f => cmds.map f) (funext object_arguments)

/-- Two commands of a hash that arrive in three pieces -/
def twoCommands : List ReaderCall :=
  [.feed (bytes "*3\r\n$4\r\nHGET\r\n$1\r\nk\r\n$1\r"), .getReply,
    .feed (bytes "\nf\r\n*2\r\n"), .getReply, .feed (bytes "$3\r\nDEL\r\n$0\r\n\r\n"), .getReply]

theorem commands_read_twoCommands : ∃ w, exec Reception.step .start twoCommands = some w ∧
    w.given = [argumentsObject [bytes "HGET", bytes "k", bytes "f"],
      argumentsObject [bytes "DEL", []]] := by
  obtain ⟨w, hrun⟩ := exec_total twoCommands .start
  have hfed : (exec Reception.step .start twoCommands).map Reception.fed =
      some ([[bytes "HGET", bytes "k", bytes "f"], [bytes "DEL", []]].flatMap wire) := by
    decide +kernel
  have hex : ((exec Reception.step .start twoCommands).map fun w =>
      (redisReaderGetReply w.reader).2.1.isNone) = some true := by decide +kernel
  rw [hrun] at hfed hex
  exact ⟨w, hrun, (commands_read (by decide +kernel) (by decide +kernel) hrun
    (Option.some.inj hfed) (Option.isNone_iff_eq_none.mp (Option.some.inj hex))).2.1⟩

end MmorpgServer.Redis.Wire
