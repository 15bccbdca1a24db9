import MmorpgServer.Redis.Async
import MmorpgServer.Redis.Pipeline

/-!
# Commands of the asynchronous client

A command is recognised by its first argument, which is looked for in its bytes. A command that
neither subscribes nor monitors is refused, or it goes into the output buffer and its callback
behind the others.

## Main definitions

* `Plain` — a command that neither subscribes nor monitors
* `Session.add` — what a program adds to a connection

## Main results

* `nextArgument_bulk`, `nextArgument_wire` — the arguments of a command are found
* `redisAsyncCommand_plain` — what such a command does
* `Session.script_adds`, `Session.redisRunCallback_adds` — what a callback does
-/

namespace MmorpgServer.Redis.Async

open Wire Machine
open Decimal (print value_print isDigit_of_mem_print print_ne_nil)

/-! ### The name of a command -/

/-- The name of a command without the letter of its pattern variant -/
def commandName (name : Bytes) : Bytes :=
  if name.head?.map tolower = some 112 then name.tail else name

/-- A command that neither subscribes nor monitors -/
def Plain : List Bytes → Bool
  | [] => false
  | name :: _ => !hasPrefixCase (commandName name) (bytes "subscribe") &&
      !hasPrefixCase (commandName name) (bytes "monitor")

theorem strchr_append {s t : Bytes} {c : UInt8} (h : ∀ b ∈ s, b ≠ c ∧ b ≠ 0) :
    strchr (s ++ c :: t) c = some (c :: t) := by
  induction s with
  | nil => exact if_pos rfl
  | cons b s ih =>
    obtain ⟨⟨hne, hzero⟩, hs⟩ := List.forall_mem_cons.mp h
    rw [List.cons_append, strchr, if_neg hne, if_neg hzero]
    exact ih hs

/-- A digit is no other byte. -/
theorem ne_of_isDigit {b c : UInt8} (hb : Decimal.IsDigit b) (hc : c < 48) : b ≠ c := by
  rintro rfl
  have hlow := hb.1
  have hlt : b.toNat < 48 := hc
  omega

theorem strtol_print (n : ℕ) (hn : n < 2 ^ 63) (t : Bytes) : strtol (print n ++ 13 :: t) = n := by
  obtain ⟨b, l, hprint⟩ := List.exists_cons_of_ne_nil (print_ne_nil (n := n))
  have hdigits := isDigit_of_mem_print n
  have hb : Decimal.IsDigit b := hdigits b (by rw [hprint]; exact List.mem_cons_self)
  have hspace : isspace b = false := by
    unfold isspace
    have hlow := hb.1
    simp only [Bool.or_eq_false_iff, Bool.and_eq_false_iff, decide_eq_false_iff_not,
      UInt8.le_iff_toNat_le]
    refine ⟨ne_of_isDigit hb (by decide), .inr ?_⟩
    show ¬b.toNat ≤ 13
    omega
  have htake : (print n ++ 13 :: t).takeWhile (fun b => 48 ≤ b && b ≤ 57) = print n := by
    rw [List.takeWhile_append_of_pos, List.takeWhile_cons_of_neg (by decide), List.append_nil]
    intro b hb
    obtain ⟨hlow, hhigh⟩ := hdigits b hb
    simp only [Bool.and_eq_true, decide_eq_true_eq, UInt8.le_iff_toNat_le]
    exact ⟨hlow, hhigh⟩
  have hdrop : (print n ++ 13 :: t).dropWhile isspace = print n ++ 13 :: t := by
    rw [hprint, List.cons_append, List.dropWhile_cons_of_neg (by simp [hspace])]
  have hsign : numberSign (print n ++ 13 :: t) = (false, print n ++ 13 :: t) := by
    rw [hprint, List.cons_append]
    unfold numberSign
    split
    · next heq => exact absurd (List.cons.inj heq).1 (ne_of_isDigit hb (by decide))
    · next heq => exact absurd (List.cons.inj heq).1 (ne_of_isDigit hb (by decide))
    · rfl
  unfold strtol
  rw [hdrop, hsign]
  dsimp only
  rw [htake, value_print]
  simp only [Bool.false_eq_true, if_false]
  omega

theorem bytes_crlf : bytes "\r\n" = [13, 10] := rfl

/-- An argument is found where it was put. -/
theorem nextArgument_bulk (arg rest : Bytes) (h : arg.length < 2 ^ 31) :
    nextArgument (bulk arg ++ rest) = some (some (arg ++ 13 :: 10 :: rest, arg.length, rest)) := by
  have hbulk : bulk arg ++ rest =
      36 :: (print arg.length ++ 13 :: 10 :: (arg ++ 13 :: 10 :: rest)) := by
    unfold bulk
    simp only [bytes_crlf, List.append_assoc, List.cons_append, List.nil_append]
    rfl
  have hline : strchr (36 :: (print arg.length ++ 13 :: 10 :: (arg ++ 13 :: 10 :: rest))) 13 =
      some (13 :: 10 :: (arg ++ 13 :: 10 :: rest)) := by
    rw [← List.cons_append]
    apply strchr_append
    intro b hb
    rcases List.mem_cons.mp hb with rfl | hb
    · decide
    · have hdigit := isDigit_of_mem_print _ b hb
      exact ⟨ne_of_isDigit hdigit (by decide), ne_of_isDigit hdigit (by decide)⟩
  have hhead : (36 :: (print arg.length ++ 13 :: 10 :: (arg ++ 13 :: 10 :: rest))).head? =
      some 36 := rfl
  unfold nextArgument
  rw [hbulk, if_pos hhead]
  dsimp only
  rw [List.tail_cons, strtol_print _ (by omega), toInt_of_lt (by omega) (by omega), hline]
  dsimp only
  rw [Int.toNat_natCast, if_neg]
  · have hdrop : (13 :: 10 :: (arg ++ 13 :: 10 :: rest)).drop (2 + arg.length + 2) = rest := by
      rw [show 2 + arg.length + 2 = (arg.length + 2) + 2 by omega, List.drop_succ_cons,
        List.drop_succ_cons, List.drop_length_add_append]
      rfl
    rw [hdrop]
    rfl
  · simp only [List.length_cons, List.length_append]
    omega

/-- The first argument of a command is its name. -/
theorem nextArgument_wire (name : Bytes) (args : List Bytes) (h : name.length < 2 ^ 31) :
    nextArgument (wire (name :: args)) =
      some (some (name ++ 13 :: 10 :: args.flatMap bulk, name.length, args.flatMap bulk)) := by
  have hstart : nextArgument (wire (name :: args)) =
      nextArgument (bulk name ++ args.flatMap bulk) := by
    obtain ⟨p, hp⟩ : ∃ p, bulk name ++ args.flatMap bulk = 36 :: p := ⟨_, rfl⟩
    have hfront : strchr (wire (name :: args)) 36 = some (36 :: p) := by
      rw [wire_eq, List.flatMap_cons, hp]
      apply strchr_append
      intro b hb
      simp only [bytes_crlf, List.mem_append] at hb
      rcases hb with (hb | hb) | hb
      · obtain rfl := List.mem_singleton.mp hb
        decide
      · have hdigit := isDigit_of_mem_print _ b hb
        exact ⟨ne_of_isDigit hdigit (by decide), ne_of_isDigit hdigit (by decide)⟩
      · rcases List.mem_pair.mp hb with rfl | rfl <;> decide
    have hhead : (wire (name :: args)).head? = some 42 := by
      rw [wire_eq]
      rfl
    unfold nextArgument
    rw [hhead, if_neg (by decide), hfront, hp]
    rfl
  rw [hstart]
  exact nextArgument_bulk name _ h

/-- A word with its line break stands in front only where the word does. -/
theorem hasPrefixCase_of_line {s rest : Bytes} {w : Bytes} (hw : 13 ∉ w.map tolower)
    (h : hasPrefixCase (s ++ 13 :: 10 :: rest) (w ++ [13, 10]) = true) :
    hasPrefixCase s w = true := by
  unfold hasPrefixCase at h ⊢
  rw [decide_eq_true_eq] at h ⊢
  have hmap : ((s ++ 13 :: 10 :: rest).map tolower).take (w.length + 2) =
      w.map tolower ++ [13, 10] := by
    have hcr : tolower 13 = 13 := by decide
    have hlf : tolower 10 = 10 := by decide
    rw [← List.map_take]
    simpa [hcr, hlf] using h
  have hword : ((s ++ 13 :: 10 :: rest).map tolower).take w.length = w.map tolower := by
    have htake := congrArg (List.take w.length) hmap
    rw [List.take_take, Nat.min_eq_left (by omega)] at htake
    rw [htake, List.take_append_of_le_length (by rw [List.length_map]),
      List.take_of_length_le (by rw [List.length_map])]
  rw [List.map_append] at hword
  by_cases hlen : w.length ≤ s.length
  · rw [List.take_append_of_le_length (by simpa using hlen)] at hword
    rw [List.map_take]
    exact hword
  · -- the line break behind `s` would be in the word
    refine absurd ?_ hw
    rw [← hword]
    rw [List.take_append, List.length_map]
    apply List.mem_append_right
    obtain ⟨k, hk⟩ : ∃ k, w.length - s.length = k + 1 := ⟨w.length - s.length - 1, by omega⟩
    rw [hk]
    exact List.mem_cons_self

/-- A plain command is refused, or it is sent and its callback waits behind the others. -/
theorem redisAsyncCommand_plain {ac : RedisAsyncContext} {argv : List Bytes} (hplain : Plain argv)
    (hlen : (wire argv).length < 2 ^ 31) (hsub : ac.subscribed = false) (fn : Option ℕ)
    (privdata : ℕ) :
    redisAsyncCommand ac fn privdata (.ok argv) = some (ac, false) ∨
      ac.disconnecting = false ∧ ac.freeing = false ∧
        redisAsyncCommand ac fn privdata (.ok argv) = some ({ ac with
          c := { ac.c with obuf := ac.c.obuf ++ wire argv }
          writing := true
          replies := ac.replies ++ [⟨fn, 1, privdata⟩] }, true) := by
  cases argv with
  | nil => exact absurd hplain (by simp [Plain])
  | cons name args =>
    obtain ⟨hsubscribe, hmonitor⟩ : hasPrefixCase (commandName name) (bytes "subscribe") = false ∧
        hasPrefixCase (commandName name) (bytes "monitor") = false := by
      simpa [Plain] using hplain
    have hname : name.length < 2 ^ 31 := by
      have hle : name.length ≤ (wire (name :: args)).length := length_le_totlen List.mem_cons_self
      omega
    -- what is behind the letter of the pattern variant
    have hline : (if decide ((name ++ 13 :: 10 :: args.flatMap bulk).head?.map tolower = some 112)
        then (name ++ 13 :: 10 :: args.flatMap bulk).tail
        else name ++ 13 :: 10 :: args.flatMap bulk) =
          commandName name ++ 13 :: 10 :: args.flatMap bulk := by
      unfold commandName
      cases name with
      | nil => rfl
      | cons b name =>
        by_cases hb : (some b).map tolower = some 112
        · simp only [List.cons_append, List.head?_cons, List.tail_cons, hb, decide_true, if_true]
        · simp only [List.cons_append, List.head?_cons, List.tail_cons, hb, decide_false, if_false,
            Bool.false_eq_true]
    have hno : ∀ w : String, 13 ∉ (bytes w).map tolower →
        hasPrefixCase (commandName name) (bytes w) = false →
        hasPrefixCase (commandName name ++ 13 :: 10 :: args.flatMap bulk)
          (bytes w ++ [13, 10]) = false := by
      intro w hw hword
      cases hcase : hasPrefixCase (commandName name ++ 13 :: 10 :: args.flatMap bulk)
          (bytes w ++ [13, 10]) with
      | false => rfl
      | true => exact absurd (hasPrefixCase_of_line hw hcase) (by simp [hword])
    have hsubscribe' := hno "subscribe" (by decide) hsubscribe
    have hmonitor' := hno "monitor" (by decide) hmonitor
    unfold redisAsyncCommand redisAsyncFormattedCommand
    dsimp only
    split
    · exact .inl rfl
    · next hopen =>
      obtain ⟨hdis, hfree⟩ : ac.disconnecting = false ∧ ac.freeing = false := by
        simpa using hopen
      rw [nextArgument_wire name args hname]
      dsimp only
      rw [hline]
      have hfirst : hasPrefixCase (commandName name ++ 13 :: 10 :: args.flatMap bulk)
          (bytes "subscribe\r\n") = false := hsubscribe'
      have hthird : hasPrefixCase (commandName name ++ 13 :: 10 :: args.flatMap bulk)
          (bytes "monitor\r\n") = false := hmonitor'
      rw [if_neg (by simp [hfirst]), hthird, hsub]
      split
      · exact .inl rfl
      · exact .inr ⟨hdis, hfree, rfl⟩

/-! ### What a callback does -/

/-- A call that does what is spoken of here -/
def Fine : UserCall → Bool
  | .command _ _ (.ok argv) => Plain argv
  | .command _ _ .invalid | .command _ _ .memory => true
  | .command _ _ .undefined => false
  | .disconnect => true
  | .free => true

def isCommand : UserCall → Bool
  | .command _ _ _ => true
  | _ => false

/-- The bytes that a call can put into the output buffer -/
def callBytes : UserCall → ℕ
  | .command _ _ (.ok argv) => (wire argv).length
  | _ => 0

def scriptBytes (script : List UserCall) : ℕ := (script.map callBytes).sum

/-- What was added to a connection, and its flags behind it -/
structure Added where
  argvs : List (List Bytes)
  cbs : List RedisCallback
  writing : Bool
  disconnecting : Bool
  freeing : Bool

namespace Session

variable {s : Session} {a b : Added} {c : UserCall} {script : List UserCall}

def add (s : Session) (a : Added) : Session :=
  { s with
    ac := { s.ac with
      c := { s.ac.c with obuf := s.ac.c.obuf ++ a.argvs.flatMap wire }
      replies := s.ac.replies ++ a.cbs
      writing := a.writing
      disconnecting := a.disconnecting
      freeing := a.freeing }
    commands := s.commands ++ a.argvs
    callbacks := s.callbacks ++ a.cbs }

/-- What a program can add -/
structure Adds (s : Session) (a : Added) : Prop where
  length : a.cbs.length = a.argvs.length
  small : ∀ argv ∈ a.argvs, (wire argv).length < 2 ^ 31
  refused : s.ac.disconnecting = true ∨ s.ac.freeing = true → a.argvs = []
  disconnecting : s.ac.disconnecting = true → a.disconnecting = true
  freeing : s.ac.freeing = true → a.freeing = true
  writing : s.ac.writing = true ∨ a.argvs ≠ [] → a.writing = true

/-- Nothing is added. -/
def nothing (s : Session) : Added := ⟨[], [], s.ac.writing, s.ac.disconnecting, s.ac.freeing⟩

theorem add_nothing (s : Session) : s.add s.nothing = s := by
  unfold add nothing
  simp only [List.flatMap_nil, List.append_nil]

theorem adds_nothing (s : Session) : s.Adds s.nothing where
  length := rfl
  small := by simp [nothing]
  refused := fun _ => rfl
  disconnecting := id
  freeing := id
  writing := fun h => h.resolve_right (by simp [nothing])

theorem add_add (s : Session) (a b : Added) : (s.add a).add b =
    s.add ⟨a.argvs ++ b.argvs, a.cbs ++ b.cbs, b.writing, b.disconnecting, b.freeing⟩ := by
  unfold add
  simp only [List.flatMap_append, List.append_assoc]

theorem Adds.trans (ha : s.Adds a) (hb : (s.add a).Adds b) :
    s.Adds ⟨a.argvs ++ b.argvs, a.cbs ++ b.cbs, b.writing, b.disconnecting, b.freeing⟩ where
  length := by rw [List.length_append, List.length_append, ha.length, hb.length]
  small := by
    intro argv hmem
    rcases List.mem_append.mp hmem with hmem | hmem
    · exact ha.small argv hmem
    · exact hb.small argv hmem
  refused := by
    intro h
    have hnil := ha.refused h
    have hnil' := hb.refused (h.imp ha.disconnecting ha.freeing)
    rw [hnil, hnil']
    rfl
  disconnecting := fun h => hb.disconnecting (ha.disconnecting h)
  freeing := fun h => hb.freeing (ha.freeing h)
  writing := by
    rintro (h | h)
    · exact hb.writing (.inl (ha.writing (.inl h)))
    · by_cases hne : b.argvs = []
      · exact hb.writing (.inl (ha.writing (.inr fun hnil => h (by rw [hnil, hne]; rfl))))
      · exact hb.writing (.inr hne)

/-- A call adds a command, or sets a flag. Where the connection may be freed at once, it is a
command. -/
theorem call_adds (hfine : Fine c) (hsub : s.ac.subscribed = false) (hbytes : callBytes c < 2 ^ 31)
    (hwhere : s.ac.inCallback = true ∨ isCommand c = true) :
    ∃ a, s.call c = s.add a ∧ s.Adds a ∧ (a.argvs.flatMap wire).length ≤ callBytes c ∧
      (isCommand c = true → a.freeing = s.ac.freeing) := by
  cases c with
  | command fn privdata cmd =>
    cases cmd with
    | undefined => exact absurd hfine (by simp [Fine])
    | invalid | memory =>
      exact ⟨s.nothing, (add_nothing s).symm, adds_nothing s, Nat.zero_le _, fun _ => rfl⟩
    | ok argv =>
      rcases redisAsyncCommand_plain hfine hbytes hsub fn privdata with heq | ⟨hdis, hfree, heq⟩
      · refine ⟨s.nothing, ?_, adds_nothing s, Nat.zero_le _, fun _ => rfl⟩
        rw [call, heq, add_nothing]
      · refine ⟨⟨[argv], [⟨fn, 1, privdata⟩], true, s.ac.disconnecting, s.ac.freeing⟩, ?_, ?_, ?_,
          fun _ => rfl⟩
        · rw [call, heq]
          simp only [add, Link.appended, List.flatMap_singleton]
        · exact { length := rfl
                  small := fun argv' hmem => by
                    obtain rfl := List.mem_singleton.mp hmem
                    exact hbytes
                  refused := fun h => absurd h (by simp [hdis, hfree])
                  disconnecting := id
                  freeing := id
                  writing := fun _ => rfl }
        · rw [List.flatMap_singleton]
          exact le_rfl
  | disconnect =>
    obtain hin := hwhere.resolve_right (by simp [isCommand])
    refine ⟨{ s.nothing with disconnecting := true }, ?_,
      { adds_nothing s with disconnecting := fun _ => rfl }, Nat.zero_le _, fun _ => rfl⟩
    unfold call redisAsyncDisconnect
    simp [add, nothing, hin]
  | free =>
    obtain hin := hwhere.resolve_right (by simp [isCommand])
    refine ⟨{ s.nothing with freeing := true }, ?_,
      { adds_nothing s with freeing := fun _ => rfl }, Nat.zero_le _,
      fun h => absurd h (by simp [isCommand])⟩
    unfold call redisAsyncFree
    simp [add, nothing, hin]

/-- What a callback does adds to the connection. -/
theorem script_adds (hfine : ∀ c ∈ script, Fine c) (hsub : s.ac.subscribed = false)
    (hbytes : scriptBytes script < 2 ^ 31)
    (hwhere : s.ac.inCallback = true ∨ ∀ c ∈ script, isCommand c = true) :
    ∃ a, script.foldl call s = s.add a ∧ s.Adds a ∧
      (a.argvs.flatMap wire).length ≤ scriptBytes script ∧
      ((∀ c ∈ script, isCommand c = true) → a.freeing = s.ac.freeing) := by
  induction script generalizing s with
  | nil => exact ⟨s.nothing, (add_nothing s).symm, adds_nothing s, Nat.zero_le _, fun _ => rfl⟩
  | cons c script ih =>
    obtain ⟨hc, hscript⟩ := List.forall_mem_cons.mp hfine
    have hsum : scriptBytes (c :: script) = callBytes c + scriptBytes script := by
      simp [scriptBytes]
    obtain ⟨a, hcall, hadds, hlen, hfree⟩ := call_adds hc hsub (by omega)
      (hwhere.imp_right fun h => h c List.mem_cons_self)
    obtain ⟨b, hrest, hadds', hlen', hfree'⟩ := @ih (s.add a) hscript hsub (by omega)
      (hwhere.imp_right fun h c' hc' => h c' (List.mem_cons_of_mem c hc'))
    refine ⟨_, ?_, hadds.trans hadds', ?_, fun hcommands => ?_⟩
    · rw [List.foldl_cons, hcall, hrest, add_add]
    · rw [List.flatMap_append, List.length_append]
      omega
    · obtain ⟨hc', hscript'⟩ := List.forall_mem_cons.mp hcommands
      exact (hfree' hscript').trans (hfree hc')

/-- The call of a callback, if it is one -/
def ran (cb : RedisCallback) (reply : Option ReplyObject) :
    List (RedisCallback × Option ReplyObject) :=
  if cb.fn = none then [] else [(cb, reply)]

/-- A callback is run, and adds to the connection. -/
theorem redisRunCallback_adds {cb : RedisCallback} {reply : Option ReplyObject}
    (hfine : ∀ c ∈ script, Fine c) (hsub : s.ac.subscribed = false)
    (hin : s.ac.inCallback = false) (hbytes : scriptBytes script < 2 ^ 31) :
    ∃ a, s.redisRunCallback cb reply script =
        add { s with runs := s.runs ++ ran cb reply } a ∧ s.Adds a ∧
      (a.argvs.flatMap wire).length ≤ scriptBytes script := by
  unfold redisRunCallback ran
  by_cases hnull : cb.fn = none
  · rw [if_pos hnull, if_pos hnull, List.append_nil]
    exact ⟨s.nothing, (add_nothing s).symm, adds_nothing s, Nat.zero_le _⟩
  · rw [if_neg hnull, if_neg hnull]
    obtain ⟨a, hscript, hadds, hlen, -⟩ := @script_adds
      { s with ac := { s.ac with inCallback := true }, runs := s.runs ++ [(cb, reply)] } script
      hfine hsub hbytes (.inl rfl)
    refine ⟨a, ?_, { hadds with }, hlen⟩
    dsimp only
    rw [hscript]
    simp only [add, hin]

end Session

end MmorpgServer.Redis.Async
