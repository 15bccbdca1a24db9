import MmorpgServer.Redis.AsyncCommands

/-!
# Subscriptions

A connection with subscriptions gets three kinds of notices from the server: that a channel was
subscribed, that it was unsubscribed, and messages. The client finds the callback for a notice in
its tables of channels and patterns, and counts in each entry the subscriptions that the server has
not confirmed yet.

## Main definitions

* `Request`, `Notice` — the commands for a channel, and what the server says of it
* `processReply` — the search for a callback in the loop of `redisProcessCallbacks`

## Main results

* `redisProcessCallbacks_eq` — a notice in the loop of `redisProcessCallbacks`
* `redisAsyncCommand_subscribe`, `redisAsyncCommand_unsubscribe` — what the commands do there
* `countable_iff` — when a subscription to several channels counts right
* `processReply_eq`, `processReply_unsubscribed` — what the notices do to the tables
-/

namespace MmorpgServer.Redis.Async

open Wire (bulk wire redisGetReplyFromReader)

/-! ### Commands and notices -/

/-- A channel, or a pattern where the flag is set -/
abbrev Channel := Bool × Bytes

/-- The table for a channel -/
def RedisAsyncContext.table (ac : RedisAsyncContext) (pvariant : Bool) : Dict Bytes RedisCallback :=
  if pvariant then ac.patterns else ac.channels

/-- The callback of a channel -/
def RedisAsyncContext.entry (ac : RedisAsyncContext) (k : Channel) : Option RedisCallback :=
  (ac.table k.1).map.lookup k.2

/-- What a command asks for one of its channels -/
inductive Request where
  | subscribe (k : Channel)
  | unsubscribe (k : Channel)
  deriving DecidableEq

/-- The arguments of a command for channels, or for patterns where the flag is set -/
def argv (pvariant : Bool) (word : String) (names : List Bytes) : List Bytes :=
  ((if pvariant then bytes "P" else []) ++ bytes word) :: names

/-- What a command asks for, channel by channel -/
def parts (r : Channel → Request) (pvariant : Bool) (names : List Bytes) : List Request :=
  names.map fun name => r (pvariant, name)

/-- What the server says of a channel, with the number of channels and patterns that are subscribed,
or what is behind the channel in a message -/
inductive Notice where
  | subscribed (k : Channel) (count : ℕ)
  | unsubscribed (k : Channel) (count : ℕ)
  | message (k : Channel) (rest : List (Option ReplyObject))

def Notice.channel : Notice → Channel
  | .subscribed k _ | .unsubscribed k _ | .message k _ => k

/-- A notice as the parser gives it -/
def Notice.reply : Notice → ReplyObject
  | .subscribed k count => .array [some (.string .string (kind k "subscribe")),
      some (.string .string k.2), some (.integer (.ofNat count))]
  | .unsubscribed k count => .array [some (.string .string (kind k "unsubscribe")),
      some (.string .string k.2), some (.integer (.ofNat count))]
  | .message k rest => .array (some (.string .string (kind k "message")) ::
      some (.string .string k.2) :: rest)
where
  kind (k : Channel) (word : String) : Bytes := (if k.1 then bytes "p" else []) ++ bytes word

/-- The command that a notice confirms -/
def Notice.request : Notice → Option Request
  | .subscribed k _ => some (.subscribe k)
  | .unsubscribed k _ => some (.unsubscribe k)
  | .message _ _ => none

/-! ### The search for a callback -/

/-- The part of the loop of `redisProcessCallbacks` that finds the callback for a reply that is no
error, `none` where an assertion fails; `cb` is its local variable. -/
def processReply (ac : RedisAsyncContext) (reply : ReplyObject) (cb : RedisCallback) :
    Option (RedisAsyncContext × RedisCallback) :=
  match ac.replies with
  | cb :: replies => some ({ ac with replies }, cb)
  | [] =>
    if ac.subscribed then redisGetSubscribeCallback ac reply cb
    else if ac.monitoring then some (ac, cb)
    else none

/-- A notice in the loop of `redisProcessCallbacks` -/
theorem redisProcessCallbacks_eq {s : Session} {c : Wire.RedisContext} {cb : RedisCallback}
    {n : Notice} (script : List UserCall)
    (hread : redisGetReplyFromReader s.ac.c = (c, some n.reply, true))
    (hreplies : s.ac.replies = []) :
    s.redisProcessCallbacks cb script =
      match processReply { s.ac with c } n.reply cb with
      | none => { s with
          ac := { s.ac with c }
          given := s.given ++ [n.reply]
          phase := .crashed }
      | some (ac, cb) =>
        Session.deliver { s with ac, given := s.given ++ [n.reply] } cb n.reply script := by
  unfold Session.redisProcessCallbacks processReply
  rw [hread]
  dsimp only
  rw [hreplies]
  cases n <;>
  · dsimp only [Notice.reply]
    split_ifs with hsub hmon
    · rfl
    · rfl
    · rfl

/-! ### The tables -/

variable {ac ac' : RedisAsyncContext} {k k' : Channel} {d : Dict Bytes RedisCallback}
  {e : RedisCallback}

/-- A client without regular commands -/
structure Ready (ac : RedisAsyncContext) : Prop where
  valid : ∀ pvariant, Dict.Valid callbackDict (ac.table pvariant)
  addrs : ∀ pvariant, ∀ e ∈ (ac.table pvariant).entries, e.addr < ac.fresh
  replies : ac.replies = []
  taking : ac.disconnecting = false ∧ ac.freeing = false

/-- One of the tables is another one. -/
def RedisAsyncContext.setTable (ac : RedisAsyncContext) (pvariant : Bool)
    (d : Dict Bytes RedisCallback) : RedisAsyncContext :=
  if pvariant then { ac with patterns := d } else { ac with channels := d }

theorem entry_setTable (ac : RedisAsyncContext) (pvariant : Bool) (d : Dict Bytes RedisCallback)
    (k : Channel) :
    (ac.setTable pvariant d).entry k = if k.1 = pvariant then d.map.lookup k.2 else ac.entry k := by
  obtain ⟨b, name⟩ := k
  unfold RedisAsyncContext.entry RedisAsyncContext.setTable RedisAsyncContext.table
  cases b <;> cases pvariant <;> rfl

theorem Ready.setTable (h : Ready ac) {pvariant : Bool} (hvalid : Dict.Valid callbackDict d)
    (haddrs : ∀ e ∈ d.entries, e.addr < ac.fresh) : Ready (ac.setTable pvariant d) := by
  have hv := h.valid
  have ha := h.addrs
  have htable : ∀ b, (ac.setTable pvariant d).table b = if b = pvariant then d else ac.table b := by
    intro b
    unfold RedisAsyncContext.setTable RedisAsyncContext.table
    cases b <;> cases pvariant <;> rfl
  have hfresh : (ac.setTable pvariant d).fresh = ac.fresh := by
    unfold RedisAsyncContext.setTable
    split <;> rfl
  refine { valid := fun b => ?_, addrs := fun b => ?_, replies := ?_, taking := ?_ }
  · rw [htable]
    split
    · exact hvalid
    · exact hv b
  · rw [htable, hfresh]
    split
    · exact haddrs
    · exact ha b
  · unfold RedisAsyncContext.setTable
    split <;> exact h.replies
  · unfold RedisAsyncContext.setTable
    split <;> exact h.taking

/-- What is put under a channel is found there. -/
theorem entry_of_insert (hmap : d.map = (ac.table k.1).map.insert k.2 e) (k' : Channel) :
    (ac.setTable k.1 d).entry k' = if k' = k then some e else ac.entry k' := by
  rw [entry_setTable, hmap]
  by_cases hk : k' = k
  · subst hk
    rw [if_pos rfl, if_pos rfl, Finmap.lookup_insert]
  · rw [if_neg hk]
    split
    next hsame =>
      have hname : k'.2 ≠ k.2 := fun heq => hk (Prod.ext hsame heq)
      rw [Finmap.lookup_insert_of_ne _ hname, RedisAsyncContext.entry, hsame]
    · rfl

/-- What is removed from under a channel is not found. -/
theorem entry_of_erase (hmap : d.map = (ac.table k.1).map.erase k.2) (k' : Channel) :
    (ac.setTable k.1 d).entry k' = if k' = k then none else ac.entry k' := by
  rw [entry_setTable, hmap]
  by_cases hk : k' = k
  · subst hk
    rw [if_pos rfl, if_pos rfl, Finmap.lookup_erase]
  · rw [if_neg hk]
    split
    next hsame =>
      have hname : k'.2 ≠ k.2 := fun heq => hk (Prod.ext hsame heq)
      rw [Finmap.lookup_erase_ne hname, RedisAsyncContext.entry, hsame]
    · rfl

/-- The tables are empty. -/
theorem Ready.used_eq_zero_iff (h : Ready ac) :
    (ac.channels.used = 0 ∧ ac.patterns.used = 0) ↔ ∀ k, ac.entry k = none := by
  have htable : ∀ b, (ac.table b).used = 0 ↔ ∀ name, (ac.table b).map.lookup name = none := by
    intro b
    rw [← (h.valid b).card_map, Finset.card_eq_zero, Finset.eq_empty_iff_forall_notMem]
    simp only [Finmap.mem_keys, Finmap.lookup_eq_none]
  constructor
  · rintro ⟨hchannels, hpatterns⟩ ⟨b, name⟩
    cases b
    · exact (htable false).mp hchannels name
    · exact (htable true).mp hpatterns name
  · intro hnone
    exact ⟨(htable false).mpr fun name => hnone (false, name),
      (htable true).mpr fun name => hnone (true, name)⟩

/-! ### The commands of the client -/

/-- How many subscriptions an entry waits for -/
def pending : Option RedisCallback → ℤ
  | some e => e.pendingSubs
  | none => 0

/-- The callback that a command puts under a channel. For a new channel its number stays as the
channels in front have left it. -/
def recount (cb : RedisCallback) : Option RedisCallback → RedisCallback
  | some e => { cb with pendingSubs := e.pendingSubs + 1 }
  | none => cb

/-- The entries behind a subscription -/
def entriesAfter (entry : Channel → Option RedisCallback) (pvariant : Bool) (cb : RedisCallback) :
    List Bytes → Channel → Option RedisCallback
  | [] => entry
  | name :: names =>
    entriesAfter
      (Function.update entry (pvariant, name) (some (recount cb (entry (pvariant, name)))))
      pvariant (recount cb (entry (pvariant, name))) names

/-- `dictReplace` in one of the tables -/
theorem subscribe_eq (h : Ready ac) (hroom : (ac.table k.1).used < 2 ^ 30) :
    ∃ ac', subscribe ac k.1 k.2 e = some ac' ∧ Ready ac' ∧ ac'.subscribed = ac.subscribed ∧
      (ac'.table k.1).used ≤ (ac.table k.1).used + 1 ∧
        ac'.entry = Function.update ac.entry k (some e) := by
  have haddr : ac.fresh ∉ (ac.table k.1).entries.map DictEntry.addr := by
    intro hmem
    obtain ⟨e', he', heq⟩ := List.mem_map.mp hmem
    exact absurd (h.addrs k.1 e' he') (by omega)
  obtain ⟨d, hreplace, hvalid, hmap, haddrs⟩ := (h.valid k.1).replace k.2 e hroom haddr
  have hready : Ready ({ ac with fresh := ac.fresh + 1 }.setTable k.1 d) := by
    apply Ready.setTable _ hvalid
    · intro e' he'
      rcases haddrs e' he' with hold | hnew
      · obtain ⟨e'', he'', heq⟩ := List.mem_map.mp hold
        have hlt := h.addrs k.1 e'' he''
        exact Nat.lt_succ_of_lt (heq ▸ hlt)
      · exact hnew ▸ Nat.lt_succ_self _
    · exact ⟨h.valid, fun b e he => Nat.lt_succ_of_lt (h.addrs b e he), h.replies, h.taking⟩
  refine ⟨_, ?_, hready, ?_, ?_, ?_⟩
  · obtain ⟨b, name⟩ := k
    unfold subscribe
    cases b
    · exact congrArg (Option.map _) hreplace
    · exact congrArg (Option.map _) hreplace
  · unfold RedisAsyncContext.setTable
    split <;> rfl
  · have htable : ({ ac with fresh := ac.fresh + 1 }.setTable k.1 d).table k.1 = d := by
      unfold RedisAsyncContext.setTable RedisAsyncContext.table
      cases k.1 <;> rfl
    have hkeys : d.map.keys ⊆ insert k.2 (ac.table k.1).map.keys := by
      intro name hname
      rw [Finmap.mem_keys, hmap, Finmap.mem_insert] at hname
      rw [Finset.mem_insert, Finmap.mem_keys]
      exact hname
    rw [htable, ← hvalid.card_map, ← (h.valid k.1).card_map]
    exact (Finset.card_le_card hkeys).trans (Finset.card_insert_le ..)
  · funext k'
    refine (@entry_of_insert { ac with fresh := ac.fresh + 1 } k d e hmap k').trans ?_
    rw [Function.update_apply]
    rfl

/-- The loop over the channels of a subscription, once -/
theorem subscribeLoop_bulk (h : Ready ac) (cb : RedisCallback) (rest : Bytes)
    (hname : k.2.length < 2 ^ 31) :
    subscribeLoop ac k.1 cb (bulk k.2 ++ rest) =
      (subscribe ac k.1 k.2 (recount cb (ac.entry k))).bind fun ac' =>
        subscribeLoop ac' k.1 (recount cb (ac.entry k)) rest := by
  have harg := nextArgument_bulk k.2 rest hname
  have hlookup := (h.valid k.1).lookup_map k.2
  rw [subscribeLoop]
  split
  · next heq => cases harg.symm.trans heq
  · next heq => cases harg.symm.trans heq
  · next astr alen next heq =>
    obtain ⟨rfl, rfl, rfl⟩ : k.2 ++ 13 :: 10 :: rest = astr ∧ k.2.length = alen ∧ rest = next := by
      simpa using harg.symm.trans heq
    have htable : (if k.1 = true then ac.patterns else ac.channels) = ac.table k.1 := rfl
    simp only [List.take_left]
    rw [htable]
    unfold RedisAsyncContext.entry
    rw [hlookup]
    cases dictFind callbackDict (ac.table k.1) k.2 <;> rfl

/-- The loop over the channels of a subscription -/
theorem subscribeLoop_eq {b : Bool} {names : List Bytes} (h : Ready ac) (cb : RedisCallback)
    (hnames : ∀ name ∈ names, name.length < 2 ^ 31)
    (hroom : (ac.table b).used + names.length ≤ 2 ^ 30) :
    ∃ ac', subscribeLoop ac b cb (names.flatMap bulk) = some ac' ∧ Ready ac' ∧
      ac'.subscribed = ac.subscribed ∧ ac'.entry = entriesAfter ac.entry b cb names := by
  induction names generalizing ac cb with
  | nil =>
    refine ⟨ac, ?_, h, rfl, rfl⟩
    rw [List.flatMap_nil, subscribeLoop]
    rfl
  | cons name names ih =>
    rw [List.length_cons] at hroom
    obtain ⟨hname, hnames⟩ := List.forall_mem_cons.mp hnames
    have hlt : (ac.table b).used < 2 ^ 30 := by omega
    obtain ⟨ac₁, hone, h₁, hsub₁, hused, hentry₁⟩ :=
      @subscribe_eq ac (b, name) (recount cb (ac.entry (b, name))) h hlt
    have hroom₁ : (ac₁.table b).used + names.length ≤ 2 ^ 30 :=
      (Nat.add_le_add_right hused _).trans (by dsimp only; omega)
    obtain ⟨ac₂, hrest, h₂, hsub₂, hentry₂⟩ :=
      ih h₁ (recount cb (ac.entry (b, name))) hnames hroom₁
    refine ⟨ac₂, ?_, h₂, hsub₂.trans hsub₁, ?_⟩
    · rw [List.flatMap_cons]
      refine (@subscribeLoop_bulk ac (b, name) h cb _ hname).trans ?_
      rw [hone]
      exact hrest
    · rw [hentry₂, hentry₁]
      rfl

/-- The word of a command is its first argument. -/
theorem nextArgument_argv (b : Bool) {word : String} (names : List Bytes)
    (hword : (bytes word).length < 2 ^ 30) :
    nextArgument (wire (argv b word names)) =
      some (some (((if b then bytes "P" else []) ++ bytes word) ++ 13 :: 10 :: names.flatMap bulk,
        ((if b then bytes "P" else []) ++ bytes word).length, names.flatMap bulk)) := by
  refine nextArgument_wire ((if b then bytes "P" else []) ++ bytes word) names ?_
  have hpattern : (if b then bytes "P" else []).length ≤ 1 := by
    cases b <;> decide
  rw [List.length_append]
  omega

/-- A subscription puts its callback into the table. -/
theorem redisAsyncCommand_subscribe {b : Bool} {names : List Bytes} (h : Ready ac)
    (hne : names ≠ []) (hnames : ∀ name ∈ names, name.length < 2 ^ 31)
    (hroom : (ac.table b).used + names.length ≤ 2 ^ 30) (fn : Option ℕ) (privdata : ℕ) :
    ∃ ac', redisAsyncCommand ac fn privdata (.ok (argv b "SUBSCRIBE" names)) = some (ac', true) ∧
      Ready ac' ∧ ac'.subscribed = true ∧
        ac'.entry = entriesAfter ac.entry b ⟨fn, 1, privdata⟩ names := by
  obtain ⟨ac', hloop, h', hsubscribed, hentry⟩ := @subscribeLoop_eq { ac with subscribed := true } b
    names ⟨h.valid, h.addrs, h.replies, h.taking⟩ ⟨fn, 1, privdata⟩ hnames hroom
  have hword := @nextArgument_argv b "SUBSCRIBE" names (by decide)
  obtain ⟨name, names, rfl⟩ := List.exists_cons_of_ne_nil hne
  refine ⟨{ ac' with
    c := { ac'.c with obuf := ac'.c.obuf ++ wire (argv b "SUBSCRIBE" (name :: names)) }
    writing := true }, ?_, ⟨h'.valid, h'.addrs, h'.replies, h'.taking⟩, hsubscribed, hentry⟩
  unfold redisAsyncCommand redisAsyncFormattedCommand
  dsimp only
  refine (if_neg (by simp [h.taking.1, h.taking.2])).trans ?_
  rw [hword]
  have hrun := congrArg (Option.map fun ac' : RedisAsyncContext => ({ ac' with
    c := { ac'.c with obuf := ac'.c.obuf ++ wire (argv b "SUBSCRIBE" (name :: names)) }
    writing := true }, true)) hloop
  -- the letter of a pattern is passed over, whatever case the word is in
  cases b
  · exact (if_pos ⟨rfl, rfl⟩).trans hrun
  · exact (if_pos ⟨rfl, rfl⟩).trans hrun

/-- To unsubscribe changes no table. -/
theorem redisAsyncCommand_unsubscribe (h : Ready ac) (hsubscribed : ac.subscribed = true) (b : Bool)
    (names : List Bytes) :
    ∃ ac', redisAsyncCommand ac none 0 (.ok (argv b "UNSUBSCRIBE" names)) = some (ac', true) ∧
      Ready ac' ∧ ac'.subscribed = true ∧ ac'.entry = ac.entry := by
  refine ⟨{ ac with
    c := { ac.c with obuf := ac.c.obuf ++ wire (argv b "UNSUBSCRIBE" names) }
    writing := true }, ?_, ⟨h.valid, h.addrs, h.replies, h.taking⟩, hsubscribed, rfl⟩
  unfold redisAsyncCommand redisAsyncFormattedCommand
  dsimp only
  refine (if_neg (by simp [h.taking.1, h.taking.2])).trans ?_
  rw [@nextArgument_argv b "UNSUBSCRIBE" names (by decide)]
  cases b
  · refine (if_neg fun hsub => absurd hsub.2 (by exact Bool.false_ne_true)).trans ?_
    refine (if_pos rfl).trans ?_
    exact if_pos hsubscribed
  · refine (if_neg fun hsub => absurd hsub.2 (by exact Bool.false_ne_true)).trans ?_
    refine (if_pos rfl).trans ?_
    exact if_pos hsubscribed

/-! ### The numbers in the entries -/

section Numbers

variable {entry : Channel → Option RedisCallback} {b : Bool} {cb : RedisCallback}
  {names : List Bytes}

/-- A channel without an entry is counted once, whatever stands in front of it in the command. -/
def Countable (entry : Channel → Option RedisCallback) (pvariant : Bool) (cb : RedisCallback) :
    List Bytes → Prop
  | [] => True
  | name :: names =>
    (entry (pvariant, name) = none → cb.pendingSubs = 1) ∧
      Countable
        (Function.update entry (pvariant, name) (some (recount cb (entry (pvariant, name)))))
        pvariant (recount cb (entry (pvariant, name))) names

instance Countable.decidable (entry : Channel → Option RedisCallback) (b : Bool) :
    ∀ cb names, Decidable (Countable entry b cb names)
  | _, [] => isTrue trivial
  | cb, name :: names =>
    have := Countable.decidable
      (Function.update entry (b, name) (some (recount cb (entry (b, name))))) b
      (recount cb (entry (b, name))) names
    inferInstanceAs (Decidable (_ ∧ _))

theorem count_cons_name (name : Bytes) :
    (if k.1 = b then (name :: names).count k.2 else 0) =
      (if k = (b, name) then 1 else 0) + if k.1 = b then names.count k.2 else 0 := by
  obtain ⟨b', name'⟩ := k
  by_cases hb : b' = b
  · by_cases hname : name' = name
    · simp [hb, hname, Nat.add_comm]
    · simp [hb, hname, List.count_cons_of_ne (Ne.symm hname)]
  · simp [hb]

/-- An entry counts every subscription behind the one that made it. -/
theorem pending_entriesAfter_of_some (he : entry k = some e) :
    pending (entriesAfter entry b cb names k) =
      e.pendingSubs + if k.1 = b then names.count k.2 else 0 := by
  induction names generalizing entry cb e with
  | nil =>
    unfold entriesAfter
    rw [he]
    simp [pending]
  | cons name names ih =>
    unfold entriesAfter
    rw [count_cons_name]
    by_cases hk : k = (b, name)
    · subst hk
      rw [ih (Function.update_self ..), he]
      simp only [recount, if_true]
      omega
    · rw [ih ((Function.update_of_ne hk ..).trans he), if_neg hk, Nat.zero_add]

/-- The numbers are right behind a subscription exactly if it is countable. -/
theorem countable_iff :
    Countable entry b cb names ↔ ∀ k, pending (entriesAfter entry b cb names k) =
      pending (entry k) + if k.1 = b then names.count k.2 else 0 := by
  induction names generalizing entry cb with
  | nil => simp [Countable, entriesAfter]
  | cons name names ih =>
    unfold Countable entriesAfter
    rw [ih]
    have hother : ∀ k, k ≠ (b, name) → Function.update entry (b, name)
        (some (recount cb (entry (b, name)))) k = entry k :=
      fun k hk => Function.update_of_ne hk ..
    -- behind the first channel there is an entry for it, which goes on counting right: if the
    -- number is wrong in the end, it was put there wrong
    have hself := @pending_entriesAfter_of_some (b, name) _ _ b (recount cb (entry (b, name))) names
      (Function.update_self (b, name) (some (recount cb (entry (b, name)))) entry)
    have hrecount : (entry (b, name) = none → cb.pendingSubs = 1) ↔
        (recount cb (entry (b, name))).pendingSubs = pending (entry (b, name)) + 1 := by
      cases entry (b, name) with
      | none => simp [recount, pending]
      | some e => simp [recount, pending]
    rw [hrecount]
    constructor
    · rintro ⟨hone, hrest⟩ k
      rw [hrest, count_cons_name]
      by_cases hk : k = (b, name)
      · subst hk
        rw [Function.update_self]
        simp only [if_true]
        dsimp only [pending] at hone ⊢
        omega
      · rw [hother k hk, if_neg hk, Nat.zero_add]
    · intro hall
      have hone : (recount cb (entry (b, name))).pendingSubs = pending (entry (b, name)) + 1 := by
        have hname := hall (b, name)
        rw [hself, count_cons_name] at hname
        simp only [if_true] at hname
        omega
      refine ⟨hone, fun k => ?_⟩
      by_cases hk : k = (b, name)
      · subst hk
        rw [hself, Function.update_self]
        rfl
      · rw [hall, count_cons_name, hother k hk, if_neg hk, Nat.zero_add]

/-- The callbacks in the entries are those of the command. -/
theorem entriesAfter_eq (k : Channel) :
    ∃ n, entriesAfter entry b cb names k =
      if k.1 = b ∧ k.2 ∈ names then some { cb with pendingSubs := n } else entry k := by
  induction names generalizing entry cb with
  | nil => exact ⟨0, (if_neg (by simp)).symm⟩
  | cons name names ih =>
    obtain ⟨n, hn⟩ := @ih (Function.update entry (b, name)
      (some (recount cb (entry (b, name))))) (recount cb (entry (b, name)))
    have hcb : ∀ n, ({ recount cb (entry (b, name)) with pendingSubs := n } : RedisCallback) =
        { cb with pendingSubs := n } := by
      intro n
      cases entry (b, name) <;> rfl
    unfold entriesAfter
    rw [hn, hcb]
    by_cases hmem : k.1 = b ∧ k.2 ∈ names
    · exact ⟨n, by rw [if_pos hmem, if_pos ⟨hmem.1, List.mem_cons_of_mem _ hmem.2⟩]⟩
    · rw [if_neg hmem]
      by_cases hk : k = (b, name)
      · subst hk
        refine ⟨(recount cb (entry (b, name))).pendingSubs, ?_⟩
        rw [Function.update_self, if_pos ⟨rfl, List.mem_cons_self⟩, ← hcb]
      · refine ⟨n, ?_⟩
        have hcons : ¬(k.1 = b ∧ k.2 ∈ name :: names) := by
          rintro ⟨hb, hmem'⟩
          rcases List.mem_cons.mp hmem' with heq | htail
          · exact hk (Prod.ext hb heq)
          · exact hmem ⟨hb, htail⟩
        rw [if_neg hcons, Function.update_of_ne hk]

end Numbers

/-! ### The notices -/

/-- The entry of a channel, and the tables with another value in it -/
theorem Ready.entryAt (h : Ready ac) (hentry : ac.entry k = some e) :
    ∃ de, dictFind callbackDict (ac.table k.1) k.2 = some de ∧ de.val = e ∧
      ∀ e' : RedisCallback, Dict.Valid callbackDict (dictSetHashVal (ac.table k.1) de.addr e') ∧
        (dictSetHashVal (ac.table k.1) de.addr e').map = (ac.table k.1).map.insert k.2 e' ∧
        ∀ de' ∈ (dictSetHashVal (ac.table k.1) de.addr e').entries, de'.addr < ac.fresh := by
  have hfind := (h.valid k.1).lookup_map k.2
  rw [show (ac.table k.1).map.lookup k.2 = some e from hentry] at hfind
  obtain ⟨de, hde, hval⟩ := Option.map_eq_some_iff.mp hfind.symm
  have hfound := hde
  rw [(h.valid k.1).find_eq] at hfound
  have hmem := List.mem_of_find?_eq_some hfound
  have hkey : de.key = k.2 := by simpa using List.find?_some hfound
  refine ⟨de, hde, hval, fun e' => ?_⟩
  obtain ⟨hvalid, hmap⟩ := (h.valid k.1).setHashVal hmem e'
  refine ⟨hvalid, hkey ▸ hmap, fun de' hde' => ?_⟩
  rw [entries_setHashVal] at hde'
  obtain ⟨de'', hmem', rfl⟩ := List.mem_map.mp hde'
  have haddr : (if de''.addr = de.addr then { de'' with val := e' } else de'').addr =
      de''.addr := by
    split <;> rfl
  rw [haddr]
  exact h.addrs k.1 de'' hmem'

/-- The kind of a notice is read without the letter of a pattern. -/
theorem kind_eq (k : Channel) {word : String} (hword : (bytes word).head?.map tolower ≠ some 112) :
    decide ((Notice.reply.kind k word).head?.map tolower = some 112) = k.1 ∧
      (if k.1 = true then (Notice.reply.kind k word).tail else Notice.reply.kind k word) =
        bytes word := by
  obtain ⟨b, name⟩ := k
  cases b
  · exact ⟨decide_eq_false hword, rfl⟩
  · exact ⟨rfl, rfl⟩

/-- The entry of a channel behind a notice other than one of an unsubscription -/
def noticed (word : String) (e : RedisCallback) : RedisCallback :=
  if eqCase (bytes word) (bytes "subscribe") then { e with pendingSubs := e.pendingSubs - 1 } else e

/-- What a notice other than one of an unsubscription does -/
theorem getSubscribeCallback_eq {word : String} {de : DictEntry Bytes RedisCallback}
    {rest : List (Option ReplyObject)} {cb : RedisCallback}
    (hword : (bytes word).head?.map tolower ≠ some 112)
    (hkind : eqCase (bytes word) (bytes "unsubscribe") = false)
    (hfind : dictFind callbackDict (ac.table k.1) k.2 = some de) :
    redisGetSubscribeCallback ac (.array (some (.string .string (Notice.reply.kind k word)) ::
      some (.string .string k.2) :: rest)) cb =
        some (ac.setTable k.1 (dictSetHashVal (ac.table k.1) de.addr (noticed word de.val)),
          noticed word de.val) := by
  obtain ⟨hvariant, htail⟩ := kind_eq k hword
  have htable : (if k.1 = true then ac.patterns else ac.channels) = ac.table k.1 := rfl
  unfold redisGetSubscribeCallback
  simp only [hvariant, htail, htable, hfind, hkind]
  rfl

/-- What the notice of an unsubscription does -/
theorem getSubscribeCallback_unsubscribed {de : DictEntry Bytes RedisCallback} {n : Int64}
    {cb : RedisCallback} (hfind : dictFind callbackDict (ac.table k.1) k.2 = some de)
    (hac : ac' = ac.setTable k.1 (if de.val.pendingSubs = 0 then
      (dictDelete callbackDict (dictSetHashVal (ac.table k.1) de.addr de.val) k.2).1
        else dictSetHashVal (ac.table k.1) de.addr de.val)) :
    redisGetSubscribeCallback ac (.array
      [some (.string .string (Notice.reply.kind k "unsubscribe")), some (.string .string k.2),
        some (.integer n)]) cb =
        some ({ ac' with
          subscribed := ac'.subscribed &&
            !decide (n = 0 ∧ ac'.channels.used = 0 ∧ ac'.patterns.used = 0) }, de.val) := by
  obtain ⟨hvariant, htail⟩ := @kind_eq k "unsubscribe" (by decide)
  have htable : (if k.1 = true then ac.patterns else ac.channels) = ac.table k.1 := rfl
  have hkind : eqCase (bytes "unsubscribe") (bytes "unsubscribe") = true := by decide
  have hother : eqCase (bytes "unsubscribe") (bytes "subscribe") = false := by decide
  subst hac
  unfold redisGetSubscribeCallback
  simp only [hvariant, htail, htable, hfind, hkind, hother]
  rfl

/-- A notice other than one of an unsubscription is for the callback in the table. -/
theorem processReply_eq (h : Ready ac) (hsubscribed : ac.subscribed = true)
    (hentry : ac.entry k = some e) (word : String) (rest : List (Option ReplyObject))
    (cb : RedisCallback) (hword : (bytes word).head?.map tolower ≠ some 112)
    (hkind : eqCase (bytes word) (bytes "unsubscribe") = false) :
    ∃ ac', processReply ac (.array (some (.string .string (Notice.reply.kind k word)) ::
      some (.string .string k.2) :: rest)) cb = some (ac', noticed word e) ∧ Ready ac' ∧
        ac'.subscribed = true ∧
          ∀ k', ac'.entry k' = if k' = k then some (noticed word e) else ac.entry k' := by
  obtain ⟨de, hfind, rfl, hset⟩ := h.entryAt hentry
  obtain ⟨hvalid, hmap, haddrs⟩ := hset (noticed word de.val)
  refine ⟨ac.setTable k.1 (dictSetHashVal (ac.table k.1) de.addr (noticed word de.val)), ?_,
    h.setTable hvalid haddrs, ?_, entry_of_insert hmap⟩
  · unfold processReply
    rw [h.replies]
    refine (if_pos hsubscribed).trans ?_
    exact getSubscribeCallback_eq hword hkind hfind
  · unfold RedisAsyncContext.setTable
    split <;> exact hsubscribed

/-- The notice of an unsubscription removes the entry, unless a subscription is on its way. Behind
the last one the connection takes commands again. -/
theorem processReply_unsubscribed (h : Ready ac) (hsubscribed : ac.subscribed = true)
    (hentry : ac.entry k = some e) (count : ℕ) (cb : RedisCallback) :
    ∃ ac', processReply ac (Notice.unsubscribed k count).reply cb = some (ac', e) ∧ Ready ac' ∧
      (∀ k', ac'.entry k' =
        if k' = k then (if e.pendingSubs = 0 then none else some e) else ac.entry k') ∧
      (ac'.subscribed = false ↔ Int64.ofNat count = 0 ∧ ∀ k', ac'.entry k' = none) := by
  obtain ⟨de, hfind, rfl, hset⟩ := h.entryAt hentry
  obtain ⟨hvalid, hmap, haddrs⟩ := hset de.val
  obtain ⟨ac₁, hac₁⟩ : ∃ ac₁, ac₁ = ac.setTable k.1 (if de.val.pendingSubs = 0 then
      (dictDelete callbackDict (dictSetHashVal (ac.table k.1) de.addr de.val) k.2).1
        else dictSetHashVal (ac.table k.1) de.addr de.val) := ⟨_, rfl⟩
  have hready : Ready ac₁ ∧ ∀ k', ac₁.entry k' =
      if k' = k then (if de.val.pendingSubs = 0 then none else some de.val) else ac.entry k' := by
    subst hac₁
    split
    next hzero =>
      obtain ⟨-, hvalid', hmap', hentries⟩ := hvalid.delete k.2
      have herase : (dictDelete callbackDict (dictSetHashVal (ac.table k.1) de.addr de.val)
          k.2).1.map = (ac.table k.1).map.erase k.2 := by
        rw [hmap', hmap]
        apply Finmap.ext_lookup
        intro name
        by_cases hname : name = k.2
        · rw [hname, Finmap.lookup_erase, Finmap.lookup_erase]
        · rw [Finmap.lookup_erase_ne hname, Finmap.lookup_erase_ne hname,
            Finmap.lookup_insert_of_ne _ hname]
      refine ⟨h.setTable hvalid' fun e' he' => haddrs e' ?_, entry_of_erase herase⟩
      rw [hentries] at he'
      exact List.mem_of_mem_eraseP he'
    next => exact ⟨h.setTable hvalid haddrs, entry_of_insert hmap⟩
  have hsub₁ : ac₁.subscribed = true := by
    rw [hac₁]
    unfold RedisAsyncContext.setTable
    split <;> exact hsubscribed
  obtain ⟨hready₁, hentries⟩ := hready
  refine ⟨{ ac₁ with
    subscribed := ac₁.subscribed && !decide (Int64.ofNat count = 0 ∧
      ac₁.channels.used = 0 ∧ ac₁.patterns.used = 0) }, ?_,
    ⟨hready₁.valid, hready₁.addrs, hready₁.replies, hready₁.taking⟩, hentries, ?_⟩
  · unfold processReply
    rw [h.replies]
    refine (if_pos hsubscribed).trans ?_
    exact getSubscribeCallback_unsubscribed hfind hac₁
  · dsimp only
    rw [hsub₁, Bool.true_and, Bool.not_eq_false', decide_eq_true_eq]
    exact and_congr_right fun _ => hready₁.used_eq_zero_iff

end MmorpgServer.Redis.Async
