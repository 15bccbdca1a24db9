import MmorpgServer.Redis.Subscriptions

/-!
# Clients and servers with subscriptions

Commands and notices cross on their way: when the client reads that a channel was unsubscribed, it
may have subscribed it again. The numbers in its entries keep it from forgetting such a channel. The
server is a parameter.

## Main definitions

* `PubSubServer`, `PubSubServer.Keeps` — a server, and that it keeps the channels of its client
* `PubSub` — a client and a server, with the commands and the notices on their way
* `PubSub.Disciplined` — only a channel whose last command was to subscribe is unsubscribed
* `PubSub.Counts` — a subscription that counts every one of its channels right
* `PubSub.Sound` — what the tables, the commands and the notices have to do with each other

## Main results

* `PubSub.Sound.step` — a step keeps the invariant
* `PubSub.pubsub_exact` — every notice finds the callback of the last subscription to its channel
* `PubSub.counted_iff` — when the numbers in the entries are right
-/

namespace MmorpgServer.Redis.Async

open Machine

/-! ### The client and the server -/

/-- A server, as one of its clients sees it -/
structure PubSubServer (St : Type) where
  init : St
  /-- run a command, and answer it -/
  run : St → Request → St × Notice
  /-- whether the client gets what is published on a channel -/
  sends : St → Channel → Bool

/-- The channels that are subscribed behind a command -/
def Request.apply (subscribed : Finset Channel) : Request → Finset Channel
  | .subscribe k => insert k subscribed
  | .unsubscribe k => subscribed.erase k

/-- The answer to a command has the number of channels that are subscribed behind it. -/
def Request.notice (subscribed : Finset Channel) : Request → Notice
  | .subscribe k => .subscribed k (insert k subscribed).card
  | .unsubscribe k => .unsubscribed k (subscribed.erase k).card

/-- The server keeps the channels that its client has subscribed: a new client has none, a command
is run and answered, and a message comes from one of them. -/
structure PubSubServer.Keeps {St : Type} (S : PubSubServer St) (channels : St → Finset Channel) :
    Prop where
  init : channels S.init = ∅
  run : ∀ st r, channels (S.run st r).1 = r.apply (channels st)
  notice : ∀ st r, (S.run st r).2 = r.notice (channels st)
  sends : ∀ st k, S.sends st k = true → k ∈ channels st

/-- A client and a server -/
structure PubSub (St : Type) where
  ac : RedisAsyncContext
  /-- the commands that the server has not read yet -/
  requests : List Request
  server : St
  /-- the notices that the client has not read yet -/
  notices : List Notice
  /-- the channels whose last command was to subscribe -/
  wanted : Finset Channel
  /-- the callback of the last subscription to a channel -/
  latest : Channel → Option (Option ℕ × ℕ)

inductive PubSub.Label where
  | subscribe (pvariant : Bool) (names : List Bytes) (fn : Option ℕ) (privdata : ℕ)
  | unsubscribe (pvariant : Bool) (names : List Bytes)
  /-- the server runs the next command -/
  | serve
  /-- somebody publishes on a channel -/
  | publish (k : Channel) (rest : List (Option ReplyObject))
  /-- the client handles the next notice -/
  | receive (cb : RedisCallback)

/-- A notice with the callback that was found for it, and the one that should be -/
structure Delivery where
  notice : Notice
  fn : Option ℕ
  privdata : ℕ
  latest : Option (Option ℕ × ℕ)

namespace PubSub

variable {St : Type}

def start (S : PubSubServer St) : PubSub St :=
  ⟨redisAsyncInitialize, [], S.init, [], ∅, fun _ => none⟩

def step (S : PubSubServer St) (s : PubSub St) : Label → Option (PubSub St × List Delivery)
  | .subscribe pvariant names fn privdata =>
    (redisAsyncCommand s.ac fn privdata (.ok (argv pvariant "SUBSCRIBE" names))).map fun res =>
      if res.2 then
        ({ s with
          ac := res.1
          requests := s.requests ++ parts .subscribe pvariant names
          wanted := (parts .subscribe pvariant names).foldl Request.apply s.wanted
          latest := fun k =>
            if k.1 == pvariant && names.contains k.2 then some (fn, privdata)
            else s.latest k }, [])
      else ({ s with ac := res.1 }, [])
  | .unsubscribe pvariant names =>
    (redisAsyncCommand s.ac none 0 (.ok (argv pvariant "UNSUBSCRIBE" names))).map fun res =>
      if res.2 then
        ({ s with
          ac := res.1
          requests := s.requests ++ parts .unsubscribe pvariant names
          wanted := (parts .unsubscribe pvariant names).foldl Request.apply s.wanted }, [])
      else ({ s with ac := res.1 }, [])
  | .serve =>
    match s.requests with
    | [] => some (s, [])
    | r :: requests => some ({ s with
        requests
        server := (S.run s.server r).1
        notices := s.notices ++ [(S.run s.server r).2] }, [])
  | .publish k rest =>
    if S.sends s.server k then some ({ s with notices := s.notices ++ [.message k rest] }, [])
    else some (s, [])
  | .receive cb =>
    match s.notices with
    | [] => some (s, [])
    | n :: notices => (processReply s.ac n.reply cb).map fun res =>
        ({ s with ac := res.1, notices }, [⟨n, res.2.fn, res.2.privdata, s.latest n.channel⟩])

/-- What the program keeps to: a command names a channel, names and tables are not huge, and a
channel is unsubscribed only where its last command was to subscribe. -/
def Disciplined (s : PubSub St) : Label → Prop
  | .subscribe pvariant names _ _ => names ≠ [] ∧ (∀ name ∈ names, name.length < 2 ^ 31) ∧
      (s.ac.table pvariant).used + names.length ≤ 2 ^ 30
  | .unsubscribe pvariant names =>
      names ≠ [] ∧ names.Nodup ∧ ∀ name ∈ names, (pvariant, name) ∈ s.wanted
  | _ => True

/-- A subscription counts right. -/
def Counts (s : PubSub St) : Label → Prop
  | .subscribe pvariant names fn privdata =>
      Countable s.ac.entry pvariant ⟨fn, 1, privdata⟩ names
  | _ => True

end PubSub

/-! ### What is on its way -/

variable {ac' : RedisAsyncContext} {k : Channel} {e : RedisCallback}
  {cb : RedisCallback} {fn : Option ℕ} {privdata : ℕ} {w w' seen server : Finset Channel}
  {r : Request} {rs : List Request} {n : Notice}
  {ns : List Notice} {rs' : List Request} {w'' : Finset Channel} {b : Bool} {names : List Bytes}
  {St : Type} {S : PubSubServer St} {channels : St → Finset Channel} {s : PubSub St}

theorem mem_parts : .subscribe k ∈ parts .subscribe b names ↔ k.1 = b ∧ k.2 ∈ names := by
  obtain ⟨b', name⟩ := k
  unfold parts
  simp only [List.mem_map, Request.subscribe.injEq, Prod.mk.injEq]
  constructor
  · rintro ⟨_, hmem, rfl, rfl⟩
    exact ⟨rfl, hmem⟩
  · rintro ⟨rfl, hmem⟩
    exact ⟨name, hmem, rfl, rfl⟩

theorem count_parts (k : Channel) (b : Bool) (names : List Bytes) :
    (parts .subscribe b names).count (.subscribe k) = if k.1 = b then names.count k.2 else 0 := by
  split
  next hb =>
    obtain ⟨b', name⟩ := k
    obtain rfl : b' = b := hb
    exact List.count_map_of_injective names _
      (fun name name' heq => (Prod.mk.inj (Request.subscribe.inj heq)).2) name
  next hne => exact List.count_eq_zero.mpr fun hmem => hne (mem_parts.mp hmem).1

theorem subscribe_notMem_parts : .subscribe k ∉ parts .unsubscribe b names := by
  unfold parts
  simp

theorem mem_apply : k ∈ r.apply w ↔ r = .subscribe k ∨ k ∈ w ∧ r ≠ .unsubscribe k := by
  cases r with
  | subscribe k' => simp [Request.apply, eq_comm]
  | unsubscribe k' => simp [Request.apply, and_comm, eq_comm]

/-- The commands of a program that unsubscribes only what is subscribed, with the channels that are
subscribed before and behind them -/
def Flows : Finset Channel → List Request → Finset Channel → Prop
  | w, [], w' => w = w'
  | w, r :: rs, w' => (∀ k, r = .unsubscribe k → k ∈ w) ∧ Flows (r.apply w) rs w'

theorem Flows.append (h : Flows w rs w') (h' : Flows w' rs' w'') : Flows w (rs ++ rs') w'' := by
  induction rs generalizing w with
  | nil =>
    obtain rfl : w = w' := h
    exact h'
  | cons r rs ih => exact ⟨h.1, ih h.2⟩

theorem flows_subscribe (w : Finset Channel) (b : Bool) (names : List Bytes) :
    Flows w (parts .subscribe b names) ((parts .subscribe b names).foldl Request.apply w) := by
  induction names generalizing w with
  | nil => rfl
  | cons name names ih =>
    refine ⟨fun k heq => ?_, ih _⟩
    cases heq

theorem flows_unsubscribe (hnodup : names.Nodup) (hw : ∀ name ∈ names, (b, name) ∈ w) :
    Flows w (parts .unsubscribe b names) ((parts .unsubscribe b names).foldl Request.apply w) := by
  induction names generalizing w with
  | nil => rfl
  | cons name names ih =>
    obtain ⟨hname, hnames⟩ := List.forall_mem_cons.mp hw
    obtain ⟨hnotMem, hnodup⟩ := List.nodup_cons.mp hnodup
    refine ⟨fun k heq => Request.unsubscribe.inj heq ▸ hname, ih hnodup fun name' hmem => ?_⟩
    have hne : Request.unsubscribe (b, name) ≠ .unsubscribe (b, name') := by
      rintro heq
      obtain rfl := (Prod.mk.inj (Request.unsubscribe.inj heq)).2
      exact hnotMem hmem
    exact mem_apply.mpr (.inr ⟨hnames name' hmem, hne⟩)

/-- What is not subscribed, and not about to be, is not unsubscribed either. -/
theorem Flows.absent (h : Flows w rs w') (hk : k ∉ w) (hrs : Request.subscribe k ∉ rs) :
    Request.unsubscribe k ∉ rs ∧ k ∉ w' := by
  induction rs generalizing w with
  | nil =>
    obtain rfl : w = w' := h
    exact ⟨List.not_mem_nil, hk⟩
  | cons r rs ih =>
    rw [List.mem_cons, not_or] at hrs
    have hr : r ≠ .unsubscribe k := fun heq => hk (h.1 k heq)
    have hafter : k ∉ r.apply w := fun hmem =>
      (mem_apply.mp hmem).elim (fun heq => hrs.1 heq.symm) fun hmem => hk hmem.1
    obtain ⟨hrest, hw'⟩ := ih h.2 hafter hrs.2
    exact ⟨fun hmem => (List.mem_cons.mp hmem).elim (fun heq => hr heq.symm) hrest, hw'⟩

/-- What the client knows to be subscribed behind a notice -/
def Notice.after (seen : Finset Channel) (n : Notice) : Finset Channel :=
  match n.request with
  | some r => r.apply seen
  | none => seen

/-- A notice says what is so where it is sent. -/
def Notice.Fits (seen : Finset Channel) (n : Notice) : Prop :=
  match n.request with
  | some r => n = r.notice seen
  | none => n.channel ∈ seen

/-- Notices that the server can have sent, with what was subscribed before and behind them -/
def Told : Finset Channel → List Notice → Finset Channel → Prop
  | seen, [], server => seen = server
  | seen, n :: ns, server => n.Fits seen ∧ Told (n.after seen) ns server

theorem Told.append (h : Told seen ns server) (hn : n.Fits server) :
    Told seen (ns ++ [n]) (n.after server) := by
  induction ns generalizing seen with
  | nil =>
    obtain rfl : seen = server := h
    exact ⟨hn, rfl⟩
  | cons n' ns ih => exact ⟨h.1, ih h.2⟩

/-! ### The invariant -/

namespace PubSub

/-- The commands whose notices the client has not read yet -/
def traffic (s : PubSub St) : List Request := s.notices.filterMap Notice.request ++ s.requests

/-- Where the client has read the notices of the channels in `seen`: it has entries for them and for
the subscriptions on their way. An entry counts these, and has the callback of the last one. -/
structure Sound (channels : St → Finset Channel) (s : PubSub St) (seen : Finset Channel) :
    Prop where
  ready : Ready s.ac
  subscribed : s.ac.subscribed = true ↔ ∃ k, s.ac.entry k ≠ none
  told : Told seen s.notices (channels s.server)
  flows : Flows seen s.traffic s.wanted
  absent : ∀ k, s.ac.entry k = none ↔ k ∉ seen ∧ .subscribe k ∉ s.traffic
  present : ∀ k e, s.ac.entry k = some e →
    e.pendingSubs = s.traffic.count (.subscribe k) ∧ s.latest k = some (e.fn, e.privdata)

namespace Sound

theorem traffic_cons (hnotices : s.notices = n :: ns) :
    s.traffic = n.request.toList ++ (ns.filterMap Notice.request ++ s.requests) := by
  unfold traffic
  rw [hnotices]
  cases n <;> rfl

/-- The next notice is about a channel in the tables. -/
theorem entry_of_notice (h : Sound channels s seen) (hnotices : s.notices = n :: ns) :
    ∃ e, s.ac.entry n.channel = some e := by
  by_contra hnone
  obtain ⟨hseen, htraffic⟩ := (h.absent n.channel).mp
    (Option.eq_none_iff_forall_ne_some.mpr fun e he => hnone ⟨e, he⟩)
  have hunsubscribe := (h.flows.absent hseen htraffic).1
  have hfits : n.Fits seen := by
    have htold := h.told
    rw [hnotices] at htold
    exact htold.1
  rw [traffic_cons hnotices] at htraffic hunsubscribe
  cases n with
  | subscribed k count => exact htraffic List.mem_cons_self
  | unsubscribed k count => exact hunsubscribe List.mem_cons_self
  | message k rest => exact hseen hfits

theorem pending_eq (h : Sound channels s seen) (k : Channel) :
    pending (s.ac.entry k) = s.traffic.count (.subscribe k) := by
  cases hentry : s.ac.entry k with
  | none => exact (congrArg Nat.cast (List.count_eq_zero.mpr ((h.absent k).mp hentry).2)).symm
  | some e => exact (h.present k e hentry).1

/-- The other channels are as they were, behind a notice. -/
theorem receive (h : Sound channels s seen) (hnotices : s.notices = n :: ns) (hready : Ready ac')
    (hsubscribed : ac'.subscribed = true ↔ ∃ k, ac'.entry k ≠ none)
    (hother : ∀ k, k ≠ n.channel → ac'.entry k = s.ac.entry k)
    (habsent : ac'.entry n.channel = none ↔ n.channel ∉ n.after seen ∧
      .subscribe n.channel ∉ ns.filterMap Notice.request ++ s.requests)
    (hpresent : ∀ e, ac'.entry n.channel = some e →
      e.pendingSubs = (ns.filterMap Notice.request ++ s.requests).count (.subscribe n.channel) ∧
        s.latest n.channel = some (e.fn, e.privdata)) :
    Sound channels { s with ac := ac', notices := ns } (n.after seen) := by
  have htraffic := traffic_cons hnotices
  have hcount : ∀ k, k ≠ n.channel → s.traffic.count (.subscribe k) =
      (ns.filterMap Notice.request ++ s.requests).count (.subscribe k) := by
    intro k hk
    rw [htraffic, List.count_append, Nat.add_eq_right, List.count_eq_zero]
    cases n with
    | subscribed k' count =>
      exact fun hmem => hk (Request.subscribe.inj (List.mem_singleton.mp hmem))
    | unsubscribed k' count => exact fun hmem => nomatch List.mem_singleton.mp hmem
    | message k' rest => exact List.not_mem_nil
  have hseen : ∀ k, k ≠ n.channel → (k ∈ n.after seen ↔ k ∈ seen) := by
    intro k hk
    cases n with
    | subscribed k' count => exact ⟨fun hmem => Finset.mem_of_mem_insert_of_ne hmem hk,
        Finset.mem_insert_of_mem⟩
    | unsubscribed k' count => exact ⟨Finset.mem_of_mem_erase, Finset.mem_erase_of_ne_of_mem hk⟩
    | message k' rest => exact Iff.rfl
  refine ⟨hready, hsubscribed, ?_, ?_, ?_, ?_⟩
  · have htold := h.told
    rw [hnotices] at htold
    exact htold.2
  · have hflows := h.flows
    rw [htraffic] at hflows
    cases n with
    | subscribed k count => exact hflows.2
    | unsubscribed k count => exact hflows.2
    | message k rest => exact hflows
  · intro k
    by_cases hk : k = n.channel
    · rw [hk]
      exact habsent
    · refine (Eq.congr_left (hother k hk)).trans ((h.absent k).trans ?_)
      rw [← List.count_eq_zero, hcount k hk, List.count_eq_zero]
      exact and_congr_left fun _ => (not_congr (hseen k hk)).symm
  · intro k e he
    by_cases hk : k = n.channel
    · subst hk
      exact hpresent e he
    · have hold := h.present k e ((hother k hk).symm.trans he)
      rw [hcount k hk] at hold
      exact hold

/-! ### Steps -/

/-- The server sends a notice, for the next command or for none. -/
theorem send {server : St} (h : Sound channels s seen) (hn : n.Fits (channels s.server))
    (hrequests : s.requests = n.request.toList ++ rs)
    (hserver : channels server = n.after (channels s.server)) :
    Sound channels { s with
      requests := rs
      server
      notices := s.notices ++ [n] } seen := by
  -- the command only moves from one queue into the other
  have htraffic : (s.notices ++ [n]).filterMap Notice.request ++ rs = s.traffic := by
    unfold traffic
    rw [hrequests, List.filterMap_append, List.append_assoc]
    cases n <;> rfl
  obtain ⟨hready, hsubscribed, htold, hflows, habsent, hpresent⟩ := h
  simp only [← htraffic] at hflows habsent hpresent
  exact ⟨hready, hsubscribed, hserver ▸ htold.append hn, hflows, habsent, hpresent⟩

theorem step_serve (hS : S.Keeps channels) (h : Sound channels s seen) :
    ∃ s', PubSub.step S s .serve = some (s', []) ∧ Sound channels s' seen := by
  unfold PubSub.step
  cases hrequests : s.requests with
  | nil => exact ⟨s, rfl, h⟩
  | cons r rs =>
    have hnotice := hS.notice s.server r
    have hrun := hS.run s.server r
    refine ⟨_, rfl, ?_⟩
    rw [hnotice]
    cases r with
    | subscribe k => exact h.send rfl hrequests hrun
    | unsubscribe k => exact h.send rfl hrequests hrun

theorem step_publish (hS : S.Keeps channels) (h : Sound channels s seen) (k : Channel)
    (rest : List (Option ReplyObject)) :
    ∃ s', PubSub.step S s (.publish k rest) = some (s', []) ∧ Sound channels s' seen := by
  unfold PubSub.step
  dsimp only
  split_ifs with hk
  · exact ⟨_, rfl, h.send (n := .message k rest) (hS.sends s.server k hk) rfl rfl⟩
  · exact ⟨s, rfl, h⟩

/-- The entries behind a subscription, and the commands whose notices are still to be read -/
theorem subscribe_eq (h : Sound channels s seen)
    (hdisciplined : Disciplined s (.subscribe b names fn privdata)) :
    ∃ ac s', PubSub.step S s (.subscribe b names fn privdata) = some (s', []) ∧
      s' = { s with
        ac
        requests := s.requests ++ parts .subscribe b names
        wanted := (parts .subscribe b names).foldl Request.apply s.wanted
        latest := fun k =>
          if k.1 == b && names.contains k.2 then some (fn, privdata) else s.latest k } ∧
      Ready ac ∧ ac.subscribed = true ∧
      ac.entry = entriesAfter s.ac.entry b ⟨fn, 1, privdata⟩ names ∧
      s'.traffic = s.traffic ++ parts .subscribe b names := by
  obtain ⟨hne, hnames, hroom⟩ := hdisciplined
  obtain ⟨ac, hcommand, hready, hsubscribed, hentry⟩ :=
    redisAsyncCommand_subscribe h.ready hne hnames hroom fn privdata
  refine ⟨ac, _, ?_, rfl, hready, hsubscribed, hentry, (List.append_assoc ..).symm⟩
  unfold PubSub.step
  dsimp only
  rw [hcommand]
  rfl

/-- The numbers are right behind a subscription exactly if it is countable. -/
theorem counts_iff (h : Sound channels s seen)
    (hentry : ac'.entry = entriesAfter s.ac.entry b cb names) :
    Countable s.ac.entry b cb names ↔ ∀ k, pending (ac'.entry k) =
      (s.traffic ++ parts .subscribe b names).count (.subscribe k) := by
  rw [countable_iff, hentry]
  refine forall_congr' fun k => ?_
  rw [List.count_append, count_parts, h.pending_eq]
  push_cast
  rfl

theorem step_subscribe (h : Sound channels s seen)
    (hdisciplined : Disciplined s (.subscribe b names fn privdata))
    (hcounts : Countable s.ac.entry b ⟨fn, 1, privdata⟩ names) :
    ∃ s', PubSub.step S s (.subscribe b names fn privdata) = some (s', []) ∧
      Sound channels s' seen := by
  obtain ⟨ac, s', hone, hs', hready, hsubscribed, hentry, htraffic⟩ := h.subscribe_eq hdisciplined
  have hpending := (h.counts_iff hentry).mp hcounts
  have hentries : ∀ k, ∃ n, ac.entry k =
      if k.1 = b ∧ k.2 ∈ names then some ⟨fn, n, privdata⟩ else s.ac.entry k := by
    rw [hentry]
    exact entriesAfter_eq
  rw [← htraffic] at hpending
  refine ⟨s', hone, ?_⟩
  obtain ⟨name, hname⟩ := List.exists_mem_of_ne_nil _ hdisciplined.1
  refine ⟨hs' ▸ hready, ?_, hs' ▸ h.told, ?_, fun k => ?_, fun k e he => ?_⟩
  · obtain ⟨n, hn⟩ := hentries (b, name)
    rw [if_pos ⟨rfl, hname⟩] at hn
    subst hs'
    exact iff_of_true hsubscribed ⟨(b, name), hn ▸ Option.some_ne_none _⟩
  · rw [htraffic]
    subst hs'
    exact h.flows.append (flows_subscribe ..)
  · obtain ⟨n, hn⟩ := hentries k
    rw [htraffic, List.mem_append, mem_parts]
    subst hs'
    dsimp only
    rw [hn]
    split
    next hmem => exact iff_of_false (Option.some_ne_none _) fun hnone => hnone.2 (.inr hmem)
    next hmem => rw [h.absent, or_iff_left hmem]
  · obtain ⟨n, hn⟩ := hentries k
    have hk := hpending k
    subst hs'
    dsimp only at he ⊢
    rw [he] at hk
    refine ⟨hk, ?_⟩
    have hlatest : (k.1 == b && names.contains k.2) = true ↔ k.1 = b ∧ k.2 ∈ names := by simp
    rw [hn] at he
    split at he
    next hmem =>
      obtain rfl := Option.some.inj he
      exact if_pos (hlatest.mpr hmem)
    next hmem => exact (if_neg fun htrue => hmem (hlatest.mp htrue)).trans (h.present k e he).2

theorem step_unsubscribe (h : Sound channels s seen)
    (hdisciplined : Disciplined s (.unsubscribe b names)) :
    ∃ s', PubSub.step S s (.unsubscribe b names) = some (s', []) ∧ Sound channels s' seen := by
  obtain ⟨hne, hnodup, hwanted⟩ := hdisciplined
  obtain ⟨name, hname⟩ := List.exists_mem_of_ne_nil _ hne
  -- a channel that is wanted is in the tables, so that the command is not refused
  have hself : s.ac.entry (b, name) ≠ none := fun hnone => by
    obtain ⟨hseen, htraffic⟩ := (h.absent _).mp hnone
    exact (h.flows.absent hseen htraffic).2 (hwanted name hname)
  obtain ⟨ac, hcommand, hready, hsubscribed, hentry⟩ :=
    redisAsyncCommand_unsubscribe h.ready (h.subscribed.mpr ⟨_, hself⟩) b names
  have htraffic : s.notices.filterMap Notice.request ++ (s.requests ++ parts .unsubscribe b names) =
      s.traffic ++ parts .unsubscribe b names := (List.append_assoc ..).symm
  refine ⟨{ s with
    ac
    requests := s.requests ++ parts .unsubscribe b names
    wanted := (parts .unsubscribe b names).foldl Request.apply s.wanted }, ?_, hready, ?_, h.told,
    ?_, fun k => ?_, fun k e he => ?_⟩
  · unfold PubSub.step
    dsimp only
    rw [hcommand]
    rfl
  · exact iff_of_true hsubscribed ⟨(b, name), hentry ▸ hself⟩
  · unfold traffic
    dsimp only
    rw [htraffic]
    exact h.flows.append (flows_unsubscribe hnodup hwanted)
  · unfold traffic
    dsimp only
    rw [htraffic, hentry, h.absent, List.mem_append, or_iff_left subscribe_notMem_parts]
  · unfold traffic
    dsimp only at he ⊢
    rw [hentry] at he
    rw [htraffic, List.count_append, List.count_eq_zero.mpr subscribe_notMem_parts, Nat.add_zero]
    exact h.present k e he

/-- The callback that the client finds for a notice is the last one of its channel. -/
theorem step_deliver (h : Sound channels s seen) (hnotices : s.notices = n :: ns)
    (he : s.ac.entry n.channel = some e) {ac : RedisAsyncContext} {cb cb' : RedisCallback}
    (hprocess : processReply s.ac n.reply cb = some (ac, cb')) (hfn : cb'.fn = e.fn)
    (hprivdata : cb'.privdata = e.privdata) :
    ∃ d : Delivery, PubSub.step S s (.receive cb) = some ({ s with ac, notices := ns }, [d]) ∧
      d.latest = some (d.fn, d.privdata) := by
  refine ⟨⟨n, cb'.fn, cb'.privdata, s.latest n.channel⟩, ?_, ?_⟩
  · unfold PubSub.step
    dsimp only
    rw [hnotices]
    dsimp only
    rw [hprocess]
    rfl
  · dsimp only
    rw [(h.present n.channel e he).2, hfn, hprivdata]

/-- A notice other than one of an unsubscription -/
theorem step_noticed (h : Sound channels s seen) (hnotices : s.notices = n :: ns)
    (he : s.ac.entry n.channel = some e) (word : String) {rest : List (Option ReplyObject)}
    (hreply : n.reply = .array (some (.string .string (Notice.reply.kind n.channel word)) ::
      some (.string .string n.channel.2) :: rest))
    (hword : (bytes word).head?.map tolower ≠ some 112)
    (hkind : eqCase (bytes word) (bytes "unsubscribe") = false) (hmem : n.channel ∈ n.after seen)
    (hpending : (noticed word e).pendingSubs =
      (ns.filterMap Notice.request ++ s.requests).count (.subscribe n.channel))
    (cb : RedisCallback) :
    ∃ s' d, PubSub.step S s (.receive cb) = some (s', [d]) ∧ Sound channels s' (n.after seen) ∧
      d.latest = some (d.fn, d.privdata) := by
  have hsubscribed : s.ac.subscribed = true :=
    h.subscribed.mpr ⟨n.channel, he ▸ Option.some_ne_none _⟩
  obtain ⟨ac, hprocess, hready, hsub, hentry⟩ :=
    processReply_eq h.ready hsubscribed he word rest cb hword hkind
  have hfn : (noticed word e).fn = e.fn ∧ (noticed word e).privdata = e.privdata := by
    unfold noticed
    split <;> exact ⟨rfl, rfl⟩
  rw [← hreply] at hprocess
  obtain ⟨d, hone, hd⟩ := h.step_deliver hnotices he hprocess hfn.1 hfn.2
  have hself : ac.entry n.channel = some (noticed word e) := (hentry _).trans (if_pos rfl)
  refine ⟨_, d, hone, h.receive hnotices hready ?_ ?_ ?_ ?_, hd⟩
  · exact iff_of_true hsub ⟨n.channel, hself ▸ Option.some_ne_none _⟩
  · exact fun k hk => (hentry k).trans (if_neg hk)
  · exact iff_of_false (hself ▸ Option.some_ne_none _) fun hnone => hnone.1 hmem
  · intro e' he'
    obtain rfl := Option.some.inj (hself.symm.trans he')
    rw [hfn.1, hfn.2]
    exact ⟨hpending, (h.present n.channel e he).2⟩

/-- A notice of an unsubscription -/
theorem step_unsubscribed {count : ℕ} (h : Sound channels s seen)
    (hnotices : s.notices = .unsubscribed k count :: ns) (he : s.ac.entry k = some e)
    (hcount : count = (seen.erase k).card) (cb : RedisCallback) :
    ∃ s' d, PubSub.step S s (.receive cb) = some (s', [d]) ∧ Sound channels s' (seen.erase k) ∧
      d.latest = some (d.fn, d.privdata) := by
  have hsubscribed : s.ac.subscribed = true := h.subscribed.mpr ⟨k, he ▸ Option.some_ne_none _⟩
  obtain ⟨ac, hprocess, hready, hentry, hsub⟩ :=
    processReply_unsubscribed h.ready hsubscribed he count cb
  obtain ⟨d, hone, hd⟩ := h.step_deliver hnotices he hprocess rfl rfl
  have hself : ac.entry k = if e.pendingSubs = 0 then none else some e :=
    (hentry k).trans (if_pos rfl)
  have hother : ∀ k', k' ≠ k → ac.entry k' = s.ac.entry k' :=
    fun k' hk => (hentry k').trans (if_neg hk)
  obtain ⟨hpending, hlatest⟩ := h.present k e he
  -- the entry stays exactly where the channel has been subscribed again on the way
  have hrest : s.traffic.count (.subscribe k) =
      (ns.filterMap Notice.request ++ s.requests).count (.subscribe k) := by
    rw [traffic_cons hnotices]
    exact List.count_cons_of_ne (by simp)
  rw [hrest] at hpending
  have habsent : ac.entry k = none ↔
      k ∉ seen.erase k ∧ .subscribe k ∉ ns.filterMap Notice.request ++ s.requests := by
    rw [hself, ← List.count_eq_zero]
    split
    next hzero => exact iff_of_true rfl ⟨Finset.notMem_erase _ _, by omega⟩
    next hne => exact iff_of_false (Option.some_ne_none _) fun hnone => hne (by omega)
  have hpresent : ∀ e', ac.entry k = some e' →
      e'.pendingSubs = (ns.filterMap Notice.request ++ s.requests).count (.subscribe k) ∧
        s.latest k = some (e'.fn, e'.privdata) := by
    intro e' he'
    rw [hself] at he'
    split at he'
    · cases he'
    · obtain rfl := Option.some.inj he'
      exact ⟨hpending, hlatest⟩
  refine ⟨_, d, hone, h.receive hnotices hready ?_ hother habsent hpresent, hd⟩
  · rw [← not_iff_not, Bool.not_eq_true, hsub, not_exists]
    simp only [not_not]
    refine and_iff_right_of_imp fun hnone => ?_
    -- without entries nothing is subscribed, and the server says so
    have hempty : seen.erase k = ∅ := by
      refine Finset.eq_empty_iff_forall_notMem.mpr fun k' hmem => ?_
      obtain ⟨hne, hseen⟩ := Finset.mem_erase.mp hmem
      exact ((h.absent k').mp ((hother k' hne).symm.trans (hnone k'))).1 hseen
    rw [hcount, hempty]
    rfl

theorem step_receive (h : Sound channels s seen) (cb : RedisCallback) :
    ∃ s' evs seen', PubSub.step S s (.receive cb) = some (s', evs) ∧ Sound channels s' seen' ∧
      ∀ d ∈ evs, d.latest = some (d.fn, d.privdata) := by
  cases hnotices : s.notices with
  | nil =>
    refine ⟨s, [], seen, ?_, h, fun d hd => nomatch hd⟩
    unfold PubSub.step
    dsimp only
    rw [hnotices]
  | cons n ns =>
    obtain ⟨e, he⟩ := h.entry_of_notice hnotices
    obtain ⟨hpending, -⟩ := h.present n.channel e he
    -- the notice leaves the traffic; an entry has counted it if it confirms a subscription
    rw [traffic_cons hnotices] at hpending
    have hfits : n.Fits seen := by
      have htold := h.told
      rw [hnotices] at htold
      exact htold.1
    obtain ⟨s', d, hone, h', hd⟩ : ∃ s' d, PubSub.step S s (.receive cb) = some (s', [d]) ∧
        Sound channels s' (n.after seen) ∧ d.latest = some (d.fn, d.privdata) := by
      cases n with
      | subscribed k count =>
        refine h.step_noticed hnotices he "subscribe" rfl (by decide) (by decide)
          (Finset.mem_insert_self ..) ?_ cb
        have hcount := List.count_cons_self (a := Request.subscribe k)
          (l := ns.filterMap Notice.request ++ s.requests)
        have hnoticed : (noticed "subscribe" e).pendingSubs = e.pendingSubs - 1 := rfl
        rw [hnoticed, hpending]
        exact Int.sub_eq_iff_eq_add.mpr (congrArg Nat.cast hcount)
      | unsubscribed k count =>
        exact h.step_unsubscribed hnotices he (Notice.unsubscribed.inj hfits).2 cb
      | message k rest =>
        exact h.step_noticed hnotices he "message" rfl (by decide) (by decide) hfits hpending cb
    exact ⟨s', [d], n.after seen, hone, h', fun d' hd' => List.mem_singleton.mp hd' ▸ hd⟩

/-- A step keeps the invariant, and fails no assertion. -/
theorem step {label : Label} (hS : S.Keeps channels) (h : Sound channels s seen)
    (hdisciplined : Disciplined s label)
    (hcounts : Counts s label) :
    ∃ s' evs seen', PubSub.step S s label = some (s', evs) ∧ Sound channels s' seen' ∧
      ∀ d ∈ evs, d.latest = some (d.fn, d.privdata) := by
  have hnone : ∀ d ∈ ([] : List Delivery), d.latest = some (d.fn, d.privdata) :=
    fun d hd => nomatch hd
  cases label with
  | subscribe b names fn privdata =>
    obtain ⟨s', hone, h'⟩ := h.step_subscribe hdisciplined hcounts
    exact ⟨s', [], seen, hone, h', hnone⟩
  | unsubscribe b names =>
    obtain ⟨s', hone, h'⟩ := h.step_unsubscribe hdisciplined
    exact ⟨s', [], seen, hone, h', hnone⟩
  | serve =>
    obtain ⟨s', hone, h'⟩ := h.step_serve hS
    exact ⟨s', [], seen, hone, h', hnone⟩
  | publish k rest =>
    obtain ⟨s', hone, h'⟩ := h.step_publish hS k rest
    exact ⟨s', [], seen, hone, h', hnone⟩
  | receive cb => exact h.step_receive cb

/-- A new connection -/
theorem start (hS : S.Keeps channels) : Sound channels (start S) ∅ := by
  have hentry : ∀ k, (PubSub.start S).ac.entry k = none := by
    rintro ⟨b, name⟩
    cases b <;> rfl
  have htable : ∀ b, (PubSub.start S).ac.table b = dictCreate := by
    intro b
    cases b <;> rfl
  refine ⟨⟨fun b => ?_, fun b e he => ?_, rfl, rfl, rfl⟩, ?_, hS.init.symm, rfl, fun k => ?_,
    fun k e he => ?_⟩
  · rw [htable]
    exact valid_create
  · rw [htable] at he
    exact nomatch he
  · exact iff_of_false Bool.false_ne_true fun ⟨k, hne⟩ => hne (hentry k)
  · exact iff_of_true (hentry k) ⟨Finset.notMem_empty _, List.not_mem_nil⟩
  · exact nomatch (hentry k).symm.trans he

end Sound

/-! ### Runs -/

/-- Whatever the order of its steps, a client that unsubscribes what it has subscribed, and whose
subscriptions count right, fails no assertion, and gives every notice to the callback of the last
subscription to its channel. It takes itself for subscribed as long as there are entries. Where
nothing is on its way, these are for the channels that the server has subscribed, and these are the
ones that the program wants. -/
theorem pubsub_exact (hS : S.Keeps channels) {labels : List Label}
    (hguard : Guarded (traced (step S)) (fun st label => Disciplined st.1 label ∧ Counts st.1 label)
      (start S, []) labels) :
    ∃ s evs, exec (traced (step S)) (start S, []) labels = some (s, evs) ∧
      (∀ d ∈ evs, d.latest = some (d.fn, d.privdata)) ∧
      (s.ac.subscribed = true ↔ ∃ k, s.ac.entry k ≠ none) ∧
      (s.requests = [] → s.notices = [] →
        channels s.server = s.wanted ∧ ∀ k, s.ac.entry k ≠ none ↔ k ∈ s.wanted) := by
  obtain ⟨⟨s, evs⟩, hrun, ⟨seen, h⟩, hevs⟩ := exec_progress_of_guarded
    (I := fun st => (∃ seen, Sound channels st.1 seen) ∧
      ∀ d ∈ st.2, d.latest = some (d.fn, d.privdata))
    (fun st label hlabel ⟨⟨seen, h⟩, hevs⟩ => by
      obtain ⟨s', evs, seen', hone, h', hevs'⟩ := h.step hS hlabel.1 hlabel.2
      exact ⟨(s', st.2 ++ evs), traced_eq_some.mpr ⟨s', evs, hone, rfl⟩, ⟨seen', h'⟩,
        fun d hd => (List.mem_append.mp hd).elim (hevs d) (hevs' d)⟩)
    hguard ⟨⟨∅, Sound.start hS⟩, fun d hd => nomatch hd⟩
  refine ⟨s, evs, hrun, hevs, h.subscribed, fun hrequests hnotices => ?_⟩
  have htraffic : s.traffic = [] := by
    unfold traffic
    rw [hrequests, hnotices]
    rfl
  obtain ⟨-, -, htold, hflows, habsent, -⟩ := h
  rw [hnotices] at htold
  rw [htraffic] at hflows habsent
  obtain rfl : seen = channels s.server := htold
  refine ⟨hflows, fun k => ?_⟩
  rw [Ne, habsent, ← show channels s.server = s.wanted from hflows]
  simp

instance Disciplined.decidable (s : PubSub St) : ∀ label, Decidable (Disciplined s label)
  | .subscribe _ _ _ _ => inferInstanceAs (Decidable (_ ∧ _ ∧ _))
  | .unsubscribe _ _ => inferInstanceAs (Decidable (_ ∧ _ ∧ _))
  | .serve => isTrue trivial
  | .publish _ _ => isTrue trivial
  | .receive _ => isTrue trivial

instance Counts.decidable (s : PubSub St) : ∀ label, Decidable (Counts s label)
  | .subscribe _ _ _ _ => inferInstanceAs (Decidable (Countable ..))
  | .unsubscribe _ _ => isTrue trivial
  | .serve => isTrue trivial
  | .publish _ _ => isTrue trivial
  | .receive _ => isTrue trivial

/-- A server that has nothing but the channels of its client -/
def registry : PubSubServer (Finset Channel) where
  init := ∅
  run subscribed r := (r.apply subscribed, r.notice subscribed)
  sends subscribed k := decide (k ∈ subscribed)

theorem registry_keeps : registry.Keeps id where
  init := rfl
  run _ _ := rfl
  notice _ _ := rfl
  sends _ _ := of_decide_eq_true

/-- A channel is unsubscribed, and subscribed with another callback, while a message is on its
way. -/
def resubscribe : List Label :=
  [.subscribe false [bytes "news", bytes "talk"] (some 1) 0, .serve, .serve,
    .publish (false, bytes "news") [some (.string .string (bytes "hello"))],
    .unsubscribe false [bytes "news"], .subscribe false [bytes "news"] (some 2) 0,
    .receive ⟨none, 0, 0⟩, .receive ⟨none, 0, 0⟩, .receive ⟨none, 0, 0⟩, .serve, .serve,
    .receive ⟨none, 0, 0⟩, .receive ⟨none, 0, 0⟩]

theorem pubsub_exact_resubscribe :
    ∃ s evs, exec (traced (step registry)) (start registry, []) resubscribe = some (s, evs) ∧
      (∀ d ∈ evs, d.latest = some (d.fn, d.privdata)) ∧
      (s.ac.subscribed = true ↔ ∃ k, s.ac.entry k ≠ none) ∧
      (s.requests = [] → s.notices = [] →
        s.server = s.wanted ∧ ∀ k, s.ac.entry k ≠ none ↔ k ∈ s.wanted) :=
  pubsub_exact registry_keeps (by decide +kernel)

/-- Every entry counts the subscriptions to its channel that are on their way. -/
def Counted (s : PubSub St) : Prop :=
  ∀ k, pending (s.ac.entry k) = s.traffic.count (.subscribe k)

/-- In a run of such a client the numbers are right throughout exactly if every subscription counts
right. -/
theorem counted_iff (hS : S.Keeps channels) {labels : List Label}
    (hdisciplined : Guarded (traced (step S)) (fun st => Disciplined st.1) (start S, []) labels) :
    Throughout (traced (step S)) (fun st => Counted st.1) (start S, []) labels ↔
      Guarded (traced (step S)) (fun st => Counts st.1) (start S, []) labels := by
  refine throughout_iff_guarded (I := fun st => ∃ seen, Sound channels st.1 seen) ?_ ?_ hdisciplined
    ⟨∅, Sound.start hS⟩ (Sound.start hS).pending_eq
  · rintro ⟨s, tr⟩ label hlabel hcounts ⟨seen, h⟩ -
    obtain ⟨s', evs, seen', hone, h', -⟩ := h.step hS hlabel hcounts
    exact ⟨(s', tr ++ evs), traced_eq_some.mpr ⟨s', evs, hone, rfl⟩, ⟨seen', h'⟩, h'.pending_eq⟩
  · rintro ⟨s, tr⟩ label st' hlabel ⟨seen, h⟩ - hone hcounted
    cases label with
    | subscribe b names fn privdata =>
      obtain ⟨ac, s', hone', hs', -, -, hentry, htraffic⟩ := h.subscribe_eq hlabel
      obtain ⟨s'', evs, hone'', rfl⟩ := traced_eq_some.mp hone
      obtain rfl : s' = s'' := (Prod.mk.inj (Option.some.inj (hone'.symm.trans hone''))).1
      refine (h.counts_iff hentry).mpr fun k => ?_
      rw [← htraffic, ← hcounted k, hs']
    | _ => trivial

/-- A subscription on its way is counted for a new channel behind it. -/
def carried : List Label :=
  [.subscribe false [bytes "news"] (some 1) 0,
    .subscribe false [bytes "news", bytes "talk"] (some 2) 0, .serve, .serve, .serve,
    .receive ⟨none, 0, 0⟩, .receive ⟨none, 0, 0⟩, .receive ⟨none, 0, 0⟩,
    .unsubscribe false [bytes "news", bytes "talk"], .serve, .serve,
    .receive ⟨none, 0, 0⟩, .receive ⟨none, 0, 0⟩]

theorem counted_iff_carried :
    Throughout (traced (step registry)) (fun st => Counted st.1) (start registry, []) carried ↔
      Guarded (traced (step registry)) (fun st => Counts st.1) (start registry, []) carried :=
  counted_iff registry_keeps (by decide +kernel)

-- the client still takes itself for subscribed when the server has nothing left for it
example : (exec (traced (step registry)) (start registry, []) carried).map (fun st =>
    (st.1.requests.length, st.1.notices.length, st.1.server.card, st.1.ac.subscribed,
    pending (st.1.ac.entry (false, bytes "talk")))) = some (0, 0, 0, true, 1) := by
  decide +kernel

end PubSub

end MmorpgServer.Redis.Async
