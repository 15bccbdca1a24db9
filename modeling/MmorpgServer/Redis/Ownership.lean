import MmorpgServer.Redis.Handshake

/-!
# Who owns the connection

The object holds the one connection that `redisConnectWithTimeout` gave it and `redisFree` did not
get, or none. Commands are sent on that connection only, so none is used behind its end, and the
destructor frees what is left.

## Main definitions

* `live` — the connections of a trace that were made and not freed
* `Valid` — an event needs a connection that is live
* `attempts` — when `Init` asks for a connection
* `Owned` — the invariant

## Main results

* `count_free` — connections are freed at most once
* `step_owned` — a call keeps the invariant
* `contexts_owned` — every run
-/

namespace MmorpgServer.Redis.Ownership

open Machine Trace

variable {s s' u : CacheConn} {c : RedisContext} {e : Env} {tr evs : List Event} {ret : ℤ}
  {id : ℕ} {x : Event} {act : Call × Env} {acts : List (Call × Env)} {t t' : UInt64}

/-! ### The property -/

/-- What an event does to the connections that are live -/
def hold (open_ : List ℕ) : Event → List ℕ
  | .connect c => c :: open_
  | .free c => open_.erase c
  | _ => open_

/-- The connections that were made and not freed -/
def live (tr : List Event) : List ℕ := tr.foldl hold []

/-- The connection on which a command is sent, or that is freed -/
def uses : Event → Option ℕ
  | .auth c _ | .select c _ _ | .data c _ | .free c => some c
  | _ => none

/-- What is used is live, and what is made was not there before. -/
def Valid (tr : List Event) (x : Event) : Prop :=
  (∀ c ∈ uses x, c ∈ live tr) ∧ ∀ c, x = .connect c → .connect c ∉ tr

/-- The time when `Init` calls `redisConnectWithTimeout`, if it does -/
def attempt (s : CacheConn) : Call × Env → Option UInt64
  | (.deInit, _) => none
  | (_, e) => if s.pContext = none ∧ ¬ e.time < s.lastConnectTime + 1 then some e.time else none

/-- These times in a run -/
def attempts : CacheConn → List (Call × Env) → List UInt64
  | _, [] => []
  | s, act :: acts => (attempt s act).toList ++
    match step s act with
    | some (s', _) => attempts s' acts
    | none => []

/-- What `time` returns when it fails -/
def timeError : UInt64 := -1

/-! ### Live connections -/

theorem live_concat : live (tr ++ [x]) = hold (live tr) x := by
  unfold live
  rw [List.foldl_append]
  rfl

/-- Every connection that was made is live or was freed once. -/
theorem count_free (h : Checked Valid [] tr) (c : ℕ) :
    (live tr).count c + tr.count (.free c) = tr.count (.connect c) ∧
      tr.count (.connect c) ≤ 1 := by
  induction tr using List.reverseRecOn with
  | nil => simp [live]
  | append_singleton tr x ih =>
    rw [checked_append] at h
    obtain ⟨hcount, hone⟩ := ih h.1
    obtain ⟨⟨huses, hnew⟩, -⟩ := h.2
    rw [live_concat, List.count_append, List.count_append, List.count_singleton,
      List.count_singleton]
    cases x with
    | connect d =>
      have hnone : tr.count (.connect d) = 0 := List.count_eq_zero.mpr (hnew d rfl)
      by_cases heq : d = c
      · subst heq
        simp only [hold, List.count_cons_self, beq_self_eq_true, if_true]
        simp
        omega
      · simp [hold, heq]
        omega
    | free d =>
      have hlive : d ∈ live tr := huses d rfl
      by_cases heq : d = c
      · subst heq
        have hpos := List.count_pos_iff.mpr hlive
        simp [hold]
        omega
      · have hne : c ≠ d := fun h => heq h.symm
        simp [hold, heq, List.count_erase_of_ne hne]
        omega
    | _ =>
      simp [hold]
      omega

/-- An event that neither makes nor frees a connection, and uses only live ones -/
def Quiet (open_ : List ℕ) (x : Event) : Prop :=
  (∀ c ∈ uses x, c ∈ open_) ∧ ∀ l, hold l x = l

theorem quiet_init {c : Option ℕ} {open_ : List ℕ} : Quiet open_ (.init c ret) :=
  ⟨by simp [uses], fun _ => rfl⟩

theorem quiet_data {open_ : List ℕ} {argv : List Bytes} (h : id ∈ open_) :
    Quiet open_ (.data id argv) :=
  ⟨by simpa [uses] using h, fun _ => rfl⟩

theorem Quiet.not_connect {open_ : List ℕ} (h : Quiet open_ x) (c : ℕ) : x ≠ .connect c := by
  rintro rfl
  exact absurd (h.2 []) (List.cons_ne_nil c [])

theorem live_quiet (h : ∀ x ∈ evs, Quiet (live tr) x) : live (tr ++ evs) = live tr := by
  induction evs using List.reverseRecOn with
  | nil => rw [List.append_nil]
  | append_singleton evs x ih =>
    rw [← List.append_assoc, live_concat, (h x (by simp)).2]
    exact ih fun y hy => h y (by simp [hy])

theorem checked_quiet (h : ∀ x ∈ evs, Quiet (live tr) x) : Checked Valid tr evs := by
  refine checked_iff.mpr ?_
  rintro pre x post rfl
  have hpre : live (tr ++ pre) = live tr := live_quiet fun y hy => h y (by simp [hy])
  have hx := h x (by simp)
  constructor
  · intro c hc
    rw [hpre]
    exact hx.1 c hc
  · exact fun c hc => absurd hc (hx.not_connect c)

/-! ### The invariant -/

/-- The connection of the object is the live one, and a new one has another number. -/
structure Owned (s : CacheConn) (tr : List Event) : Prop where
  live : live tr = (s.pContext.map RedisContext.id).toList
  made : ∀ c, .connect c ∈ tr → c < s.made
  valid : Checked Valid [] tr

theorem owned_create (dbIndex : UInt16) (password : Bytes) : Owned (create dbIndex password) [] :=
  ⟨rfl, fun _ h => absurd h List.not_mem_nil, trivial⟩

theorem Owned.mem_live (h : Owned s tr) (hctx : s.pContext = some c) :
    c.id ∈ Ownership.live tr := by
  rw [h.live, hctx]
  exact List.mem_singleton.mpr rfl

/-- Events that neither make nor free a connection -/
theorem Owned.quiet (h : Owned s tr) (s' : CacheConn)
    (hevs : ∀ x ∈ evs, Quiet (Ownership.live tr) x)
    (hctx : s'.pContext.map RedisContext.id = s.pContext.map RedisContext.id)
    (hmade : s'.made = s.made) : Owned s' (tr ++ evs) where
  live := by
    rw [live_quiet hevs, hctx]
    exact h.live
  made c hc := by
    rw [hmade]
    rcases List.mem_append.mp hc with hc | hc
    · exact h.made c hc
    · exact absurd rfl ((hevs _ hc).not_connect c)
  valid := checked_append.mpr ⟨h.valid, checked_quiet hevs⟩

/-- A connection is made. -/
theorem Owned.connect (h : Owned s tr) (s' : CacheConn) (hnone : s.pContext = none)
    (hctx : s'.pContext.map RedisContext.id = some s.made) (hmade : s'.made = s.made + 1) :
    Owned s' (tr ++ [.connect s.made]) where
  live := by
    have hlive := h.live
    rw [live_concat, hctx]
    rw [hnone] at hlive
    exact congrArg (s.made :: ·) hlive
  made c hc := by
    rw [hmade]
    rcases List.mem_append.mp hc with hc | hc
    · exact Nat.lt_succ_of_lt (h.made c hc)
    · cases List.mem_singleton.mp hc
      exact Nat.lt_succ_self _
  valid := by
    refine checked_append.mpr ⟨h.valid, ⟨by simp [uses], fun c hc hmem => ?_⟩, trivial⟩
    cases hc
    exact absurd (h.made _ hmem) (Nat.lt_irrefl _)

/-- The connection is freed. -/
theorem Owned.free (h : Owned s tr) (s' : CacheConn)
    (hctx : s.pContext.map RedisContext.id = some id) (hnone : s'.pContext = none)
    (hmade : s'.made = s.made) : Owned s' (tr ++ [.free id]) where
  live := by
    have hlive := h.live
    rw [hctx] at hlive
    rw [live_concat, hnone, hlive]
    simp [hold]
  made c hc := by
    rw [hmade]
    rcases List.mem_append.mp hc with hc | hc
    · exact h.made c hc
    · cases List.mem_singleton.mp hc
  valid := by
    refine checked_append.mpr ⟨h.valid, ⟨fun c hc => ?_, nofun⟩, trivial⟩
    cases hc
    rw [List.nil_append, h.live, hctx]
    exact List.mem_singleton.mpr rfl

/-! ### The calls -/

/-- The handshake sends its commands on the fresh connection. -/
theorem handshake_quiet {password : Bytes} {c₀ : RedisContext}
    (h : handshake password c₀ e = some (c, ret, evs)) (hnone : c₀.selected = none) :
    c.id = c₀.id ∧ ∀ x ∈ evs, Quiet [c₀.id] x := by
  have hauth : ∀ {ok}, Quiet [c₀.id] (.auth c₀.id ok) := ⟨by simp [uses], fun _ => rfl⟩
  have hselect : ∀ {db ok}, Quiet [c₀.id] (.select c₀.id db ok) := ⟨by simp [uses], fun _ => rfl⟩
  unfold handshake at h
  split_ifs at h with hempty
  · obtain ⟨⟨c₁, ret₁⟩, hdb, h⟩ := Option.bind_eq_some_iff.mp h
    cases h
    have hid := (selectDb_spec hdb hnone).1
    refine ⟨hid, fun x hx => ?_⟩
    cases List.mem_singleton.mp hx
    rw [hid]
    exact hselect
  · obtain ⟨⟨c₁, ok⟩, hpass, h⟩ := Option.bind_eq_some_iff.mp h
    obtain ⟨hid₁, hnone₁, -⟩ := authenticate_spec hpass
    cases ok with
    | false =>
      cases h
      refine ⟨hid₁, fun x hx => ?_⟩
      cases List.mem_singleton.mp hx
      rw [hid₁]
      exact hauth
    | true =>
      obtain ⟨⟨c₂, ret₂⟩, hdb, h⟩ := Option.bind_eq_some_iff.mp h
      cases h
      have hid : c.id = c₀.id := ((selectDb_spec hdb (hnone₁.trans hnone)).1).trans hid₁
      refine ⟨hid, fun x hx => ?_⟩
      simp only [List.mem_cons, List.not_mem_nil, or_false] at hx
      rw [hid] at hx
      rcases hx with rfl | rfl
      · exact hauth
      · exact hselect

theorem forall_quiet_init {open_ : List ℕ} (c : Option ℕ) (ret : ℤ) :
    ∀ x ∈ [Event.init c ret], Quiet open_ x := by
  intro x hx
  cases List.mem_singleton.mp hx
  exact quiet_init

/-- A connection that could not be made is freed again. -/
theorem Owned.failed (h : Owned s tr) (hctx : s.pContext = none) :
    Owned { s with lastConnectTime := t, made := s.made + 1 }
      (tr ++ [.connect s.made, .free s.made, .init none 1]) := by
  -- the connection is there between the two events
  obtain ⟨s₁, hs₁⟩ : ∃ s₁, s₁ = { s with
    pContext := some ⟨s.made, true, false, none⟩
    made := s.made + 1 } := ⟨_, rfl⟩
  have hmade := h.connect s₁ hctx (by rw [hs₁]; rfl) (by rw [hs₁])
  have hfreed := hmade.free { s₁ with pContext := none } (by rw [hs₁]; rfl) rfl rfl
  have hend := hfreed.quiet { s with lastConnectTime := t, made := s.made + 1 }
    (forall_quiet_init none 1) (by rw [hctx]) (by rw [hs₁])
  rw [List.append_assoc, List.append_assoc] at hend
  exact hend

/-- A connection that was made is kept, whatever the handshake returns. -/
theorem Owned.connected (h : Owned s tr) (hctx : s.pContext = none)
    (hshake : handshake s.password ⟨s.made, false, false, none⟩ e = some (c, ret, evs)) :
    Owned { s with pContext := some c, lastConnectTime := t, made := s.made + 1 }
      (tr ++ .connect s.made :: evs ++ [.init (some c.id) ret]) := by
  obtain ⟨hid, hevs⟩ := handshake_quiet hshake rfl
  dsimp only at hid hevs
  obtain ⟨s₁, hs₁⟩ : ∃ s₁, s₁ = { s with
    pContext := some c
    lastConnectTime := t
    made := s.made + 1 } := ⟨_, rfl⟩
  have hmade := h.connect s₁ hctx (by rw [hs₁]; exact congrArg some hid) (by rw [hs₁])
  have hlive : Ownership.live (tr ++ [.connect s.made]) = [s.made] := by
    rw [hmade.live, hs₁, ← hid]
    rfl
  have hall : ∀ x ∈ evs ++ [.init (some c.id) ret],
      Quiet (Ownership.live (tr ++ [.connect s.made])) x := by
    rw [hlive]
    exact List.forall_mem_append.mpr ⟨hevs, forall_quiet_init _ _⟩
  have hend := hmade.quiet s₁ hall rfl rfl
  rw [hs₁] at hend
  simpa only [List.append_assoc, List.cons_append, List.nil_append] using hend

theorem init_owned (h : Owned s tr) (hinit : init s e = some (s', ret, evs)) :
    Owned s' (tr ++ evs) ∧ (ret = 0 → s'.pContext ≠ none) := by
  unfold init at hinit
  cases hctx : s.pContext with
  | some c =>
    simp only [hctx] at hinit
    cases hinit
    exact ⟨h.quiet _ (forall_quiet_init _ _) rfl rfl, by simp [hctx]⟩
  | none =>
    simp only [hctx] at hinit
    split_ifs at hinit with htime
    · cases hinit
      exact ⟨h.quiet _ (forall_quiet_init _ _) rfl rfl, by simp⟩
    · cases hconnect : e.connect with
      | null =>
        simp only [hconnect] at hinit
        cases hinit
        exact ⟨h.quiet _ (forall_quiet_init _ _) (by simp [hctx]) rfl, by simp⟩
      | failed =>
        simp only [hconnect] at hinit
        cases hinit
        exact ⟨hctx ▸ h.failed hctx, by simp⟩
      | connected =>
        simp only [hconnect] at hinit
        obtain ⟨⟨c, ret₁, evs₁⟩, hshake, hinit⟩ := Option.bind_eq_some_iff.mp hinit
        cases hinit
        have hend := h.connected (t := e.time) hctx hshake
        rw [List.append_assoc] at hend
        exact ⟨hend, by simp⟩

/-- `DeInit`, and the destructor, leave no connection behind. -/
theorem deInit_owned (h : Owned s tr) :
    Owned (deInit s).1 (tr ++ (deInit s).2) ∧ (deInit s).1.pContext = none := by
  unfold deInit
  cases hctx : s.pContext with
  | none =>
    dsimp only
    rw [List.append_nil]
    exact ⟨h, hctx⟩
  | some c => exact ⟨h.free _ (by rw [hctx]; rfl) rfl rfl, rfl⟩

/-- A call keeps the invariant. -/
theorem step_owned (h : Owned s tr) (hone : step s act = some (s', evs)) :
    Owned s' (tr ++ evs) := by
  rcases step_cases hone with ⟨-, hdeInit⟩ | ⟨-, s₁, ret, evs₁, hinit, hrest⟩
  · have hend := (deInit_owned h).1
    rwa [hdeInit] at hend
  · have h₁ := (init_owned h hinit).1
    rcases hrest with ⟨rfl, rfl⟩ | ⟨c, -, hctx, sent, hrest⟩
    · exact h₁
    · have hsent : ∀ x ∈ (sent.map (Event.data c.id)).toList, Quiet (live (tr ++ evs₁)) x := by
        intro x hx
        rw [Option.mem_toList] at hx
        obtain ⟨argv, -, rfl⟩ := Option.map_eq_some_iff.mp hx
        exact quiet_data (h₁.mem_live hctx)
      have h₂ := h₁.quiet _ hsent rfl rfl
      rcases hrest with ⟨rfl, rfl⟩ | ⟨rfl, rfl⟩
      · rwa [← List.append_assoc]
      · rw [← List.append_assoc, ← List.append_assoc]
        exact h₂.free _ (by rw [hctx]; rfl) rfl rfl

/-! ### `Init` returns -/

/-- A command with arguments has an outcome. -/
theorem redisCommand_returns (cmd : Formatted) {argv : List Bytes} (hcmd : cmd = .ok argv)
    (c : RedisContext) (answer : Option Reply) :
    ∃ c' reply sent, redisCommand c cmd answer = some (c', reply, sent) := by
  subst hcmd
  unfold redisCommand
  dsimp only
  split_ifs
  · exact ⟨_, _, _, rfl⟩
  · cases answer <;> exact ⟨_, _, _, rfl⟩

theorem selectDb_returns (c : RedisContext) (answer : Option Reply) :
    ∃ c' ret, selectDb c answer = some (c', ret) := by
  obtain ⟨c₁, reply, sent, hr⟩ := redisCommand_returns
    (formatArguments (bytes "SELECT %d") [.int 0]) rfl c answer
  unfold selectDb
  rw [hr]
  cases reply with
  | none => exact ⟨_, _, rfl⟩
  | some reply => cases hok : reply.isOk <;> simp [hok]

theorem authenticate_returns (password : Bytes) (c : RedisContext) (answer : Option Reply) :
    ∃ c' ok, authenticate password c answer = some (c', ok) := by
  obtain ⟨c₁, reply, sent, hr⟩ := redisCommand_returns
    (formatArguments (bytes "AUTH %s") [.str password]) rfl c answer
  unfold authenticate
  rw [hr]
  cases reply with
  | none => exact ⟨_, _, rfl⟩
  | some reply => cases herror : reply.isError <;> simp [herror]

theorem handshake_returns (password : Bytes) (c : RedisContext) (e : Env) :
    ∃ c' ret evs, handshake password c e = some (c', ret, evs) := by
  unfold handshake
  split_ifs
  · obtain ⟨c₁, ret, hdb⟩ := selectDb_returns c e.select
    rw [hdb]
    exact ⟨_, _, _, rfl⟩
  · obtain ⟨c₁, ok, hpass⟩ := authenticate_returns password c e.auth
    rw [hpass]
    cases ok with
    | false => exact ⟨_, _, _, rfl⟩
    | true =>
      obtain ⟨c₂, ret, hdb⟩ := selectDb_returns c₁ e.select
      simp [hdb]

/-- `Init` always returns. -/
theorem init_returns (s : CacheConn) (e : Env) : ∃ s' ret evs, init s e = some (s', ret, evs) := by
  unfold init
  cases s.pContext with
  | some c => exact ⟨_, _, _, rfl⟩
  | none =>
    dsimp only
    split_ifs
    · exact ⟨_, _, _, rfl⟩
    · cases e.connect with
      | null => exact ⟨_, _, _, rfl⟩
      | failed => exact ⟨_, _, _, rfl⟩
      | connected =>
        obtain ⟨c, ret, evs, hshake⟩ :=
          handshake_returns s.password ⟨s.made, false, false, none⟩ e
        simp [hshake]

/-! ### Attempts -/

/-- What `Init` does to the time of the last attempt -/
theorem init_time (hinit : init s e = some (s', ret, evs)) :
    s'.lastConnectTime =
      if s.pContext = none ∧ ¬ e.time < s.lastConnectTime + 1 then e.time
      else s.lastConnectTime := by
  unfold init at hinit
  cases hctx : s.pContext with
  | some c =>
    simp only [hctx] at hinit
    cases hinit
    simp
  | none =>
    simp only [hctx] at hinit
    split_ifs at hinit with htime
    · cases hinit
      simp [htime]
    · cases hconnect : e.connect with
      | null =>
        simp only [hconnect] at hinit
        cases hinit
        simp [htime]
      | failed =>
        simp only [hconnect] at hinit
        cases hinit
        simp [htime]
      | connected =>
        simp only [hconnect] at hinit
        obtain ⟨⟨c, ret₁, evs₁⟩, -, hinit⟩ := Option.bind_eq_some_iff.mp hinit
        cases hinit
        simp [htime]

/-- Without an attempt, what `redisConnectWithTimeout` would return does not matter. -/
theorem init_of_no_attempt {call : Call} (hcall : call ≠ .deInit) (h : attempt s (call, e) = none)
    (connect : Connect) : init s { e with connect := connect } = init s e := by
  have hguard : s.pContext = none → e.time < s.lastConnectTime + 1 := by
    intro hnone
    by_contra hnot
    cases call <;> simp_all [attempt]
  unfold init
  cases hctx : s.pContext with
  | some c => rfl
  | none => simp [hguard hctx]

/-- The time of the last attempt, behind a call -/
theorem step_time (hone : step s act = some (s', evs)) :
    s'.lastConnectTime = (attempt s act).getD s.lastConnectTime := by
  obtain ⟨call, e⟩ := act
  rcases step_cases hone with ⟨hcall, hdeInit⟩ | ⟨hcall, s₁, ret, evs₁, hinit, hrest⟩
  · obtain rfl : call = .deInit := hcall
    unfold deInit at hdeInit
    cases hctx : s.pContext <;> simp only [hctx] at hdeInit <;> cases hdeInit <;> rfl
  · have htime : s₁.lastConnectTime = (attempt s (call, e)).getD s.lastConnectTime := by
      rw [init_time hinit]
      cases call with
      | deInit => exact absurd rfl hcall
      | _ =>
        simp only [attempt]
        split_ifs <;> rfl
    rw [← htime]
    rcases hrest with ⟨rfl, -⟩ | ⟨c, -, -, sent, ⟨rfl, -⟩ | ⟨rfl, -⟩⟩ <;> rfl

/-- An attempt is at least a second behind the one before it. -/
theorem lt_of_attempt (h : attempt s act = some t) (hlast : s.lastConnectTime ≠ timeError) :
    t = act.2.time ∧ s.lastConnectTime < t := by
  obtain ⟨call, e⟩ := act
  have hguard : t = e.time ∧ ¬ e.time < s.lastConnectTime + 1 := by
    cases call with
    | deInit => cases h
    | _ =>
      simp only [attempt] at h
      split_ifs at h with hif
      exact ⟨(Option.some.inj h).symm, hif.2⟩
  refine ⟨hguard.1, ?_⟩
  obtain ⟨rfl, hnot⟩ := hguard
  have hne : s.lastConnectTime.toNat ≠ 2 ^ 64 - 1 := fun heq => hlast (UInt64.toNat.inj heq)
  have hlt := s.lastConnectTime.toNat_lt
  rw [UInt64.lt_iff_toNat_lt] at hnot ⊢
  rw [UInt64.toNat_add, Nat.mod_eq_of_lt] at hnot
  · simp at hnot
    omega
  · simp
    omega

/-- The attempts of a run are in order of time, and behind the last one before it. -/
theorem attempts_increasing (hclock : ∀ act ∈ acts, act.2.time ≠ timeError)
    (hlast : s.lastConnectTime ≠ timeError) :
    (s.lastConnectTime :: attempts s acts).Pairwise (· < ·) := by
  induction acts generalizing s with
  | nil => simp [attempts]
  | cons act acts ih =>
    obtain ⟨hact, hacts⟩ := List.forall_mem_cons.mp hclock
    rw [attempts]
    cases hstep : step s act with
    | none =>
      cases htry : attempt s act with
      | none => simp
      | some t => simp [(lt_of_attempt htry hlast).2]
    | some r =>
      obtain ⟨s', evs⟩ := r
      have htime := step_time hstep
      cases htry : attempt s act with
      | none =>
        rw [htry, Option.getD_none] at htime
        have hrest := ih hacts (by rwa [htime])
        rwa [htime] at hrest
      | some t =>
        obtain ⟨heq, hlt⟩ := lt_of_attempt htry hlast
        rw [htry, Option.getD_some] at htime
        have hrest := ih hacts (by rw [htime, heq]; exact hact)
        rw [htime] at hrest
        refine List.pairwise_cons.mpr ⟨?_, hrest⟩
        intro u hu
        rcases List.mem_cons.mp hu with rfl | hu
        · exact hlt
        · exact UInt64.lt_trans hlt ((List.pairwise_cons.mp hrest).1 u hu)

/-! ### Every run -/

/-- A run keeps the invariant. -/
theorem exec_owned {dbIndex : UInt16} {password : Bytes}
    (hrun : exec (traced step) (create dbIndex password, []) acts = some (s, tr)) : Owned s tr := by
  refine exec_invariant (I := fun st => Owned st.1 st.2) ?_ (owned_create dbIndex password) hrun
  intro st act st' h hone
  obtain ⟨s', evs, hstep, rfl⟩ := traced_eq_some.mp hone
  exact step_owned h hstep

/-- In every run with every behaviour of the server, the connection of the object is the live one
or `NULL`; commands are sent on a live connection only, and only such a one is freed; when `Init`
returns `0` there is one; the destructor leaves none behind, each having been freed once; and the
times of the attempts to connect increase, as long as `time` does not fail. -/
theorem contexts_owned (dbIndex : UInt16) (password : Bytes) (acts : List (Call × Env))
    {s : CacheConn} {tr : List Event}
    (hrun : exec (traced step) (create dbIndex password, []) acts = some (s, tr)) :
    live tr = (s.pContext.map RedisContext.id).toList ∧
      (∀ pre x post, tr = pre ++ x :: post → Valid pre x) ∧
      (∀ e, ∃ s' ret evs, init s e = some (s', ret, evs) ∧
        (ret = 0 → ∃ c, s'.pContext = some c ∧ c.id ∈ live (tr ++ evs))) ∧
      (∀ c, .connect c ∈ tr → (tr ++ (deInit s).2).count (.free c) = 1) ∧
      ((∀ act ∈ acts, act.2.time ≠ timeError) →
        (attempts (create dbIndex password) acts).Pairwise (· < ·)) := by
  have h := exec_owned hrun
  refine ⟨h.live, fun pre x post heq => checked_iff.mp h.valid pre x post heq, fun e => ?_,
    fun c hc => ?_, fun hclock => ?_⟩
  · obtain ⟨s', ret, evs, hinit⟩ := init_returns s e
    obtain ⟨h', hzero⟩ := init_owned h hinit
    refine ⟨s', ret, evs, hinit, fun hret => ?_⟩
    obtain ⟨c, hctx⟩ := Option.ne_none_iff_exists'.mp (hzero hret)
    exact ⟨c, hctx, h'.mem_live hctx⟩
  · -- behind the destructor nothing is live
    obtain ⟨hend, hnone⟩ := deInit_owned h
    obtain ⟨hcount, hle⟩ := count_free hend.valid c
    have hpos : 0 < (tr ++ (deInit s).2).count (.connect c) :=
      List.count_pos_iff.mpr (List.mem_append_left _ hc)
    rw [hend.live, hnone, Option.map_none, Option.toList_none, List.count_nil, Nat.zero_add]
      at hcount
    omega
  · have hfirst : (create dbIndex password).lastConnectTime ≠ timeError := by
      show (0 : UInt64) ≠ timeError
      decide
    exact (List.pairwise_cons.mp (attempts_increasing hclock hfirst)).2

/-- The password is refused, the reply to `get` is lost, a second later `get` connects again. -/
def reconnected : List (Call × Env) :=
  [(.init, refuse), (.get (bytes "k"), refuse), (.get (bytes "k"), welcome)]

/-- What is seen of this run -/
def reconnectedTrace : List Event :=
  [.connect 0, .auth 0 false, .init (some 0) (-1), .init (some 0) 0,
    .data 0 [bytes "GET", bytes "k"], .free 0, .connect 1, .auth 1 true, .select 1 0 true,
    .init (some 1) 0, .data 1 [bytes "GET", bytes "k"]]

theorem contexts_owned_reconnected : ∃ s,
    exec (traced step) (create 0 (bytes "p"), []) reconnected = some (s, reconnectedTrace) ∧
      (reconnectedTrace ++ (deInit s).2).count (.free 1) = 1 ∧
      ([3, 5] : List UInt64).Pairwise (· < ·) := by
  obtain ⟨s, hrun⟩ : ∃ s, exec (traced step) (create 0 (bytes "p"), []) reconnected =
    some (s, reconnectedTrace) := ⟨_, rfl⟩
  have hall := contexts_owned 0 (bytes "p") reconnected hrun
  exact ⟨s, hrun, hall.2.2.2.1 1 (by decide), hall.2.2.2.2 (by decide)⟩

end MmorpgServer.Redis.Ownership
