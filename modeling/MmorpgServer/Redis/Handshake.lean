import MmorpgServer.Redis.Calls
import MmorpgServer.Lib.Trace
import Mathlib.Data.List.DropRight

/-!
# A connection is used when its session is set up

`Init` takes a connection that is there for a good one. It leaves a connection behind whose `AUTH`
or `SELECT` was refused or got no reply, so what follows uses a session that is not set up, unless
it is `DeInit`.

## Main definitions

* `Done` — the handshake on a connection
* `SetUp` — no command is sent, and no connection is reported as good, before the handshake
* `HalfOpen` — there is a connection, and its session is not set up

## Main results

* `handshake_spec`, `init_spec`, `step_spec` — what a call does to the session
* `setUp_iff_guarded` — sessions are set up exactly if nothing but `DeInit` meets a half-open one
-/

namespace MmorpgServer.Redis

open Machine Trace

variable {password : Bytes} {s s' u : CacheConn} {c c' : RedisContext} {e : Env}
  {tr evs evs' : List Event} {ret : ℤ} {id : ℕ}

/-! ### The property -/

/-- `Init` returned nonzero. -/
def Event.failed : Event → Bool
  | .init _ ret => ret ≠ 0
  | _ => false

/-- What follows the last failure of `Init`. -/
def sinceFail (tr : List Event) : List Event := tr.rtakeWhile fun e => !e.failed

/-- On the connection `AUTH` was accepted, if a password is configured, and so was `SELECT`. -/
structure Done (password : Bytes) (evs : List Event) (id : ℕ) : Prop where
  auth : password ≠ [] → .auth id true ∈ evs
  select : ∃ db, .select id db true ∈ evs

/-- A command needs a handshake on its connection, which was done behind the last failure of
`Init`. So does `Init` when it reports a connection as good. -/
def Allowed (password : Bytes) (tr : List Event) : Event → Prop
  | .data id _ => Done password (sinceFail tr) id
  | .init (some id) ret => ret = 0 → Done password (sinceFail tr) id
  | _ => True

/-- Every event of the trace is allowed behind those before it. -/
def SetUp (password : Bytes) (tr : List Event) : Prop :=
  ∀ pre e post, tr = pre ++ e :: post → Allowed password pre e

theorem setUp_iff_checked : SetUp password tr ↔ Checked (Allowed password) [] tr := by
  rw [checked_iff]
  rfl

theorem Done.mono (h : Done password evs id) (hsub : evs ⊆ evs') : Done password evs' id where
  auth hpassword := hsub (h.auth hpassword)
  select := h.select.imp fun _ hmem => hsub hmem

theorem not_done_nil : ¬ Done password [] id := fun h =>
  let ⟨_, hmem⟩ := h.select
  List.not_mem_nil hmem

theorem sinceFail_append (hgood : ∀ x ∈ evs, x.failed = false) :
    sinceFail (tr ++ evs) = sinceFail tr ++ evs := by
  induction evs using List.reverseRecOn with
  | nil => simp
  | append_singleton evs x ih =>
    have hx : x.failed = false := hgood x (by simp)
    have hevs : ∀ y ∈ evs, y.failed = false := fun y hy => hgood y (by simp [hy])
    rw [← List.append_assoc, ← List.append_assoc, ← ih hevs]
    exact List.rtakeWhile_concat_pos _ _ _ (by simp [hx])

theorem sinceFail_concat {x : Event} (hfail : x.failed = true) : sinceFail (tr ++ [x]) = [] :=
  List.rtakeWhile_concat_neg _ _ _ (by simp [hfail])

/-- Events that are always allowed. -/
theorem checked_of_free (h : ∀ x ∈ evs, ∀ tr, Allowed password tr x) :
    Checked (Allowed password) tr evs := by
  rw [checked_iff]
  rintro pre x post rfl
  exact h x (by simp) _

/-! ### The handshake -/

/-- The server lets the session run commands. -/
def Ready (password : Bytes) (c : RedisContext) : Prop :=
  (password ≠ [] → c.authed = true) ∧ c.selected ≠ none

instance : Decidable (Ready password c) := inferInstanceAs (Decidable (_ ∧ _))

/-- The object has a connection whose session is not set up. -/
def HalfOpen (s : CacheConn) : Prop := ∃ c ∈ s.pContext, ¬ Ready s.password c

instance : Decidable (HalfOpen s) := inferInstanceAs (Decidable (∃ c ∈ s.pContext, _))

/-- The handshake on a fresh connection returns `0` exactly if it sets the session up. -/
theorem handshake_spec (h : handshake password ⟨id, false, false, none⟩ e = some (c, ret, evs)) :
    c.id = id ∧ (ret = 0 ↔ Ready password c) ∧ (ret = 0 → Done password evs id) ∧
      ∀ x ∈ evs, x.failed = false ∧ ∀ tr, Allowed password tr x := by
  unfold handshake at h
  split at h
  next hempty =>
    obtain ⟨⟨c₁, ret₁⟩, hselect, h⟩ := Option.bind_eq_some_iff.mp h
    cases h
    obtain ⟨hid, -, hret⟩ := selectDb_spec hselect rfl
    dsimp only at hid
    refine ⟨hid, by simp [Ready, hempty, hret], fun hzero => ?_, by simp [Event.failed, Allowed]⟩
    exact ⟨fun hne => absurd hempty hne, 0, by simp [hid, hzero]⟩
  next hne =>
    obtain ⟨⟨c₁, ok⟩, hauth, h⟩ := Option.bind_eq_some_iff.mp h
    obtain ⟨hid₁, hselected, hauthed⟩ := authenticate_spec hauth
    cases ok with
    | false =>
      cases h
      refine ⟨hid₁, ?_, ?_, by simp [Event.failed, Allowed]⟩
      · simp [Ready, hne, hauthed]
      · simp
    | true =>
      obtain ⟨⟨c₂, ret₂⟩, hselect, h⟩ := Option.bind_eq_some_iff.mp h
      cases h
      obtain ⟨hid₂, hkept, hret⟩ := selectDb_spec hselect hselected
      have hid : c.id = id := hid₂.trans hid₁
      refine ⟨hid, ?_, fun hzero => ?_, by simp [Event.failed, Allowed]⟩
      · simp [Ready, hkept, hauthed, hret]
      · exact ⟨fun _ => by simp [hid], 0, by simp [hid, hzero]⟩

/-! ### The invariant -/

/-- A connection with a session was set up behind the last failure of `Init`. A connection
without one is what that failure has left behind. -/
structure Inv (password : Bytes) (s : CacheConn) (tr : List Event) : Prop where
  configured : s.password = password
  done : ∀ c, s.pContext = some c → Ready password c → Done password (sinceFail tr) c.id
  failed : ∀ c, s.pContext = some c → ¬ Ready password c → sinceFail tr = []

theorem Inv.of_none (hpassword : s.password = password) (hnone : s.pContext = none) :
    Inv password s tr where
  configured := hpassword
  done c hc := by simp [hnone] at hc
  failed c hc := by simp [hnone] at hc

theorem inv_create (dbIndex : UInt16) : Inv password (create dbIndex password) tr :=
  .of_none rfl rfl

/-- Good events keep the invariant while the connection is ready. -/
theorem Inv.append (h : Inv password s tr) (hgood : ∀ x ∈ evs, x.failed = false)
    (hready : ∀ c, s.pContext = some c → Ready password c) : Inv password s (tr ++ evs) where
  configured := h.configured
  done c hc hc' := by
    rw [sinceFail_append hgood]
    exact (h.done c hc hc').mono (List.subset_append_left _ _)
  failed c hc hnot := absurd (hready c hc) hnot

/-- What `Init` leaves behind with a fresh connection: the session is set up, or the connection
is half-open and the failure is the last event. -/
theorem Inv.of_handshake {time : UInt64} {made : ℕ} (hpassword : s.password = password)
    (hret : ret = 0 ↔ Ready password c) (hdone : ret = 0 → Done password evs c.id)
    (hfree : ∀ x ∈ evs, x.failed = false ∧ ∀ tr, Allowed password tr x) :
    Inv password { s with pContext := some c, lastConnectTime := time, made := made }
      (tr ++ (.connect id :: evs ++ [.init (some c.id) ret])) where
  configured := hpassword
  done c' hc' hready := by
    obtain rfl := Option.some.inj hc'
    have hzero := hret.mpr hready
    rw [sinceFail_append]
    · exact (hdone hzero).mono fun x hx => by simp [hx]
    · intro x hx
      simp only [List.cons_append, List.mem_cons, List.mem_append, List.not_mem_nil,
        or_false] at hx
      rcases hx with rfl | hx | rfl
      · rfl
      · exact (hfree x hx).1
      · simp [Event.failed, hzero]
  failed c' hc' hnot := by
    obtain rfl := Option.some.inj hc'
    have hne : ret ≠ 0 := fun hzero => hnot (hret.mp hzero)
    rw [← List.append_assoc]
    exact sinceFail_concat (by simp [Event.failed, hne])

/-- The events of `Init` with a fresh connection are allowed. -/
theorem checked_handshake {made : ℕ} (hdone : ret = 0 → Done password evs id)
    (hfree : ∀ x ∈ evs, x.failed = false ∧ ∀ tr, Allowed password tr x) :
    Checked (Allowed password) tr (.connect made :: evs ++ [.init (some id) ret]) := by
  have hfirst : ∀ x ∈ .connect made :: evs, x.failed = false ∧ ∀ tr, Allowed password tr x := by
    intro x hx
    rcases List.mem_cons.mp hx with rfl | hx
    · exact ⟨rfl, fun _ => trivial⟩
    · exact hfree x hx
  refine checked_append.mpr ⟨checked_of_free fun x hx => (hfirst x hx).2, fun hzero => ?_, trivial⟩
  rw [sinceFail_append fun x hx => (hfirst x hx).1]
  exact (hdone hzero).mono fun x hx => by simp [hx]

/-- `Init` without a half-open connection: what it reports as good is set up. -/
theorem init_spec (h : Inv password s tr) (hopen : ¬ HalfOpen s)
    (hinit : init s e = some (s', ret, evs)) :
    Inv password s' (tr ++ evs) ∧ Checked (Allowed password) tr evs ∧
      (ret = 0 → ∀ c, s'.pContext = some c → Ready password c) := by
  unfold init at hinit
  cases hctx : s.pContext with
  | some c =>
    simp only [hctx] at hinit
    cases hinit
    have hready : Ready password c := by
      by_contra hnot
      exact hopen ⟨c, hctx, by rwa [h.configured]⟩
    have hall : ∀ c', s.pContext = some c' → Ready password c' := by
      intro c' hc'
      obtain rfl := Option.some.inj (hctx.symm.trans hc')
      exact hready
    refine ⟨h.append (by simp [Event.failed]) hall, ?_, fun _ => hall⟩
    exact ⟨fun _ => h.done c hctx hready, trivial⟩
  | none =>
    simp only [hctx] at hinit
    split at hinit
    · -- the last attempt was less than a second ago
      cases hinit
      exact ⟨.of_none h.configured hctx, ⟨trivial, trivial⟩, by simp⟩
    · cases hconnect : e.connect with
      | null =>
        simp only [hconnect] at hinit
        cases hinit
        exact ⟨.of_none h.configured rfl, ⟨trivial, trivial⟩, by simp⟩
      | failed =>
        simp only [hconnect] at hinit
        cases hinit
        exact ⟨.of_none h.configured rfl, ⟨trivial, trivial, trivial, trivial⟩, by simp⟩
      | connected =>
        simp only [hconnect] at hinit
        obtain ⟨⟨c, ret₁, evs₁⟩, hshake, hinit⟩ := Option.bind_eq_some_iff.mp hinit
        cases hinit
        rw [h.configured] at hshake
        obtain ⟨hid, hret, hdone, hfree⟩ := handshake_spec hshake
        rw [← hid] at hdone
        exact ⟨.of_handshake h.configured hret hdone hfree, checked_handshake hdone hfree,
          fun hzero c' hc' => by
            obtain rfl := Option.some.inj hc'
            exact hret.mp hzero⟩

/-! ### Operations -/

/-- What an operation does behind an `Init` that returned `0`: it sends a command on the
connection, or drops it. -/
def Follows (s : CacheConn) (ret : ℤ) (x : Event) : Prop :=
  ret = 0 ∧ ∃ c, s.pContext = some c ∧ (x = .free c.id ∨ ∃ argv, x = .data c.id argv)

/-- Every call but `DeInit` is `Init` and what follows it. -/
theorem step_spec {call : Call} (hone : step s (call, e) = some (s', evs))
    (hcall : call ≠ .deInit) :
    ∃ s₁ ret evs₁ more, init s e = some (s₁, ret, evs₁) ∧ evs = evs₁ ++ more ∧
      (s' = s₁ ∨ s' = { s₁ with pContext := none }) ∧ ∀ x ∈ more, Follows s₁ ret x := by
  rcases step_cases hone with ⟨hdeInit, -⟩ | ⟨-, s₁, ret, evs₁, hinit, hrest⟩
  · exact absurd hdeInit hcall
  · refine ⟨s₁, ret, evs₁, ?_⟩
    rcases hrest with ⟨rfl, rfl⟩ | ⟨c, hzero, hctx, sent, hrest⟩
    · exact ⟨[], hinit, by simp, Or.inl rfl, by simp⟩
    · have hsent : ∀ x ∈ (sent.map (Event.data c.id)).toList, Follows s₁ ret x := by
        intro x hx
        rw [Option.mem_toList] at hx
        obtain ⟨argv, -, rfl⟩ := Option.map_eq_some_iff.mp hx
        exact ⟨hzero, c, hctx, Or.inr ⟨argv, rfl⟩⟩
      rcases hrest with ⟨rfl, rfl⟩ | ⟨rfl, rfl⟩
      · exact ⟨_, hinit, rfl, Or.inl rfl, hsent⟩
      · refine ⟨_, hinit, List.append_assoc .., Or.inr rfl, fun x hx => ?_⟩
        rcases List.mem_append.mp hx with hx | hx
        · exact hsent x hx
        · exact ⟨hzero, c, hctx, Or.inl (List.mem_singleton.mp hx)⟩

/-- Without a half-open connection a call keeps the invariant, and what it does is allowed. -/
theorem step_inv {act : Call × Env} (h : Inv password s tr)
    (hguard : HalfOpen s → act.1 = .deInit) (hone : step s act = some (s', evs)) :
    Inv password s' (tr ++ evs) ∧ Checked (Allowed password) tr evs := by
  obtain ⟨call, e⟩ := act
  by_cases hcall : call = .deInit
  · subst hcall
    unfold step deInit at hone
    cases hctx : s.pContext with
    | none =>
      simp only [hctx] at hone
      cases hone
      exact ⟨.of_none h.configured hctx, trivial⟩
    | some c =>
      simp only [hctx] at hone
      cases hone
      exact ⟨.of_none h.configured rfl, trivial, trivial⟩
  · obtain ⟨s₁, ret, evs₁, more, hinit, rfl, hs', hmore⟩ := step_spec hone hcall
    obtain ⟨h₁, hchecked, hready⟩ := init_spec h (fun hopen => hcall (hguard hopen)) hinit
    have hgood : ∀ x ∈ more, x.failed = false := by
      intro x hx
      obtain ⟨-, c, -, rfl | ⟨argv, rfl⟩⟩ := hmore x hx <;> rfl
    constructor
    · rcases hs' with rfl | rfl
      · cases more with
        | nil => simpa using h₁
        | cons x more =>
          -- something follows, so `Init` returned `0`
          rw [← List.append_assoc]
          exact h₁.append hgood (hready (hmore x (by simp)).1)
      · exact .of_none h₁.configured rfl
    · rw [checked_append]
      refine ⟨hchecked, checked_iff.mpr ?_⟩
      rintro pre x post rfl
      obtain ⟨hzero, c, hctx, rfl | ⟨argv, rfl⟩⟩ := hmore x (by simp)
      · trivial
      · -- the commands before it are no failures of `Init`
        have hdone := h₁.done c hctx (hready hzero c hctx)
        show Done password (sinceFail (tr ++ evs₁ ++ pre)) c.id
        rw [sinceFail_append fun y hy => hgood y (by simp [hy])]
        exact hdone.mono (List.subset_append_left _ _)

/-- With a half-open connection, `Init` reports it as good in every call but `DeInit`. -/
theorem guard_of_checked {act : Call × Env} (h : Inv password s tr)
    (hone : step s act = some (s', evs)) (hchecked : Checked (Allowed password) tr evs) :
    HalfOpen s → act.1 = .deInit := by
  rintro ⟨c, hctx, hnot⟩
  rw [Option.mem_def] at hctx
  rw [h.configured] at hnot
  by_contra hcall
  obtain ⟨call, e⟩ := act
  obtain ⟨s₁, ret, evs₁, more, hinit, rfl, -, -⟩ := step_spec hone hcall
  unfold init at hinit
  simp only [hctx] at hinit
  cases hinit
  have hdone : Done password (sinceFail tr) c.id := hchecked.1 rfl
  rw [h.failed c hctx hnot] at hdone
  exact not_done_nil hdone

/-- In every run with every behaviour of the server, commands and good reports of `Init` come
behind the handshake exactly if no call but `DeInit` meets a half-open connection. -/
theorem setUp_iff_guarded (dbIndex : UInt16) (password : Bytes) (acts : List (Call × Env))
    {s : CacheConn} {tr : List Event}
    (hrun : exec (traced step) (create dbIndex password, []) acts = some (s, tr)) :
    SetUp password tr ↔
      Guarded (traced step) (fun st act => HalfOpen st.1 → act.1 = .deInit)
        (create dbIndex password, []) acts := by
  rw [setUp_iff_checked]
  exact checked_iff_guarded (I := Inv password)
    (fun s tr act s' evs h hguard hone => step_inv h hguard hone)
    (fun s tr act s' evs h hone hchecked => guard_of_checked h hone hchecked)
    (inv_create dbIndex) hrun

/-- A server that takes the password, and one that does not. -/
def welcome : Env := ⟨5, .connected, some (.status (bytes "OK")), some (.status (bytes "OK")),
  some (.string (bytes "v"))⟩

def refuse : Env := ⟨3, .connected, some (.error (bytes "ERR")), none, none⟩

/-- The password is refused, the connection is closed, and `get` makes another one. -/
theorem setUp_iff_guarded_reconnect :
    SetUp (bytes "p") [.connect 0, .auth 0 false, .init (some 0) (-1), .free 0, .connect 1,
      .auth 1 true, .select 1 0 true, .init (some 1) 0, .data 1 [bytes "GET", bytes "k"]] :=
  (setUp_iff_guarded 0 (bytes "p")
    [(.init, refuse), (.deInit, refuse), (.get (bytes "k"), welcome)] rfl).mpr
    (.cons (fun hopen => absurd hopen (by decide)) rfl (.cons (fun _ => rfl) rfl
      (.cons (fun hopen => absurd hopen (by decide)) rfl trivial)))

/-- The password is refused, and `get` sends its command on the connection. -/
theorem not_setUp_refused :
    ∃ s tr, exec (traced step) (create 0 (bytes "p"), [])
        [(.init, refuse), (.get (bytes "k"), welcome)] = some (s, tr) ∧
      .data 0 [bytes "GET", bytes "k"] ∈ tr ∧ .auth 0 true ∉ tr ∧ ¬ SetUp (bytes "p") tr := by
  refine ⟨_, _, rfl, by decide, by decide, fun h => ?_⟩
  have hdone := h [.connect 0, .auth 0 false, .init (some 0) (-1), .init (some 0) 0]
    (.data 0 [bytes "GET", bytes "k"]) [] rfl
  exact absurd (hdone.auth (by decide)) (by decide)

end MmorpgServer.Redis
