import MmorpgServer.SkipList.Timer
import MmorpgServer.Lib.PollLoop

/-!
# Handlers that set timers

`expire_timer` in small steps: between the call of a handler and its return, the handler may
call `add_timer` as often as it likes. The node stays first in the list meanwhile, unless the
handler adds a timer that is not later than its own: then `zslDeleteHead` removes the new timer
instead, and the handler is called once more.

## Main definitions

* `Session`, `Session.step` — the timer list, between polls or in a handler
* `Exact` — the account of the timers
* `InOrder` — the timers that a handler has added are later than its own

## Main results

* `exec_of_expireLoop` — the small steps are those of `expire_timer`
* `Behind.add` — which timers stand before the one that fires
* `Survives.step` — one step
* `exact_iff_inOrder` — the runs whose account is in order are those in which handlers add later
  timers only
-/

namespace MmorpgServer.SkipList

open Chain Machine PollLoop

variable {H : Type} {z z' : Zskiplist H} {L : List NodePtr} {held : Multiset NodePtr}
  {tr : List (Event NodePtr)} {p x : NodePtr} {now : UInt32}

/-! ### The machine -/

/-- The variables `now` and `x` of `expire_timer` while a handler runs. -/
structure Handling where
  now : UInt32
  node : NodePtr
  deriving DecidableEq

/-- A timer list; `handling` is `none` between polls -/
structure Session (H : Type) where
  list : Zskiplist H
  handling : Option Handling

/-- The calls of the program: its handlers, or its code between polls. -/
inductive Label (H : Type) where
  /-- `add_timer`, with the outcome of `zslRandomLevel` -/
  | add (currentTime msec : UInt32) (func : H) (level : ℕ)
  /-- `expire_timer` is called -/
  | poll (currentTime : UInt32)
  /-- the handler returns -/
  | ret

/-- The loop of `expire_timer` up to the call of a handler. -/
def enter (now : UInt32) (z : Zskiplist H) : Option (Session H × List (Event NodePtr)) := do
  match ← dueHead now z with
  | none => return (⟨z, none⟩, [.ended now.toNat])
  | some x => return (⟨z, some ⟨now, x⟩⟩, [.fired x])

/-- The calls, with what happens to the nodes. -/
def Session.step (s : Session H) : Label H → Option (Session H × List (Event NodePtr))
  | .add currentTime msec func level =>
    (addTimer s.list currentTime msec func level).map fun r =>
      ({ s with list := r.1 }, [.added r.2])
  | .poll currentTime => enter currentTime s.list
  | .ret => do
    let h ← s.handling
    let head ← zslMin s.list
    let z ← zslDeleteHead s.list
    let (s, evs) ← enter h.now z
    return (s, head.toList.map .removed ++ evs)

/-- The loop of `expire_timer` with handlers that make calls is a run of the session. -/
theorem exec_of_expireLoop {handler : H → NodePtr → Zskiplist H → Option (Zskiplist H)}
    (hhandler : ∀ func x z z' h tr, handler func x z = some z' →
      ∃ calls tr', exec (traced Session.step) (⟨z, h⟩, tr) calls = some (⟨z', h⟩, tr'))
    {fuel : ℕ} {fired : List (Entry H)} (hloop : expireLoop handler now fuel z = some (z', fired)) :
    ∃ s evs, enter now z = some (s, evs) ∧
      ∀ tr, ∃ calls tr', exec (traced Session.step) (s, tr) calls = some (⟨z', none⟩, tr') := by
  induction fuel generalizing z fired with
  | zero => cases hloop
  | succ fuel ih =>
    rw [expireLoop] at hloop
    unfold enter
    obtain ⟨head, hhead, hloop⟩ := Option.bind_eq_some_iff.mp hloop
    rw [hhead]
    cases head with
    | none =>
      obtain ⟨rfl, -⟩ := Prod.mk.inj (Option.some.inj hloop)
      exact ⟨_, _, rfl, fun tr => ⟨[], tr, rfl⟩⟩
    | some x =>
      simp only [Option.bind_eq_bind, Option.bind_eq_some_iff] at hloop
      obtain ⟨n, -, z₁, hcalls, z₂, hdelete, ⟨z₃, fired'⟩, hmore, hlast⟩ := hloop
      obtain ⟨rfl, -⟩ := Prod.mk.inj (Option.some.inj hlast)
      obtain ⟨s, evs, henter, hrest⟩ := ih hmore
      refine ⟨_, _, rfl, fun tr => ?_⟩
      obtain ⟨calls, tr₁, hcalls⟩ := hhandler n.handler x z z₁ (some ⟨now, x⟩) tr hcalls
      -- the handler returns, and the loop goes on with the list that `zslDeleteHead` leaves
      obtain ⟨first, hfirst⟩ : ∃ first, zslMin z₁ = some first := by
        unfold zslDeleteHead at hdelete
        obtain ⟨first, hfirst, -⟩ := Option.bind_eq_some_iff.mp hdelete
        exact ⟨first, hfirst⟩
      obtain ⟨calls', tr', hcalls'⟩ := hrest (tr₁ ++ (first.toList.map .removed ++ evs))
      refine ⟨calls ++ .ret :: calls', tr', exec_append_eq_some.mpr ⟨_, hcalls, ?_⟩⟩
      have hret : Session.step ⟨z₁, some ⟨now, x⟩⟩ .ret =
          some (s, first.toList.map .removed ++ evs) := by
        simp [Session.step, hfirst, hdelete, henter]
      exact (exec_traced_cons hret).mpr hcalls'

/-- A program does not call `expire_timer` in a handler, and `zslRandomLevel` returns a height
that it can return. -/
def Enabled (st : Session H × List (Event NodePtr)) : Label H → Prop
  | .add _ _ _ level => 1 ≤ level ∧ level ≤ zskiplistMaxlevel
  | .poll _ => st.1.handling = none
  | .ret => st.1.handling ≠ none

instance (st : Session H × List (Event NodePtr)) (a : Label H) : Decidable (Enabled st a) :=
  match a with
  | .add .. => inferInstanceAs (Decidable (_ ∧ _))
  | .poll _ => inferInstanceAs (Decidable (_ = none))
  | .ret => inferInstanceAs (Decidable (_ ≠ none))

/-- When a handler returns, the timers that it has added have greater scores than its own. -/
def InOrder (st : Session H × List (Event NodePtr)) : Label H → Prop
  | .ret => ∀ h ∈ st.1.handling, ∀ p ∈ recent st.2, key st.1.list h.node < key st.1.list p
  | _ => True

/-- The nodes that were in the list at first or were added are in the list `L`, or were removed
because their handlers have returned, each of them once. A handler is called for a timer that is
due, and when a poll ends, no timer is due. -/
structure ExactOn (held : Multiset NodePtr) (st : Session H × List (Event NodePtr))
    (L : List NodePtr) : Prop where
  run : Run (forward st.1.list 0) st.1.list.header L
  settled : Settled held st.2 (st.1.handling.map Handling.node) ↑L
  due : ∀ h ∈ st.1.handling, key st.1.list h.node ≤ h.now.toNat
  drained : ∀ now, st.2.getLast? = some (.ended now) → ∀ p ∈ L, now < key st.1.list p

def Exact (held : Multiset NodePtr) (st : Session H × List (Event NodePtr)) : Prop :=
  ∃ L, ExactOn held st L

/-! ### The timers before the one that fires -/

/-- The node `x` of `L` stands right behind the nodes of `new` whose scores are not greater. -/
def Behind (z : Zskiplist H) (new : List NodePtr) (x : NodePtr) (L : List NodePtr) : Prop :=
  ∃ A B, L = A ++ x :: B ∧ ∀ p, p ∈ A ↔ p ∈ new ∧ key z p ≤ key z x

/-- A new node goes before `x` unless its score is greater. -/
theorem Behind.add {new A B : List NodePtr} (h : Behind z new x (A ++ B))
    (hA : ∀ q ∈ A, key z q < key z' p) (hB : ∀ q ∈ B, key z' p ≤ key z q) (hp : p ∉ new)
    (hpx : p ≠ x) (hkey : ∀ q ≠ p, key z' q = key z q) :
    Behind z' (new ++ [p]) x (A ++ p :: B) := by
  obtain ⟨A', B', hsplit, hbefore⟩ := h
  have hold : ∀ q ≠ p, q ∈ A' ↔ q ∈ new ++ [p] ∧ key z' q ≤ key z' x := by
    intro q hq
    rw [hbefore, hkey q hq, hkey x hpx.symm, List.mem_append, List.mem_singleton, or_iff_left hq]
  have hout : p ∉ A' := fun hin => hp ((hbefore p).mp hin).1
  have hnew : p ∈ new ++ [p] := List.mem_append_right new (List.mem_singleton_self p)
  -- either `x` is among the nodes with a score that is not smaller, or behind the place
  have hfirst : ∀ m, A' = A ++ m → B = m ++ x :: B' →
      Behind z' (new ++ [p]) x (A ++ p :: B) := by
    rintro m rfl rfl
    have hle : key z' p ≤ key z' x := by
      rw [hkey x hpx.symm]
      exact hB x (by simp)
    refine ⟨A ++ p :: m, B', by simp, fun q => ?_⟩
    by_cases hq : q = p
    · subst hq
      exact iff_of_true (by simp) ⟨hnew, hle⟩
    · rw [← hold q hq, List.mem_append, List.mem_cons, or_iff_right hq, List.mem_append]
  rcases List.append_eq_append_iff.mp hsplit with ⟨m, hA', hB'⟩ | ⟨m, rfl, hm⟩
  · exact hfirst m hA' hB'
  · cases m with
    | nil => exact hfirst [] (by simp) (by simpa using hm.symm)
    | cons y m =>
      obtain ⟨rfl, rfl⟩ := List.cons.inj hm
      have hlt : key z' x < key z' p := by
        rw [hkey x hpx.symm]
        exact hA x (by simp)
      refine ⟨A', m ++ p :: B, by simp, fun q => ?_⟩
      by_cases hq : q = p
      · subst hq
        exact iff_of_false hout fun hin => hin.2.not_gt hlt
      · exact hold q hq

/-- With later timers only, `x` stays first. -/
theorem Behind.head {new : List NodePtr} (h : Behind z new x L)
    (hlate : ∀ p ∈ new, key z x < key z p) : ∃ L', L = x :: L' := by
  obtain ⟨A, B, rfl, hbefore⟩ := h
  cases A with
  | nil => exact ⟨B, rfl⟩
  | cons p A =>
    obtain ⟨hp, hle⟩ := (hbefore p).mp List.mem_cons_self
    exact absurd (hlate p hp) hle.not_gt

/-- If `x` is first, only later timers are new. -/
theorem Behind.late {new : List NodePtr} (h : Behind z new x L) (hnodup : L.Nodup)
    (hhead : L.head? = some x) : ∀ p ∈ new, key z x < key z p := by
  obtain ⟨A, B, rfl, hbefore⟩ := h
  cases A with
  | nil =>
    intro p hp
    by_contra hle
    exact absurd ((hbefore p).mpr ⟨hp, not_lt.mp hle⟩) List.not_mem_nil
  | cons y A =>
    obtain rfl := Option.some.inj hhead
    exact absurd (List.mem_append_right A List.mem_cons_self) (List.nodup_cons.mp hnodup).1

/-! ### One step -/

/-- What the calls keep as long as handlers add later timers only. -/
structure SurvivesOn (held : Multiset NodePtr) (st : Session H × List (Event NodePtr))
    (L : List NodePtr) : Prop where
  rep : Rep st.1.list L
  sound : Sound held st.2 (st.1.handling.map Handling.node) ↑L
  fresh : ∀ p ∈ held + ↑(added st.2), p < st.1.list.fresh
  known : ∀ p ∈ recent st.2, p < st.1.list.fresh
  behind : ∀ h ∈ st.1.handling, Behind st.1.list (recent st.2) h.node L
  due : ∀ h ∈ st.1.handling, key st.1.list h.node ≤ h.now.toNat
  drained : ∀ now, st.2.getLast? = some (.ended now) → ∀ p ∈ L, now < key st.1.list p

def Survives (held : Multiset NodePtr) (st : Session H × List (Event NodePtr)) : Prop :=
  ∃ L, SurvivesOn held st L

theorem SurvivesOn.exact {st : Session H × List (Event NodePtr)} (h : SurvivesOn held st L) :
    Exact held st := by
  have hrun := h.rep.chain 0 (by decide)
  rw [h.rep.onLevel_zero fun _ hp => hp] at hrun
  exact ⟨L, hrun, h.sound.toSettled, h.due, h.drained⟩

/-- The loop goes on, or ends with no timer due. -/
theorem survives_enter (hrep : Rep z L) (hsound : Sound held tr none ↑L)
    (hfresh : ∀ p ∈ held + ↑(added tr), p < z.fresh) (hknown : ∀ p ∈ recent tr, p < z.fresh)
    (now : UInt32) :
    ∃ s evs, enter now z = some (s, evs) ∧ Survives held (s, tr ++ evs) := by
  unfold enter
  rcases dueHead_cases hrep now with ⟨hhead, hlate⟩ | ⟨x, L', rfl, hhead, hdue⟩
  · rw [hhead]
    refine ⟨_, _, rfl, L, hrep, hsound.finish _, ?_, ?_, by rintro _ ⟨⟩, by rintro _ ⟨⟩,
      last_ended hlate⟩
    · rw [added_concat fun _ => by rintro ⟨⟩]
      exact hfresh
    · rw [recent_concat_ended]
      exact hknown
  · rw [hhead]
    refine ⟨_, _, rfl, x :: L', hrep, hsound.fire (by simp), ?_, ?_, ?_, ?_,
      last_of_ne_ended fun _ => by rintro ⟨⟩⟩
    · rw [added_concat fun _ => by rintro ⟨⟩]
      exact hfresh
    · rw [recent_concat_fired]
      exact fun p hp => absurd hp List.not_mem_nil
    · rintro _ ⟨⟩
      refine ⟨[], L', rfl, fun p => ?_⟩
      rw [recent_concat_fired]
      exact iff_of_false List.not_mem_nil fun hin => List.not_mem_nil hin.1
    · rintro _ ⟨⟩
      exact hdue

/-- A new timer keeps its place among those before the one that fires. -/
theorem SurvivesOn.add {handling : Option Handling} {level : ℕ}
    (h : SurvivesOn held (⟨z, handling⟩, tr) L)
    (hlevel : 1 ≤ level ∧ level ≤ zskiplistMaxlevel) (currentTime msec : UInt32) (func : H) :
    ∃ s evs, Session.step ⟨z, handling⟩ (.add currentTime msec func level) = some (s, evs) ∧
      Survives held (s, tr ++ evs) := by
  obtain ⟨hrep, hsound, hfresh, hknown, hbehind, hdue, -⟩ := h
  obtain ⟨z', A, B, hinsert, rfl, hA, hB, hrep', hfresh', hself, hrest⟩ :=
    zslInsert_spec hrep hlevel.1 hlevel.2 (msec + currentTime).toUInt64 func
  have hkey : key z' z.fresh = (msec + currentTime).toUInt64.toNat := by
    obtain ⟨n, hn, hshape⟩ := Option.map_eq_some_iff.mp hself
    rw [key_of_score (score_of_node hn), show n.score = _ from congrArg Prod.fst hshape]
  have hkeys : ∀ q ≠ z.fresh, key z' q = key z q := fun q hq => key_congr (hrest q hq)
  have hnew : z.fresh ∉ held + ↑(added tr) := fun hin => (hfresh _ hin).ne rfl
  have hlist : ((A ++ z.fresh :: B : List NodePtr) : Multiset NodePtr) =
      z.fresh ::ₘ ↑(A ++ B) := Multiset.coe_eq_coe.mpr List.perm_middle
  have hhandled : ∀ f ∈ handling, f.node ≠ z.fresh := by
    rintro f rfl
    exact hrep.ne_fresh (List.mem_cons_of_mem _ (hsound.present f.node rfl))
  refine ⟨⟨z', handling⟩, [.added z.fresh], ?_, A ++ z.fresh :: B, hrep', ?_, ?_, ?_,
    fun f hf => ?_, fun f hf => ?_, last_of_ne_ended fun _ => by rintro ⟨⟩⟩
  · rw [Session.step, addTimer, hinsert]
    rfl
  · rw [hlist]
    exact hsound.add hnew
  · change ∀ p ∈ held + ↑(added (tr ++ [.added z.fresh])), p < z'.fresh
    rw [hfresh']
    exact added_lt_succ hfresh
  · change ∀ p ∈ recent (tr ++ [.added z.fresh]), p < z'.fresh
    rw [recent_concat_added, hfresh']
    intro p hp
    rcases List.mem_append.mp hp with hp | hp
    · exact Nat.lt_succ_of_lt (hknown p hp)
    · rw [List.mem_singleton.mp hp]
      exact Nat.lt_succ_self _
  · change Behind z' (recent (tr ++ [.added z.fresh])) _ _
    rw [recent_concat_added]
    refine (hbehind f hf).add ?_ ?_ (fun hin => (hknown _ hin).ne rfl) (hhandled f hf).symm hkeys
    · rw [hkey]
      exact hA
    · rw [hkey]
      exact hB
  · change key z' f.node ≤ _
    rw [hkeys f.node (hhandled f hf)]
    exact hdue f hf

/-- The node of the handler that returns is removed if the timers that it has added are later. -/
theorem SurvivesOn.ret {f : Handling} (h : SurvivesOn held (⟨z, some f⟩, tr) L)
    (hlate : ∀ p ∈ recent tr, key z f.node < key z p) :
    ∃ s evs, Session.step ⟨z, some f⟩ .ret = some (s, evs) ∧ Survives held (s, tr ++ evs) := by
  obtain ⟨hrep, hsound, hfresh, hknown, hbehind, -, -⟩ := h
  -- the node that fires is still first
  obtain ⟨L', rfl⟩ := (hbehind f rfl).head hlate
  obtain ⟨z', hdelete, hrep', hfresh', -⟩ := zslDeleteHead_spec hrep
  obtain ⟨s, evs, henter, h'⟩ := survives_enter hrep' (Sound.remove hsound) (by
    rw [added_concat fun _ => by rintro ⟨⟩, hfresh']
    exact hfresh) (by
    rw [recent_concat_removed, hfresh']
    exact hknown) f.now
  refine ⟨s, .removed f.node :: evs, ?_, ?_⟩
  · simp [Session.step, hrep.zslMin_eq, hdelete, henter]
  · rw [List.append_assoc] at h'
    exact h'

/-- One call, in which a handler that returns has added later timers only. -/
theorem Survives.step {st : Session H × List (Event NodePtr)} (h : Survives held st)
    {a : Label H} (henabled : Enabled st a) (horder : InOrder st a) :
    ∃ st', traced Session.step st a = some st' ∧ Survives held st' := by
  obtain ⟨⟨z, handling⟩, tr⟩ := st
  obtain ⟨L, h⟩ := h
  suffices hone : ∃ s evs, Session.step ⟨z, handling⟩ a = some (s, evs) ∧
      Survives held (s, tr ++ evs) by
    obtain ⟨s, evs, hone, h'⟩ := hone
    exact ⟨_, traced_eq_some.mpr ⟨s, evs, hone, rfl⟩, h'⟩
  cases a with
  | add currentTime msec func level => exact h.add henabled currentTime msec func
  | poll currentTime =>
    obtain rfl : handling = none := henabled
    exact survives_enter h.rep h.sound h.fresh h.known currentTime
  | ret =>
    obtain ⟨f, rfl⟩ : ∃ f, handling = some f := Option.ne_none_iff_exists'.mp henabled
    exact h.ret (horder f rfl)

/-- A handler that returns with an earlier timer breaks the account. -/
theorem inOrder_of_settled {s s' : Session H} {evs : List (Event NodePtr)} {a : Label H}
    (h : SurvivesOn held (s, tr) L) (hone : s.step a = some (s', evs))
    {left : Multiset NodePtr}
    (h' : Settled held (tr ++ evs) (s'.handling.map Handling.node) left) :
    InOrder (s, tr) a := by
  cases a with
  | ret =>
    intro f hf
    have hsettled := h.sound.toSettled
    have hbehind := h.behind f hf
    obtain ⟨z', hdelete, -⟩ := zslDeleteHead_spec h.rep
    obtain ⟨z, handling⟩ := s
    obtain rfl : handling = some f := hf
    cases L with
    | nil => exact absurd (h.sound.present f.node rfl) (Multiset.notMem_zero _)
    | cons y L =>
      simp only [Session.step, h.rep.zslMin_eq, hdelete, Option.bind_eq_bind, Option.bind_some,
        List.head?_cons, Option.bind_eq_some_iff] at hone
      obtain ⟨⟨s₁, evs₁⟩, -, hlast⟩ := hone
      obtain ⟨rfl, rfl⟩ := Prod.mk.inj (Option.some.inj hlast)
      -- the node that was removed is the one that fired
      obtain rfl := hsettled.eq_of_removed h'
      exact hbehind.late (List.nodup_cons.mp h.rep.nodup).2 rfl
  | _ => trivial

/-! ### Runs -/

/-- Start with any list that a program can build, and take any sequence of calls of `add_timer`,
in handlers and between polls, at any clock readings and with any heights. The account stays in
order if and only if no handler returns after it has added a timer whose score is not greater
than its own. -/
theorem exact_iff_inOrder (defaultHandler : H) (acts₀ : List (Act H)) (z₀ : Zskiplist H)
    (L₀ : List NodePtr) (hstart : exec step (zslCreate defaultHandler) acts₀ = some z₀)
    (hL₀ : Run (forward z₀ 0) z₀.header L₀) (acts : List (Label H))
    (henabled : Guarded (traced Session.step) Enabled (⟨z₀, none⟩, []) acts) :
    Throughout (traced Session.step) (Exact ↑L₀) (⟨z₀, none⟩, []) acts ↔
      Guarded (traced Session.step) InOrder (⟨z₀, none⟩, []) acts := by
  obtain ⟨L, hrep⟩ := rep_exec hstart
  obtain rfl := hrep.unique hL₀
  have hstart : SurvivesOn ↑L₀ (⟨z₀, none⟩, []) L₀ := by
    refine ⟨hrep, Sound.init (Multiset.coe_nodup.mpr (List.nodup_cons.mp hrep.nodup).2), ?_, ?_,
      by rintro _ ⟨⟩, by rintro _ ⟨⟩, by rintro _ ⟨⟩⟩
    · intro p hp
      obtain ⟨n, hn⟩ := hrep.exists_node (p := p) (by simpa [added] using hp)
      exact hrep.known p n hn
    · exact fun p hp => absurd hp List.not_mem_nil
  refine throughout_iff_guarded (I := Survives ↑L₀) (fun st a henabled horder h _ => ?_)
    (fun st a st' _ h _ hone h' => ?_) henabled ⟨L₀, hstart⟩ hstart.exact
  · obtain ⟨st', hone, L', h'⟩ := h.step henabled horder
    exact ⟨st', hone, ⟨L', h'⟩, h'.exact⟩
  · obtain ⟨L, h⟩ := h
    obtain ⟨L', hexact⟩ := h'
    obtain ⟨s', evs, hcall, rfl⟩ := traced_eq_some.mp hone
    exact inOrder_of_settled h hcall hexact.settled

/-- A handler adds a later timer. -/
theorem exact_iff_inOrder_later :
    let acts : List (Label Unit) := [.add 0 5 () 1, .poll 5, .add 5 1 () 1, .ret]
    Throughout (traced Session.step) (Exact 0) (⟨zslCreate (), none⟩, []) acts ↔
      Guarded (traced Session.step) InOrder (⟨zslCreate (), none⟩, []) acts :=
  exact_iff_inOrder () [] _ [] rfl rfl _ (by decide)

/-- A handler adds a timer without delay while the clock still shows the score of its own timer:
the new timer is removed instead, and the handler is called again. -/
theorem not_exact_tie :
    let acts : List (Label Unit) := [.add 0 5 () 1, .poll 5, .add 5 0 () 1, .ret]
    Guarded (traced Session.step) Enabled (⟨zslCreate (), none⟩, []) acts ∧
      (exec (traced Session.step) (⟨zslCreate (), none⟩, []) acts).map Prod.snd =
        some [.added 1, .fired 1, .added 2, .removed 2, .fired 1] ∧
      ¬ Throughout (traced Session.step) (Exact 0) (⟨zslCreate (), none⟩, []) acts := by
  intro acts
  have htrace : (exec (traced Session.step) (⟨zslCreate (), none⟩, []) acts).map Prod.snd =
      some [.added 1, .fired 1, .added 2, .removed 2, .fired 1] := rfl
  refine ⟨by decide, htrace, fun h => ?_⟩
  obtain ⟨u, hu, L, hexact⟩ := h.exec
  rw [hu] at htrace
  have honce := hexact.settled.once
  rw [Option.some.inj htrace] at honce
  exact absurd honce (by decide)

end MmorpgServer.SkipList
