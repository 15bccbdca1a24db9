import MmorpgServer.TimeWheel.Punctuality

/-!
# The time wheel and the clock

`expire_timer` reads the clock and calls `timer_update` once for each hundredth of a second that
has passed since the last reading. `add_timer` counts the delay from `TI->time`, not from the
clock: the wheel is behind the clock by what has passed since the last poll, and by the rounds
that a poll has still to make. A timer that is added meanwhile is dispatched by as much too early,
unless the wheel is as much behind again when it is dispatched.

## Main definitions

* `State`, `Act`, `step` — the wheel, the clock and `expire_timer`
* `Honoured` — no callback is invoked by a poll that read the clock too early
* `wheelTime` — the time that the wheel has reached
* `CaughtUp` — the wheel has reached the time of the clock

## Main results

* `delay_honoured_iff` — when the delay is honoured
* `delay_not_honoured` — a timer that is added before a late poll
-/

namespace MmorpgServer.TimeWheel.RealTime

open Machine Trace

variable {H : Type*}

/-! ### The machine -/

structure State (H : Type*) where
  wheel : TimeWheel.State H
  /-- `TI->current_point` -/
  currentPoint : UInt64
  /-- what `gettime` returns -/
  clock : UInt64
  /-- the rounds that the loop of `expire_timer` has still to make, when it runs -/
  rounds : Option ℕ

inductive Act (H : Type*) where
  /-- time goes by -/
  | advance (t : UInt64)
  /-- `expire_timer` is called, up to its loop -/
  | expire
  /-- the loop of `expire_timer` ends -/
  | finish
  /-- a step of the wheel: a round of the loop is one with `update`, `dispatch` and `resume` -/
  | wheel (a : TimeWheel.Act H)

/-- An event, with the clock and with what the last poll has read, which is the running one when a
node is dispatched. -/
structure Stamped where
  event : Event
  clock : UInt64
  reading : UInt64
  deriving DecidableEq

/-- The rounds to go when `timer_update` has been entered, which only the loop does. -/
def spend : TimeWheel.Act H → Option ℕ → Option (Option ℕ)
  | .update, some (k + 1) => some (some k)
  | .update, _ => none
  | _, rounds => some rounds

/-- One step; `none` when the step is not enabled. -/
def step (s : State H) : Act H → Option (State H × List Stamped)
  | .advance t => if s.clock ≤ t then some ({ s with clock := t }, []) else none
  | .expire =>
    match s.rounds with
    | some _ => none
    | none =>
      let cp := s.clock
      if cp ≠ s.currentPoint then
        let diff := (cp - s.currentPoint).toUInt32
        some ({ s with currentPoint := cp, rounds := some diff.toNat }, [])
      else some (s, [])
  | .finish =>
    match s.rounds, s.wheel.ticker with
    | some 0, .idle => some ({ s with rounds := none }, [])
    | _, _ => none
  | .wheel a =>
    match spend a s.rounds, TimeWheel.step s.wheel a with
    | some rounds, some (wheel, evs) =>
      some ({ s with wheel := wheel, rounds := rounds },
        evs.map fun e => ⟨e, s.clock, s.currentPoint⟩)
    | _, _ => none

/-- `init_timer`, when the clock reads `start` -/
def initTimer (start : UInt64) (memory : NodeId → TimerNode H) : State H where
  wheel := TimeWheel.initTimer memory
  currentPoint := start
  clock := start
  rounds := none

/-! ### The delay in real time -/

/-- The callback of a timer that was added with the delay `d`, when the clock read `c`, is not
invoked by a poll that read less than `c + d`. -/
def Honoured (tr : List Stamped) : Prop :=
  ∀ pre n t p post, tr = pre ++ ⟨.dispatched n true, t, p⟩ :: post →
    ∀ before d c r between, pre = before ++ ⟨.added n d, c, r⟩ :: between →
      c.toNat + d.toNatClampNeg ≤ p.toNat

/-- How often the wheel has ticked. -/
def ticks (tr : List Stamped) : ℕ := (tr.map Stamped.event).count .tick

/-- The time that the wheel has reached. -/
def wheelTime (start : UInt64) (tr : List Stamped) : ℕ := start.toNat + ticks tr

/-- At each callback that is invoked, the wheel is as far behind the reading of the poll as it was
behind the clock when the timer was added, or further. -/
def NoNearer (start : UInt64) (tr : List Stamped) : Prop :=
  ∀ pre n t p post, tr = pre ++ ⟨.dispatched n true, t, p⟩ :: post →
    ∀ before d c r between, pre = before ++ ⟨.added n d, c, r⟩ :: between →
      (c.toNat : ℤ) - wheelTime start before ≤ p.toNat - wheelTime start pre

/-- `add_timer` is called when the last poll has read what the clock reads, and has no rounds to
go. -/
def CaughtUp (s : State H) : Act H → Prop
  | .wheel (.add ..) => s.clock = s.currentPoint ∧ s.rounds.getD 0 = 0
  | _ => True

variable {start : UInt64} {memory : NodeId → TimerNode H} {s s' : State H} {a : Act H}
  {tr tr' evs : List Stamped} {acts : List (Act H)}

theorem ticks_append : ticks (tr ++ tr') = ticks tr + ticks tr' := by
  simp [ticks]

/-- What a step of the wheel does is stamped. -/
theorem step_wheel {w : TimeWheel.Act H} (hstep : step s (.wheel w) = some (s', evs)) :
    ∃ rounds wheel es, spend w s.rounds = some rounds ∧
      TimeWheel.step s.wheel w = some (wheel, es) ∧
      s' = { s with wheel := wheel, rounds := rounds } ∧
      evs = es.map fun e => ⟨e, s.clock, s.currentPoint⟩ := by
  dsimp only [step] at hstep
  split at hstep
  · rename_i rounds wheel es hspend hone
    obtain ⟨rfl, rfl⟩ := Prod.mk.inj (Option.some.inj hstep)
    exact ⟨rounds, wheel, es, hspend, hone, rfl, rfl⟩
  · cases hstep

theorem map_event (es : List Event) (c r : UInt64) :
    (es.map fun e => (⟨e, c, r⟩ : Stamped)).map Stamped.event = es := by
  rw [List.map_map]
  exact List.map_id es

/-- The other steps leave the wheel alone. -/
theorem step_others (ha : ∀ w, a ≠ .wheel w) (hstep : step s a = some (s', evs)) :
    s'.wheel = s.wheel ∧ evs = [] := by
  cases a with
  | advance t =>
    dsimp only [step] at hstep
    split_ifs at hstep
    obtain ⟨rfl, rfl⟩ := Prod.mk.inj (Option.some.inj hstep)
    exact ⟨rfl, rfl⟩
  | expire =>
    dsimp only [step] at hstep
    split at hstep
    · cases hstep
    · split_ifs at hstep
      · obtain ⟨rfl, rfl⟩ := Prod.mk.inj (Option.some.inj hstep)
        exact ⟨rfl, rfl⟩
      · obtain ⟨rfl, rfl⟩ := Prod.mk.inj (Option.some.inj hstep)
        exact ⟨rfl, rfl⟩
  | finish =>
    dsimp only [step] at hstep
    split at hstep
    · obtain ⟨rfl, rfl⟩ := Prod.mk.inj (Option.some.inj hstep)
      exact ⟨rfl, rfl⟩
    · cases hstep
  | wheel w => exact absurd rfl (ha w)

/-- The wheel runs as it does without the clock. -/
def Underlying (memory : NodeId → TimerNode H) (st : State H × List Stamped) : Prop :=
  ∃ ws, exec (traced TimeWheel.step) (TimeWheel.initTimer memory, []) ws =
    some (st.1.wheel, st.2.map Stamped.event)

theorem Underlying.step (h : Underlying memory (s, tr)) (hstep : step s a = some (s', evs)) :
    Underlying memory (s', tr ++ evs) := by
  obtain ⟨ws, hws⟩ := h
  by_cases ha : ∀ w, a ≠ .wheel w
  · obtain ⟨hwheel, rfl⟩ := step_others ha hstep
    exact ⟨ws, by rw [hws, List.append_nil, hwheel]⟩
  · push Not at ha
    obtain ⟨w, rfl⟩ := ha
    obtain ⟨rounds, wheel, es, -, hone, rfl, rfl⟩ := step_wheel hstep
    refine ⟨ws ++ [w], exec_append_eq_some.mpr ⟨_, hws, exec_cons_eq_some.mpr ⟨_, ?_, rfl⟩⟩⟩
    refine traced_eq_some.mpr ⟨wheel, es, hone, ?_⟩
    rw [List.map_append, map_event]

theorem underlying_exec
    (hrun : exec (traced step) (initTimer start memory, []) acts = some (s, tr)) :
    Underlying memory (s, tr) := by
  refine exec_invariant (I := Underlying memory) ?_ ⟨[], rfl⟩ hrun
  rintro ⟨s, tr⟩ a st h hone
  obtain ⟨s', evs, hstep, rfl⟩ := traced_eq_some.mp hone
  exact h.step hstep

/-- A timer is dispatched when the wheel has ticked as often as its delay says. -/
theorem Underlying.ticks (h : Underlying memory (s, tr)) {pre post before between : List Stamped}
    {n : NodeId} {invoked : Bool} {t p c r : UInt64} {d : Int32}
    (htr : tr = pre ++ ⟨.dispatched n invoked, t, p⟩ :: post)
    (hpre : pre = before ++ ⟨.added n d, c, r⟩ :: between) :
    ticks pre = ticks before + d.toNatClampNeg := by
  obtain ⟨ws, hws⟩ := h
  have hpunctual := (dispatch_punctual hws).2 (pre.map Stamped.event) n invoked
    (post.map Stamped.event) (by rw [htr, List.map_append]; rfl)
  have hbetween := hpunctual.2 (before.map Stamped.event) d (between.map Stamped.event)
    (by rw [hpre, List.map_append]; rfl)
  rw [hpre]
  unfold RealTime.ticks
  rw [List.map_append, List.count_append, List.map_cons, List.count_cons_of_ne (by simp), hbetween]

/-! ### A wheel that has caught up -/

/-- The clock does not fall behind the last reading, and a poll makes no more rounds than time has
passed since the reading before. -/
theorem step_others_behind (ha : ∀ w, a ≠ .wheel w) (hbehind : s.currentPoint ≤ s.clock)
    (hstep : step s a = some (s', evs)) :
    s'.currentPoint ≤ s'.clock ∧
      s.currentPoint.toNat + s'.rounds.getD 0 ≤ s'.currentPoint.toNat + s.rounds.getD 0 := by
  cases a with
  | advance t =>
    dsimp only [step] at hstep
    split_ifs at hstep with hle
    obtain ⟨rfl, rfl⟩ := Prod.mk.inj (Option.some.inj hstep)
    exact ⟨UInt64.le_trans hbehind hle, le_rfl⟩
  | expire =>
    dsimp only [step] at hstep
    split at hstep
    · cases hstep
    · rename_i hrounds
      rw [hrounds]
      split_ifs at hstep with hpoint
      · obtain ⟨rfl, rfl⟩ := Prod.mk.inj (Option.some.inj hstep)
        refine ⟨UInt64.le_refl _, ?_⟩
        -- the difference is cut to 32 bits, which makes it no greater
        have hdiff : (s.clock - s.currentPoint).toUInt32.toNat ≤
            s.clock.toNat - s.currentPoint.toNat := by
          rw [UInt64.toNat_toUInt32, ← UInt64.toNat_sub_of_le _ _ hbehind]
          exact Nat.mod_le _ _
        have hle := UInt64.le_iff_toNat_le.mp hbehind
        simp only [Option.getD_some, Option.getD_none]
        omega
      · obtain ⟨rfl, rfl⟩ := Prod.mk.inj (Option.some.inj hstep)
        exact ⟨hbehind, by rw [hrounds]⟩
  | finish =>
    dsimp only [step] at hstep
    split at hstep
    · rename_i hrounds _
      obtain ⟨rfl, rfl⟩ := Prod.mk.inj (Option.some.inj hstep)
      exact ⟨hbehind, by simp [hrounds]⟩
    · cases hstep
  | wheel w => exact absurd rfl (ha w)

/-- Each round ticks once, and nothing else does. -/
theorem spend_ticks {w w' : TimeWheel.State H} {act : TimeWheel.Act H} {es : List Event}
    {rounds rounds' : Option ℕ} (hmove : Move w act w' es)
    (hspend : spend act rounds = some rounds') :
    es.count .tick + rounds'.getD 0 = rounds.getD 0 := by
  cases hmove with
  | update =>
    match rounds, hspend with
    | some (k + 1), hspend =>
      obtain rfl := Option.some.inj hspend
      simp [Nat.add_comm]
  | clear =>
    obtain rfl := Option.some.inj hspend
    rw [List.count_eq_zero.mpr (by simp), Nat.zero_add]
  | immediate | add | del | dispatch | finish =>
    obtain rfl := Option.some.inj hspend
    simp

theorem adds_of_added {w w' : TimeWheel.State H} {act : TimeWheel.Act H} {es : List Event}
    {n : NodeId} {d : Int32} (hmove : Move w act w' es) (h : .added n d ∈ es) :
    ∃ time func threadid, act = .add time func threadid := by
  cases hmove with
  | add time func threadid => exact ⟨time, func, threadid, rfl⟩
  | immediate | del | update | dispatch | finish | clear => simp at h

/-- What a run of timers that are added when the wheel has caught up keeps. -/
structure Sound (memory : NodeId → TimerNode H) (st : State H × List Stamped) : Prop where
  run : Underlying memory st
  behind : st.1.currentPoint ≤ st.1.clock
  /-- the last reading is as far ahead of the wheel as when the timer was added, or further -/
  added : ∀ before n d c r post, st.2 = before ++ ⟨.added n d, c, r⟩ :: post →
    c.toNat + ticks st.2 + st.1.rounds.getD 0 ≤ st.1.currentPoint.toNat + ticks before
  honoured : Honoured st.2

/-- The events of a step are stamped alike. -/
theorem mem_stamped {es : List Event} {e : Event} {c r t p : UInt64}
    (h : (⟨e, t, p⟩ : Stamped) ∈ es.map fun e => ⟨e, c, r⟩) : e ∈ es ∧ t = c ∧ p = r := by
  obtain ⟨e', he, heq⟩ := List.mem_map.mp h
  obtain ⟨rfl, rfl, rfl⟩ := Stamped.mk.inj heq
  exact ⟨he, rfl, rfl⟩

theorem ticks_stamped (es : List Event) (c r : UInt64) :
    ticks (es.map fun e => ⟨e, c, r⟩) = es.count .tick := by
  unfold ticks
  rw [map_event]

section Wheel

variable {w : TimeWheel.Act H} {wheel : TimeWheel.State H} {es : List Event} {rounds : Option ℕ}

/-- The wheel makes up for a reading round by round, and a timer is added when there is nothing to
make up for. -/
theorem Sound.added_wheel (h : Sound memory (s, tr)) (hguard : CaughtUp s (.wheel w))
    (hspend : spend w s.rounds = some rounds) (hmove : Move s.wheel w wheel es)
    {before post : List Stamped} {n : NodeId} {d : Int32} {c r : UInt64}
    (htr : tr ++ (es.map fun e => ⟨e, s.clock, s.currentPoint⟩) =
      before ++ ⟨.added n d, c, r⟩ :: post) :
    c.toNat + ticks (tr ++ es.map fun e => ⟨e, s.clock, s.currentPoint⟩) + rounds.getD 0 ≤
      s.currentPoint.toNat + ticks before := by
  have hticks := spend_ticks hmove hspend
  rw [ticks_append, ticks_stamped]
  rcases split_append htr with ⟨mid, hold⟩ | ⟨mid, rfl, hnew⟩
  · have hadded := h.added before n d c r mid hold
    dsimp only at hadded
    omega
  · -- the timer is added now: its events are its only ones
    obtain ⟨he, rfl, rfl⟩ := mem_stamped (hnew ▸ List.mem_append_right mid List.mem_cons_self)
    obtain rfl := hmove.added he
    have hcaught : s.clock = s.currentPoint ∧ s.rounds.getD 0 = 0 := by
      obtain ⟨time, func, threadid, rfl⟩ := adds_of_added hmove List.mem_cons_self
      exact hguard
    have hcount : [Event.added n d].count .tick = 0 := by simp
    rw [ticks_append, hcaught.1]
    omega

/-- A node is dispatched when the wheel has ticked as often as its delay says, which is by then no
later than the last reading. -/
theorem Sound.honoured_wheel {due : NodeId → ℕ} {now : ℕ} {st : State H}
    (h : Sound memory (s, tr)) (hgood : Good s.wheel due now) (hmove : Move s.wheel w wheel es)
    (hrun : Underlying memory (st, tr ++ es.map fun e => ⟨e, s.clock, s.currentPoint⟩)) :
    Honoured (tr ++ es.map fun e => ⟨e, s.clock, s.currentPoint⟩) := by
  intro pre n t p post htr before d c r between hpre
  rcases split_append htr with ⟨mid, hold⟩ | ⟨mid, rfl, hnew⟩
  · exact h.honoured pre n t p mid hold before d c r between hpre
  · -- the node is dispatched now, which is the first event of the step
    obtain ⟨he, rfl, rfl⟩ := mem_stamped (hnew ▸ List.mem_append_right mid List.mem_cons_self)
    obtain ⟨-, -, -, hes⟩ := hmove.dispatched hgood he
    have hmid : mid = [] := by
      rw [hes] at hnew
      have hrest : (⟨.dispatched n true, s.clock, s.currentPoint⟩ : Stamped) ∉
          [⟨.freed n, s.clock, s.currentPoint⟩] := by simp
      exact ((List.append_cons_inj_of_notMem List.not_mem_nil hrest).mp hnew).1.symm
    subst hmid
    rw [List.append_nil] at hpre
    have hdue := hrun.ticks htr (by rw [List.append_nil, hpre])
    rw [List.append_nil] at hdue
    have hadded := h.added before n d c r between hpre
    dsimp only at hadded
    omega

end Wheel

theorem Sound.step (h : Sound memory (s, tr)) (hguard : CaughtUp s a)
    (hstep : step s a = some (s', evs)) : Sound memory (s', tr ++ evs) := by
  have hrun := h.run.step hstep
  by_cases ha : ∀ w, a ≠ .wheel w
  · obtain ⟨hbehind, hpoint⟩ := step_others_behind ha h.behind hstep
    obtain ⟨-, rfl⟩ := step_others ha hstep
    rw [List.append_nil] at hrun ⊢
    refine ⟨hrun, hbehind, fun before n d c r post htr => ?_, h.honoured⟩
    have hadded := h.added before n d c r post htr
    dsimp only at hadded hpoint ⊢
    omega
  · push Not at ha
    obtain ⟨w, rfl⟩ := ha
    obtain ⟨rounds, wheel, es, hspend, hone, rfl, rfl⟩ := step_wheel hstep
    obtain ⟨ws, hws⟩ := h.run
    obtain ⟨due, hgood, -⟩ := ledger_exec hws
    have hmove := hgood.move hone
    refine ⟨hrun, h.behind, fun before n d c r post htr => ?_, ?_⟩
    · exact h.added_wheel hguard hspend hmove htr
    · exact h.honoured_wheel hgood hmove hrun

/-! ### Runs -/

/-- **When the delay is honoured.** In every run of adders, polls and a clock that does not go
back: no callback is invoked by a poll that read less than the clock at its `add_timer` plus its
delay, iff at each callback that is invoked the wheel is no nearer to the reading of the poll
than it was to the clock at the `add_timer`. It is honoured if each `add_timer` is called when
the last poll has read what the clock reads and has no rounds to go. -/
theorem delay_honoured_iff (start : UInt64) (memory : NodeId → TimerNode H)
    (acts : List (Act H)) {s : State H} {tr : List Stamped}
    (hrun : exec (traced step) (initTimer start memory, []) acts = some (s, tr)) :
    (Honoured tr ↔ NoNearer start tr) ∧
      (Guarded (traced step) (fun st => CaughtUp st.1) (initTimer start memory, []) acts →
        Honoured tr) := by
  constructor
  · have hunder := underlying_exec hrun
    refine forall₅_congr fun pre n t p post => forall_congr' fun htr =>
      forall₅_congr fun before d c r between => forall_congr' fun hpre => ?_
    have hticks := hunder.ticks htr hpre
    unfold wheelTime
    rw [hticks]
    push_cast
    omega
  · intro hguard
    have hinit : Sound memory (initTimer start memory, []) := by
      refine ⟨⟨[], rfl⟩, UInt64.le_refl _, ?_, ?_⟩
      · intro before n d c r post htr
        simp at htr
      · intro pre n t p post htr
        simp at htr
    have hsound : Sound memory (s, tr) := by
      refine exec_invariant_of_guarded (I := Sound memory) ?_ hguard hinit hrun
      rintro ⟨s, tr⟩ a st hguard h hone
      obtain ⟨s', evs, hstep, rfl⟩ := traced_eq_some.mp hone
      exact h.step hguard hstep
    exact hsound.honoured

/-- A timer with delay `1` that is added at time `100`, and polls at `100` and `101`. -/
theorem delay_honoured_iff_one : ∃ (s : State Unit) (tr : List Stamped),
    exec (traced step) (initTimer 99 fun _ => ⟨0, (), 0, 0⟩, [])
      [.advance 100, .expire, .wheel .update, .finish, .wheel (.add 1 () 7), .advance 101,
        .expire, .wheel .update, .wheel .dispatch, .wheel .resume, .finish] = some (s, tr) ∧
    ⟨.added 0 1, 100, 100⟩ ∈ tr ∧ ⟨.dispatched 0 true, 101, 101⟩ ∈ tr ∧ Honoured tr := by
  refine ⟨_, _, rfl, by decide, by decide, (delay_honoured_iff 99
    (fun _ => ⟨0, (), 0, 0⟩) [.advance 100, .expire, .wheel .update, .finish,
      .wheel (.add 1 () 7), .advance 101, .expire, .wheel .update, .wheel .dispatch,
      .wheel .resume, .finish] rfl).2 ?_⟩
  refine .cons trivial rfl (.cons trivial rfl (.cons trivial rfl (.cons trivial rfl ?_)))
  refine .cons ⟨rfl, rfl⟩ rfl (.cons trivial rfl (.cons trivial rfl (.cons trivial rfl ?_)))
  exact .cons trivial rfl (.cons trivial rfl (.cons trivial rfl trivial))

/-- The clock has gone from `0` to `100` since the last poll: a timer with delay `1` that is added
now is invoked by the poll that reads `100`. -/
theorem delay_not_honoured :
    ¬ (∀ (start : UInt64) (acts : List (Act Unit)) (s : State Unit) (tr : List Stamped),
      exec (traced step) (initTimer start fun _ => ⟨0, (), 0, 0⟩, []) acts = some (s, tr) →
      Honoured tr) := by
  intro h
  have honoured := h 0 [.advance 100, .wheel (.add 1 () 7), .expire, .wheel .update,
    .wheel .dispatch] _ _ rfl
  have hle := honoured [⟨.added 0 1, 100, 0⟩, ⟨.update, 100, 100⟩, ⟨.tick, 100, 100⟩] 0 100 100
    [⟨.freed 0, 100, 100⟩] (by decide) [] 1 100 0 [⟨.update, 100, 100⟩, ⟨.tick, 100, 100⟩] rfl
  exact absurd hle (by decide)

end MmorpgServer.TimeWheel.RealTime
