import MmorpgServer.TimeWheel.Invariant
import MmorpgServer.Lib.Machine
import MmorpgServer.Lib.Trace

/-!
# Runs of the time wheel

Between two critical sections the list that is due now is empty, so the first
`timer_execute` of an update never finds a batch and every update makes exactly one tick.
`Move` says what each step then does, and `Good` is the invariant it keeps, with the
deadline of every node and the number of ticks made so far.

## Main definitions

* `Good` — the invariant between critical sections
* `Move` — the steps of a good machine
* `Live` — the node is in hand or stands in a list that is emptied some day

## Main results

* `Good.move` — every step of a good machine is one of these
* `Move.good` — and keeps it good
* `Move.live`, `Move.stuck` — a live node stays live until it is dispatched; a node in a
  dead list stays there
-/

namespace MmorpgServer.TimeWheel

open Machine

variable {H : Type*} {s s' : State H} {due : NodeId → ℕ} {now : ℕ} {n m : NodeId}
  {act : Act H} {evs : List Event}

/-- The rest of the detached batch. -/
def inHand : Ticker → List NodeId
  | .idle => []
  | .dispatching _ batch => batch

/-- The invariant between critical sections: after `now` ticks, with the deadlines `due`. -/
structure Good (s : State H) (due : NodeId → ℕ) (now : ℕ) : Prop where
  filed : Filed s.wheel due now
  served : s.wheel.list (.near (now % 256)) = []
  known : ∀ n, Pending s.wheel n ∨ n ∈ inHand s.ticker → n < s.fresh
  phase : ∀ phase batch, s.ticker = .dispatching phase batch → phase = .after
  hand_due : ∀ n ∈ inHand s.ticker, due n = now ∧ ¬ Pending s.wheel n
  hand_nodup : (inHand s.ticker).Nodup

theorem good_initTimer (memory : NodeId → TimerNode H) : Good (initTimer memory) due 0 where
  filed :=
    { time := rfl
      expire := fun _ _ h => absurd h List.not_mem_nil
      placed := fun _ _ h => absurd h List.not_mem_nil
      nodup := fun _ => List.nodup_nil
      disjoint := fun _ _ _ h => absurd h List.not_mem_nil }
  served := rfl
  known := by
    rintro n (⟨a, h⟩ | h) <;> exact absurd h List.not_mem_nil
  phase := fun _ _ h => by cases h
  hand_due := fun _ h => absurd h List.not_mem_nil
  hand_nodup := List.nodup_nil

/-- What a step of a good machine does. -/
inductive Move (s : State H) : Act H → State H → List Event → Prop where
  /-- `add_timer` with a delay that is not positive -/
  | immediate (time : Int32) (func : H) (threadid : Int32) (h : time ≤ 0) :
      Move s (.add time func threadid)
        { s with wheel := writeNode s.wheel s.fresh time func threadid, fresh := s.fresh + 1 }
        [.immediate s.fresh, .freed s.fresh]
  /-- `add_timer` with a positive delay -/
  | add (time : Int32) (func : H) (threadid : Int32) (h : 0 < time) :
      Move s (.add time func threadid)
        { s with
          wheel := addNode (writeNode s.wheel s.fresh time func threadid) s.fresh
          fresh := s.fresh + 1 }
        [.added s.fresh time]
  | del (n : NodeId) : Move s (.del n) { s with wheel := delTimer s.wheel n } []
  /-- an update up to the moment it releases the lock for its batch, or ends without one -/
  | update (h : s.ticker = .idle) :
      Move s .update
        { s with
          ticker := (executeAfter (timerShift s.wheel)).1
          wheel := (executeAfter (timerShift s.wheel)).2 }
        [.update, .tick]
  | dispatch (n : NodeId) (batch : List NodeId) (h : s.ticker = .dispatching .after (n :: batch)) :
      Move s .dispatch { s with ticker := .dispatching .after batch }
        [.dispatched n ((s.wheel.node n).cancel == 0), .freed n]
  /-- the update finds no second batch and ends -/
  | finish (h : s.ticker = .dispatching .after []) : Move s .resume { s with ticker := .idle } []
  | clear (h : s.ticker = .idle) :
      Move s .clear { s with wheel := (clearTimer s.wheel).2 }
        ((clearTimer s.wheel).1.map .freed)

/-- Every step of a good machine is one of these. -/
theorem Good.move (hgood : Good s due now) (h : step s act = some (s', evs)) :
    Move s act s' evs := by
  -- the first `timer_execute` finds nothing: the due list was served after the last tick
  have hnone : takeDue s.wheel = none := (takeDue_eq_none hgood.filed).mpr hgood.served
  cases act with
  | add time func threadid =>
    rw [step] at h
    split_ifs at h with hle
    · obtain ⟨rfl, rfl⟩ := Prod.mk.inj (Option.some.inj h)
      exact .immediate time func threadid hle
    · obtain ⟨rfl, rfl⟩ := Prod.mk.inj (Option.some.inj h)
      exact .add time func threadid (Int32.not_le.mp hle)
  | del n =>
    obtain ⟨rfl, rfl⟩ := Prod.mk.inj (Option.some.inj h)
    exact .del n
  | update =>
    rw [step] at h
    split at h
    · next hidle =>
      simp only [executeBefore, hnone] at h
      obtain ⟨rfl, rfl⟩ := Prod.mk.inj (Option.some.inj h)
      exact .update hidle
    · cases h
  | dispatch =>
    rw [step] at h
    split at h
    · next phase n batch hticker =>
      obtain rfl := hgood.phase _ _ hticker
      obtain ⟨rfl, rfl⟩ := Prod.mk.inj (Option.some.inj h)
      exact .dispatch n batch hticker
    · cases h
  | resume =>
    rw [step] at h
    split at h
    · next hticker => cases hgood.phase _ _ hticker
    · next hticker =>
      simp only [executeAfter, hnone] at h
      obtain ⟨rfl, rfl⟩ := Prod.mk.inj (Option.some.inj h)
      exact .finish hticker
    · cases h
  | clear =>
    rw [step] at h
    split at h
    · next hidle =>
      obtain ⟨rfl, rfl⟩ := Prod.mk.inj (Option.some.inj h)
      exact .clear hidle
    · cases h

/-! ### `add_timer` -/

/-- A positive delay as a number of ticks. -/
theorem delay_bounds {time : Int32} (h : 0 < time) :
    0 < time.toNatClampNeg ∧ time.toNatClampNeg < 2 ^ 31 ∧
      time.toUInt32.toNat = time.toNatClampNeg := by
  have hint : (0 : ℤ) < time.toInt := Int32.lt_iff_toInt_lt.mp h
  refine ⟨?_, Int32.toNatClampNeg_lt time, Int32.toNat_toUInt32_of_le (Int32.le_of_lt h)⟩
  unfold Int32.toNatClampNeg
  omega

theorem writeNode_expire (T : STimer H) (n : NodeId) (time : Int32) (func : H) (threadid : Int32) :
    ((writeNode T n time func threadid).node n).expire = time.toUInt32 + T.time := by
  unfold writeNode
  rw [setNode_node_self]

/-- `malloc` returns a node that stands in no list. -/
theorem Good.not_pending_fresh (hgood : Good s due now) : ¬ Pending s.wheel s.fresh :=
  fun h => (hgood.known _ (Or.inl h)).ne rfl

/-- What `add_timer` does to a good wheel: the new node is due after its delay and stands
where its deadline asks for, every other node stays. -/
theorem Good.addTimer (hgood : Good s due now) {time : Int32} (func : H) (threadid : Int32)
    (hpos : 0 < time) :
    let T := addNode (writeNode s.wheel s.fresh time func threadid) s.fresh
    let due' := Function.update due s.fresh (now + time.toNatClampNeg)
    Filed T due' now ∧ (∀ m ≠ s.fresh, T.node m = s.wheel.node m) ∧
      (T.node s.fresh).cancel = (s.wheel.node s.fresh).cancel ∧
      ∀ a m, m ∈ T.list a ↔ m ∈ s.wheel.list a ∨
        (m = s.fresh ∧
          a = slotFor (now + time.toNatClampNeg) time.toNatClampNeg) := by
  intro T due'
  obtain ⟨hd, hlt, hword⟩ := delay_bounds hpos
  have hnew := hgood.not_pending_fresh
  have hdue : due' s.fresh = now + time.toNatClampNeg := Function.update_self _ _ _
  have hfiled : Filed (writeNode s.wheel s.fresh time func threadid) due' now :=
    (hgood.filed.congr_due fun m hm => Function.update_of_ne
      (fun heq : m = s.fresh => hnew (heq ▸ hm)) _ _).setNode fun h => absurd h hnew
  have hexpire : ((writeNode s.wheel s.fresh time func threadid).node s.fresh).expire.toNat =
      due' s.fresh % 2 ^ 32 := by
    rw [writeNode_expire, UInt32.toNat_add, hword, hgood.filed.time, hdue]
    omega
  have hadd := addNode_eq hexpire hfiled.time (by omega) (by omega)
  refine ⟨hfiled.addNode hnew hexpire (by omega) (by omega), fun m hm => ?_, ?_, fun a m => ?_⟩
  · change (addNode _ s.fresh).node m = _
    rw [hadd]
    exact setNode_node_of_ne _ hm
  · change ((addNode _ s.fresh).node s.fresh).cancel = _
    rw [hadd]
    change ((writeNode _ _ _ _ _).node s.fresh).cancel = _
    unfold writeNode
    rw [setNode_node_self]
  · change m ∈ (addNode _ s.fresh).list a ↔ _
    rw [hadd, mem_link, hdue, Nat.add_sub_cancel_left, and_comm (a := m = s.fresh)]
    rfl

/-! ### `timer_update` -/

/-- `timer_execute` after the shift detaches the list that is due. -/
theorem executeAfter_eq {T : STimer H} (h : Filed T due now) :
    inHand (executeAfter T).1 = T.list (.near (now % 256)) ∧
      (∀ phase batch, (executeAfter T).1 = .dispatching phase batch → phase = .after) ∧
      (executeAfter T).2 = (T.linkClear (.near (now % 256))).2 := by
  unfold executeAfter
  cases htake : takeDue T with
  | none =>
    have hnil := (takeDue_eq_none h).mp htake
    refine ⟨hnil.symm, ?_, ?_⟩
    · rintro phase batch ⟨⟩
    · unfold STimer.linkClear
      rw [← hnil, Function.update_eq_self]
  | some r =>
    obtain ⟨hbatch, hrest⟩ := takeDue_eq_some h htake
    refine ⟨hbatch, ?_, hrest⟩
    rintro phase batch ⟨⟩
    rfl

/-- An update up to the moment it releases the lock: one tick, and the batch in hand. -/
theorem Good.update (hgood : Good s due now) :
    Good { s with
      ticker := (executeAfter (timerShift s.wheel)).1
      wheel := (executeAfter (timerShift s.wheel)).2 } due (now + 1) := by
  obtain ⟨hfiled, -, -⟩ := filed_timerShift hgood.filed hgood.served
  obtain ⟨hbatch, hphase, hrest⟩ := executeAfter_eq hfiled
  refine ⟨?_, ?_, fun m hm => hgood.known m (Or.inl ?_), hphase, ?_, ?_⟩
  · change Filed (executeAfter (timerShift s.wheel)).2 due (now + 1)
    rw [hrest]
    exact hfiled.linkClear _
  · change (executeAfter (timerShift s.wheel)).2.list (.near ((now + 1) % 256)) = []
    rw [hrest]
    exact linkClear_list_self
  · -- the batch, and what stays in the lists, stood in the wheel before the tick
    change Pending (executeAfter (timerShift s.wheel)).2 m ∨
      m ∈ inHand (executeAfter (timerShift s.wheel)).1 at hm
    apply (pending_timerShift hgood.filed hgood.served).mp
    rw [hbatch, hrest] at hm
    rcases hm with ⟨a, ha⟩ | hm
    · exact ⟨a, (mem_linkClear.mp ha).1⟩
    · exact ⟨_, hm⟩
  · intro m hm
    change m ∈ inHand (executeAfter (timerShift s.wheel)).1 at hm
    change due m = now + 1 ∧ ¬ Pending (executeAfter (timerShift s.wheel)).2 m
    rw [hbatch] at hm
    rw [hrest]
    exact ⟨hfiled.due_eq hm, hfiled.not_pending_linkClear hm⟩
  · change (inHand (executeAfter (timerShift s.wheel)).1).Nodup
    rw [hbatch]
    exact hfiled.nodup _

/-! ### Every step keeps the invariant -/

/-- The machine after `add_timer` with a positive delay. -/
theorem Good.added (hgood : Good s due now) {time : Int32} (func : H) (threadid : Int32)
    (hpos : 0 < time) :
    Good { s with
      wheel := addNode (writeNode s.wheel s.fresh time func threadid) s.fresh
      fresh := s.fresh + 1 } (Function.update due s.fresh (now + time.toNatClampNeg)) now := by
  obtain ⟨hfiled, -, -, hmem⟩ := hgood.addTimer func threadid hpos
  have hpending : ∀ m,
      Pending (addNode (writeNode s.wheel s.fresh time func threadid) s.fresh) m →
      Pending s.wheel m ∨ m = s.fresh := by
    rintro m ⟨a, ha⟩
    exact ((hmem a m).mp ha).imp (fun h => ⟨a, h⟩) And.left
  refine { hgood with filed := hfiled, served := ?_, known := ?_, hand_due := ?_ }
  · apply List.eq_nil_iff_forall_not_mem.mpr
    intro m hm
    rcases (hmem _ m).mp hm with hm | ⟨rfl, hslot⟩
    · change m ∈ s.wheel.list (.near (now % 256)) at hm
      rw [hgood.served] at hm
      exact List.not_mem_nil hm
    · -- the delay is positive and less than a turn of the near lists
      have hplaced := hfiled.placed _ _ hm
      have hbounds := hplaced.2
      have hsame := hplaced.1
      rw [Function.update_self] at hbounds hsame
      have := delay_bounds hpos
      rw [span_zero] at hbounds
      change now % 256 = _ at hsame
      omega
  · rintro m (hm | hm)
    · rcases hpending m hm with hm | rfl
      · exact Nat.lt_succ_of_lt (hgood.known m (Or.inl hm))
      · exact Nat.lt_succ_self _
    · exact Nat.lt_succ_of_lt (hgood.known m (Or.inr hm))
  · intro m hm
    have hne : m ≠ s.fresh := (hgood.known m (Or.inr hm)).ne
    refine ⟨(Function.update_of_ne hne _ _).trans (hgood.hand_due m hm).1, fun hp => ?_⟩
    exact (hpending m hp).elim (hgood.hand_due m hm).2 hne

/-- The machine after one node of the batch was handled. -/
theorem Good.dispatched (hgood : Good s due now) {batch : List NodeId}
    (hticker : s.ticker = .dispatching .after (n :: batch)) :
    Good { s with ticker := .dispatching .after batch } due now := by
  have hsub : ∀ m ∈ batch, m ∈ inHand s.ticker := by
    intro m hm
    rw [hticker]
    exact List.mem_cons_of_mem n hm
  have hnodup := hgood.hand_nodup
  rw [hticker] at hnodup
  exact { hgood with
    known := fun m hm => hgood.known m (hm.imp_right (hsub m))
    phase := fun _ _ h => by cases h; rfl
    hand_due := fun m hm => hgood.hand_due m (hsub m hm)
    hand_nodup := (List.nodup_cons.mp hnodup).2 }

/-- The machine after an update. -/
theorem Good.finished (hgood : Good s due now) : Good { s with ticker := .idle } due now :=
  { hgood with
    known := fun m hm => hgood.known m (hm.imp_right fun h => absurd h List.not_mem_nil)
    phase := fun _ _ h => by cases h
    hand_due := fun _ h => absurd h List.not_mem_nil
    hand_nodup := List.nodup_nil }

/-- The machine after `clear_timer`. -/
theorem Good.cleared (hgood : Good s due now) :
    Good { s with wheel := (clearTimer s.wheel).2 } due now := by
  refine { hgood with filed := ?_, served := ?_, known := ?_, hand_due := ?_ }
  · exact hgood.filed.thin fun a => clearTimer_list s.wheel a
  · rcases clearTimer_list s.wheel (.near (now % 256)) with h | h
    · exact h
    · exact h.trans hgood.served
  · rintro m (⟨a, hm⟩ | hm)
    · exact hgood.known m (Or.inl ⟨a, mem_of_mem_clearTimer hm⟩)
    · exact hgood.known m (Or.inr hm)
  · intro m hm
    obtain ⟨hdue, hno⟩ := hgood.hand_due m hm
    refine ⟨hdue, fun hpending => ?_⟩
    obtain ⟨a, ha⟩ := hpending
    exact hno ⟨a, mem_of_mem_clearTimer ha⟩

/-- Every step of a good machine leaves a good machine, and no step changes the deadline of
a node it knows. -/
theorem Move.good (hmove : Move s act s' evs) (hgood : Good s due now) :
    ∃ due', Good s' due' (now + evs.count .tick) ∧ (∀ n < s.fresh, due' n = due n) ∧
      s.fresh ≤ s'.fresh ∧ evs.count .update = evs.count .tick ∧
      ∀ n d, .added n d ∈ evs → n < s'.fresh ∧ due' n = now + d.toNatClampNeg := by
  cases hmove with
  | immediate time func threadid hle =>
    have hnew := hgood.not_pending_fresh
    refine ⟨due, ?_, fun _ _ => rfl, Nat.le_succ _, rfl, by simp⟩
    exact { hgood with
      filed := hgood.filed.setNode fun h => absurd h hnew
      known := fun n hn => Nat.lt_succ_of_lt (hgood.known n hn) }
  | add time func threadid hpos =>
    -- only the deadline of the new node is written
    refine ⟨_, hgood.added func threadid hpos, fun n hn => Function.update_of_ne hn.ne _ _,
      Nat.le_succ _, rfl, fun n d hadded => ?_⟩
    obtain ⟨rfl, rfl⟩ := Event.added.inj (List.mem_singleton.mp hadded)
    exact ⟨Nat.lt_succ_self _, Function.update_self _ _ _⟩
  | del n =>
    refine ⟨due, ?_, fun _ _ => rfl, le_rfl, rfl, by simp⟩
    exact { hgood with filed := hgood.filed.setNode fun _ => rfl }
  | update hidle => exact ⟨due, hgood.update, fun _ _ => rfl, le_rfl, rfl, by simp⟩
  | dispatch n batch hticker =>
    exact ⟨due, hgood.dispatched hticker, fun _ _ => rfl, le_rfl, rfl, by simp⟩
  | finish hticker => exact ⟨due, hgood.finished, fun _ _ => rfl, le_rfl, rfl, by simp⟩
  | clear hidle =>
    have htick : ((clearTimer s.wheel).1.map Event.freed).count .tick = 0 :=
      List.count_eq_zero.mpr (by simp)
    have hupdate : ((clearTimer s.wheel).1.map Event.freed).count .update = 0 :=
      List.count_eq_zero.mpr (by simp)
    refine ⟨due, ?_, fun _ _ => rfl, le_rfl, hupdate.trans htick.symm, by simp⟩
    rw [htick]
    exact hgood.cleared

/-! ### Following one node -/

/-- The node is in hand or stands in a list that is emptied some day. -/
def Live (s : State H) (n : NodeId) : Prop :=
  n ∈ inHand s.ticker ∨ ∃ a, ¬ Dead a ∧ n ∈ s.wheel.list a

/-- A live node is not overdue, and is in hand when it is due. -/
theorem Good.le_due (hgood : Good s due now) (h : Live s n) :
    now ≤ due n ∧ (now = due n → n ∈ inHand s.ticker) := by
  rcases h with hhand | ⟨a, hdead, hn⟩
  · exact ⟨(hgood.hand_due n hhand).1.ge, fun _ => hhand⟩
  · have hplaced := hgood.filed.placed a n hn
    cases a with
    | near j =>
      obtain ⟨rfl, hle, -⟩ := hplaced
      refine ⟨hle, fun heq => ?_⟩
      rw [← heq, hgood.served] at hn
      exact absurd hn List.not_mem_nil
    | level i j =>
      have hbefore := (hplaced.2.2.resolve_left hdead).1
      have hstart := Digits.blockStart_le (span i) (due n)
      exact ⟨by omega, fun heq => by omega⟩

/-- Where a tick leaves a node of a good wheel. -/
theorem Good.mem_update (hgood : Good s due now) {a : Slot} :
    n ∈ (executeAfter (timerShift s.wheel)).2.list a ↔
      n ∈ (timerShift s.wheel).list a ∧ a ≠ .near ((now + 1) % 256) := by
  rw [(executeAfter_eq (filed_timerShift hgood.filed hgood.served).1).2.2, mem_linkClear]

/-- A live node stays live until it is dispatched, whatever else is added or cancelled. -/
theorem Move.live (hmove : Move s act s' evs) (hgood : Good s due now) (hclear : act ≠ .clear)
    (hlive : Live s n) : Live s' n ∨ .dispatched n ((s.wheel.node n).cancel == 0) ∈ evs := by
  cases hmove with
  | immediate time func threadid hle => exact Or.inl hlive
  | add time func threadid hpos =>
    have hmem := (hgood.addTimer func threadid hpos).2.2.2
    exact Or.inl (hlive.imp_right fun ⟨a, hdead, hn⟩ => ⟨a, hdead, (hmem a n).mpr (Or.inl hn)⟩)
  | del m => exact Or.inl hlive
  | update hidle =>
    left
    obtain ⟨hfiled, -, hmem⟩ := filed_timerShift hgood.filed hgood.served
    -- after the shift the node stands in a list that is emptied some day, maybe the due one
    have hstand : ∃ a, ¬ Dead a ∧ n ∈ (timerShift s.wheel).list a := by
      rcases hlive with hhand | ⟨a, hdead, hn⟩
      · rw [hidle] at hhand
        exact absurd hhand List.not_mem_nil
      · by_cases hempty : Emptied (now + 1) a
        · refine ⟨_, ?_, (hmem _ n).mpr (Or.inr ⟨a, hempty, hn, rfl⟩)⟩
          obtain ⟨i, j, rfl, hcascade⟩ := hempty
          have hstart := (hgood.filed.placed _ n hn).emptied hcascade
          exact (slotFor_blockStart (cascade_eq_some hcascade).1 hstart).1
        · exact ⟨a, hdead, (hmem a n).mpr (Or.inl ⟨hn, hempty⟩)⟩
    obtain ⟨a, hdead, hn⟩ := hstand
    by_cases hdue : a = .near ((now + 1) % 256)
    · left
      change n ∈ inHand (executeAfter (timerShift s.wheel)).1
      rw [(executeAfter_eq hfiled).1, ← hdue]
      exact hn
    · exact Or.inr ⟨a, hdead, hgood.mem_update.mpr ⟨hn, hdue⟩⟩
  | dispatch m batch hticker =>
    rcases hlive with hhand | hstand
    · rw [hticker] at hhand
      rcases List.mem_cons.mp hhand with rfl | hn
      · exact Or.inr List.mem_cons_self
      · exact Or.inl (Or.inl hn)
    · exact Or.inl (Or.inr hstand)
  | finish hticker =>
    refine Or.inl (hlive.imp_left fun hhand => ?_)
    rw [hticker] at hhand
    exact absurd hhand List.not_mem_nil
  | clear hidle => exact absurd rfl hclear

/-- A node in a dead list stays there. -/
theorem Move.stuck (hmove : Move s act s' evs) (hgood : Good s due now) (hclear : act ≠ .clear)
    {a : Slot} (hdead : Dead a) (hn : n ∈ s.wheel.list a) : n ∈ s'.wheel.list a := by
  cases hmove with
  | add time func threadid hpos =>
    exact ((hgood.addTimer func threadid hpos).2.2.2 a n).mpr (Or.inl hn)
  | update hidle =>
    have hmem := (filed_timerShift hgood.filed hgood.served).2.2
    refine hgood.mem_update.mpr ⟨(hmem a n).mpr (Or.inl ⟨hn, hdead.not_emptied⟩), ?_⟩
    rintro rfl
    exact hdead
  | clear hidle => exact absurd rfl hclear
  | immediate | del | dispatch | finish => exact hn

/-- Only `del_timer` writes the cancel byte of a node that `add_timer` has returned. -/
theorem Move.cancel (hmove : Move s act s' evs) (hgood : Good s due now) (hn : n < s.fresh)
    (hdel : act ≠ .del n) : (s'.wheel.node n).cancel = (s.wheel.node n).cancel := by
  cases hmove with
  | immediate time func threadid hle =>
    exact congrArg _ (setNode_node_of_ne _ hn.ne)
  | add time func threadid hpos =>
    exact congrArg _ ((hgood.addTimer func threadid hpos).2.1 n hn.ne)
  | del m =>
    exact congrArg _ (setNode_node_of_ne _ fun h => hdel (h ▸ rfl))
  | update hidle =>
    obtain ⟨hfiled, hnode, -⟩ := filed_timerShift hgood.filed hgood.served
    change ((executeAfter (timerShift s.wheel)).2.node n).cancel = _
    rw [(executeAfter_eq hfiled).2.2]
    exact congrArg (fun node => (node n).cancel) hnode
  | dispatch | finish | clear => rfl

end MmorpgServer.TimeWheel
