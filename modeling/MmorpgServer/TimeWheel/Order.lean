import MmorpgServer.TimeWheel.Punctuality
import MmorpgServer.Lib.Stages

/-!
# The order of timers that are due at the same tick

A node is appended to the list that its distance asks for, and again when that list is emptied. Two
nodes that are due at the same tick keep their order in a list. A node that is added when the other
one still stands at a higher level overtakes it: the other one is appended behind it later.

## Main definitions

* `height` — the rank of a list, the near lists being the lowest
* `Ahead` — the order in which two nodes are dispatched

## Main results

* `timerShift_list` — a tick empties one list, and appends its nodes to lower ones
* `Move.ahead` — every step keeps the order of two nodes with the same deadline
* `order_run` — nodes are dispatched in this order
* `dispatch_order_iff` — the order in which two timers are dispatched in every run
-/

namespace MmorpgServer.TimeWheel

open Machine

variable {H : Type*} {T : STimer H} {s s' u : State H} {due : NodeId → ℕ} {now dist d : ℕ}
  {n x y : NodeId} {a : Slot} {act : Act H} {acts : List (Act H)} {evs tr tr' : List Event}

/-- The near lists, and the lists of the levels above them -/
def height : Slot → ℕ
  | .near _ => 0
  | .level i _ => i + 1

/-! ### Levels and distances -/

/-- The level of a distance in the range of a level -/
theorem slotFor_level {i : ℕ} (hi : i < 4) (hge : span i ≤ dist) (hlt : dist < span (i + 1)) :
    slotFor d dist = .level i (digit i d) := by
  have hmono : ∀ j ≤ i, span j ≤ dist := fun j hj => (span_le_span hj).trans hge
  unfold slotFor
  interval_cases i
  · rw [if_neg (hmono 0 le_rfl).not_gt, if_pos hlt]
  · rw [if_neg (hmono 0 (by omega)).not_gt, if_neg (hmono 1 le_rfl).not_gt, if_pos hlt]
  · rw [if_neg (hmono 0 (by omega)).not_gt, if_neg (hmono 1 (by omega)).not_gt,
      if_neg (hmono 2 le_rfl).not_gt, if_pos hlt]
  · rw [if_neg (hmono 0 (by omega)).not_gt, if_neg (hmono 1 (by omega)).not_gt,
      if_neg (hmono 2 (by omega)).not_gt, if_neg (hmono 3 le_rfl).not_gt]

/-- A distance in the range of a level, or below it -/
theorem height_slotFor_le {i : ℕ} (hi : i < 4) (hlt : dist < span (i + 1)) :
    height (slotFor d dist) ≤ i + 1 ∧
      (height (slotFor d dist) = i + 1 → slotFor d dist = .level i (digit i d)) := by
  by_cases hnear : dist < span 0
  · rw [slotFor, if_pos hnear]
    exact ⟨Nat.zero_le _, fun h => absurd h (by simp [height])⟩
  · -- the greatest level whose width is not more than the distance
    obtain ⟨j, hji, hge, hlt'⟩ : ∃ j ≤ i, span j ≤ dist ∧ dist < span (j + 1) := by
      induction i with
      | zero => exact ⟨0, le_rfl, not_lt.mp hnear, hlt⟩
      | succ i ih =>
        by_cases hbelow : dist < span (i + 1)
        · obtain ⟨j, hj, h⟩ := ih (by omega) hbelow
          exact ⟨j, by omega, h⟩
        · exact ⟨i + 1, le_rfl, not_lt.mp hbelow, hlt⟩
    rw [slotFor_level (by omega) hge hlt']
    refine ⟨Nat.succ_le_succ hji, fun h => ?_⟩
    obtain rfl : j = i := Nat.succ.inj h
    rfl

/-- A node that is filed again now is not filed higher than where it stands, and in the same list if
not lower. -/
theorem Placed.slotFor_le (h : Placed now d a) (hdead : ¬ Dead a) :
    height (slotFor d (d - now)) ≤ height a ∧
      (height (slotFor d (d - now)) = height a → slotFor d (d - now) = a) := by
  cases a with
  | near j =>
    obtain ⟨rfl, hle, hlt⟩ := h
    rw [slotFor, if_pos (by omega)]
    exact ⟨le_rfl, fun _ => rfl⟩
  | level i j =>
    obtain ⟨hi, rfl, hlive⟩ := h
    have hturn := (hlive.resolve_left hdead).2
    exact height_slotFor_le hi (by have := span_pos (i + 1); omega)

/-- At a multiple of the width of its level, or in a near list, a node stands where it would be
filed. -/
theorem Placed.slotFor_eq (h : Placed now d a) (hdead : ¬ Dead a)
    (hstart : ∀ i j, a = .level i j → span i ∣ now) : slotFor d (d - now) = a := by
  cases a with
  | near j =>
    obtain ⟨rfl, hle, hlt⟩ := h
    rw [slotFor, if_pos (by omega)]
  | level i j =>
    obtain ⟨hi, rfl, hlive⟩ := h
    obtain ⟨hbefore, hturn⟩ := hlive.resolve_left hdead
    have hle := Digits.blockStart_le (span i) d
    refine slotFor_level hi ?_ (by omega)
    -- the block of the node starts at a later multiple
    have hgap : span i ∣ Digits.blockStart (span i) d - now :=
      Nat.dvd_sub Digits.dvd_blockStart (hstart i _ rfl)
    have hwidth := Nat.le_of_dvd (Nat.sub_pos_of_lt hbefore) hgap
    omega

/-! ### A tick -/

/-- The loop of `move_list` appends the nodes in hand in their order. -/
theorem foldl_addNode_list {hand : List NodeId} (htime : T.time.toNat = now % 2 ^ 32)
    (hhand : ∀ n ∈ hand, (T.node n).expire.toNat = due n % 2 ^ 32 ∧ now ≤ due n ∧
      due n < now + 2 ^ 32) (a : Slot) :
    (hand.foldl addNode T).list a =
      T.list a ++ hand.filter fun n => slotFor (due n) (due n - now) = a := by
  induction hand generalizing T with
  | nil => simp
  | cons n hand ih =>
    obtain ⟨⟨hexpire, hle, hlt⟩, hrest⟩ := List.forall_mem_cons.mp hhand
    have hadd := addNode_eq hexpire htime hle hlt
    rw [List.foldl_cons, hadd, ih (T := T.link (slotFor (due n) (due n - now)) n) htime hrest]
    by_cases ha : slotFor (due n) (due n - now) = a
    · subst ha
      rw [link_list_self, List.filter_cons_of_pos (by simp), List.append_assoc]
      rfl
    · rw [link_list_of_ne (Ne.symm ha), List.filter_cons_of_neg (by simpa using ha)]

/-- A tick empties one list at most, and appends its nodes where their distance asks for. -/
theorem timerShift_list (h : Filed T due now) :
    (timerShift T).list = match cascade (now + 1) with
      | none => T.list
      | some (i, j) =>
        Stages.scatter T.list (.level i j) fun n => slotFor (due n) (due n - (now + 1)) := by
  rw [timerShift_eq h.time]
  cases hcascade : cascade (now + 1) with
  | none => rfl
  | some p =>
    obtain ⟨i, j⟩ := p
    have htime : (T.time + 1).toNat = (now + 1) % 2 ^ 32 := by
      rw [UInt32.toNat_add, h.time, Nat.mod_add_mod]
      rfl
    funext a
    have hlist := foldl_addNode_list (T := { (T.linkClear (.level i j)).2 with time := T.time + 1 })
      htime (fun n hn => ⟨h.expire _ n hn, h.emptied_bounds hcascade hn⟩) a
    refine hlist.trans ?_
    unfold Stages.scatter
    congr 1
    exact Function.update_apply _ _ _ _

/-! ### The order of two nodes -/

/-- `x` is ahead of `y`: in front of it in hand, or in hand when `y` is not, or ahead of it in the
lists. -/
def Ahead (s : State H) (x y : NodeId) : Prop :=
  [x, y].Sublist (inHand s.ticker) ∨ (x ∈ inHand s.ticker ∧ Pending s.wheel y) ∨
    Stages.Ahead height s.wheel.list x y

/-- A node that is live after a step was so before, or is new. -/
theorem Move.live_of (hmove : Move s act s' evs) (hgood : Good s due now) (hn : n < s.fresh)
    (hlive : Live s' n) : Live s n := by
  cases hmove with
  | immediate | del => exact hlive
  | add time func threadid hpos =>
    have hmem := (hgood.addTimer func threadid hpos).2.2.2
    refine hlive.imp_right fun ⟨a, hdead, ha⟩ => ⟨a, hdead, ?_⟩
    exact ((hmem a n).mp ha).resolve_right fun h => hn.ne h.1
  | update hidle =>
    obtain ⟨hfiled, -, hmem⟩ := filed_timerShift hgood.filed hgood.served
    right
    -- wherever the node stands after the shift, it stood in a list that is emptied some day
    have hshift : ∀ a, ¬ Dead a → n ∈ (timerShift s.wheel).list a →
        ∃ a, ¬ Dead a ∧ n ∈ s.wheel.list a := by
      intro a hdead ha
      rcases (hmem a n).mp ha with ⟨hold, -⟩ | ⟨b, hempty, hold, -⟩
      · exact ⟨a, hdead, hold⟩
      · exact ⟨b, fun hb => hb.not_emptied hempty, hold⟩
    rcases hlive with hhand | ⟨a, hdead, ha⟩
    · change n ∈ inHand (executeAfter (timerShift s.wheel)).1 at hhand
      rw [(executeAfter_eq hfiled).1] at hhand
      exact hshift _ id hhand
    · exact hshift a hdead (hgood.mem_update.mp ha).1
  | dispatch m batch hticker =>
    refine hlive.imp_left fun hhand => ?_
    rw [hticker]
    exact List.mem_cons_of_mem m hhand
  | finish hticker => exact hlive.imp_left fun hhand => absurd hhand List.not_mem_nil
  | clear hidle =>
    refine hlive.imp_right fun ⟨a, hdead, ha⟩ => ⟨a, hdead, mem_of_mem_clearTimer ha⟩

/-- Live nodes that expire at the same value of the clock have the same deadline. -/
theorem Good.due_eq_of_expire (hgood : Good s due now) {b : Slot} (hx : x ∈ s.wheel.list a)
    (hy : y ∈ s.wheel.list b) (hlx : Live s x) (hly : Live s y)
    (hexpire : (s.wheel.node x).expire = (s.wheel.node y).expire) : due x = due y := by
  -- both deadlines lie within one turn of the clock from now on
  have hbound : ∀ n c, n ∈ s.wheel.list c → Live s n → due n < now + 2 ^ 32 := by
    intro n c hn hlive
    rcases hlive with hhand | ⟨c, hdead, hc⟩
    · exact absurd ⟨c, hn⟩ (hgood.hand_due n hhand).2
    · have hplaced := hgood.filed.placed c n hc
      cases c with
      | near j =>
        have := hplaced.2.2
        rw [span_zero] at this
        omega
      | level i j =>
        have hturn := (hplaced.2.2.resolve_left hdead).2
        have hmono : span (i + 1) ≤ span 4 := span_le_span hplaced.1
        rw [span_four] at hmono
        omega
  have hmod : due x % 2 ^ 32 = due y % 2 ^ 32 := by
    rw [← hgood.filed.expire a x hx, ← hgood.filed.expire b y hy, hexpire]
  have hxle := (hgood.le_due hlx).1
  have hyle := (hgood.le_due hly).1
  have hxlt := hbound x a hx hlx
  have hylt := hbound y b hy hly
  omega

/-- A tick keeps the order of two nodes with the same deadline in the lists. -/
theorem Good.ahead_timerShift (hgood : Good s due now) (hlx : Live s x) (hly : Live s y)
    (hexpire : (s.wheel.node x).expire = (s.wheel.node y).expire)
    (h : Stages.Ahead height s.wheel.list x y) :
    Stages.Ahead height (timerShift s.wheel).list x y := by
  have hdue : due x = due y := by
    obtain ⟨a, b, hx, hy, -⟩ := h
    exact hgood.due_eq_of_expire hx hy hlx hly hexpire
  have hlist := timerShift_list hgood.filed
  cases hcascade : cascade (now + 1) with
  | none =>
    rw [hcascade] at hlist
    rw [hlist]
    exact h
  | some p =>
    obtain ⟨i, j⟩ := p
    rw [hcascade] at hlist
    obtain ⟨hi, hdvd, -, -⟩ := cascade_eq_some hcascade
    rw [hlist]
    refine h.scatter (by rw [hdue]) (fun hx => ?_) fun b hb hx hy => ?_
    · -- the nodes of the list that is emptied go to lower levels
      have hstart := (hgood.filed.placed _ x hx).emptied hcascade
      cases hslot : slotFor (due x) (due x - (now + 1)) with
      | near j' => exact Nat.succ_pos i
      | level i' j' => exact Nat.succ_lt_succ ((slotFor_blockStart hi hstart).2 i' j' hslot).1
    · -- the clock stands at a multiple of the width of every lower level
      have hne : b ≠ .level i j := by
        rintro rfl
        exact absurd hb (Nat.lt_irrefl _)
      obtain ⟨hfiled, -, -⟩ := filed_timerShift hgood.filed hgood.served
      have hplaced : Placed (now + 1) (due x) b := by
        refine hfiled.placed b x ?_
        rw [hlist]
        exact Stages.mem_scatter_of_ne hne hx
      have hdead : ¬ Dead b := by
        rcases hlx with hhand | ⟨c, hdead, hc⟩
        · exact absurd ⟨b, hx⟩ (hgood.hand_due x hhand).2
        · rwa [hgood.filed.disjoint b c x hx hc]
      rw [← hdue]
      refine (hplaced.slotFor_eq hdead ?_).symm
      rintro k l rfl
      have hki : k < i := Nat.lt_of_succ_lt_succ hb
      exact (pow_dvd_pow 2 (levelShift_le hki.le)).trans hdvd

/-- A node that is dispatched is no longer live. -/
theorem Move.not_live (hmove : Move s act s' evs) (hgood : Good s due now) {invoked : Bool}
    (h : .dispatched n invoked ∈ evs) : ¬ Live s' n := by
  obtain ⟨-, hhand, hpending, -⟩ := hmove.dispatched hgood h
  rintro (hmem | ⟨a, -, ha⟩)
  · exact hhand hmem
  · exact hpending ⟨a, ha⟩

/-- `add_node` appends the node to one list. -/
theorem addNode_link (T : STimer H) (n : NodeId) : ∃ a, addNode T n = T.link a n := by
  unfold addNode
  dsimp only
  split_ifs <;> exact ⟨_, rfl⟩

theorem addNode_sublist (a : Slot) : (T.list a).Sublist ((addNode T n).list a) := by
  obtain ⟨b, hb⟩ := addNode_link T n
  rw [hb]
  by_cases hab : a = b
  · rw [hab, link_list_self]
    exact List.sublist_append_left _ _
  · rw [link_list_of_ne hab]

/-- `clear_timer` leaves a list with a node in it as it is. -/
theorem clearTimer_list_of_mem (h : n ∈ (clearTimer T).2.list a) :
    (clearTimer T).2.list a = T.list a := by
  refine (clearTimer_list T a).resolve_left fun hnil => ?_
  rw [hnil] at h
  exact List.not_mem_nil h

theorem Ahead.in_lists (h : Ahead s x y) (hnil : inHand s.ticker = []) :
    Stages.Ahead height s.wheel.list x y := by
  rw [Ahead, hnil] at h
  rcases h with h | h | h
  · exact absurd (h.subset List.mem_cons_self) List.not_mem_nil
  · exact absurd h.1 List.not_mem_nil
  · exact h

/-- Every step keeps the order of two nodes that expire at the same value of the clock, as long as
they are live. -/
theorem Move.ahead (hmove : Move s act s' evs) (hgood : Good s due now) (hx : x < s.fresh)
    (hy : y < s.fresh) (hexpire : (s.wheel.node x).expire = (s.wheel.node y).expire)
    (hlx : Live s' x) (hly : Live s' y) (h : Ahead s x y) : Ahead s' x y := by
  have hlx₀ := hmove.live_of hgood hx hlx
  have hly₀ := hmove.live_of hgood hy hly
  cases hmove with
  | immediate | del => exact h
  | add time func threadid hpos =>
    have hsub : ∀ a, (s.wheel.list a).Sublist
        ((addNode (writeNode s.wheel s.fresh time func threadid) s.fresh).list a) :=
      addNode_sublist (T := writeNode s.wheel s.fresh time func threadid)
    refine h.imp_right (Or.imp (And.imp_right ?_) fun h => h.mono hsub)
    rintro ⟨a, ha⟩
    exact ⟨a, (hsub a).subset ha⟩
  | update hidle =>
    -- after the tick, `timer_execute` takes one near list in hand as it is
    have hnil : inHand s.ticker = [] := by rw [hidle]; rfl
    have hshift := hgood.ahead_timerShift hlx₀ hly₀ hexpire (h.in_lists hnil)
    obtain ⟨hfiled, -, -⟩ := filed_timerShift hgood.filed hgood.served
    obtain ⟨hbatch, -, hrest⟩ := executeAfter_eq hfiled
    change [x, y].Sublist (inHand (executeAfter (timerShift s.wheel)).1) ∨
      (x ∈ inHand (executeAfter (timerShift s.wheel)).1 ∧
        Pending (executeAfter (timerShift s.wheel)).2 y) ∨
      Stages.Ahead height (executeAfter (timerShift s.wheel)).2.list x y
    rw [hbatch, hrest]
    refine (hshift.take (a := .near ((now + 1) % 256)) rfl).imp_right (Or.imp_left ?_)
    rintro ⟨hx, b, hb, hy⟩
    exact ⟨hx, b, mem_linkClear.mpr ⟨hy, hb⟩⟩
  | dispatch m batch hticker =>
    -- the node that leaves the hand is not `x`, which is live behind the step
    have hne : x ≠ m := by
      rintro rfl
      exact (Move.dispatch x batch hticker).not_live hgood List.mem_cons_self hlx
    rw [Ahead, hticker] at h
    rcases h with h | ⟨hhand, hpending⟩ | h
    · rcases List.sublist_cons_iff.mp h with h | ⟨r, hr, -⟩
      · exact Or.inl h
      · exact absurd (List.cons.inj hr).1 hne
    · exact Or.inr (Or.inl ⟨(List.mem_cons.mp hhand).resolve_left hne, hpending⟩)
    · exact Or.inr (Or.inr h)
  | finish hticker =>
    have hnil : inHand s.ticker = [] := by rw [hticker]; rfl
    exact Or.inr (Or.inr (h.in_lists hnil))
  | clear hidle =>
    have hnil : inHand s.ticker = [] := by rw [hidle]; rfl
    obtain ⟨a, b, hx, hy, horder⟩ := h.in_lists hnil
    -- a list in which a live node is left was not emptied
    have hkept : ∀ n c, n ∈ s.wheel.list c → Live { s with wheel := (clearTimer s.wheel).2 } n →
        n ∈ (clearTimer s.wheel).2.list c ∧
          (clearTimer s.wheel).2.list c = s.wheel.list c := by
      intro n c hn hlive
      rcases hlive with hhand | ⟨c', -, hc'⟩
      · exact absurd ⟨c, hn⟩ (hgood.hand_due n hhand).2
      · obtain rfl := hgood.filed.disjoint c c' n hn (mem_of_mem_clearTimer hc')
        exact ⟨hc', clearTimer_list_of_mem hc'⟩
    obtain ⟨hx', hlist⟩ := hkept x a hx hlx
    refine Or.inr (Or.inr ⟨a, b, hx', (hkept y b hy hly).1, horder.imp_right fun h => ?_⟩)
    exact ⟨h.1, hlist ▸ h.2⟩

/-- Nodes that are known keep the value of the clock at which they expire. -/
theorem Move.expire (hmove : Move s act s' evs) (hgood : Good s due now) (hn : n < s.fresh) :
    (s'.wheel.node n).expire = (s.wheel.node n).expire := by
  cases hmove with
  | immediate time func threadid hle => exact congrArg _ (setNode_node_of_ne _ hn.ne)
  | add time func threadid hpos =>
    exact congrArg _ ((hgood.addTimer func threadid hpos).2.1 n hn.ne)
  | del m =>
    by_cases hnm : n = m
    · subst hnm
      change ((s.wheel.setNode n _).node n).expire = _
      rw [setNode_node_self]
    · exact congrArg _ (setNode_node_of_ne _ hnm)
  | update hidle =>
    obtain ⟨hfiled, hnode, -⟩ := filed_timerShift hgood.filed hgood.served
    change ((executeAfter (timerShift s.wheel)).2.node n).expire = _
    rw [(executeAfter_eq hfiled).2.2]
    exact congrArg (fun node => (node n).expire) hnode
  | dispatch | finish | clear => rfl

/-! ### Runs -/

/-- A node that is dispatched in a run is live at its start. -/
theorem Good.live_of_dispatched (hgood : Good s due now) (hn : n < s.fresh)
    (hrun : exec (traced step) (s, []) acts = some (u, evs)) (h : n ∈ dispatchedIds evs) :
    Live s n := by
  induction acts generalizing s due now evs with
  | nil =>
    obtain ⟨rfl, rfl⟩ := Prod.mk.inj (Option.some.inj hrun)
    exact absurd h List.not_mem_nil
  | cons act acts ih =>
    obtain ⟨s', evs₁, evs₂, hstep, hevs₂, rfl⟩ := exec_traced_cons_eq_some.mp hrun
    have hmove := hgood.move hstep
    rw [dispatchedIds_append, List.mem_append] at h
    rcases h with h | h
    · obtain ⟨invoked, h⟩ := mem_dispatchedIds.mp h
      exact Or.inl (hmove.dispatched hgood h).1
    · obtain ⟨due', hgood', -, hfresh, -⟩ := hmove.good hgood
      exact hmove.live_of hgood hn (ih hgood' (hn.trans_le hfresh) hevs₂ h)

/-- A step dispatches one node at most, the first one in hand. -/
theorem Move.dispatched_first (hmove : Move s act s' evs) (h : n ∈ dispatchedIds evs) :
    ∃ batch, s.ticker = .dispatching .after (n :: batch) ∧ dispatchedIds evs = [n] := by
  obtain ⟨invoked, h⟩ := mem_dispatchedIds.mp h
  cases hmove with
  | dispatch m batch hticker =>
    obtain rfl : n = m := by
      rcases List.mem_cons.mp h with h | h
      · exact (Event.dispatched.inj h).1
      · simp at h
    exact ⟨batch, hticker, rfl⟩
  | immediate | add | del | update | finish | clear => simp at h

/-- Nothing is ahead of the first node in hand. -/
theorem Good.not_ahead_first (hgood : Good s due now) (hne : x ≠ y) {batch : List NodeId}
    (hticker : s.ticker = .dispatching .after (y :: batch)) : ¬ Ahead s x y := by
  have hhand : inHand s.ticker = y :: batch := by rw [hticker]; rfl
  have hpending := (hgood.hand_due y (by simp [hhand])).2
  have hnodup := hgood.hand_nodup
  rw [hhand] at hnodup
  rintro (h | ⟨-, h⟩ | ⟨-, b, -, hb, -⟩)
  · rw [hhand] at h
    rcases List.sublist_cons_iff.mp h with h | ⟨r, hr, -⟩
    · exact (List.nodup_cons.mp hnodup).1 (h.subset (by simp))
    · exact hne (List.cons.inj hr).1
  · exact hpending h
  · exact hpending ⟨b, hb⟩

/-- Two nodes that expire at the same value of the clock are dispatched in their order. -/
theorem Good.order_run (hgood : Good s due now) (hne : x ≠ y) (hx : x < s.fresh) (hy : y < s.fresh)
    (hexpire : (s.wheel.node x).expire = (s.wheel.node y).expire) (h : Ahead s x y)
    (hrun : exec (traced step) (s, []) acts = some (u, evs))
    (hdx : x ∈ dispatchedIds evs) (hdy : y ∈ dispatchedIds evs) :
    [x, y].Sublist (dispatchedIds evs) := by
  -- until the first of the two goes, both are live and every step keeps their order
  induction acts generalizing s due now evs with
  | nil =>
    obtain ⟨rfl, rfl⟩ := Prod.mk.inj (Option.some.inj hrun)
    exact absurd hdx List.not_mem_nil
  | cons act acts ih =>
    obtain ⟨s', evs₁, evs₂, hstep, hevs₂, rfl⟩ := exec_traced_cons_eq_some.mp hrun
    have hmove := hgood.move hstep
    obtain ⟨due', hgood', -, hfresh, -⟩ := hmove.good hgood
    rw [dispatchedIds_append, List.mem_append] at hdx hdy
    rw [dispatchedIds_append]
    rcases hdx with hdx | hdx
    · -- the first one goes, and the second one stays
      obtain ⟨batch, -, hids⟩ := hmove.dispatched_first hdx
      rw [hids] at hdy ⊢
      have hrest := hdy.resolve_left fun h => hne (List.mem_singleton.mp h).symm
      exact (List.Sublist.refl [x]).append (List.singleton_sublist.mpr hrest)
    · rcases hdy with hdy | hdy
      · -- the second one cannot go before the first one
        obtain ⟨batch, hticker, -⟩ := hmove.dispatched_first hdy
        exact absurd h (hgood.not_ahead_first hne hticker)
      · have hx' := hx.trans_le hfresh
        have hy' := hy.trans_le hfresh
        have hlx := hgood'.live_of_dispatched hx' hevs₂ hdx
        have hly := hgood'.live_of_dispatched hy' hevs₂ hdy
        have hexpire' : (s'.wheel.node x).expire = (s'.wheel.node y).expire := by
          rw [hmove.expire hgood hx, hmove.expire hgood hy, hexpire]
        have hahead := hmove.ahead hgood hx hy hexpire hlx hly h
        exact (ih hgood' hx' hy' hexpire' hahead hevs₂ hdx hdy).trans
          (List.sublist_append_right _ _)

/-! ### A timer with the same deadline is added -/

/-- A new node stands behind the others of its list. -/
theorem sublist_addNode (hne : x ≠ n) (hx : x ∈ (addNode T n).list a)
    (hn : n ∈ (addNode T n).list a) (hnew : n ∉ T.list a) :
    [x, n].Sublist ((addNode T n).list a) := by
  obtain ⟨b, hb⟩ := addNode_link T n
  rw [hb] at hx hn ⊢
  obtain ⟨rfl, -⟩ := (mem_link.mp hn).resolve_left hnew
  rw [link_list_self]
  have hold := (mem_link.mp hx).resolve_right fun h => hne h.2
  exact (List.singleton_sublist.mpr hold).append (List.Sublist.refl [n])

/-- If `x` still stands in the wheel, `y` stands in the same list. -/
def Joins (T : STimer H) (x y : NodeId) : Prop :=
  Pending T x → ∃ a, x ∈ T.list a ∧ y ∈ T.list a

/-- A node that is added joins the list of the other one, behind it, or is ahead of it. -/
theorem Good.ahead_added (hgood : Good s due now) {time : Int32} (func : H) (threadid : Int32)
    (hpos : 0 < time) (hx : x < s.fresh)
    (hexpire : ((addNode (writeNode s.wheel s.fresh time func threadid) s.fresh).node x).expire =
      ((addNode (writeNode s.wheel s.fresh time func threadid) s.fresh).node s.fresh).expire) :
    let s' : State H := { s with
      wheel := addNode (writeNode s.wheel s.fresh time func threadid) s.fresh
      fresh := s.fresh + 1 }
    Live s' x → Live s' s.fresh →
      (Joins s'.wheel x s.fresh ∧ Ahead s' x s.fresh) ∨
        (¬ Joins s'.wheel x s.fresh ∧ Ahead s' s.fresh x) := by
  intro s' hlx hly
  have hgood' := hgood.added func threadid hpos
  obtain ⟨-, -, -, hmem⟩ := hgood.addTimer func threadid hpos
  -- the new node is nowhere else
  have hy : s.fresh ∈ s'.wheel.list (slotFor (now + time.toNatClampNeg) time.toNatClampNeg) :=
    (hmem _ _).mpr (Or.inr ⟨rfl, rfl⟩)
  rcases hlx with hhand | ⟨a, hdead, ha⟩
  · -- `x` is in hand, and no list has it
    left
    exact ⟨fun hp => absurd hp (hgood'.hand_due x hhand).2, Or.inr (Or.inl ⟨hhand, _, hy⟩)⟩
  · have hdue := hgood'.due_eq_of_expire ha hy (Or.inr ⟨a, hdead, ha⟩) hly hexpire
    rw [Function.update_self] at hdue
    have hplaced := hgood'.filed.placed a x ha
    rw [hdue] at hplaced
    obtain ⟨hle, heq⟩ := hplaced.slotFor_le hdead
    rw [Nat.add_sub_cancel_left] at hle heq
    by_cases hsame : slotFor (now + time.toNatClampNeg) time.toNatClampNeg = a
    · -- behind `x` in its list
      rw [hsame] at hy
      refine Or.inl ⟨fun _ => ⟨a, ha, hy⟩, Or.inr (Or.inr ⟨a, a, ha, hy, Or.inr ⟨rfl, ?_⟩⟩)⟩
      exact sublist_addNode hx.ne ha hy fun hold => hgood.not_pending_fresh ⟨a, hold⟩
    · -- `x` was filed earlier, from farther away, and stands in a higher list
      refine Or.inr ⟨fun hjoins => hsame ?_, Or.inr (Or.inr ⟨_, a, hy, ha, Or.inl ?_⟩)⟩
      · obtain ⟨c, hxc, hyc⟩ := hjoins ⟨a, ha⟩
        rw [hgood'.filed.disjoint _ c _ hy hyc, hgood'.filed.disjoint a c _ ha hxc]
      · exact lt_of_le_of_ne hle fun h => hsame (heq h)

/-- In both cases the order is that of the dispatches to come. -/
theorem Ledger.order_added (hledger : Ledger s due tr) (hgood : Good s due now) {time : Int32}
    {func : H} {threadid : Int32} {evs' : List Event} (hx : x < s.fresh)
    (hadd : step s (.add time func threadid) = some (s', evs))
    (hrest : exec (traced step) (s', []) acts = some (u, evs'))
    (hexpire : (s'.wheel.node x).expire = (s'.wheel.node s.fresh).expire)
    (hdx : x ∈ dispatchedIds (tr ++ evs ++ evs'))
    (hdy : s.fresh ∈ dispatchedIds (tr ++ evs ++ evs')) :
    (Joins s'.wheel x s.fresh ∧ [x, s.fresh].Sublist (dispatchedIds (tr ++ evs ++ evs'))) ∨
      (¬ Joins s'.wheel x s.fresh ∧
        [s.fresh, x].Sublist (dispatchedIds (tr ++ evs ++ evs'))) := by
  have hmove := hgood.move hadd
  have hold : s.fresh ∉ dispatchedIds tr := fun h => (hledger.dispatched_lt h).ne rfl
  obtain ⟨due', hgood', -⟩ := hmove.good hgood
  cases hmove with
  | immediate _ _ _ hle =>
    -- the node was never filed
    rw [List.append_assoc, dispatchedIds_append, List.mem_append] at hdy
    have hlive := hgood'.live_of_dispatched (Nat.lt_succ_self _) hrest (hdy.resolve_left hold)
    have hknown := hgood.known s.fresh
      (hlive.symm.imp (fun ⟨a, _, ha⟩ => ⟨a, ha⟩) id)
    exact absurd hknown (Nat.lt_irrefl _)
  | add _ _ _ hpos =>
    rw [List.append_assoc, dispatchedIds_append] at hdx hdy ⊢
    change s.fresh ∈ dispatchedIds tr ++ dispatchedIds evs' at hdy
    change x ∈ dispatchedIds tr ++ dispatchedIds evs' at hdx
    change (_ ∧ [x, s.fresh].Sublist (dispatchedIds tr ++ dispatchedIds evs')) ∨
      (_ ∧ [s.fresh, x].Sublist (dispatchedIds tr ++ dispatchedIds evs'))
    have hnew := (List.mem_append.mp hdy).resolve_left hold
    have hly := hgood'.live_of_dispatched (Nat.lt_succ_self _) hrest hnew
    have hx' : x < s.fresh + 1 := Nat.lt_succ_of_lt hx
    rcases List.mem_append.mp hdx with hdx | hdx
    · -- the other node is gone
      obtain ⟨hno, -⟩ := hledger.gone x hdx
      refine Or.inl ⟨?_, (List.singleton_sublist.mpr hdx).append (List.singleton_sublist.mpr hnew)⟩
      rintro ⟨a, ha⟩
      refine absurd ⟨a, ?_⟩ hno
      exact (((hgood.addTimer _ _ hpos).2.2.2 a x).mp ha).resolve_right fun h => hx.ne h.1
    · have hlx := hgood'.live_of_dispatched hx' hrest hdx
      have hy' := Nat.lt_succ_self s.fresh
      refine (hgood.ahead_added _ _ hpos hx hexpire hlx hly).imp
        (And.imp_right fun h => ?_) (And.imp_right fun h => ?_)
      · exact (hgood'.order_run hx.ne hx' hy' hexpire h hrest hdx hnew).trans
          (List.sublist_append_right _ _)
      · exact (hgood'.order_run hx.ne' hy' hx' hexpire.symm h hrest hnew hdx).trans
          (List.sublist_append_right _ _)

/-- The order of two callbacks is that of the nodes. -/
theorem dispatched_sublist_iff (hnodup : (dispatchedIds tr).Nodup) (hne : x ≠ y)
    (hx : .dispatched x true ∈ tr) (hy : .dispatched y true ∈ tr) :
    [Event.dispatched x true, .dispatched y true].Sublist tr ↔
      [x, y].Sublist (dispatchedIds tr) := by
  have hids : ∀ m n, [Event.dispatched m true, .dispatched n true].Sublist tr →
      [m, n].Sublist (dispatchedIds tr) := by
    intro m n h
    change (dispatchedIds [.dispatched m true, .dispatched n true]).Sublist _
    exact h.filterMap _
  refine ⟨hids x y, fun h => ?_⟩
  have hne' : Event.dispatched x true ≠ .dispatched y true := fun heq =>
    hne (Event.dispatched.inj heq).1
  exact (Trace.pair_total hx hy hne').resolve_right fun hyx =>
    Trace.pair_asymm hnodup h (hids y x hyx)

/-- In every run in which a timer is added behind another one that expires at the same value of the
clock, and the callbacks of both are invoked: they are invoked in the order of the additions exactly
if the second timer is filed in the list in which the first one stands, or the first one stands in
none any more; otherwise the second one is invoked first. -/
theorem dispatch_order_iff {memory : NodeId → TimerNode H} {acts' : List (Act H)} {time : Int32}
    {func : H} {threadid : Int32}
    (hbefore : exec (traced step) (initTimer memory, []) acts = some (s, tr)) (hx : x < s.fresh)
    (hadd : step s (.add time func threadid) = some (s', evs))
    (hafter : exec (traced step) (s', tr ++ evs) acts' = some (u, tr'))
    (hexpire : (s'.wheel.node x).expire = (s'.wheel.node s.fresh).expire)
    (hdx : .dispatched x true ∈ tr') (hdy : .dispatched s.fresh true ∈ tr') :
    ([Event.dispatched x true, .dispatched s.fresh true].Sublist tr' ↔
      Joins s'.wheel x s.fresh) ∧
    ([Event.dispatched s.fresh true, .dispatched x true].Sublist tr' ↔
      ¬ Joins s'.wheel x s.fresh) := by
  obtain ⟨due, hgood, hledger⟩ := ledger_exec hbefore
  obtain ⟨evs', hrest, rfl⟩ := exec_traced_append.mp hafter
  have hrun : exec (traced step) (initTimer memory, []) (acts ++ .add time func threadid :: acts') =
      some (u, tr ++ evs ++ evs') :=
    exec_append_eq_some.mpr ⟨_, hbefore, (exec_traced_cons hadd).mpr hafter⟩
  have hnodup : (dispatchedIds (tr ++ evs ++ evs')).Nodup := by
    obtain ⟨due', -, h⟩ := ledger_exec hrun
    exact h.once
  rw [dispatched_sublist_iff hnodup hx.ne hdx hdy, dispatched_sublist_iff hnodup hx.ne' hdy hdx]
  rcases hledger.order_added hgood hx hadd hrest hexpire (mem_dispatchedIds.mpr ⟨true, hdx⟩)
    (mem_dispatchedIds.mpr ⟨true, hdy⟩) with ⟨hjoins, hxy⟩ | ⟨hjoins, hyx⟩
  · exact ⟨iff_of_true hxy hjoins,
      iff_of_false (Trace.pair_asymm hnodup hxy) (not_not.mpr hjoins)⟩
  · exact ⟨iff_of_false (Trace.pair_asymm hnodup hyx) hjoins, iff_of_true hyx hjoins⟩

/-- Two timers with the delay `1`, added at tick `0` -/
theorem dispatch_order_iff_one :
    let tr : List Event := [.added 0 1, .added 1 1, .update, .tick, .dispatched 0 true, .freed 0,
      .dispatched 1 true, .freed 1]
    ∃ s' : State Unit, ([Event.dispatched 0 true, .dispatched 1 true].Sublist tr ↔
        Joins s'.wheel 0 1) ∧
      ([Event.dispatched 1 true, .dispatched 0 true].Sublist tr ↔ ¬ Joins s'.wheel 0 1) := by
  intro tr
  obtain ⟨s, hbefore, hfresh, s', hadd, hexpire, u, hafter⟩ : ∃ s : State Unit,
      exec (traced step) (initTimer fun _ => ⟨0, (), 0, 0⟩, []) [.add 1 () 0] =
        some (s, [.added 0 1]) ∧ s.fresh = 1 ∧
      ∃ s', step s (.add 1 () 0) = some (s', [.added 1 1]) ∧
        (s'.wheel.node 0).expire = (s'.wheel.node 1).expire ∧
      ∃ u, exec (traced step) (s', [.added 0 1] ++ [.added 1 1]) [.update, .dispatch, .dispatch] =
        some (u, tr) :=
    ⟨_, rfl, rfl, _, rfl, rfl, _, rfl⟩
  have hx : 0 < s.fresh := hfresh ▸ Nat.one_pos
  rw [← hfresh] at hexpire
  have horder := dispatch_order_iff hbefore hx hadd hafter hexpire (by decide)
    (hfresh ▸ by decide)
  exact ⟨s', hfresh ▸ horder⟩

/-- A timer with the delay `256` is added at tick `0`, and one with the delay `255` at tick `1`.
They expire at the same tick, and the callback of the second one is invoked first. -/
theorem dispatch_overtakes :
    ((exec (traced step) (initTimer fun _ => ⟨0, (), 0, 0⟩, [])
        ([.add 256 () 0, .update, .add 255 () 0] ++ List.replicate 255 .update ++
          [.dispatch, .dispatch])).map fun st =>
      ((st.1.wheel.node 0).expire, (st.1.wheel.node 1).expire,
        st.2.filter fun e => e = .dispatched 0 true ∨ e = .dispatched 1 true)) =
      some (256, 256, [.dispatched 1 true, .dispatched 0 true]) := by
  decide +kernel

end MmorpgServer.TimeWheel
