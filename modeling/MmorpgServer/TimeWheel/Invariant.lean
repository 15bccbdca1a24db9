import MmorpgServer.TimeWheel.Placement
import Mathlib.Data.List.Nodup

/-!
# What the wheel keeps

`Filed` is the invariant of the lists: with every node stands a deadline in absolute ticks,
and every node stands in exactly one list, once, where its deadline allows. `add_node`
keeps it at any tick, `move_list` keeps it while it has nodes in hand, and `timer_shift`
carries it to the next tick, provided the list that is due has been emptied.

## Main definitions

* `Filed` — the invariant of the lists at tick `now`
* `Pending` — the node stands in some list

## Main results

* `Filed.thin`, `Filed.link`, `Filed.addNode`, `Filed.foldl_addNode` — what keeps the invariant
* `filed_timerShift` — what a tick keeps, and where every node is after it
* `takeDue_eq_some`, `Filed.due_eq` — the batch that `timer_execute` detaches is due now
-/

namespace MmorpgServer.TimeWheel

variable {H : Type*} {T : STimer H} {due : NodeId → ℕ} {now : ℕ} {n m : NodeId} {a b : Slot}

/-- The node stands in some list. -/
def Pending (T : STimer H) (n : NodeId) : Prop := ∃ a, n ∈ T.list a

/-- At tick `now`, every node stands in one list, once, where its deadline allows. -/
structure Filed (T : STimer H) (due : NodeId → ℕ) (now : ℕ) : Prop where
  time : T.time.toNat = now % 2 ^ 32
  expire : ∀ a n, n ∈ T.list a → (T.node n).expire.toNat = due n % 2 ^ 32
  placed : ∀ a n, n ∈ T.list a → Placed now (due n) a
  nodup : ∀ a, (T.list a).Nodup
  disjoint : ∀ a b n, n ∈ T.list a → n ∈ T.list b → a = b

/-! ### Small operations -/

theorem setNode_node_of_ne (v : TimerNode H) (h : m ≠ n) : (T.setNode n v).node m = T.node m :=
  Function.update_of_ne h _ _

@[simp] theorem setNode_node_self (v : TimerNode H) : (T.setNode n v).node n = v :=
  Function.update_self _ _ _

theorem link_list_self : (T.link a n).list a = T.list a ++ [n] := Function.update_self _ _ _

theorem link_list_of_ne (h : b ≠ a) : (T.link a n).list b = T.list b :=
  Function.update_of_ne h _ _

theorem mem_link : m ∈ (T.link a n).list b ↔ m ∈ T.list b ∨ (b = a ∧ m = n) := by
  by_cases h : b = a
  · subst h
    simp [link_list_self]
  · simp [link_list_of_ne h, h]

theorem linkClear_list_self : (T.linkClear a).2.list a = [] := Function.update_self _ _ _

theorem linkClear_list_of_ne (h : b ≠ a) : (T.linkClear a).2.list b = T.list b :=
  Function.update_of_ne h _ _

theorem mem_linkClear : m ∈ (T.linkClear a).2.list b ↔ m ∈ T.list b ∧ b ≠ a := by
  by_cases h : b = a
  · subst h
    simp [linkClear_list_self]
  · simp [linkClear_list_of_ne h, h]

/-- Emptying some of the lists keeps the invariant. -/
theorem Filed.thin (h : Filed T due now) {list' : Slot → List NodeId}
    (hlist : ∀ a, list' a = [] ∨ list' a = T.list a) :
    Filed { T with list := list' } due now := by
  have hmem : ∀ a n, n ∈ list' a → n ∈ T.list a := by
    intro a n hn
    rcases hlist a with hnil | hsame
    · rw [hnil] at hn
      exact absurd hn List.not_mem_nil
    · rwa [hsame] at hn
  refine ⟨h.time, fun a n hn => h.expire a n (hmem a n hn),
    fun a n hn => h.placed a n (hmem a n hn), fun a => ?_,
    fun a b n ha hb => h.disjoint a b n (hmem a n ha) (hmem b n hb)⟩
  change (list' a).Nodup
  rcases hlist a with hnil | hsame
  · rw [hnil]
    exact List.nodup_nil
  · rw [hsame]
    exact h.nodup a

/-- Detaching a list keeps the invariant. -/
theorem Filed.linkClear (h : Filed T due now) (a : Slot) :
    Filed (T.linkClear a).2 due now := by
  apply h.thin
  intro b
  by_cases hb : b = a
  · rw [hb]
    exact Or.inl linkClear_list_self
  · exact Or.inr (linkClear_list_of_ne hb)

/-- A node of a detached list is nowhere else. -/
theorem Filed.not_pending_linkClear (h : Filed T due now) (hn : n ∈ T.list a) :
    ¬ Pending (T.linkClear a).2 n := by
  rintro ⟨b, hb⟩
  obtain ⟨hmem, hne⟩ := mem_linkClear.mp hb
  exact hne (h.disjoint b a n hmem hn)

/-- Appending a node that is nowhere, where its deadline allows, keeps the invariant. -/
theorem Filed.link (h : Filed T due now) (hn : ¬ Pending T n)
    (hexpire : (T.node n).expire.toNat = due n % 2 ^ 32) (hplaced : Placed now (due n) a) :
    Filed (T.link a n) due now where
  time := h.time
  expire b m hm := by
    rcases mem_link.mp hm with hm | ⟨-, rfl⟩
    · exact h.expire b m hm
    · exact hexpire
  placed b m hm := by
    rcases mem_link.mp hm with hm | ⟨rfl, rfl⟩
    · exact h.placed b m hm
    · exact hplaced
  nodup b := by
    by_cases hb : b = a
    · subst hb
      rw [link_list_self]
      exact List.nodup_append'.mpr ⟨h.nodup b, List.nodup_singleton n,
        List.disjoint_singleton.mpr fun hmem => hn ⟨b, hmem⟩⟩
    · rw [link_list_of_ne hb]
      exact h.nodup b
  disjoint b c m hb hc := by
    rcases mem_link.mp hb with hold | ⟨hba, hmn⟩ <;>
      rcases mem_link.mp hc with hold' | ⟨hca, hmn'⟩
    · exact h.disjoint b c m hold hold'
    · exact absurd ⟨b, hmn' ▸ hold⟩ hn
    · exact absurd ⟨c, hmn ▸ hold'⟩ hn
    · exact hba.trans hca.symm

/-- A node whose fields are about to be written and that stands in no list may change. -/
theorem Filed.setNode (h : Filed T due now) {v : TimerNode H}
    (hv : Pending T n → v.expire = (T.node n).expire) : Filed (T.setNode n v) due now where
  time := h.time
  expire b m hm := by
    by_cases hmn : m = n
    · subst hmn
      rw [setNode_node_self, hv ⟨b, hm⟩]
      exact h.expire b m hm
    · rw [setNode_node_of_ne v hmn]
      exact h.expire b m hm
  placed := h.placed
  nodup := h.nodup
  disjoint := h.disjoint

/-- Only the deadlines of nodes that stand somewhere matter. -/
theorem Filed.congr_due {due' : NodeId → ℕ} (h : Filed T due now)
    (heq : ∀ n, Pending T n → due' n = due n) : Filed T due' now where
  time := h.time
  expire b m hm := heq m ⟨b, hm⟩ ▸ h.expire b m hm
  placed b m hm := heq m ⟨b, hm⟩ ▸ h.placed b m hm
  nodup := h.nodup
  disjoint := h.disjoint

/-! ### `add_node` and `move_list` -/

/-- `add_node` keeps the invariant at any tick. -/
theorem Filed.addNode (h : Filed T due now) (hn : ¬ Pending T n)
    (hexpire : (T.node n).expire.toNat = due n % 2 ^ 32) (hle : now ≤ due n)
    (hlt : due n < now + 2 ^ 32) : Filed (addNode T n) due now := by
  rw [addNode_eq hexpire h.time hle hlt]
  exact h.link hn hexpire (placed_slotFor hle hlt)

/-- The loop of `move_list`, with the nodes of `hand` detached: all are filed, each in the
list its remaining distance asks for, and no other node moves. -/
theorem Filed.foldl_addNode {hand : List NodeId} (h : Filed T due now) (hnodup : hand.Nodup)
    (hhand : ∀ n ∈ hand, ¬ Pending T n ∧ (T.node n).expire.toNat = due n % 2 ^ 32 ∧
      now ≤ due n ∧ due n < now + 2 ^ 32) :
    Filed (hand.foldl TimeWheel.addNode T) due now ∧
      (hand.foldl TimeWheel.addNode T).node = T.node ∧
      ∀ a m, m ∈ (hand.foldl TimeWheel.addNode T).list a ↔
        m ∈ T.list a ∨ (m ∈ hand ∧ a = slotFor (due m) (due m - now)) := by
  induction hand generalizing T with
  | nil => exact ⟨h, rfl, by simp⟩
  | cons n hand ih =>
    -- the rest of the hand stays detached: the node that was filed is not among it
    obtain ⟨hn, hexpire, hle, hlt⟩ := hhand n List.mem_cons_self
    obtain ⟨hnew, hnodup⟩ := List.nodup_cons.mp hnodup
    have hadd := addNode_eq hexpire h.time hle hlt
    obtain ⟨hfiled, hnode, hmem⟩ := ih (h.addNode hn hexpire hle hlt) hnodup (by
      intro m hm
      obtain ⟨hm', hrest⟩ := hhand m (List.mem_cons_of_mem n hm)
      rw [hadd]
      refine ⟨?_, hrest⟩
      rintro ⟨a, ha⟩
      rcases mem_link.mp ha with ha | ⟨-, rfl⟩
      · exact hm' ⟨a, ha⟩
      · exact hnew hm)
    refine ⟨hfiled, hnode.trans (by rw [hadd]; rfl), fun a m => ?_⟩
    rw [List.foldl_cons, hmem, hadd, mem_link, List.mem_cons]
    constructor
    · rintro ((hm | ⟨rfl, rfl⟩) | ⟨hm, rfl⟩)
      · exact Or.inl hm
      · exact Or.inr ⟨Or.inl rfl, rfl⟩
      · exact Or.inr ⟨Or.inr hm, rfl⟩
    · rintro (hm | ⟨rfl | hm, rfl⟩)
      · exact Or.inl (Or.inl hm)
      · exact Or.inl (Or.inr ⟨rfl, rfl⟩)
      · exact Or.inr ⟨hm, rfl⟩

/-! ### `timer_shift` -/

/-- The list is emptied by the `timer_shift` that makes tick `now`. -/
def Emptied (now : ℕ) (a : Slot) : Prop :=
  ∃ i s, a = .level i s ∧ cascade now = some (i, s)

/-- A dead list is never emptied. -/
theorem Dead.not_emptied (h : Dead a) : ¬ Emptied now a := by
  rintro ⟨i, s, rfl, hcascade⟩
  have hlast := (cascade_eq_some hcascade).2.2.2 h.2
  have hlt := h.1
  omega

/-- The wheel with its clock advanced, but for the emptied list. -/
theorem Filed.advance (h : Filed T due now) (hdue : T.list (.near (now % 256)) = [])
    (hempty : ∀ a, Emptied (now + 1) a → T.list a = []) :
    Filed { T with time := T.time + 1 } due (now + 1) where
  time := by
    change (T.time + 1).toNat = _
    rw [UInt32.toNat_add, h.time, Nat.mod_add_mod]
    rfl
  expire := h.expire
  placed a n hn := by
    refine (h.placed a n hn).tick ?_ ?_
    · rintro rfl
      change n ∈ T.list (.near (now % 256)) at hn
      rw [hdue] at hn
      exact List.not_mem_nil hn
    · rintro i s rfl hcascade
      change n ∈ T.list (.level i s) at hn
      rw [hempty _ ⟨i, s, rfl, hcascade⟩] at hn
      exact List.not_mem_nil hn
  nodup := h.nodup
  disjoint := h.disjoint

/-- The nodes of the emptied list stand at their block start, less than a width before their
deadline. -/
theorem Filed.emptied_bounds (h : Filed T due now) {i s : ℕ}
    (hcascade : cascade (now + 1) = some (i, s)) (hm : m ∈ T.list (.level i s)) :
    now + 1 ≤ due m ∧ due m < now + 1 + 2 ^ 32 := by
  have hstart := (h.placed _ m hm).emptied hcascade
  have hle := Digits.blockStart_le (span i) (due m)
  have hlt := Digits.lt_blockStart_add (span_pos i) (due m)
  have hspan := span_lt_word (cascade_eq_some hcascade).1
  omega

/-- What a tick keeps, and where every node is after it: the nodes of the emptied list go
where their remaining distance asks for, all others stay. -/
theorem filed_timerShift (h : Filed T due now) (hdue : T.list (.near (now % 256)) = []) :
    Filed (timerShift T) due (now + 1) ∧ (timerShift T).node = T.node ∧
      ∀ a m, m ∈ (timerShift T).list a ↔ (m ∈ T.list a ∧ ¬ Emptied (now + 1) a) ∨
        ∃ b, Emptied (now + 1) b ∧ m ∈ T.list b ∧ a = slotFor (due m) (due m - (now + 1)) := by
  rw [timerShift_eq h.time]
  cases hcascade : cascade (now + 1) with
  | none =>
    -- the source moves a list only when the low bits of the clock are zero
    have hno : ∀ a, ¬ Emptied (now + 1) a := by
      rintro a ⟨i, s, -, hsome⟩
      rw [hcascade] at hsome
      cases hsome
    refine ⟨h.advance hdue fun a ha => absurd ha (hno a), rfl, fun a m => ?_⟩
    simp [hno]
  | some p =>
    obtain ⟨i, s⟩ := p
    have hiff : ∀ a, Emptied (now + 1) a ↔ a = .level i s := by
      intro a
      constructor
      · rintro ⟨i', s', rfl, hsome⟩
        rw [hcascade] at hsome
        cases hsome
        rfl
      · rintro rfl
        exact ⟨i, s, rfl, hcascade⟩
    have hclear := h.linkClear (.level i s)
    have hadv : Filed { (T.linkClear (.level i s)).2 with time := T.time + 1 } due (now + 1) := by
      refine hclear.advance ?_ ?_
      · rw [linkClear_list_of_ne (by simp)]
        exact hdue
      · intro a ha
        rw [(hiff a).mp ha]
        exact linkClear_list_self
    obtain ⟨hfiled, hnode, hmem⟩ := hadv.foldl_addNode (h.nodup (.level i s)) fun m hm =>
      ⟨h.not_pending_linkClear hm, h.expire _ m hm, h.emptied_bounds hcascade hm⟩
    refine ⟨hfiled, hnode, fun a m => ?_⟩
    apply (hmem a m).trans
    change m ∈ (T.linkClear (.level i s)).2.list a ∨ _ ↔ _
    rw [mem_linkClear, hiff]
    constructor
    · rintro (hm | ⟨hm, rfl⟩)
      · exact Or.inl hm
      · exact Or.inr ⟨_, (hiff _).mpr rfl, hm, rfl⟩
    · rintro (hm | ⟨c, hc, hm, rfl⟩)
      · exact Or.inl hm
      · rw [(hiff c).mp hc] at hm
        exact Or.inr ⟨hm, rfl⟩

/-- A tick loses no node and makes none. -/
theorem pending_timerShift (h : Filed T due now) (hdue : T.list (.near (now % 256)) = []) :
    Pending (timerShift T) n ↔ Pending T n := by
  have hmem := (filed_timerShift h hdue).2.2
  constructor
  · rintro ⟨a, ha⟩
    rcases (hmem a n).mp ha with ⟨hn, -⟩ | ⟨b, -, hn, -⟩
    · exact ⟨a, hn⟩
    · exact ⟨b, hn⟩
  · rintro ⟨a, ha⟩
    -- a node of the emptied list is filed again, all others stay
    by_cases hempty : Emptied (now + 1) a
    · exact ⟨_, (hmem _ n).mpr (Or.inr ⟨a, hempty, ha, rfl⟩)⟩
    · exact ⟨a, (hmem a n).mpr (Or.inl ⟨ha, hempty⟩)⟩

/-! ### `clear_timer` -/

/-- `clear_timer` empties the lists it walks and leaves the others. -/
theorem clearTimer_list (T : STimer H) (a : Slot) :
    (clearTimer T).2.list a = [] ∨ (clearTimer T).2.list a = T.list a := by
  change (if a ∈ allSlots then [] else T.list a) = [] ∨ (if a ∈ allSlots then [] else _) = _
  split_ifs
  · exact Or.inl rfl
  · exact Or.inr rfl

theorem mem_of_mem_clearTimer (h : n ∈ (clearTimer T).2.list a) : n ∈ T.list a := by
  rcases clearTimer_list T a with hnil | hsame
  · rw [hnil] at h
    exact absurd h List.not_mem_nil
  · rwa [hsame] at h

/-! ### `timer_execute` -/

theorem due_index (h : Filed T due now) : (T.time &&& timeNearMask).toNat = now % 256 := by
  rw [near_index_toNat, h.time]
  omega

theorem takeDue_eq_none (h : Filed T due now) :
    takeDue T = none ↔ T.list (.near (now % 256)) = [] := by
  unfold takeDue
  rw [due_index h]
  dsimp only
  split
  · next hnil => exact iff_of_true rfl hnil
  · next hcons => simp [hcons]

theorem takeDue_eq_some {batch : List NodeId} {T' : STimer H} (h : Filed T due now)
    (htake : takeDue T = some (batch, T')) :
    batch = T.list (.near (now % 256)) ∧ T' = (T.linkClear (.near (now % 256))).2 := by
  unfold takeDue at htake
  rw [due_index h] at htake
  dsimp only at htake
  split at htake
  · cases htake
  · obtain ⟨rfl, rfl⟩ := Prod.mk.inj (Option.some.inj htake)
    exact ⟨rfl, rfl⟩

/-- The nodes of the due list are due exactly now. -/
theorem Filed.due_eq (h : Filed T due now) (hn : n ∈ T.list (.near (now % 256))) :
    due n = now := by
  obtain ⟨hj, hle, hlt⟩ := h.placed _ n hn
  rw [span_zero] at hlt
  omega

end MmorpgServer.TimeWheel
