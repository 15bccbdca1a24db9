import MmorpgServer.TimeWheel.Linked
import MmorpgServer.TimeWheel.Invariant
import MmorpgServer.Lib.Chain
import Mathlib.Data.List.Pairwise

/-!
# What the cells of the wheel represent

The lists in memory represent the lists of the wheel as sequences: the cells behind the embedded
node of a list are its nodes, and its tail is the last of them. Every function of the source keeps
this while the nodes it handles stand nowhere else, so that what it does to the cells is what it
does to the sequences.

## Main definitions

* `contents` — the nodes of all lists
* `Linked.Rep` — the memory represents a wheel of sequences
* `Linked.Same` — the cells that a function may have relinked

## Main results

* `Rep.link`, `Rep.addNode`, `Rep.moveLoop`, `Rep.timerShift`, `Rep.takeDue`, `Rep.clearTimer` —
  the functions on the cells are those on the sequences
-/

namespace MmorpgServer.TimeWheel

open Chain

variable {H : Type*} {T T' : STimer H} {a b : Slot} {n m : NodeId}

/-! ### The lists of the wheel -/

theorem mem_allSlots : a ∈ allSlots ↔ Linked.InBounds a := by
  unfold allSlots
  cases a with
  | near i => simp [Linked.InBounds]
  | level i j => simp [Linked.InBounds]

theorem nodup_allSlots : allSlots.Nodup := by
  unfold allSlots
  refine List.nodup_append'.mpr ⟨?_, ?_, ?_⟩
  · exact List.nodup_range.map fun i j h => Slot.near.inj h
  · refine List.nodup_flatMap.mpr ⟨fun i _ => ?_, ?_⟩
    · exact List.nodup_range.map fun j k h => (Slot.level.inj h).2
    · refine List.nodup_range.imp fun {i j} hne => ?_
      intro a hi hj
      obtain ⟨k, -, rfl⟩ := List.mem_map.mp hi
      obtain ⟨l, -, heq⟩ := List.mem_map.mp hj
      exact hne (Slot.level.inj heq).1.symm
  · intro a hnear hlevel
    obtain ⟨i, -, rfl⟩ := List.mem_map.mp hnear
    simp at hlevel

/-- The nodes of all lists. -/
def contents (T : STimer H) : List NodeId := allSlots.flatMap T.list

/-- One list is replaced. -/
theorem contents_update (ha : a ∈ allSlots) (l : List NodeId) :
    (allSlots.flatMap (Function.update T.list a l)).Perm
      (l ++ (allSlots.erase a).flatMap T.list) := by
  have hperm := (List.perm_cons_erase ha).flatMap_right (Function.update T.list a l)
  rw [List.flatMap_cons, Function.update_self] at hperm
  have hrest : (allSlots.erase a).flatMap (Function.update T.list a l) =
      (allSlots.erase a).flatMap T.list := by
    apply List.flatMap_congr
    intro b hb
    exact Function.update_of_ne ((List.Nodup.mem_erase_iff nodup_allSlots).mp hb).1 _ _
  rwa [hrest] at hperm

theorem contents_split (ha : a ∈ allSlots) :
    (contents T).Perm (T.list a ++ (allSlots.erase a).flatMap T.list) := by
  have hsame := contents_update (T := T) ha (T.list a)
  rwa [Function.update_eq_self] at hsame

theorem contents_link (ha : a ∈ allSlots) : (contents (T.link a n)).Perm (n :: contents T) := by
  refine (contents_update ha _).trans ?_
  rw [List.append_assoc, List.singleton_append]
  exact List.perm_middle.trans ((contents_split ha).symm.cons n)

theorem contents_linkClear (ha : a ∈ allSlots) :
    (T.list a ++ contents (T.linkClear a).2).Perm (contents T) := by
  refine List.Perm.trans ?_ (contents_split ha).symm
  exact (contents_update ha []).append_left (T.list a)

/-- A list is part of them. -/
theorem mem_contents (ha : a ∈ allSlots) (hn : n ∈ T.list a) : n ∈ contents T :=
  List.mem_flatMap.mpr ⟨a, ha, hn⟩

/-- The list that `add_node` chooses. -/
def fileSlot (time currentTime : UInt32) : Slot :=
  let msec := time - currentTime
  if msec < UInt32.ofNat timeNear then .near (time &&& timeNearMask).toNat
  else if msec < UInt32.ofNat (1 <<< levelShift 1) then
    .level 0 (time >>> UInt32.ofNat (levelShift 0) &&& timeLevelMask).toNat
  else if msec < UInt32.ofNat (1 <<< levelShift 2) then
    .level 1 (time >>> UInt32.ofNat (levelShift 1) &&& timeLevelMask).toNat
  else if msec < UInt32.ofNat (1 <<< levelShift 3) then
    .level 2 (time >>> UInt32.ofNat (levelShift 2) &&& timeLevelMask).toNat
  else .level 3 (time >>> UInt32.ofNat (levelShift 3) &&& timeLevelMask).toNat

/-- Its index is within bounds, whatever the clock and the deadline. -/
theorem fileSlot_mem (time currentTime : UInt32) : fileSlot time currentTime ∈ allSlots := by
  have hnear : (time &&& timeNearMask).toNat < timeNear := by
    rw [near_index_toNat]
    exact Nat.mod_lt _ (by decide)
  have hlevel : ∀ (x : UInt32) (i : ℕ), i < 4 →
      Linked.InBounds (.level i (x &&& timeLevelMask).toNat) := by
    intro x i hi
    refine ⟨hi, ?_⟩
    rw [level_index_toNat]
    exact Nat.mod_lt _ (by decide)
  rw [mem_allSlots]
  unfold fileSlot
  dsimp only
  split_ifs
  · exact hnear
  · exact hlevel _ 0 (by omega)
  · exact hlevel _ 1 (by omega)
  · exact hlevel _ 2 (by omega)
  · exact hlevel _ 3 (by omega)

theorem addNode_eq_link : addNode T n = T.link (fileSlot (T.node n).expire T.time) n := by
  unfold addNode fileSlot
  dsimp only
  split_ifs <;> rfl

theorem contents_addNode : (contents (addNode T n)).Perm (n :: contents T) := by
  rw [addNode_eq_link]
  exact contents_link (fileSlot_mem _ _)

/-! ### The cells -/

namespace Linked

variable {M M' : STimer H} {T : TimeWheel.STimer H} {fuel : ℕ} {hand : List NodeId}
  {current p : Option NodeId} {t : Addr}

/-- The `next` fields. -/
def next (M : STimer H) : Addr → Option (Option Addr)
  | .head a => some ((M.list a).next.map .node)
  | .node n => (M.node n).map fun v => v.next.map .node

/-- The memory represents a wheel of sequences. -/
structure Rep (M : STimer H) (T : TimeWheel.STimer H) : Prop where
  chain : ∀ a, Run (next M) (.head a) ((T.list a).map .node)
  tail : ∀ a, (M.list a).tail = ((T.list a).map Addr.node).getLastD (.head a)
  time : M.time = T.time
  fields : ∀ n v, M.node n = some v → v.toTimerNode = T.node n
  bounds : ∀ a ∉ allSlots, T.list a = []

/-- Only the `next` fields of the nodes `l` may differ. -/
structure Same (M M' : STimer H) (l : List NodeId) : Prop where
  fields : ∀ m, (M'.node m).map TimerNode.toTimerNode = (M.node m).map TimerNode.toTimerNode
  others : ∀ m ∉ l, M'.node m = M.node m

theorem Same.refl (M : STimer H) (l : List NodeId) : Same M M l := ⟨fun _ => rfl, fun _ _ => rfl⟩

theorem Same.trans {M'' : STimer H} {l l' : List NodeId} (h : Same M M' l) (h' : Same M' M'' l')
    (hsub : ∀ m ∈ l', m ∈ l) : Same M M'' l where
  fields m := (h'.fields m).trans (h.fields m)
  others m hm := (h'.others m fun hin => hm (hsub m hin)).trans (h.others m hm)

theorem Same.mono {l l' : List NodeId} (h : Same M M' l) (hsub : ∀ m ∈ l, m ∈ l') :
    Same M M' l' :=
  ⟨h.fields, fun m hm => h.others m fun hin => hm (hsub m hin)⟩

/-- The same nodes are allocated. -/
theorem Same.alive {l : List NodeId} (h : Same M M' l) : M'.node m = none ↔ M.node m = none := by
  rw [← Option.map_eq_none_iff (f := TimerNode.toTimerNode), h.fields, Option.map_eq_none_iff]

theorem Same.fields_of_some {l : List NodeId} (h : Same M M' l) {v' : TimerNode H}
    (hv : M'.node n = some v') : ∃ v, M.node n = some v ∧ v.toTimerNode = v'.toTimerNode := by
  have hfields := h.fields n
  rw [hv, Option.map_some, eq_comm, Option.map_eq_some_iff] at hfields
  exact hfields

theorem next_node (h : M'.node m = M.node m) : next M' (.node m) = next M (.node m) := by
  simp [next, h]

/-- A way that avoids these nodes. -/
theorem Same.path {l : List NodeId} (h : Same M M' l) {q : Option Addr}
    (hpath : Path (next M) q (hand.map .node)) (hout : ∀ m ∈ hand, m ∉ l) :
    Path (next M') q (hand.map .node) := by
  refine hpath.congr fun x hx => ?_
  obtain ⟨m, hm, rfl⟩ := List.mem_map.mp hx
  exact next_node (h.others m (hout m hm))

/-- What `setNext` does. -/
structure Stored (M M' : STimer H) (p : Option NodeId) (t : Addr) : Prop where
  next : next M' = Function.update (next M) t (some (p.map .node))
  tail : ∀ a, (M'.list a).tail = (M.list a).tail
  time : M'.time = M.time
  fields : ∀ m, (M'.node m).map TimerNode.toTimerNode = (M.node m).map TimerNode.toTimerNode
  others : ∀ m, t ≠ .node m → M'.node m = M.node m

/-- A field of an allocated cell, or of a list, can be written. -/
theorem setNext_spec (p : Option NodeId) (ht : next M t ≠ none) :
    ∃ M', setNext M p t = some M' ∧ Stored M M' p t := by
  cases t with
  | head a =>
    refine ⟨_, rfl, ⟨funext fun x => ?_, fun b => ?_, rfl, fun _ => rfl, fun _ _ => rfl⟩⟩
    · cases x with
      | head b =>
        by_cases hb : b = a
        · subst hb
          simp [next]
        · simp [next, hb]
      | node m => simp [next]
    · by_cases hb : b = a
      · subst hb
        simp
      · simp [hb]
  | node n =>
    obtain ⟨v, hv⟩ : ∃ v, M.node n = some v := by
      apply Option.ne_none_iff_exists'.mp
      intro hnone
      simp [next, hnone] at ht
    have hset : setNext M p (.node n) = some { M with
        node := Function.update M.node n (some { v with next := p }) } := by
      simp [setNext, hv]
    refine ⟨_, hset, ⟨funext fun x => ?_, fun _ => rfl, rfl, fun m => ?_, fun m hm => ?_⟩⟩
    · cases x with
      | head b => simp [next]
      | node m =>
        by_cases hm : m = n
        · subst hm
          simp [next]
        · simp [next, hm]
    · by_cases hm : m = n
      · subst hm
        simp [hv]
      · simp [hm]
    · simp [show m ≠ n by rintro rfl; exact hm rfl]

/-- What `link` does to the list `a`, whose tail is the cell `t`: the node `n` follows `t`, and is
the last one. -/
structure Appended (M M' : STimer H) (a : Slot) (t : Addr) (n : NodeId) : Prop where
  next : next M' = Function.update (Function.update (next M) t (some (some (.node n))))
    (.node n) (some none)
  tail : (M'.list a).tail = .node n
  tail_ne : ∀ b ≠ a, (M'.list b).tail = (M.list b).tail
  time : M'.time = M.time
  fields : ∀ m, (M'.node m).map TimerNode.toTimerNode = (M.node m).map TimerNode.toTimerNode
  others : ∀ m ≠ n, t ≠ .node m → M'.node m = M.node m

theorem link_spec (hn : M.node n ≠ none) (ht : next M (M.list a).tail ≠ none)
    (hne : (M.list a).tail ≠ .node n) :
    ∃ M', link M a n = some M' ∧ Appended M M' a (M.list a).tail n := by
  obtain ⟨M₁, hset₁, hM₁⟩ := setNext_spec (some n) ht
  set M₂ : STimer H := { M₁ with
    list := Function.update M₁.list a { M₁.list a with tail := .node n } } with hM₂
  have hnext₂ : next M₂ = next M₁ := by
    funext x
    cases x with
    | head b =>
      by_cases hb : b = a
      · subst hb
        simp [next, hM₂]
      · simp [next, hM₂, hb]
    | node m => rfl
  have hlive : next M₂ (.node n) ≠ none := by
    rw [hnext₂, hM₁.next, Function.update_of_ne hne.symm]
    simpa [next] using hn
  obtain ⟨M₃, hset₃, hM₃⟩ := setNext_spec none hlive
  refine ⟨M₃, ?_, ⟨?_, ?_, fun b hb => ?_, hM₃.time.trans hM₁.time,
    fun m => (hM₃.fields m).trans (hM₁.fields m), fun m hm hmt => ?_⟩⟩
  · unfold link
    simp only [hset₁, Option.bind_eq_bind, Option.bind_some]
    exact hset₃
  · rw [hM₃.next, hnext₂, hM₁.next]
    rfl
  · rw [hM₃.tail]
    simp [hM₂]
  · rw [hM₃.tail, ← hM₁.tail b]
    simp [hM₂, hb]
  · rw [hM₃.others m fun heq => hm (Addr.node.inj heq).symm]
    exact hM₁.others m hmt

/-! ### Relinking -/

theorem Rep.mem_contents (h : Rep M T) (hn : n ∈ T.list a) : n ∈ contents T := by
  by_cases ha : a ∈ allSlots
  · exact TimeWheel.mem_contents ha hn
  · rw [h.bounds a ha] at hn
    exact absurd hn List.not_mem_nil

theorem Rep.list_nodup (h : Rep M T) (hnodup : (contents T).Nodup) (a : Slot) :
    (T.list a).Nodup := by
  by_cases ha : a ∈ allSlots
  · exact (List.nodup_flatMap.mp hnodup).1 a ha
  · rw [h.bounds a ha]
    exact List.nodup_nil

/-- A node stands in one list. -/
theorem Rep.slot_unique (h : Rep M T) (hnodup : (contents T).Nodup) (ha : n ∈ T.list a)
    (hb : n ∈ T.list b) : a = b := by
  have hin : ∀ {c}, n ∈ T.list c → c ∈ allSlots := by
    intro c hc
    by_contra hout
    rw [h.bounds c hout] at hc
    exact List.not_mem_nil hc
  by_contra hne
  have hsymm : Std.Symm (Function.onFun List.Disjoint T.list) := ⟨fun _ _ hd n hb ha => hd ha hb⟩
  exact (List.nodup_flatMap.mp hnodup).2.forall (hin ha) (hin hb) hne ha hb

theorem nodup_cells {l : List NodeId} (h : l.Nodup) : (Addr.head a :: l.map Addr.node).Nodup :=
  List.nodup_cons.mpr ⟨by simp, h.map fun _ _ => Addr.node.inj⟩

/-- A cell belongs to one list. -/
theorem Rep.cell_unique (h : Rep M T) (hnodup : (contents T).Nodup)
    (hb : t ∈ Addr.head b :: (T.list b).map Addr.node)
    (ha : t ∈ Addr.head a :: (T.list a).map Addr.node) : b = a := by
  rw [List.mem_cons, List.mem_map] at ha hb
  rcases ha with rfl | ⟨n, hn, rfl⟩
  · rcases hb with heq | ⟨m, -, heq⟩
    · exact (Addr.head.inj heq).symm
    · cases heq
  · rcases hb with heq | ⟨m, hm, heq⟩
    · cases heq
    · exact h.slot_unique hnodup (Addr.node.inj heq ▸ hm) hn

theorem Rep.ne_node (h : Rep M T) (hout : n ∉ contents T)
    (ht : t ∈ Addr.head a :: (T.list a).map Addr.node) : t ≠ .node n := by
  rintro rfl
  rw [List.mem_cons, List.mem_map] at ht
  rcases ht with heq | ⟨m, hm, heq⟩
  · cases heq
  · exact hout (Addr.node.inj heq ▸ h.mem_contents hm)

/-- A node that stands in no list is linked behind the last node of a list. -/
theorem Rep.link (h : Rep M T) (ha : a ∈ allSlots) (hnodup : (n :: contents T).Nodup)
    (hn : M.node n ≠ none) : ∃ M', Linked.link M a n = some M' ∧ Rep M' (T.link a n) ∧
      Same M M' (n :: contents T) := by
  obtain ⟨hout, hnodup⟩ := List.nodup_cons.mp hnodup
  -- the tail is a cell of the list or its embedded node
  set t := (M.list a).tail with ht
  have htail : t = ((T.list a).map Addr.node).getLastD (.head a) := h.tail a
  have htmem : t ∈ Addr.head a :: (T.list a).map Addr.node := htail ▸ getLastD_mem
  have hlast : next M t = some none := by
    have hchain := h.chain a
    rw [← List.append_nil ((T.list a).map Addr.node)] at hchain
    rw [htail]
    exact hchain.next_last
  have hnt : t ≠ .node n := h.ne_node hout htmem
  obtain ⟨M', hlink, hM'⟩ := link_spec hn (show next M t ≠ none by simp [hlast]) hnt
  rw [← ht] at hM'
  have hnext : ∀ x, x ≠ t → x ≠ .node n → next M' x = next M x := by
    intro x hxt hxn
    rw [hM'.next, Function.update_of_ne hxn, Function.update_of_ne hxt]
  have hsame : Same M M' (n :: contents T) := by
    refine ⟨hM'.fields, fun m hm => ?_⟩
    rw [List.mem_cons, not_or] at hm
    exact hM'.others m hm.1 (h.ne_node hm.2 htmem)
  refine ⟨M', hlink, ⟨fun b => ?_, fun b => ?_, hM'.time.trans h.time, fun m v hv => ?_,
    fun b hb => ?_⟩, hsame⟩
  · by_cases hb : b = a
    · -- the cell is new at the end of the list
      subst hb
      have hcells : (Addr.head b :: ((T.list b).map Addr.node ++ [])).Nodup := by
        rw [List.append_nil]
        exact nodup_cells (h.list_nodup hnodup b)
      have hchain := h.chain b
      rw [← List.append_nil ((T.list b).map Addr.node)] at hchain
      rw [link_list_self, List.map_append, List.map_singleton]
      refine hchain.insert hcells ?_ ?_ fun x hx hxt => ?_
      · rw [hM'.next, Function.update_self]
        rfl
      · rw [← htail, hM'.next, Function.update_of_ne hnt, Function.update_self]
      · rw [List.append_nil] at hx
        exact hnext x (htail ▸ hxt) (h.ne_node hout hx)
    · rw [link_list_of_ne hb]
      refine (h.chain b).congr fun x hx => hnext x ?_ (h.ne_node hout hx)
      rintro rfl
      exact hb (h.cell_unique hnodup hx htmem)
  · by_cases hb : b = a
    · subst hb
      rw [hM'.tail, link_list_self, List.map_append, List.map_singleton, List.getLastD_concat]
    · rw [hM'.tail_ne b hb, link_list_of_ne hb]
      exact h.tail b
  · obtain ⟨v', hv', heq⟩ := hsame.fields_of_some hv
    exact heq.symm.trans (h.fields m v' hv')
  · have hne : b ≠ a := fun heq => hb (heq.symm ▸ ha)
    rw [link_list_of_ne hne]
    exact h.bounds b hb

theorem addNode_eq_link {v : TimerNode H} (hv : M.node n = some v) :
    addNode M n = link M (fileSlot v.expire M.time) n := by
  unfold addNode fileSlot
  simp only [hv, Option.bind_eq_bind, Option.bind_some]
  split_ifs <;> rfl

/-- A node that stands in no list is filed. -/
theorem Rep.addNode (h : Rep M T) (hnodup : (n :: contents T).Nodup) (hn : M.node n ≠ none) :
    ∃ M', Linked.addNode M n = some M' ∧ Rep M' (TimeWheel.addNode T n) ∧
      Same M M' (n :: contents T) := by
  obtain ⟨v, hv⟩ := Option.ne_none_iff_exists'.mp hn
  have hexpire : v.expire = (T.node n).expire := by rw [← h.fields n v hv]
  rw [addNode_eq_link hv, TimeWheel.addNode_eq_link, hexpire, h.time]
  exact h.link (fileSlot_mem _ _) hnodup hn

/-- The first of the nodes that a loop has to go is the one that it looks at. -/
theorem path_node_cons (hpath : Path (next M) (current.map .node) ((n :: hand).map .node)) :
    ∃ v, current = some n ∧ M.node n = some v ∧
      Path (next M) (v.next.map .node) (hand.map .node) := by
  obtain ⟨hcurrent, q, hq, hrest⟩ := hpath
  obtain ⟨n', rfl, heq⟩ := Option.map_eq_some_iff.mp hcurrent
  obtain rfl := Addr.node.inj heq
  obtain ⟨v, hv, rfl⟩ := Option.map_eq_some_iff.mp hq
  exact ⟨v, rfl, hv, hrest⟩

/-- The loop of `move_list`, with the nodes `hand` to go: all are filed. -/
theorem Rep.moveLoop (h : Rep M T) (hpath : Path (next M) (current.map .node) (hand.map .node))
    (hnodup : (hand ++ contents T).Nodup) (hfuel : hand.length ≤ fuel) :
    ∃ M', Linked.moveLoop fuel M current = some M' ∧ Rep M' (hand.foldl TimeWheel.addNode T) ∧
      Same M M' (hand ++ contents T) ∧
      (contents (hand.foldl TimeWheel.addNode T)).Perm (hand ++ contents T) := by
  induction hand generalizing M T current fuel with
  | nil =>
    obtain rfl := Option.map_eq_none_iff.mp hpath
    have hend : Linked.moveLoop fuel M none = some M := by
      cases fuel <;> rfl
    exact ⟨M, hend, h, Same.refl M _, List.Perm.refl _⟩
  | cons n hand ih =>
    obtain ⟨v, rfl, hv, hrest⟩ := path_node_cons hpath
    cases fuel with
    | zero => cases hfuel
    | succ fuel =>
      have hlive : M.node n ≠ none := by simp [hv]
      obtain ⟨M₁, hadd, hrep₁, hsame₁⟩ :=
        h.addNode (hnodup.sublist ((List.sublist_append_right hand _).cons_cons n)) hlive
      have hperm₁ : (hand ++ contents (TimeWheel.addNode T n)).Perm (n :: (hand ++ contents T)) :=
        (contents_addNode.append_left hand).trans List.perm_middle
      -- the rest of the nodes stands nowhere, so that its cells are as before
      have hrest₁ : Path (next M₁) (v.next.map .node) (hand.map .node) := by
        refine hsame₁.path hrest fun m hm => ?_
        exact List.disjoint_of_nodup_append (List.perm_middle.nodup_iff.mpr hnodup) hm
      obtain ⟨M', hloop, hrep', hsame', hperm'⟩ :=
        ih hrep₁ hrest₁ (hperm₁.nodup_iff.mpr hnodup) (Nat.le_of_succ_le_succ hfuel)
      refine ⟨M', ?_, hrep', ?_, hperm'.trans hperm₁⟩
      · rw [Linked.moveLoop]
        simp only [hv, hadd, Option.bind_eq_bind, Option.bind_some]
        exact hloop
      · refine (hsame₁.mono fun m hm => ?_).trans hsame' fun m hm => hperm₁.mem_iff.mp hm
        exact List.cons_subset_cons n (List.subset_append_right hand _) hm

/-- A list is detached: its nodes are still linked to each other. -/
theorem Rep.linkClear (h : Rep M T) (hnodup : (contents T).Nodup) (ha : a ∈ allSlots) :
    (Linked.linkClear M a).1 = (T.list a).head? ∧
      Rep (Linked.linkClear M a).2 (T.linkClear a).2 ∧
      Path (next (Linked.linkClear M a).2) ((Linked.linkClear M a).1.map .node)
        ((T.linkClear a).1.map .node) := by
  have hnext : ∀ x, x ≠ .head a → next (Linked.linkClear M a).2 x = next M x := by
    intro x hx
    cases x with
    | head b =>
      have hb : b ≠ a := fun heq => hx (congrArg Addr.head heq)
      simp [next, Linked.linkClear, hb]
    | node m => rfl
  obtain ⟨q, hq, hpath⟩ := run_iff_path.mp (h.chain a)
  obtain rfl := Option.some.inj hq
  refine ⟨?_, ⟨fun b => ?_, fun b => ?_, h.time, h.fields, fun b hb => ?_⟩, ?_⟩
  · have hhead := Option.some.inj (h.chain a).head
    rw [List.head?_map] at hhead
    exact Option.map_injective (fun _ _ => Addr.node.inj) hhead
  · by_cases hb : b = a
    · subst hb
      rw [linkClear_list_self]
      simp [Run, next, Linked.linkClear]
    · rw [linkClear_list_of_ne hb]
      refine (h.chain b).congr fun x hx => hnext x ?_
      rintro rfl
      exact hb (h.cell_unique hnodup hx List.mem_cons_self)
  · by_cases hb : b = a
    · subst hb
      rw [linkClear_list_self]
      simp [Linked.linkClear]
    · rw [linkClear_list_of_ne hb, ← h.tail b]
      simp [Linked.linkClear, hb]
  · have hne : b ≠ a := fun heq => hb (heq.symm ▸ ha)
    rw [linkClear_list_of_ne hne]
    exact h.bounds b hb
  · refine hpath.congr fun x hx => hnext x ?_
    rintro rfl
    simp at hx

/-- `move_list` -/
theorem Rep.moveList {i j : ℕ} (h : Rep M T) (hnodup : (contents T).Nodup)
    (hfuel : (contents T).length ≤ fuel) (hij : InBounds (.level i j)) :
    ∃ M', Linked.moveList fuel M i j = some M' ∧ Rep M' (TimeWheel.moveList T i j) ∧
      Same M M' (contents T) ∧ (contents (TimeWheel.moveList T i j)).Perm (contents T) := by
  have ha := mem_allSlots.mpr hij
  have hperm := contents_linkClear (T := T) ha
  obtain ⟨-, hrep, hpath⟩ := h.linkClear hnodup ha
  have hlength : (T.list (.level i j)).length ≤ fuel := by
    refine le_trans ?_ hfuel
    rw [← hperm.length_eq, List.length_append]
    exact Nat.le_add_right _ _
  obtain ⟨M', hloop, hrep', hsame, hperm'⟩ :=
    hrep.moveLoop hpath (hperm.nodup_iff.mpr hnodup) hlength
  refine ⟨M', ?_, hrep', ⟨hsame.fields, fun m hm => ?_⟩, hperm'.trans hperm⟩
  · rw [Linked.moveList, if_pos hij]
    exact hloop
  · exact hsame.others m fun hin => hm (hperm.mem_iff.mp hin)

/-- `timer_shift`: the loop ends, and every node that it takes out is filed again. -/
theorem Rep.timerShift (h : Rep M T) (hnodup : (contents T).Nodup)
    (hfuel : (contents T).length ≤ fuel) :
    ∃ M', Linked.timerShift fuel M = some M' ∧ Rep M' (TimeWheel.timerShift T) ∧
      Same M M' (contents T) ∧ (contents (TimeWheel.timerShift T)).Perm (contents T) := by
  have htick : Rep { M with time := M.time + 1 } { T with time := T.time + 1 } :=
    ⟨h.chain, h.tail, congrArg (· + 1) h.time, h.fields, h.bounds⟩
  have hmove : ∀ i j, InBounds (.level i j) → ∃ M',
      Linked.moveList fuel { M with time := M.time + 1 } i j = some M' ∧
      Rep M' (TimeWheel.moveList { T with time := T.time + 1 } i j) ∧
      Same M M' (contents T) ∧
      (contents (TimeWheel.moveList { T with time := T.time + 1 } i j)).Perm (contents T) := by
    intro i j hij
    obtain ⟨M', hrun, hrep, hsame, hperm⟩ := htick.moveList hnodup hfuel hij
    exact ⟨M', hrun, hrep, ⟨hsame.fields, hsame.others⟩, hperm⟩
  unfold Linked.timerShift TimeWheel.timerShift
  rw [h.time]
  rw [h.time] at htick hmove
  dsimp only
  by_cases hzero : T.time + 1 = 0
  · rw [if_pos hzero, if_pos hzero]
    exact hmove 3 0 (by decide)
  · rw [if_neg hzero, if_neg hzero, shiftLoop_eq hzero]
    cases hcascade : cascade (T.time + 1).toNat with
    | none => exact ⟨_, rfl, htick, ⟨fun _ => rfl, fun _ _ => rfl⟩, List.Perm.refl _⟩
    | some q =>
      obtain ⟨i, j⟩ := q
      obtain ⟨hi, -, rfl, -⟩ := cascade_eq_some hcascade
      exact hmove i _ ⟨hi, Nat.mod_lt _ (by decide)⟩

/-- A batch is detached if there is one. -/
theorem Rep.takeDue (h : Rep M T) (hnodup : (contents T).Nodup) :
    (Linked.takeDue M = none ∧ TimeWheel.takeDue T = none) ∨
      ∃ n batch M' T', Linked.takeDue M = some (n, M') ∧
        TimeWheel.takeDue T = some (n :: batch, T') ∧ Rep M' T' ∧
        Path (next M') (some (.node n)) ((n :: batch).map .node) ∧ M'.node = M.node ∧
        (n :: batch ++ contents T').Perm (contents T) := by
  set i := (T.time &&& timeNearMask).toNat with hi
  have ha : Slot.near i ∈ allSlots := by
    rw [mem_allSlots, hi, near_index_toNat]
    exact Nat.mod_lt _ (by decide)
  obtain ⟨hhead, hrep, hpath⟩ := h.linkClear hnodup ha
  have hperm := contents_linkClear (T := T) ha
  have hnode : (Linked.linkClear M (.near i)).2.node = M.node := rfl
  have hbatch : T.linkClear (.near i) = (T.list (.near i), (T.linkClear (.near i)).2) := rfl
  unfold Linked.takeDue TimeWheel.takeDue
  rw [h.time, ← hi]
  dsimp only
  generalize Linked.linkClear M (.near i) = r at hhead hrep hpath hnode ⊢
  obtain ⟨current, M'⟩ := r
  rw [hbatch] at hpath ⊢
  cases hlist : T.list (.near i) with
  | nil =>
    rw [hlist] at hhead
    obtain rfl : current = none := hhead
    exact Or.inl ⟨rfl, rfl⟩
  | cons n batch =>
    rw [hlist] at hhead hpath hperm
    obtain rfl : current = some n := hhead
    exact Or.inr ⟨n, batch, M', _, rfl, rfl, hrep, hpath, hnode, hperm⟩

/-! ### `clear_timer` -/

/-- The loop over the nodes of a list frees them all. -/
theorem freeLoop_spec (hpath : Path (next M) (current.map .node) (hand.map .node))
    (hnodup : hand.Nodup) (hfuel : hand.length ≤ fuel) :
    ∃ M', freeLoop fuel M current = some (hand, M') ∧ M'.list = M.list ∧ M'.time = M.time ∧
      (∀ m ∈ hand, M'.node m = none) ∧ ∀ m ∉ hand, M'.node m = M.node m := by
  induction hand generalizing M current fuel with
  | nil =>
    obtain rfl := Option.map_eq_none_iff.mp hpath
    have hend : freeLoop fuel M none = some ([], M) := by
      cases fuel <;> rfl
    exact ⟨M, hend, rfl, rfl, by simp, fun _ _ => rfl⟩
  | cons n hand ih =>
    obtain ⟨v, rfl, hv, hrest⟩ := path_node_cons hpath
    obtain ⟨hnew, hnodup⟩ := List.nodup_cons.mp hnodup
    cases fuel with
    | zero => cases hfuel
    | succ fuel =>
      set M₁ : STimer H := { M with node := Function.update M.node n none } with hM₁
      have hfree : free M n = some M₁ := by simp [free, hv, hM₁]
      have hrest₁ : Path (next M₁) (v.next.map .node) (hand.map .node) := by
        refine hrest.congr fun x hx => ?_
        obtain ⟨m, hm, rfl⟩ := List.mem_map.mp hx
        have hne : m ≠ n := fun heq => hnew (heq ▸ hm)
        simp [next, hM₁, hne]
      obtain ⟨M', hloop, hlist, htime, hgone, hothers⟩ :=
        ih hrest₁ hnodup (Nat.le_of_succ_le_succ hfuel)
      refine ⟨M', ?_, hlist, htime, fun m hm => ?_, fun m hm => ?_⟩
      · rw [freeLoop]
        simp [hv, hfree, hloop]
      · rcases List.mem_cons.mp hm with rfl | hm
        · rw [hothers m hnew]
          simp [hM₁]
        · exact hgone m hm
      · rw [List.mem_cons, not_or] at hm
        rw [hothers m hm.2]
        simp [hM₁, hm.1]

/-- Nodes that stand in no list are freed. -/
theorem Rep.gone (h : Rep M T) (hand : List NodeId) (hlist : M'.list = M.list)
    (htime : M'.time = M.time)
    (hgone : ∀ m ∈ hand, M'.node m = none) (hothers : ∀ m ∉ hand, M'.node m = M.node m)
    (hout : ∀ m ∈ hand, m ∉ contents T) : Rep M' T where
  chain a := by
    refine (h.chain a).congr fun x hx => ?_
    cases x with
    | head b => simp [next, hlist]
    | node m =>
      have hm : m ∈ T.list a := by simpa using hx
      simp [next, hothers m fun hin => hout m hin (h.mem_contents hm)]
  tail a := by
    rw [hlist]
    exact h.tail a
  time := htime.trans h.time
  fields m v hv := by
    by_cases hm : m ∈ hand
    · rw [hgone m hm] at hv
      cases hv
    · exact h.fields m v ((hothers m hm).symm.trans hv)
  bounds := h.bounds

/-- The loops over the lists `lists`: all are emptied, and their nodes freed. -/
theorem Rep.clearLists {lists : List Slot} (h : Rep M T) (hnodup : (contents T).Nodup)
    (hlists : lists.Nodup) (hsub : ∀ a ∈ lists, a ∈ allSlots)
    (hfuel : (contents T).length ≤ fuel) :
    ∃ M', Linked.clearLists fuel lists M = some (lists.flatMap T.list, M') ∧
      Rep M' { T with list := fun a => if a ∈ lists then [] else T.list a } ∧
      (∀ m ∈ lists.flatMap T.list, M'.node m = none) ∧
      ∀ m ∉ lists.flatMap T.list, M'.node m = M.node m := by
  induction lists generalizing M T with
  | nil =>
    refine ⟨M, rfl, ?_, by simp, fun _ _ => rfl⟩
    simpa using h
  | cons a lists ih =>
    obtain ⟨hnew, hlists⟩ := List.nodup_cons.mp hlists
    obtain ⟨ha, hsub⟩ := List.forall_mem_cons.mp hsub
    have hperm := contents_linkClear (T := T) ha
    obtain ⟨-, hrep, -⟩ := h.linkClear hnodup ha
    -- the nodes of the first list are freed while it still points to them
    obtain ⟨q, hq, hpath⟩ := run_iff_path.mp (h.chain a)
    obtain rfl := Option.some.inj hq
    have hlength : (T.list a).length ≤ fuel := by
      refine le_trans ?_ hfuel
      rw [← hperm.length_eq, List.length_append]
      exact Nat.le_add_right _ _
    obtain ⟨M₁, hloop, hlist₁, htime₁, hgone₁, hothers₁⟩ :=
      freeLoop_spec hpath (h.list_nodup hnodup a) hlength
    have hsplit := hperm.nodup_iff.mpr hnodup
    have hrep₂ : Rep (Linked.linkClear M₁ a).2 (T.linkClear a).2 := by
      refine hrep.gone _ ?_ htime₁ hgone₁ hothers₁ fun m hm => ?_
      · simp [Linked.linkClear, hlist₁]
      · exact List.disjoint_of_nodup_append hsplit hm
    obtain ⟨M', hclear, hrep', hgone', hothers'⟩ := ih hrep₂ hsplit.of_append_right hlists hsub (by
      refine le_trans ?_ hfuel
      rw [← hperm.length_eq, List.length_append]
      exact Nat.le_add_left _ _)
    have hrest : lists.flatMap (T.linkClear a).2.list = lists.flatMap T.list := by
      refine List.flatMap_congr fun b hb => linkClear_list_of_ne ?_
      rintro rfl
      exact hnew hb
    rw [hrest] at hclear hgone' hothers'
    refine ⟨M', ?_, ?_, fun m hm => ?_, fun m hm => ?_⟩
    · rw [Linked.clearLists]
      simp [hloop, hclear]
    · have heq : (fun b => if b ∈ lists then [] else (T.linkClear a).2.list b) =
          fun b => if b ∈ a :: lists then [] else T.list b := by
        funext b
        by_cases hb : b = a
        · subst hb
          simp [linkClear_list_self]
        · simp [linkClear_list_of_ne hb, hb]
      rw [heq] at hrep'
      exact hrep'
    · rw [List.flatMap_cons, List.mem_append] at hm
      by_cases hm' : m ∈ lists.flatMap T.list
      · exact hgone' m hm'
      · exact (hothers' m hm').trans (hgone₁ m (hm.resolve_right hm'))
    · rw [List.flatMap_cons, List.mem_append, not_or] at hm
      exact (hothers' m hm.2).trans (hothers₁ m hm.1)

/-- `clear_timer` frees the nodes of all lists, and no others. -/
theorem Rep.clearTimer (h : Rep M T) (hnodup : (contents T).Nodup)
    (hfuel : (contents T).length ≤ fuel) :
    ∃ M', Linked.clearTimer fuel M = some (contents T, M') ∧
      Rep M' (TimeWheel.clearTimer T).2 ∧ (∀ m ∈ contents T, M'.node m = none) ∧
      ∀ m ∉ contents T, M'.node m = M.node m :=
  h.clearLists hnodup nodup_allSlots (fun _ ha => ha) hfuel

/-- No list has a node afterwards. -/
theorem Rep.clearTimer_list (h : Rep M T) (a : Slot) : (TimeWheel.clearTimer T).2.list a = [] := by
  change (if a ∈ allSlots then [] else T.list a) = []
  split_ifs with ha
  · rfl
  · exact h.bounds a ha

end Linked

end MmorpgServer.TimeWheel
