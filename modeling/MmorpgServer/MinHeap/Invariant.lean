import MmorpgServer.MinHeap.Sift
import Mathlib.Data.Multiset.AddSub

/-!
# The representation invariant of the heap timer

## Main definitions

* `RepInv` — the heap order, the positions that the nodes carry, and `_map` as a bijection
* `Valid` — the invariant of the proofs: in addition, no node is leaked, and every id was
  drawn from `_count`
* `contents` — the timers in the heap, as a user knows them

## Main results

* `delNode_spec` — `_delNode` returns, and removes one timer
* `Valid.added` — the end of `AddTimer`
-/

namespace MmorpgServer.MinHeap

open BinaryHeap

variable {H : Type} {t t' : MinHeapTimer H} {m i : ℕ} {p q : NodePtr} {n : TimerNode H}

/-- Three structures in step: `_heap` is ordered by `expire`, every node carries its position,
and `_map` is a bijection between the ids and the nodes of `_heap`. -/
structure RepInv (t : MinHeapTimer H) : Prop where
  order : ∀ i c n m, nodeAt t i = some n → nodeAt t c = some m → c = 2 * i + 1 ∨ c = 2 * i + 2 →
    n.expire ≤ m.expire
  idx : ∀ i < t.heap.length, ∃ n, nodeAt t i = some n ∧ n.idx = i
  distinct : t.heap.Nodup
  keys : (t.map.map Prod.fst).Nodup
  size : t.map.length = t.heap.length
  mapped : ∀ id p, (id, p) ∈ t.map ↔ p ∈ t.heap ∧ ∃ n, t.node p = some n ∧ n.id = id

/-- The invariant between operations. -/
structure Valid (t : MinHeapTimer H) : Prop where
  linked : Linked t t.heap.length
  ordered : Ordered (key t) t.heap.length
  owned : ∀ p n, t.node p = some n → p ∈ t.heap
  known : ∀ p ∈ t.heap, p < t.fresh
  keys : (t.map.map Prod.fst).Nodup
  size : t.map.length = t.heap.length
  mapped : ∀ id p, (id, p) ∈ t.map ↔ ∃ n, t.node p = some n ∧ n.id = id
  ids : ∀ p n, t.node p = some n → n.id ≤ t.count
  small : (t.heap.length : ℤ) ≤ t.count.toInt

theorem Valid.repInv (h : Valid t) : RepInv t where
  order i c n m hn hm hchild := by
    have hc : c < t.heap.length := by
      obtain ⟨p, hp, -⟩ := nodeAt_eq_some.mp hm
      exact (List.getElem?_eq_some_iff.mp hp).1
    have hle := h.ordered c i (isChild_iff.mpr hchild) hc
    rw [key_of_nodeAt hn, key_of_nodeAt hm] at hle
    exact UInt32.le_iff_toNat_le.mpr hle
  idx := h.linked.idx
  distinct := h.linked.nodup
  keys := h.keys
  size := h.size
  mapped id p := by
    rw [h.mapped]
    exact ⟨fun ⟨n, hn, hid⟩ => ⟨h.owned p n hn, n, hn, hid⟩, And.right⟩

theorem valid_new {count : Int32} (hcount : 0 ≤ count.toInt) :
    Valid (MinHeapTimer.new count : MinHeapTimer H) where
  linked := ⟨fun i hi => absurd hi (Nat.not_lt_zero i), List.nodup_nil⟩
  ordered i _ _ hi := absurd hi (Nat.not_lt_zero i)
  owned _ _ h := by cases h
  known _ h := absurd h List.not_mem_nil
  keys := List.nodup_nil
  size := rfl
  mapped id p := iff_of_false List.not_mem_nil fun ⟨_, h, _⟩ => by cases h
  ids _ _ h := by cases h
  small := hcount

/-- A node of the heap stands at the position it carries. -/
theorem Valid.node_of_mem (h : Valid t) (hp : p ∈ t.heap) :
    ∃ n, t.node p = some n ∧ t.heap[n.idx]? = some p := by
  obtain ⟨i, hi, rfl⟩ := List.mem_iff_getElem.mp hp
  obtain ⟨n, hn, rfl⟩ := h.linked.idx i hi
  obtain ⟨q, hq, hn⟩ := nodeAt_eq_some.mp hn
  rw [List.getElem?_eq_getElem hi] at hq
  obtain rfl := Option.some.inj hq
  exact ⟨n, hn, List.getElem?_eq_getElem hi⟩

/-- The same payloads, read at one node. -/
theorem exists_of_payload (hnode : (t'.node p).map payload = (t.node p).map payload)
    (hn : t.node p = some n) : ∃ n', t'.node p = some n' ∧ payload n' = payload n := by
  rw [hn] at hnode
  exact Option.map_eq_some_iff.mp hnode

/-! ### `std::map` -/

theorem mem_mapErase {map : List (Int32 × NodePtr)} {id id' : Int32} :
    (id', p) ∈ mapErase map id ↔ (id', p) ∈ map ∧ id' ≠ id := by
  simp [mapErase]

/-- Erasing a key that is there removes one entry. -/
theorem length_mapErase {map : List (Int32 × NodePtr)} {id : Int32}
    (hkeys : (map.map Prod.fst).Nodup) (hmem : (id, p) ∈ map) :
    (mapErase map id).length + 1 = map.length := by
  -- the key occurs once, so the filter drops one entry
  have hcount : (map.map Prod.fst).count id = 1 :=
    List.count_eq_one_of_mem hkeys (List.mem_map_of_mem hmem)
  have hsplit := List.length_eq_length_filter_add (l := map) fun e => decide (e.1 ≠ id)
  have hone : (map.filter fun e => !decide (e.1 ≠ id)).length = 1 := by
    rw [← hcount, List.count, List.countP_map, ← List.countP_eq_length_filter]
    exact List.countP_congr fun e _ => by simp
  unfold mapErase
  omega

theorem eq_of_mem_map {map : List (Int32 × NodePtr)} {id : Int32}
    (hkeys : (map.map Prod.fst).Nodup) (hp : (id, p) ∈ map) (hq : (id, q) ∈ map) : p = q :=
  (Prod.mk.inj (List.inj_on_of_nodup_map hkeys hp hq rfl)).2

/-! ### `_delNode` -/

theorem moveLast_eq {t₁ t₂ : MinHeapTimer H} {idx last : ℕ} {moved : Bool}
    (hstart : (swap t idx last).bind (fun t => setIdx t idx idx) = some t₁)
    (hdown : shiftDown t₁ idx = some (t₂, moved)) :
    moveLast t idx last = if moved then some t₂ else shiftUp t₂ idx := by
  unfold moveLast
  rw [Option.bind_eq_bind, ← Option.bind_assoc, hstart, Option.bind_some, hdown]
  rfl

/-- After `moveLast` the node that leaves stands last, and the others form a heap. -/
theorem moveLast_spec {idx : ℕ} (h : Linked t (m + 1)) (hordered : Ordered (key t) (m + 1))
    (hlen : t.heap.length = m + 1) (hsmall : m + 1 < 2 ^ 31) (hidx : idx < m)
    (hp : t.heap[idx]? = some p) :
    ∃ t', moveLast t idx m = some t' ∧ Linked t' m ∧ Ordered (key t') m ∧ Shuffled (m + 1) t t' ∧
      t'.heap[m]? = some p := by
  obtain ⟨nq, hnq, -⟩ := h.idx m (Nat.lt_succ_self m)
  obtain ⟨q, hq, hnq⟩ := nodeAt_eq_some.mp hnq
  have hheap := getElem?_swap hp hq
  let t₁ : MinHeapTimer H :=
    { t with
      heap := (t.heap.set idx q).set m p
      node := Function.update t.node q (some { nq with idx := idx }) }
  have hpayload : ∀ r, (t₁.node r).map payload = (t.node r).map payload := payload_update hnq idx
  have hshuffled₁ : Shuffled (m + 1) t t₁ := by
    refine ⟨rfl, rfl, rfl, perm_swap hp hq, fun k hk => ?_, hpayload⟩
    exact (hheap k).trans (by rw [Equiv.swap_apply_of_ne_of_ne (by omega) (by omega)])
  have hstay : ∀ k < m, k ≠ idx → t₁.heap[k]? = t.heap[k]? := fun k hk hne =>
    (hheap k).trans (by rw [Equiv.swap_apply_of_ne_of_ne hne hk.ne])
  -- the last node now stands at `idx`, with the position patched; the others did not move
  have hlinked₁ : Linked t₁ m := by
    refine ⟨fun k hk => ?_, hshuffled₁.perm.nodup_iff.mpr h.nodup⟩
    by_cases hki : k = idx
    · subst hki
      refine ⟨_, nodeAt_eq_some.mpr ⟨q, ?_, Function.update_self _ _ _⟩, rfl⟩
      exact (hheap k).trans (by rw [Equiv.swap_apply_left, hq])
    · obtain ⟨n, hn, hidx'⟩ := h.idx k (by omega)
      obtain ⟨r, hr, hn⟩ := nodeAt_eq_some.mp hn
      have hrq : r ≠ q := by
        rintro rfl
        have := (List.getElem?_inj (by omega) h.nodup).mp (hr.trans hq.symm)
        omega
      exact ⟨n, nodeAt_eq_some.mpr ⟨r, (hstay k hk hki).trans hr,
        (Function.update_of_ne hrq _ _).trans hn⟩, hidx'⟩
  -- the node that came from the end may be out of order with both its parent and its children
  have hoff : OffHole (key t₁) m idx := hordered.offHole (Nat.le_succ m) hidx fun k hk hne =>
    key_congr (nodeAt_payload hpayload (hstay k hk hne))
  have hlen₁ : t₁.heap.length = m + 1 := hshuffled₁.perm.length_eq.trans hlen
  have hlast : t₁.heap[m]? = some p := (hheap m).trans (by rw [Equiv.swap_apply_right, hp])
  -- the sifts stay below `m`, where the node that leaves stands
  have hend : ∀ t', Shuffled m t₁ t' → Shuffled (m + 1) t t' ∧ t'.heap[m]? = some p := by
    intro t' hshuffled
    refine ⟨hshuffled₁.trans ?_, (hshuffled.above m le_rfl).trans hlast⟩
    exact { hshuffled with above := fun k hk => hshuffled.above k (by omega) }
  obtain ⟨t₂, moved, hdown, hlinked₂, hshuffled₂, hmoved⟩ :=
    shiftDown_spec hlinked₁ hlen₁ hsmall hidx hoff
  rw [moveLast_eq (swap_setIdx hp hq hnq) hdown]
  cases moved with
  | true =>
    -- `_shiftDown` moved it, and the source does not try `_shiftUp`
    obtain ⟨hshuffled, hp'⟩ := hend t₂ hshuffled₂
    rw [if_pos rfl] at hmoved ⊢
    exact ⟨t₂, rfl, hlinked₂, hmoved, hshuffled, hp'⟩
  | false =>
    rw [if_neg Bool.false_ne_true] at hmoved ⊢
    obtain ⟨rfl, hbelow⟩ := hmoved
    obtain ⟨t₃, hup, hlinked₃, hshuffled₃, hordered₃⟩ := shiftUp_spec hlinked₂ hidx hoff hbelow
    obtain ⟨hshuffled, hp'⟩ := hend t₃ hshuffled₃
    exact ⟨t₃, hup, hlinked₃, hordered₃, hshuffled, hp'⟩

/-- The `if` of `_delNode`, for a node of the heap: it is moved to the end. -/
theorem toLast_spec {idx : ℕ} (h : Linked t (m + 1)) (hordered : Ordered (key t) (m + 1))
    (hlen : t.heap.length = m + 1) (hsmall : m + 1 < 2 ^ 31) (hp : t.heap[idx]? = some p) :
    ∃ t', toLast t idx m = some t' ∧ Linked t' m ∧ Ordered (key t') m ∧ Shuffled (m + 1) t t' ∧
      t'.heap[m]? = some p := by
  have hlt := (List.getElem?_eq_some_iff.mp hp).1
  unfold toLast
  by_cases hlast : idx = m
  · rw [if_neg (not_not.mpr hlast)]
    refine ⟨t, rfl, ⟨fun i hi => h.idx i (by omega), h.nodup⟩, ?_, .refl, ?_⟩
    · exact fun i q hchild hi => hordered i q hchild (by omega)
    · rwa [← hlast]
  · rw [if_pos hlast]
    exact moveLast_spec h hordered hlen hsmall (by omega) hp

/-- The last statements of `_delNode`, for a node that stands last. -/
def remove (t : MinHeapTimer H) (p : NodePtr) (id : Int32) : MinHeapTimer H :=
  { t with
    heap := t.heap.dropLast
    map := mapErase t.map id
    node := Function.update t.node p none }

theorem remove_node_self (id : Int32) : (remove t p id).node p = none := Function.update_self _ _ _

theorem remove_node_of_ne (id : Int32) (h : q ≠ p) : (remove t p id).node q = t.node q :=
  Function.update_of_ne h _ _

theorem ne_of_remove_node {id : Int32} (h : (remove t p id).node q = some n) : q ≠ p := by
  rintro rfl
  rw [remove_node_self] at h
  cases h

/-- The nodes of the heap without its last one. -/
theorem mem_dropLast (h : Linked t m) (hlen : t.heap.length = m + 1)
    (hlast : t.heap[m]? = some p) : q ∈ t.heap.dropLast ↔ q ∈ t.heap ∧ q ≠ p := by
  have hheap : t.heap.dropLast ++ [p] = t.heap := by
    apply List.dropLast_append_getLast? p
    rwa [List.getLast?_eq_getElem?, hlen, Nat.add_sub_cancel]
  have hnodup := h.nodup
  rw [← hheap] at hnodup
  have hout : p ∉ t.heap.dropLast := fun hmem =>
    List.disjoint_singleton.mp (List.disjoint_of_nodup_append hnodup) hmem
  conv_rhs => rw [← hheap, List.mem_append, List.mem_singleton]
  constructor
  · intro hq
    exact ⟨Or.inl hq, fun heq => hout (heq ▸ hq)⟩
  · rintro ⟨hq, hne⟩
    exact hq.resolve_right hne

/-- The positions before the last one do not change. -/
theorem nodeAt_remove (h : Linked t m) (hlen : t.heap.length = m + 1)
    (hlast : t.heap[m]? = some p) (id : Int32) (hi : i < m) :
    nodeAt (remove t p id) i = nodeAt t i := by
  obtain ⟨n, hn, -⟩ := h.idx i hi
  obtain ⟨q, hq, hnode⟩ := nodeAt_eq_some.mp hn
  have hq' : t.heap.dropLast[i]? = some q := by
    rw [List.getElem?_dropLast, if_pos (by omega), hq]
  have hne : q ≠ p := ((mem_dropLast h hlen hlast).mp (List.mem_of_getElem? hq')).2
  rw [hn]
  exact nodeAt_eq_some.mpr ⟨q, hq', (remove_node_of_ne id hne).trans hnode⟩

/-- The entries that erasing the id of a node leaves. -/
theorem Valid.mem_mapErase_iff (h : Valid t) (hn : t.node p = some n) {id : Int32} :
    (id, q) ∈ mapErase t.map n.id ↔ q ≠ p ∧ ∃ n', t.node q = some n' ∧ n'.id = id := by
  have hentry : (n.id, p) ∈ t.map := (h.mapped _ _).mpr ⟨n, hn, rfl⟩
  rw [mem_mapErase]
  constructor
  · rintro ⟨hin, hid⟩
    refine ⟨?_, (h.mapped id q).mp hin⟩
    rintro rfl
    obtain ⟨n', hn', rfl⟩ := (h.mapped id q).mp hin
    rw [hn] at hn'
    exact hid (congrArg _ (Option.some.inj hn').symm)
  · rintro ⟨hqp, hn'⟩
    have hin := (h.mapped id q).mpr hn'
    -- one id names one node
    exact ⟨hin, fun heq => hqp (eq_of_mem_map h.keys (heq ▸ hin) hentry)⟩

/-- What removing a node leaves. -/
structure Removed (t : MinHeapTimer H) (p : NodePtr) (t' : MinHeapTimer H) : Prop where
  valid : Valid t'
  count : t'.count = t.count
  fresh : t'.fresh = t.fresh
  gone : t'.node p = none
  rest : ∀ q ≠ p, (t'.node q).map payload = (t.node q).map payload
  length : t'.heap.length + 1 = t.heap.length

/-- Once the node stands last and the others form a heap, dropping it leaves a valid timer. -/
theorem Valid.removed (h : Valid t) (hn : t.node p = some n) (hlen : t.heap.length = m + 1)
    (hlinked : Linked t' m) (hordered : Ordered (key t') m) (hshuffled : Shuffled (m + 1) t t')
    (hlast : t'.heap[m]? = some p) : Removed t p (remove t' p n.id) := by
  have hlen' : t'.heap.length = m + 1 := hshuffled.perm.length_eq.trans hlen
  have hlenDrop : t'.heap.dropLast.length = m := by
    rw [List.length_dropLast, hlen', Nat.add_sub_cancel]
  have hmem : ∀ q, q ∈ t'.heap.dropLast ↔ q ∈ t.heap ∧ q ≠ p := fun q => by
    rw [mem_dropLast hlinked hlen' hlast, hshuffled.perm.mem_iff]
  have hnodeAt : ∀ i < m, nodeAt (remove t' p n.id) i = nodeAt t' i := fun i hi =>
    nodeAt_remove hlinked hlen' hlast n.id hi
  have hrest : ∀ q ≠ p, ((remove t' p n.id).node q).map payload = (t.node q).map payload :=
    fun q hq => (congrArg _ (remove_node_of_ne n.id hq)).trans (hshuffled.node q)
  have hsmall := h.small
  refine ⟨⟨?_, ?_, ?_, ?_, ?_, ?_, ?_, ?_, ?_⟩, hshuffled.count, hshuffled.fresh,
    remove_node_self n.id, hrest, ?_⟩
  · refine ⟨fun i hi => ?_, hlinked.nodup.sublist (List.dropLast_sublist _)⟩
    rw [hnodeAt i (hi.trans_eq hlenDrop)]
    exact hlinked.idx i (hi.trans_eq hlenDrop)
  · intro i q hchild hi
    have hi' : i < m := hi.trans_eq hlenDrop
    rw [key_congr (congrArg _ (hnodeAt i hi')),
      key_congr (congrArg _ (hnodeAt q (hchild.lt.trans hi')))]
    exact hordered i q hchild hi'
  · intro q n' hn'
    have hqp := ne_of_remove_node hn'
    obtain ⟨n'', hn'', -⟩ := exists_of_payload (hrest q hqp).symm hn'
    exact (hmem q).mpr ⟨h.owned q n'' hn'', hqp⟩
  · intro q hq
    exact (h.known q ((hmem q).mp hq).1).trans_eq hshuffled.fresh.symm
  · change ((mapErase t'.map n.id).map Prod.fst).Nodup
    rw [hshuffled.map]
    exact h.keys.sublist (List.filter_sublist.map _)
  · change (mapErase t'.map n.id).length = t'.heap.dropLast.length
    have hone := length_mapErase h.keys ((h.mapped _ _).mpr ⟨n, hn, rfl⟩)
    have hsize := h.size
    rw [hshuffled.map]
    omega
  · intro id q
    change (id, q) ∈ mapErase t'.map n.id ↔ _
    rw [hshuffled.map, h.mem_mapErase_iff hn]
    constructor
    · rintro ⟨hqp, n', hn', rfl⟩
      obtain ⟨n'', hn'', hpayload⟩ := exists_of_payload (hrest q hqp) hn'
      exact ⟨n'', hn'', congrArg Prod.fst hpayload⟩
    · rintro ⟨n', hn', rfl⟩
      have hqp := ne_of_remove_node hn'
      obtain ⟨n'', hn'', hpayload⟩ := exists_of_payload (hrest q hqp).symm hn'
      exact ⟨hqp, n'', hn'', congrArg Prod.fst hpayload⟩
  · intro q n' hn'
    obtain ⟨n'', hn'', hpayload⟩ := exists_of_payload (hrest q (ne_of_remove_node hn')).symm hn'
    change n'.id ≤ t'.count
    rw [hshuffled.count, ← show n''.id = n'.id from congrArg Prod.fst hpayload]
    exact h.ids q n'' hn''
  · change (t'.heap.dropLast.length : ℤ) ≤ t'.count.toInt
    rw [hshuffled.count]
    omega
  · change t'.heap.dropLast.length + 1 = _
    omega

/-- `_delNode` of a node of the heap removes this node. -/
theorem delNode_spec (h : Valid t) (hp : p ∈ t.heap) :
    ∃ t', delNode t p = some t' ∧ Removed t p t' := by
  obtain ⟨n, hn, hidx⟩ := h.node_of_mem hp
  obtain ⟨m, hlen⟩ : ∃ m, t.heap.length = m + 1 :=
    Nat.exists_eq_succ_of_ne_zero (List.length_pos_of_mem hp).ne'
  have hsmall : m + 1 < 2 ^ 31 := by
    have hcount := h.small
    have hbound := t.count.toInt_lt
    omega
  have hlinked := h.linked
  have hordered := h.ordered
  rw [hlen] at hlinked hordered
  obtain ⟨t₂, hmove, hlinked₂, hordered₂, hshuffled, hlast⟩ :=
    toLast_spec hlinked hordered hlen hsmall hidx
  -- the sifts wrote positions only: the node still has its id
  obtain ⟨n₂, hn₂, hpayload⟩ := exists_of_payload (hshuffled.node p) hn
  have hid : n₂.id = n.id := congrArg Prod.fst hpayload
  refine ⟨remove t₂ p n.id, ?_, h.removed hn hlen hlinked₂ hordered₂ hshuffled hlast⟩
  have hne : t₂.heap ≠ [] := List.ne_nil_of_mem (List.mem_of_getElem? hlast)
  unfold delNode remove
  simp only [hn, hlen, Nat.add_sub_cancel, hmove, popBack, if_neg hne, hn₂, hid,
    Option.bind_eq_bind, Option.bind_some, Option.pure_def]

/-! ### The end of `AddTimer` -/

theorem toInt_succ {count : Int32} (h : count.toInt + 1 < 2 ^ 31) :
    (count + 1).toInt = count.toInt + 1 := by
  have hle := count.le_toInt
  rw [Int32.toInt_add, Int32.toInt_one, Int.bmod_def]
  split_ifs <;> omega

/-- The timer with a new node at the end of the heap, before the sift of `AddTimer`. -/
def append (t : MinHeapTimer H) (n : TimerNode H) : MinHeapTimer H :=
  { t with
    heap := t.heap ++ [t.fresh]
    count := n.id
    node := Function.update t.node t.fresh (some n)
    fresh := t.fresh + 1 }

theorem append_node_self : (append t n).node t.fresh = some n := Function.update_self _ _ _

theorem append_node_of_ne (h : q ≠ t.fresh) : (append t n).node q = t.node q :=
  Function.update_of_ne h _ _

/-- `new` returns an address that is not in the heap. -/
theorem Valid.fresh_not_mem (h : Valid t) : t.fresh ∉ t.heap := fun hmem =>
  (h.known _ hmem).ne rfl

/-- The positions of the old heap do not change. -/
theorem Valid.nodeAt_append (h : Valid t) (n : TimerNode H) (hi : i < t.heap.length) :
    nodeAt (append t n) i = nodeAt t i := by
  obtain ⟨n', hn', -⟩ := h.linked.idx i hi
  obtain ⟨q, hq, hnode⟩ := nodeAt_eq_some.mp hn'
  have hq' : (t.heap ++ [t.fresh])[i]? = some q := by
    rw [List.getElem?_append_left hi, hq]
  have hne : q ≠ t.fresh := fun heq => h.fresh_not_mem (heq ▸ List.mem_of_getElem? hq)
  rw [hn']
  exact nodeAt_eq_some.mpr ⟨q, hq', (append_node_of_ne hne).trans hnode⟩

theorem Valid.linked_append (h : Valid t) (hidx : n.idx = t.heap.length) :
    Linked (append t n) (t.heap.length + 1) := by
  refine ⟨fun i hi => ?_, ?_⟩
  · by_cases hlast : i = t.heap.length
    · subst hlast
      exact ⟨n, nodeAt_eq_some.mpr ⟨t.fresh, List.getElem?_concat_length, append_node_self⟩, hidx⟩
    · rw [h.nodeAt_append n (by omega)]
      exact h.linked.idx i (by omega)
  · exact List.nodup_append'.mpr
      ⟨h.linked.nodup, List.nodup_singleton _, List.disjoint_singleton.mpr h.fresh_not_mem⟩

/-- The next id is not in use. -/
theorem Valid.next_unused (h : Valid t) (hcount : t.count.toInt + 1 < 2 ^ 31) (q : NodePtr) :
    (t.count + 1, q) ∉ t.map := by
  intro hin
  obtain ⟨n, hn, hid⟩ := (h.mapped _ q).mp hin
  have hle := Int32.le_iff_toInt_le.mp (h.ids q n hn)
  rw [hid, toInt_succ hcount] at hle
  omega

/-- So `insert` adds an entry. -/
theorem Valid.mapInsert_next (h : Valid t) (hcount : t.count.toInt + 1 < 2 ^ 31) (p : NodePtr) :
    mapInsert t.map (t.count + 1) p = (t.count + 1, p) :: t.map := by
  apply if_neg
  intro hsome
  obtain ⟨⟨id, q⟩, hin, hid⟩ := List.lookup_isSome_iff.mp hsome
  obtain rfl : t.count + 1 = id := eq_of_beq hid
  exact h.next_unused hcount q hin

/-- Once the new node has its place in the heap, entering it in the map leaves a valid timer. -/
theorem Valid.added (h : Valid t) (hcount : t.count.toInt + 1 < 2 ^ 31) (hid : n.id = t.count + 1)
    (hlinked : Linked t' (t.heap.length + 1)) (hordered : Ordered (key t') (t.heap.length + 1))
    (hshuffled : Shuffled (t.heap.length + 1) (append t n) t') :
    Valid { t' with map := mapInsert t'.map (t.count + 1) t.fresh } := by
  have hsucc := toInt_succ hcount
  have hlen : t'.heap.length = t.heap.length + 1 :=
    hshuffled.perm.length_eq.trans List.length_append
  have hmap : mapInsert t'.map (t.count + 1) t.fresh = (t.count + 1, t.fresh) :: t.map := by
    rw [hshuffled.map]
    exact h.mapInsert_next hcount t.fresh
  have hnew : t'.count = t.count + 1 := hshuffled.count.trans hid
  have hself : (t'.node t.fresh).map payload = some (payload n) :=
    (hshuffled.node _).trans (congrArg _ append_node_self)
  have hrest : ∀ q ≠ t.fresh, (t'.node q).map payload = (t.node q).map payload := fun q hq =>
    (hshuffled.node q).trans (congrArg _ (append_node_of_ne hq))
  -- a node of the new heap is the new one or one of the old
  have hcases : ∀ q n', t'.node q = some n' →
      (q = t.fresh ∧ n'.id = t.count + 1) ∨ ∃ n'', t.node q = some n'' ∧ n''.id = n'.id := by
    intro q n' hn'
    by_cases hq : q = t.fresh
    · subst hq
      rw [hn'] at hself
      exact Or.inl ⟨rfl, (congrArg Prod.fst (Option.some.inj hself)).trans hid⟩
    · obtain ⟨n'', hn'', hpayload⟩ := exists_of_payload (hrest q hq).symm hn'
      exact Or.inr ⟨n'', hn'', congrArg Prod.fst hpayload⟩
  have hmem : ∀ q, q ∈ t'.heap ↔ q ∈ t.heap ∨ q = t.fresh := by
    intro q
    rw [hshuffled.perm.mem_iff]
    exact List.mem_append.trans (or_congr Iff.rfl List.mem_singleton)
  refine ⟨?_, ?_, ?_, ?_, ?_, ?_, ?_, ?_, ?_⟩
  · exact ⟨fun i hi => hlinked.idx i (hi.trans_eq hlen), hlinked.nodup⟩
  · exact fun i q hchild hi => hordered i q hchild (hi.trans_eq hlen)
  · intro q n' hn'
    apply (hmem q).mpr
    rcases hcases q n' hn' with ⟨rfl, -⟩ | ⟨n'', hn'', -⟩
    · exact Or.inr rfl
    · exact Or.inl (h.owned q n'' hn'')
  · intro q hq
    refine lt_of_lt_of_eq ?_ hshuffled.fresh.symm
    rcases (hmem q).mp hq with hq | rfl
    · exact Nat.lt_succ_of_lt (h.known q hq)
    · exact Nat.lt_succ_self _
  · change ((mapInsert t'.map (t.count + 1) t.fresh).map Prod.fst).Nodup
    rw [hmap, List.map_cons, List.nodup_cons]
    refine ⟨fun hin => ?_, h.keys⟩
    obtain ⟨⟨id, q⟩, hin, rfl⟩ := List.mem_map.mp hin
    exact h.next_unused hcount q hin
  · change (mapInsert t'.map (t.count + 1) t.fresh).length = t'.heap.length
    rw [hmap, List.length_cons, h.size, hlen]
  · intro id q
    change (id, q) ∈ mapInsert t'.map (t.count + 1) t.fresh ↔ ∃ n, t'.node q = some n ∧ _
    rw [hmap, List.mem_cons, h.mapped]
    constructor
    · rintro (heq | ⟨n', hn', rfl⟩)
      · obtain ⟨rfl, rfl⟩ := Prod.mk.inj heq
        obtain ⟨n', hn', hpayload⟩ := Option.map_eq_some_iff.mp hself
        exact ⟨n', hn', (congrArg Prod.fst hpayload).trans hid⟩
      · have hq : q ≠ t.fresh := fun heq => h.fresh_not_mem (heq ▸ h.owned q n' hn')
        obtain ⟨n'', hn'', hpayload⟩ := exists_of_payload (hrest q hq) hn'
        exact ⟨n'', hn'', congrArg Prod.fst hpayload⟩
    · rintro ⟨n', hn', rfl⟩
      rcases hcases q n' hn' with ⟨rfl, hid'⟩ | ⟨n'', hn'', hid'⟩
      · exact Or.inl (by rw [hid'])
      · exact Or.inr ⟨n'', hn'', hid'⟩
  · intro q n' hn'
    change n'.id ≤ t'.count
    rw [hnew]
    rcases hcases q n' hn' with ⟨-, hid'⟩ | ⟨n'', hn'', hid'⟩
    · rw [hid']
      exact Int32.le_refl _
    · have hle := Int32.le_iff_toInt_le.mp (h.ids q n'' hn'')
      rw [hid'] at hle
      apply Int32.le_iff_toInt_le.mpr
      omega
  · change (t'.heap.length : ℤ) ≤ t'.count.toInt
    have hsmall := h.small
    rw [hnew]
    omega

/-- What `AddTimer` leaves. -/
structure Added (t : MinHeapTimer H) (expire : UInt32) (cb : Option H) (t' : MinHeapTimer H) :
    Prop where
  valid : Valid t'
  count : t'.count = t.count + 1
  fresh : t'.fresh = t.fresh + 1
  self : (t'.node t.fresh).map payload = some (t.count + 1, expire, cb)
  rest : ∀ q ≠ t.fresh, (t'.node q).map payload = (t.node q).map payload

/-! ### The contents -/

/-- A timer as a user knows it: its id, its expiry and its callback. -/
abbrev Timer (H : Type) := Int32 × UInt32 × Option H

/-- The timers in the heap. -/
def contents (t : MinHeapTimer H) : Multiset (Timer H) :=
  ↑(t.heap.filterMap fun p => (t.node p).map payload)

theorem Valid.mem_heap_iff (h : Valid t) : p ∈ t.heap ↔ ∃ n, t.node p = some n := by
  constructor
  · intro hp
    obtain ⟨n, hn, -⟩ := h.node_of_mem hp
    exact ⟨n, hn⟩
  · rintro ⟨n, hn⟩
    exact h.owned p n hn

theorem Valid.mem_contents (h : Valid t) {e : Timer H} :
    e ∈ contents t ↔ ∃ p n, t.node p = some n ∧ payload n = e := by
  rw [contents, Multiset.mem_coe, List.mem_filterMap]
  constructor
  · rintro ⟨p, -, hp⟩
    obtain ⟨n, hn, rfl⟩ := Option.map_eq_some_iff.mp hp
    exact ⟨p, n, hn, rfl⟩
  · rintro ⟨p, n, hn, rfl⟩
    exact ⟨p, h.owned p n hn, congrArg _ hn⟩

/-- One node more in the memory, and one more in the heap. -/
theorem Valid.heap_perm (h : Valid t) (h' : Valid t') (hn : t.node p = some n)
    (hgone : t'.node p = none)
    (hrest : ∀ q ≠ p, (t'.node q).map payload = (t.node q).map payload) :
    t.heap.Perm (p :: t'.heap) := by
  have hout : p ∉ t'.heap := fun hp => by
    obtain ⟨n', hn'⟩ := h'.mem_heap_iff.mp hp
    rw [hgone] at hn'
    cases hn'
  apply (List.perm_ext_iff_of_nodup h.linked.nodup (h'.linked.nodup.cons hout)).mpr
  intro q
  rw [List.mem_cons]
  by_cases hq : q = p
  · subst hq
    exact iff_of_true (h.owned q n hn) (Or.inl rfl)
  · have hsome := congrArg Option.isSome (hrest q hq)
    rw [Option.isSome_map, Option.isSome_map] at hsome
    rw [h.mem_heap_iff, h'.mem_heap_iff, ← Option.isSome_iff_exists, ← Option.isSome_iff_exists,
      hsome]
    exact (or_iff_right hq).symm

/-- `_delNode` takes one node out of the heap. -/
theorem Removed.heap_perm (hremoved : Removed t p t') (h : Valid t) (hp : p ∈ t.heap) :
    t.heap.Perm (p :: t'.heap) := by
  obtain ⟨n, hn⟩ := h.mem_heap_iff.mp hp
  exact h.heap_perm hremoved.valid hn hremoved.gone hremoved.rest

/-- `AddTimer` puts one node into the heap. -/
theorem Added.heap_perm {expire : UInt32} {cb : Option H} (hadded : Added t expire cb t')
    (h : Valid t) : t'.heap.Perm (t.fresh :: t.heap) := by
  obtain ⟨n', hn', -⟩ := Option.map_eq_some_iff.mp hadded.self
  refine hadded.valid.heap_perm h hn' ?_ fun q hq => (hadded.rest q hq).symm
  by_contra hsome
  obtain ⟨n, hn⟩ := Option.ne_none_iff_exists'.mp hsome
  exact h.fresh_not_mem (h.owned t.fresh n hn)

/-- The timers of some nodes. -/
theorem contents_of_perm (hperm : t.heap.Perm (p :: t'.heap)) {e : Timer H}
    (hself : (t.node p).map payload = some e)
    (hrest : ∀ q ∈ t'.heap, (t'.node q).map payload = (t.node q).map payload) :
    contents t = e ::ₘ contents t' := by
  rw [contents, contents, Multiset.cons_coe, Multiset.coe_eq_coe]
  refine (hperm.filterMap _).trans ?_
  rw [List.filterMap_cons_some (f := fun p => (t.node p).map payload) hself]
  exact List.Perm.of_eq (congrArg _ (List.filterMap_congr fun q hq => (hrest q hq).symm))

/-- Every node of the heap is a timer. -/
theorem Valid.card_contents (h : Valid t) : (contents t).card = t.heap.length := by
  have hsome : ∀ p ∈ t.heap, ((t.node p).map payload).isSome := fun p hp => by
    obtain ⟨n, hn⟩ := h.mem_heap_iff.mp hp
    rw [hn]
    rfl
  rw [contents, Multiset.coe_card, List.length_filterMap_eq_countP]
  exact List.countP_eq_length.mpr hsome

/-- `_delNode` takes one timer out. -/
theorem Removed.contents (hremoved : Removed t p t') (h : Valid t) (hn : t.node p = some n) :
    contents t = payload n ::ₘ contents t' := by
  refine contents_of_perm (hremoved.heap_perm h (h.owned p n hn)) (congrArg _ hn) fun q hq => ?_
  refine hremoved.rest q ?_
  rintro rfl
  obtain ⟨n', hn'⟩ := hremoved.valid.mem_heap_iff.mp hq
  rw [hremoved.gone] at hn'
  cases hn'

/-- `AddTimer` puts one timer in. -/
theorem Added.contents {expire : UInt32} {cb : Option H} (hadded : Added t expire cb t')
    (h : Valid t) : contents t' = (t.count + 1, expire, cb) ::ₘ contents t := by
  refine contents_of_perm (hadded.heap_perm h) hadded.self fun q hq => ?_
  exact (hadded.rest q fun heq => h.fresh_not_mem (heq ▸ hq)).symm

/-- When a timer expires. -/
def expiry (e : Timer H) : ℕ := e.2.1.toNat

/-- The root expires first. -/
theorem Valid.root_le (h : Valid t) (hp : t.heap[0]? = some p) (hn : t.node p = some n)
    {n' : TimerNode H} (hn' : t.node q = some n') : n.expire ≤ n'.expire := by
  obtain ⟨i, hi, rfl⟩ := List.mem_iff_getElem.mp (h.owned q n' hn')
  have hle := h.ordered.root_le hi
  rw [key_of_nodeAt (nodeAt_eq_some.mpr ⟨p, hp, hn⟩),
    key_of_nodeAt (nodeAt_eq_some.mpr ⟨_, List.getElem?_eq_getElem hi, hn'⟩)] at hle
  exact UInt32.le_iff_toNat_le.mpr hle

/-- The id of a timer is that of no other one. -/
theorem Valid.eq_of_id (h : Valid t) {n' : TimerNode H} (hn : t.node p = some n)
    (hn' : t.node q = some n') (hid : n'.id = n.id) : q = p :=
  eq_of_mem_map h.keys ((h.mapped _ _).mpr ⟨n', hn', hid⟩) ((h.mapped _ _).mpr ⟨n, hn, rfl⟩)

end MmorpgServer.MinHeap
