import MmorpgServer.MinHeap.Model
import MmorpgServer.Lib.BinaryHeap
import Mathlib.Data.List.Nodup
import Mathlib.Data.List.Perm.Basic

/-!
# The sifts of the heap timer

Both sifts exchange nodes below a bound `m`: `_shiftUp` the whole heap, `_shiftDown` all but
the last position. They keep the positions that the nodes carry, they touch nothing else of
a node, and they end in heap order.

## Main definitions

* `key` — the expiry at a position
* `Linked` — below the bound every position holds a node that carries this position
* `Shuffled` — only the order of the nodes below the bound changed

## Main results

* `exchange_spec` — one exchange
* `shiftUp_spec`, `shiftDown_spec` — the sifts return, and where they leave the order
-/

namespace MmorpgServer.MinHeap

open BinaryHeap

variable {H : Type} {t t' t'' : MinHeapTimer H} {m i j k : ℕ} {p q : NodePtr}

/-- What a node carries but its position. -/
def payload (n : TimerNode H) : Int32 × UInt32 × Option H := (n.id, n.expire, n.cb)

/-- The expiry at a position, `0` where there is no node. -/
def key (t : MinHeapTimer H) (i : ℕ) : ℕ := ((nodeAt t i).map fun n => n.expire.toNat).getD 0

/-- The first `m` positions hold distinct nodes, each of which carries its position. -/
structure Linked (t : MinHeapTimer H) (m : ℕ) : Prop where
  idx : ∀ i < m, ∃ n, nodeAt t i = some n ∧ n.idx = i
  nodup : t.heap.Nodup

/-- Nodes below the bound `m` changed places, and nothing else changed. -/
structure Shuffled (m : ℕ) (t t' : MinHeapTimer H) : Prop where
  map : t'.map = t.map
  count : t'.count = t.count
  fresh : t'.fresh = t.fresh
  perm : t'.heap.Perm t.heap
  above : ∀ i, m ≤ i → t'.heap[i]? = t.heap[i]?
  node : ∀ p, (t'.node p).map payload = (t.node p).map payload

theorem Shuffled.refl : Shuffled m t t :=
  ⟨rfl, rfl, rfl, .refl _, fun _ _ => rfl, fun _ => rfl⟩

theorem Shuffled.trans (h : Shuffled m t t') (h' : Shuffled m t' t'') : Shuffled m t t'' where
  map := h'.map.trans h.map
  count := h'.count.trans h.count
  fresh := h'.fresh.trans h.fresh
  perm := h'.perm.trans h.perm
  above i hi := (h'.above i hi).trans (h.above i hi)
  node p := (h'.node p).trans (h.node p)

theorem nodeAt_eq_some {n : TimerNode H} :
    nodeAt t i = some n ↔ ∃ p, t.heap[i]? = some p ∧ t.node p = some n :=
  Option.bind_eq_some_iff

theorem key_of_nodeAt {n : TimerNode H} (h : nodeAt t i = some n) : key t i = n.expire.toNat := by
  unfold key
  rw [h]
  rfl

/-- The expiry at a position depends on the payload of its node. -/
theorem key_congr (h : (nodeAt t' i).map payload = (nodeAt t j).map payload) :
    key t' i = key t j := by
  have hmap := congrArg (Option.map fun x : Int32 × UInt32 × Option H => x.2.1.toNat) h
  rw [Option.map_map, Option.map_map] at hmap
  exact congrArg (Option.getD · 0) hmap

theorem nodeAt_payload (hnode : ∀ p, (t'.node p).map payload = (t.node p).map payload)
    (hheap : t'.heap[i]? = t.heap[j]?) : (nodeAt t' i).map payload = (nodeAt t j).map payload := by
  unfold nodeAt
  rw [Option.map_bind, Option.map_bind, hheap]
  exact congrArg _ (funext hnode)

/-- The comparison of two linked positions. -/
theorem lessThan_eq (h : Linked t m) (hi : i < m) (hj : j < m) :
    lessThan t i j = some (decide (key t i < key t j)) := by
  obtain ⟨l, hl, -⟩ := h.idx i hi
  obtain ⟨r, hr, -⟩ := h.idx j hj
  unfold lessThan
  rw [hl, hr, key_of_nodeAt hl, key_of_nodeAt hr]
  exact congrArg some (decide_eq_decide.mpr UInt32.lt_iff_toNat_lt)

/-! ### One exchange -/

theorem getElem?_swap (hi : t.heap[i]? = some p) (hj : t.heap[j]? = some q) (k : ℕ) :
    ((t.heap.set i q).set j p)[k]? = t.heap[Equiv.swap i j k]? := by
  have hlti := (List.getElem?_eq_some_iff.mp hi).1
  have hltj := (List.getElem?_eq_some_iff.mp hj).1
  rw [List.getElem?_set, List.getElem?_set, List.length_set]
  by_cases hkj : j = k
  · subst hkj
    rw [if_pos rfl, if_pos hltj, Equiv.swap_apply_right, hi]
  · rw [if_neg hkj]
    by_cases hki : i = k
    · subst hki
      rw [if_pos rfl, if_pos hlti, Equiv.swap_apply_left, hj]
    · rw [if_neg hki, Equiv.swap_apply_of_ne_of_ne (Ne.symm hki) (Ne.symm hkj)]

/-- The first two statements of an exchange. -/
theorem swap_setIdx {nq : TimerNode H} (hp : t.heap[i]? = some p) (hq : t.heap[j]? = some q)
    (hnq : t.node q = some nq) :
    (swap t i j).bind (fun t => setIdx t i i) = some { t with
      heap := (t.heap.set i q).set j p
      node := Function.update t.node q (some { nq with idx := i }) } := by
  have hi : ((t.heap.set i q).set j p)[i]? = some q := by
    rw [getElem?_swap hp hq, Equiv.swap_apply_left, hq]
  simp only [swap, setIdx, hp, hq, hi, hnq, Option.bind_eq_bind, Option.bind_some, Option.pure_def]

theorem perm_swap (hp : t.heap[i]? = some p) (hq : t.heap[j]? = some q) :
    ((t.heap.set i q).set j p).Perm t.heap := by
  obtain ⟨hlti, rfl⟩ := List.getElem?_eq_some_iff.mp hp
  obtain ⟨hltj, rfl⟩ := List.getElem?_eq_some_iff.mp hq
  exact List.set_set_perm hlti hltj

/-- Writing a position leaves the payload of every node. -/
theorem payload_update {node : NodePtr → Option (TimerNode H)} {n : TimerNode H}
    (hn : node p = some n) (idx : ℕ) (r : NodePtr) :
    (Function.update node p (some { n with idx := idx }) r).map payload =
      (node r).map payload := by
  by_cases hr : r = p
  · rw [hr, Function.update_self, hn]
    rfl
  · rw [Function.update_of_ne hr]

/-- One exchange swaps two nodes and patches the positions they carry. -/
theorem exchange_spec (h : Linked t m) (hi : i < m) (hj : j < m) (hne : i ≠ j) :
    ∃ t', exchange t i j = some t' ∧ Linked t' m ∧ Shuffled m t t' ∧
      key t' = key t ∘ Equiv.swap i j := by
  obtain ⟨np, hnp, -⟩ := h.idx i hi
  obtain ⟨nq, hnq, -⟩ := h.idx j hj
  obtain ⟨p, hp, hnp⟩ := nodeAt_eq_some.mp hnp
  obtain ⟨q, hq, hnq⟩ := nodeAt_eq_some.mp hnq
  -- two positions hold two nodes, so the second patch does not undo the first
  have hpq : p ≠ q := by
    rintro rfl
    exact hne
      ((List.getElem?_inj (List.getElem?_eq_some_iff.mp hp).1 h.nodup).mp (hp.trans hq.symm))
  have hheap := getElem?_swap hp hq
  have hperm := perm_swap hp hq
  let node' := Function.update (Function.update t.node q (some { nq with idx := i }))
    p (some { np with idx := j })
  let t' : MinHeapTimer H := { t with heap := (t.heap.set i q).set j p, node := node' }
  have hnodeq : node' q = some { nq with idx := i } :=
    (Function.update_of_ne hpq.symm _ _).trans (Function.update_self _ _ _)
  have hnodep : node' p = some { np with idx := j } := Function.update_self _ _ _
  have hother : ∀ r, r ≠ p → r ≠ q → node' r = t.node r := fun r hrp hrq =>
    (Function.update_of_ne hrp _ _).trans (Function.update_of_ne hrq _ _)
  have hnp' : Function.update t.node q (some { nq with idx := i }) p = some np :=
    (Function.update_of_ne hpq _ _).trans hnp
  have hpayload : ∀ r, (node' r).map payload = (t.node r).map payload := fun r =>
    (payload_update hnp' j r).trans (payload_update hnq i r)
  refine ⟨t', ?_, ⟨fun k hk => ?_, hperm.nodup_iff.mpr h.nodup⟩, ?_, ?_⟩
  · -- the three statements, in the order of the source
    have hj' : ((t.heap.set i q).set j p)[j]? = some p := by
      rw [hheap, Equiv.swap_apply_right, hp]
    unfold exchange
    rw [Option.bind_eq_bind, ← Option.bind_assoc, swap_setIdx hp hq hnq]
    simp only [setIdx, hj', hnp', Option.bind_eq_bind, Option.bind_some, Option.pure_def]
    rfl
  · by_cases hki : k = i
    · subst hki
      refine ⟨_, nodeAt_eq_some.mpr ⟨q, ?_, hnodeq⟩, rfl⟩
      exact (hheap k).trans (by rw [Equiv.swap_apply_left, hq])
    by_cases hkj : k = j
    · subst hkj
      refine ⟨_, nodeAt_eq_some.mpr ⟨p, ?_, hnodep⟩, rfl⟩
      exact (hheap k).trans (by rw [Equiv.swap_apply_right, hp])
    -- a third position holds a third node
    obtain ⟨n, hn, hidx⟩ := h.idx k hk
    obtain ⟨r, hr, hn⟩ := nodeAt_eq_some.mp hn
    have hltk := (List.getElem?_eq_some_iff.mp hr).1
    have hrp : r ≠ p := fun heq =>
      hki ((List.getElem?_inj hltk h.nodup).mp (hr.trans ((congrArg some heq).trans hp.symm)))
    have hrq : r ≠ q := fun heq =>
      hkj ((List.getElem?_inj hltk h.nodup).mp (hr.trans ((congrArg some heq).trans hq.symm)))
    refine ⟨n, nodeAt_eq_some.mpr ⟨r, ?_, (hother r hrp hrq).trans hn⟩, hidx⟩
    exact (hheap k).trans (by rw [Equiv.swap_apply_of_ne_of_ne hki hkj, hr])
  · refine ⟨rfl, rfl, rfl, hperm, fun k hk => ?_, hpayload⟩
    exact (hheap k).trans (by rw [Equiv.swap_apply_of_ne_of_ne (by omega) (by omega)])
  · exact funext fun k => key_congr (nodeAt_payload hpayload (hheap k))

/-! ### `_shiftUp` -/

theorem shiftUpLoop_spec {fuel pos : ℕ} (h : Linked t m) (hpos : pos < m) (hfuel : pos < fuel)
    (hoff : OffHole (key t) m pos) (hbelow : Below (key t) m pos) :
    ∃ t', shiftUpLoop fuel t pos = some t' ∧ Linked t' m ∧ Shuffled m t t' ∧
      Ordered (key t') m := by
  induction fuel generalizing t pos with
  | zero => omega
  | succ fuel ih =>
    rw [shiftUpLoop]
    -- at the root the parent is the position itself, since `(0 - 1) / 2` is `0`
    by_cases hroot : (pos - 1) / 2 = pos
    · refine ⟨t, by simp [hroot], h, .refl, hoff.ordered hbelow fun p hp => ?_⟩
      have := hp.lt
      exact absurd hroot (by omega)
    have hparent : IsChild pos ((pos - 1) / 2) := isChild_parent (by omega)
    have hlt := hparent.lt
    have hless := lessThan_eq h hpos (hlt.trans hpos)
    by_cases hswap : key t pos < key t ((pos - 1) / 2)
    · obtain ⟨t₁, hexchange, h₁, hshuffled, hkey⟩ :=
        exchange_spec h (hlt.trans hpos) hpos hlt.ne
      obtain ⟨hoff', hbelow'⟩ := hoff.up hbelow hpos hparent hswap
      rw [← hkey] at hoff' hbelow'
      obtain ⟨t', hloop, h', hshuffled', hordered⟩ :=
        ih h₁ (hlt.trans hpos) (by omega) hoff' hbelow'
      refine ⟨t', ?_, h', hshuffled.trans hshuffled', hordered⟩
      simp [hroot, hless, hswap, hexchange, hloop]
    · refine ⟨t, by simp [hroot, hless, hswap], h, .refl, hoff.ordered hbelow fun p hp => ?_⟩
      obtain rfl : (pos - 1) / 2 = p := hp.2
      exact not_lt.mp hswap

theorem shiftUp_spec {pos : ℕ} (h : Linked t m) (hpos : pos < m) (hoff : OffHole (key t) m pos)
    (hbelow : Below (key t) m pos) :
    ∃ t', shiftUp t pos = some t' ∧ Linked t' m ∧ Shuffled m t t' ∧ Ordered (key t') m :=
  shiftUpLoop_spec h hpos (Nat.lt_succ_self pos) hoff hbelow

/-! ### `_shiftDown` -/

theorem int_of_lt {x : ℤ} (h : 0 ≤ x) (hlt : x < 2 ^ 31) : int x = x := by
  unfold int
  rw [Int.bmod_def]
  split_ifs <;> omega

theorem int_neg {x : ℤ} (h : 2 ^ 31 ≤ x) (hlt : x < 2 ^ 32) : int x < 0 := by
  unfold int
  rw [Int.bmod_def]
  split_ifs <;> omega

/-- The first test of the loop: the position has no child below the last position, be it
that `2 * idx + 1` is too large for an `int`. -/
theorem left_guard {len idx : ℕ} (hlen : len < 2 ^ 31) (hidx : idx < len) :
    (int (2 * idx + 1) ≥ int len - 1 ∨ int (2 * idx + 1) < 0) ↔ len - 1 ≤ 2 * idx + 1 := by
  rw [int_of_lt (by omega) (by omega : (len : ℤ) < 2 ^ 31)]
  by_cases hlt : 2 * idx + 1 < 2 ^ 31
  · rw [int_of_lt (by omega) (by omega : (2 * idx + 1 : ℤ) < 2 ^ 31)]
    omega
  · exact iff_of_true (Or.inr (int_neg (by omega) (by omega))) (by omega)

/-- The child that `_shiftDown` compares with is the least below the bound. -/
theorem minChild_spec (h : Linked t m) {idx : ℕ} (hleft : 2 * idx + 1 < m) :
    ∃ c, minChild t m (2 * idx + 1) = some c ∧ IsChild c idx ∧ c < m ∧
      ∀ i, IsChild i idx → i < m → key t c ≤ key t i := by
  have hleftNat : (2 * (idx : ℤ) + 1).toNat = 2 * idx + 1 := by omega
  have hrightNat : (2 * (idx : ℤ) + 1 + 1).toNat = 2 * idx + 2 := by omega
  unfold minChild
  dsimp only
  rw [hleftNat, hrightNat]
  -- the right child counts only if it lies before the last position
  by_cases hright : 2 * idx + 2 < m
  · rw [if_pos (by omega), lessThan_eq h hleft hright, Option.map_some]
    by_cases hless : key t (2 * idx + 1) < key t (2 * idx + 2)
    · refine ⟨2 * idx + 1, by simp [hless], isChild_iff.mpr (Or.inl rfl), hleft, fun i hi _ => ?_⟩
      rcases isChild_iff.mp hi with rfl | rfl
      · exact le_rfl
      · exact hless.le
    · refine ⟨2 * idx + 2, by simp [hless], isChild_iff.mpr (Or.inr rfl), hright, fun i hi _ => ?_⟩
      rcases isChild_iff.mp hi with rfl | rfl
      · exact not_lt.mp hless
      · exact le_rfl
  · rw [if_neg (by omega)]
    refine ⟨2 * idx + 1, rfl, isChild_iff.mpr (Or.inl rfl), hleft, fun i hi hlt => ?_⟩
    rcases isChild_iff.mp hi with rfl | rfl
    · exact le_rfl
    · exact absurd hlt hright

theorem shiftDownLoop_spec {fuel idx : ℕ} (h : Linked t m) (hlen : t.heap.length = m + 1)
    (hsmall : m + 1 < 2 ^ 31) (hidx : idx < m) (hfuel : m < fuel + idx)
    (hoff : OffHole (key t) m idx) :
    ∃ t' idx', shiftDownLoop fuel t idx = some (t', idx') ∧ Linked t' m ∧ Shuffled m t t' ∧
      ((idx' = idx ∧ t' = t ∧ Below (key t) m idx) ∨ (idx < idx' ∧ Ordered (key t') m)) := by
  induction fuel generalizing t idx with
  | zero => omega
  | succ fuel ih =>
    have hguard := left_guard hsmall (Nat.lt_succ_of_lt hidx)
    rw [shiftDownLoop, hlen]
    -- no child below the bound: the loop ends with the hole in order below
    by_cases hleaf : m ≤ 2 * idx + 1
    · refine ⟨t, idx, ?_, h, .refl, Or.inl ⟨rfl, rfl, fun i hi hlt => ?_⟩⟩
      · simp only [if_pos (hguard.mpr hleaf)]
        rfl
      · rcases isChild_iff.mp hi with rfl | rfl <;> omega
    have hleft : int (2 * idx + 1) = 2 * idx + 1 := int_of_lt (by omega) (by omega)
    have hlast : int ((m + 1 : ℕ) : ℤ) - 1 = m := by
      rw [int_of_lt (by omega) (by omega)]
      omega
    obtain ⟨c, hchoose, hchild, hc, hmin⟩ := minChild_spec h (not_le.mp hleaf)
    have hless := lessThan_eq h hc hidx
    have hnot := mt hguard.mp hleaf
    rw [hleft, hlast] at hnot
    simp only [hleft, hlast, if_neg hnot, hchoose, hless, Option.bind_eq_bind, Option.bind_some]
    by_cases hswap : key t c < key t idx
    · obtain ⟨t₁, hexchange, h₁, hshuffled, hkey⟩ := exchange_spec h hidx hc hchild.lt.ne
      obtain ⟨hoff', habove⟩ := hoff.down hchild hc hmin hswap
      rw [← hkey] at hoff' habove
      have hlt := hchild.lt
      obtain ⟨t', idx', hloop, h', hshuffled', hend⟩ :=
        ih h₁ (hshuffled.perm.length_eq.trans hlen) hc (by omega) hoff'
      refine ⟨t', idx', by simp [hswap, hexchange, hloop], h', hshuffled.trans hshuffled',
        Or.inr ?_⟩
      -- whether or not a further round moved the node, it has left its first position
      rcases hend with ⟨rfl, rfl, hbelow⟩ | ⟨hmoved, hordered⟩
      · exact ⟨hlt, hoff'.ordered hbelow habove⟩
      · exact ⟨hlt.trans hmoved, hordered⟩
    · refine ⟨t, idx, by simp [hswap], h, .refl, Or.inl ⟨rfl, rfl, fun i hi hlt => ?_⟩⟩
      exact (not_lt.mp hswap).trans (hmin i hi hlt)

/-- `_shiftDown`, run with the last position out of bounds: either it moves the node and the
rest is in order, or it changes nothing and the node is in order with its children. -/
theorem shiftDown_spec {pos : ℕ} (h : Linked t m) (hlen : t.heap.length = m + 1)
    (hsmall : m + 1 < 2 ^ 31) (hpos : pos < m) (hoff : OffHole (key t) m pos) :
    ∃ t' moved, shiftDown t pos = some (t', moved) ∧ Linked t' m ∧ Shuffled m t t' ∧
      if moved then Ordered (key t') m else t' = t ∧ Below (key t) m pos := by
  obtain ⟨t', idx', hloop, h', hshuffled, hend⟩ :=
    shiftDownLoop_spec h hlen hsmall hpos (by omega : m < t.heap.length + 1 + pos) hoff
  unfold shiftDown
  rw [hloop]
  refine ⟨t', _, rfl, h', hshuffled, ?_⟩
  rcases hend with ⟨rfl, rfl, hbelow⟩ | ⟨hmoved, hordered⟩
  · simpa using hbelow
  · simpa [hmoved] using hordered

end MmorpgServer.MinHeap
