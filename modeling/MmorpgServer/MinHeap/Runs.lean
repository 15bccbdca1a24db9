import MmorpgServer.MinHeap.Invariant
import MmorpgServer.Lib.Machine
import MmorpgServer.Lib.PriorityQueue

/-!
# Runs of the heap timer

## Main results

* `addTimer_spec`, `delTimer_cases`, `expireTimer_spec` — each operation returns, keeps the
  invariant, and changes the timers as it should
* `repInv_exec` — so every run keeps the representation invariant
-/

namespace MmorpgServer.MinHeap

open BinaryHeap Machine PriorityQueue

variable {H : Type} {t t' : MinHeapTimer H} {p q : NodePtr} {n : TimerNode H}

/-- `AddTimer` adds one node under the next id. -/
theorem addTimer_spec (h : Valid t) (hcount : t.count.toInt + 1 < 2 ^ 31)
    (currentTime expire : UInt32) (cb : Option H) :
    ∃ t', addTimer t currentTime expire cb = some (t', t.count + 1) ∧
      Added t (currentTime + expire) cb t' := by
  set n : TimerNode H :=
    { idx := t.heap.length, id := t.count + 1, expire := currentTime + expire, cb := cb } with hn
  -- the new node is the hole, with no children and a parent that may be larger
  have hlinked₁ : Linked (append t n) (t.heap.length + 1) := h.linked_append rfl
  obtain ⟨hoff, hbelow⟩ := h.ordered.offHole_last fun i hi =>
    key_congr (congrArg _ (h.nodeAt_append n hi))
  obtain ⟨t₂, hup, hlinked₂, hshuffled, hordered₂⟩ :=
    shiftUp_spec hlinked₁ (Nat.lt_succ_self _) hoff hbelow
  refine ⟨{ t₂ with map := mapInsert t₂.map (t.count + 1) t.fresh }, ?_,
    h.added hcount rfl hlinked₂ hordered₂ hshuffled, hshuffled.count, hshuffled.fresh, ?_,
    fun q hq => ?_⟩
  · have hlen : (append t n).heap.length - 1 = t.heap.length := by
      unfold append
      rw [List.length_append, List.length_singleton, Nat.add_sub_cancel]
    change ((shiftUp (append t n) ((append t n).heap.length - 1)).bind fun t' =>
      some ({ t' with map := mapInsert t'.map (t.count + 1) t.fresh }, t.count + 1)) = _
    rw [hlen, hup]
    rfl
  · exact (hshuffled.node _).trans (congrArg _ append_node_self)
  · exact (hshuffled.node q).trans (congrArg _ (append_node_of_ne hq))

/-- `DelTimer` removes the node with the id, if there is one. -/
theorem delTimer_cases (h : Valid t) (id : Int32) :
    (t.map.lookup id = none ∧ delTimer t id = some (t, false) ∧
      ∀ p n, t.node p = some n → n.id ≠ id) ∨
    ∃ p n t', t.map.lookup id = some p ∧ t.node p = some n ∧ n.id = id ∧
      delTimer t id = some (t', true) ∧ Removed t p t' := by
  unfold delTimer
  cases hlookup : t.map.lookup id with
  | none =>
    refine Or.inl ⟨rfl, rfl, fun p n hn hid => ?_⟩
    have hin := (h.mapped id p).mpr ⟨n, hn, hid⟩
    exact bne_iff_ne.mp (List.lookup_eq_none_iff.mp hlookup _ hin) rfl
  | some p =>
    obtain ⟨pre, post, hmap, -⟩ := List.lookup_eq_some_iff.mp hlookup
    have hin : (id, p) ∈ t.map := by
      rw [hmap]
      simp
    obtain ⟨n, hn, hid⟩ := (h.mapped id p).mp hin
    obtain ⟨t', hdel, hremoved⟩ := delNode_spec h (h.owned p n hn)
    exact Or.inr ⟨p, n, t', rfl, hn, hid, by simp [hdel], hremoved⟩

theorem touch_eq (h : Valid t) : touch t = some () := by
  refine if_pos (List.all_eq_true.mpr fun p hp => ?_)
  obtain ⟨n, hn, -⟩ := h.node_of_mem hp
  rw [hn]
  rfl

/-- A callback that does not touch the timer. -/
theorem invoke_id (t : MinHeapTimer H) (p : NodePtr) (n : TimerNode H) :
    invoke (fun _ _ t => some t) t p n = some t := by
  unfold invoke
  cases n.cb <;> rfl

/-- The loop of `ExpireTimer` returns within a round for every node, when the callbacks do not
touch the timer, and drains the heap. -/
theorem expireLoop_spec {fuel : ℕ} (h : Valid t) (hne : t.heap ≠ [])
    (hfuel : t.heap.length ≤ fuel) (now : UInt32) :
    ∃ t' fired, expireLoop (fun _ _ t => some t) now fuel t = some (t', fired) ∧ Valid t' ∧
      t'.count = t.count ∧
      Drains expiry now.toNat (contents t) (contents t') (fired.map payload) := by
  have hpos := List.length_pos_iff.mpr hne
  induction fuel generalizing t with
  | zero => omega
  | succ fuel ih =>
    obtain ⟨p, hp⟩ : ∃ p, t.heap[0]? = some p := ⟨_, List.getElem?_eq_getElem hpos⟩
    have hmem := List.mem_of_getElem? hp
    obtain ⟨n, hn, -⟩ := h.node_of_mem hmem
    obtain ⟨t₁, hdel, hremoved⟩ := delNode_spec h hmem
    have hleast : ∀ e ∈ contents t, n.expire.toNat ≤ expiry e := by
      intro e he
      obtain ⟨q, n', hn', rfl⟩ := h.mem_contents.mp he
      exact UInt32.le_iff_toNat_le.mp (h.root_le hp hn hn')
    have hcons := hremoved.contents h hn
    rw [expireLoop]
    -- one round: the root is read, its callback runs, and it is deleted
    simp only [hp, hn, touch_eq h, invoke_id, hdel, Option.bind_eq_bind, Option.bind_some]
    -- the root is the earliest node: if it is not due the loop ends
    by_cases hdue : now < n.expire
    · refine ⟨t, [], by simp [hdue], h, rfl, Drains.done fun e he => ?_⟩
      exact (UInt32.lt_iff_toNat_lt.mp hdue).trans_le (hleast e he)
    · have hle : n.expire.toNat ≤ now.toNat := not_lt.mp (mt UInt32.lt_iff_toNat_lt.mpr hdue)
      have hleast₁ : ∀ e ∈ contents t₁, n.expire.toNat ≤ expiry e := fun e he =>
        hleast e (hcons ▸ Multiset.mem_cons_of_mem he)
      by_cases hempty : t₁.heap = []
      · refine ⟨t₁, [n], by simp [hdue, hempty], hremoved.valid, hremoved.count, ?_⟩
        rw [hcons]
        have hnone : contents t₁ = 0 := by
          rw [contents, hempty]
          rfl
        refine Drains.cons (Drains.done fun e he => ?_) hle hleast₁
        rw [hnone] at he
        exact absurd he (Multiset.notMem_zero e)
      · have hlen := hremoved.length
        obtain ⟨t₂, fired, hloop, hvalid, hcount, hdrains⟩ :=
          ih hremoved.valid hempty (by omega) (List.length_pos_iff.mpr hempty)
        refine ⟨t₂, n :: fired, by simp [hdue, hempty, hloop], hvalid,
          hcount.trans hremoved.count, ?_⟩
        rw [hcons]
        exact hdrains.cons hle hleast₁

/-- `ExpireTimer` returns within a round for every node, and drains the heap. -/
theorem expireTimer_spec (h : Valid t) (now : UInt32) :
    ∃ t' fired, expireTimer (fun _ _ t => some t) t.heap.length now t = some (t', fired) ∧
      Valid t' ∧ t'.count = t.count ∧
      Drains expiry now.toNat (contents t) (contents t') (fired.map payload) := by
  unfold expireTimer
  by_cases hempty : t.heap = []
  · refine ⟨t, [], by rw [if_pos hempty], h, rfl, Drains.done fun e he => ?_⟩
    rw [contents, hempty] at he
    exact absurd he (Multiset.notMem_zero e)
  · rw [if_neg hempty]
    exact expireLoop_spec h hempty le_rfl now

/-! ### Runs -/

/-- Every step of a valid timer returns a valid timer. -/
theorem Valid.step (h : Valid t) {a : Act H}
    (hcount : a.creates = true → t.count.toInt + 1 < 2 ^ 31) :
    ∃ t', step t a = some t' ∧ Valid t' ∧
      t'.count.toInt = t.count.toInt + if a.creates then 1 else 0 := by
  cases a with
  | add currentTime expire cb =>
    obtain ⟨t', hadd, hadded⟩ := addTimer_spec h (hcount rfl) currentTime expire cb
    refine ⟨t', by simp [MinHeap.step, hadd], hadded.valid, ?_⟩
    rw [hadded.count, toInt_succ (hcount rfl)]
    rfl
  | del id =>
    rcases delTimer_cases h id with ⟨-, hdel, -⟩ | ⟨p, n, t', -, -, -, hdel, hremoved⟩
    · exact ⟨t, by simp [MinHeap.step, hdel], h, by simp [Act.creates]⟩
    · exact ⟨t', by simp [MinHeap.step, hdel], hremoved.valid,
        by simp [hremoved.count, Act.creates]⟩
  | expire currentTime =>
    obtain ⟨t', fired, hexpire, hvalid, hcount', -⟩ := expireTimer_spec h currentTime
    exact ⟨t', by simp [MinHeap.step, hexpire], hvalid, by simp [hcount', Act.creates]⟩
  | elsewhere =>
    have hsucc := toInt_succ (hcount rfl)
    refine ⟨_, rfl, { h with linked := ?_, ids := ?_, small := ?_ }, hsucc⟩
    · exact ⟨h.linked.idx, h.linked.nodup⟩
    · intro p n hn
      have hle := Int32.le_iff_toInt_le.mp (h.ids p n hn)
      apply Int32.le_iff_toInt_le.mpr
      change n.id.toInt ≤ (t.count + 1).toInt
      omega
    · have := h.small
      change (t.heap.length : ℤ) ≤ (t.count + 1).toInt
      omega

theorem Valid.exec (h : Valid t) (acts : List (Act H))
    (hbound : t.count.toInt + acts.countP Act.creates < 2 ^ 31) :
    ∃ t', exec MinHeap.step t acts = some t' ∧ Valid t' := by
  induction acts generalizing t with
  | nil => exact ⟨t, rfl, h⟩
  | cons a acts ih =>
    rw [List.countP_cons] at hbound
    obtain ⟨t₁, hone, hvalid, hcount⟩ := h.step (a := a) fun hcreates => by
      rw [if_pos hcreates] at hbound
      omega
    obtain ⟨t', hrest, hvalid'⟩ := ih hvalid (by
      split_ifs at hbound hcount <;> omega)
    exact ⟨t', exec_cons_eq_some.mpr ⟨t₁, hone, hrest⟩, hvalid'⟩

/-- After every sequence of operations, at any clock readings, with other timers created in
between: no operation faults and the representation invariant holds. -/
theorem repInv_exec (count : Int32) (acts : List (Act H)) (hcount : 0 ≤ count.toInt)
    (hbound : count.toInt + acts.countP Act.creates < 2 ^ 31 - 1) :
    ∃ t, exec step (MinHeapTimer.new count) acts = some t ∧ RepInv t := by
  obtain ⟨t, hrun, hvalid⟩ := (valid_new (H := H) hcount).exec acts (by
    change count.toInt + _ < _
    omega)
  exact ⟨t, hrun, hvalid.repInv⟩

/-- Two timers, the earlier one deleted. -/
theorem repInv_exec_two :
    ∃ t, exec step (MinHeapTimer.new 0) [.add 0 5 (none : Option Unit), .add 1 3 none, .del 2] =
      some t ∧ RepInv t :=
  repInv_exec 0 _ (by decide) (by decide)

end MmorpgServer.MinHeap
