import MmorpgServer.MinHeap.Runs
import MmorpgServer.SkipList.Timer

/-!
# The heap timer and the skip list timer agree

The two timers are given the same additions and the same polls. Their structures have nothing
in common but the expiries of the timers that are set, and these determine what a poll fires.

## Main definitions

* `heapStep`, `listStep` — the two timers, each of which shows what its polls fire
* `Agree` — the expiries in the two structures are the same

## Main results

* `Agree.add`, `Agree.poll` — one call
* `fire_the_same` — every run
-/

namespace MmorpgServer.Timers

open Machine MinHeap SkipList

variable {C F : Type}

/-- A call of both timers. The expiry of a new timer is the sum of a clock reading and a delay;
`level` is the outcome of `zslRandomLevel`. -/
inductive Call (C F : Type) where
  | add (currentTime expire : UInt32) (cb : Option C) (func : F) (level : ℕ)
  | poll (currentTime : UInt32)

/-- The call adds a timer. -/
def Call.adds : Call C F → Bool
  | .add .. => true
  | .poll _ => false

/-- What a poll shows: the expiries of the timers that fire, and the number of those left. -/
structure Polled where
  fired : List ℕ
  left : ℤ

/-- The calls of the heap timer. -/
def heapStep (t : MinHeapTimer C) : Call C F → Option (MinHeapTimer C × List Polled)
  | .add currentTime expire cb _ _ =>
    (MinHeap.addTimer t currentTime expire cb).map fun r => (r.1, [])
  | .poll currentTime =>
    (MinHeap.expireTimer (fun _ _ t => some t) t.heap.length currentTime t).map fun r =>
      (r.1, [⟨r.2.map (·.expire.toNat), r.1.heap.length⟩])

/-- The calls of the skip list timer. -/
def listStep (z : Zskiplist F) : Call C F → Option (Zskiplist F × List Polled)
  | .add currentTime expire _ func level =>
    (SkipList.addTimer z currentTime expire func level).map fun r => (r.1, [])
  | .poll currentTime =>
    (SkipList.expireTimer (fun _ _ z => some z) (z.length.toNat + 1) currentTime z).map fun r =>
      (r.1, [⟨r.2.map (·.score.toNat), r.1.length⟩])

/-- The outcome of `zslRandomLevel` is one that it can have. -/
def Call.Leveled : Call C F → Prop
  | .add _ _ _ _ level => 1 ≤ level ∧ level ≤ zskiplistMaxlevel
  | .poll _ => True

instance (a : Call C F) : Decidable a.Leveled :=
  match a with
  | .add .. => inferInstanceAs (Decidable (_ ∧ _))
  | .poll _ => inferInstanceAs (Decidable True)

/-- Both structures are intact, and hold timers with the same expiries. -/
structure Agree (t : MinHeapTimer C) (z : Zskiplist F) (L : List SkipList.NodePtr) : Prop where
  valid : Valid t
  rep : Rep z L
  expiries : (contents t).map expiry = ↑(L.map (key z))

variable {t : MinHeapTimer C} {z : Zskiplist F} {L : List SkipList.NodePtr}

/-- They hold equally many. -/
theorem Agree.length (h : Agree t z L) : (t.heap.length : ℤ) = z.length := by
  have hcard := congrArg Multiset.card h.expiries
  rw [Multiset.card_map, Multiset.coe_card, List.length_map, h.valid.card_contents] at hcard
  rw [h.rep.length, hcard]

theorem Agree.add (h : Agree t z L) (hcount : t.count.toInt + 1 < 2 ^ 31)
    (currentTime expire : UInt32) (cb : Option C) (func : F) {level : ℕ} (hlevel : 1 ≤ level)
    (hmax : level ≤ zskiplistMaxlevel) :
    ∃ t' id z' x L', MinHeap.addTimer t currentTime expire cb = some (t', id) ∧
      SkipList.addTimer z currentTime expire func level = some (z', x) ∧ Agree t' z' L' ∧
      t'.count.toInt = t.count.toInt + 1 := by
  obtain ⟨t', hadd, hadded⟩ := addTimer_spec h.valid hcount currentTime expire cb
  obtain ⟨z', A, B, hinsert, rfl, -, -, hrep, -, hself, hrest⟩ :=
    zslInsert_spec h.rep hlevel hmax (expire + currentTime).toUInt64 func
  refine ⟨t', _, z', _, _, hadd, hinsert, ⟨hadded.valid, hrep, ?_⟩, ?_⟩
  · have hnew : key z' z.fresh = (currentTime + expire).toNat := by
      obtain ⟨n, hn, hshape⟩ := Option.map_eq_some_iff.mp hself
      rw [key_of_score (score_of_node hn), show n.score = _ from congrArg Prod.fst hshape,
        UInt32.toNat_toUInt64, UInt32.add_comm]
    have hold : (A ++ B).map (key z') = (A ++ B).map (key z) := by
      apply List.map_congr_left
      intro p hp
      exact key_congr (hrest p (h.rep.ne_fresh (List.mem_cons_of_mem _ hp)))
    have hmiddle : ((A ++ z.fresh :: B).map (key z')).Perm
        (key z' z.fresh :: (A ++ B).map (key z')) := List.perm_middle.map _
    rw [hadded.contents h.valid, Multiset.map_cons, h.expiries, Multiset.coe_eq_coe.mpr hmiddle,
      hold, hnew]
    rfl
  · rw [hadded.count, toInt_succ hcount]

theorem Agree.poll (h : Agree t z L) (now : UInt32) :
    ∃ t' fired z' fired' L',
      MinHeap.expireTimer (fun _ _ t => some t) t.heap.length now t = some (t', fired) ∧
      SkipList.expireTimer (fun _ _ z => some z) (z.length.toNat + 1) now z = some (z', fired') ∧
      Agree t' z' L' ∧ fired.map (·.expire.toNat) = fired'.map (·.score.toNat) ∧
      t'.count.toInt = t.count.toInt := by
  obtain ⟨t', fired, hexpire, hvalid, hcount, hdrains⟩ := MinHeap.expireTimer_spec h.valid now
  obtain ⟨z', L', fired', hexpire', hexpired⟩ := SkipList.expireTimer_spec h.rep now
  -- the same expiries are drained of the same expiries
  obtain ⟨hfired, hleft⟩ := hdrains.congr (hexpired.drains h.rep) h.expiries
  have hkeys : ∀ p, key z' p = key z p := fun p => key_congr (hexpired.node p)
  refine ⟨t', fired, z', fired', L', hexpire, hexpire', ⟨hvalid, hexpired.rep, ?_⟩, ?_,
    congrArg _ hcount⟩
  · rw [hleft, Multiset.map_coe, List.map_congr_left fun p _ => hkeys p]
  · rw [List.map_map, List.map_map] at hfired
    exact hfired.trans (List.map_congr_left hexpired.scores)

/-- The two structures agree, and the calls to come can be made. -/
structure Ahead (t : MinHeapTimer C) (z : Zskiplist F) (calls : List (Call C F)) : Prop where
  agree : ∃ L, Agree t z L
  leveled : ∀ a ∈ calls, a.Leveled
  bound : t.count.toInt + calls.countP Call.adds < 2 ^ 31

/-- One call shows the same of both timers. -/
theorem Ahead.step {a : Call C F} {calls : List (Call C F)} (h : Ahead t z (a :: calls)) :
    ∃ t' polls z', heapStep t a = some (t', polls) ∧ listStep z a = some (z', polls) ∧
      Ahead t' z' calls := by
  obtain ⟨⟨L, h⟩, hleveled, hbound⟩ := h
  obtain ⟨hlevel, hlevels⟩ := List.forall_mem_cons.mp hleveled
  rw [List.countP_cons] at hbound
  cases a with
  | add currentTime expire cb func level =>
    change _ + ((_ + 1 : ℕ) : ℤ) < _ at hbound
    obtain ⟨t', id, z', x, L', hadd, hadd', h', hcount⟩ :=
      h.add (by omega) currentTime expire cb func hlevel.1 hlevel.2
    refine ⟨t', [], z', by rw [heapStep, hadd]; rfl, by rw [listStep, hadd']; rfl, ⟨L', h'⟩,
      hlevels, by omega⟩
  | poll currentTime =>
    change _ + ((_ + 0 : ℕ) : ℤ) < _ at hbound
    obtain ⟨t', fired, z', fired', L', hexpire, hexpire', h', hfired, hcount⟩ :=
      h.poll currentTime
    refine ⟨t', _, z', by rw [heapStep, hexpire]; rfl, ?_, ⟨L', h'⟩, hlevels, by omega⟩
    rw [listStep, hexpire']
    change some (z', [Polled.mk (fired'.map _) z'.length]) =
      some (z', [Polled.mk (fired.map _) t'.heap.length])
    rw [hfired, h'.length]

/-- Every sequence of additions and polls shows the same of both timers, whatever the heights of
the nodes of the skip list: every poll fires timers with the same expiries in the same order,
and leaves equally many. -/
theorem fire_the_same (count : Int32) (defaultHandler : F) (calls : List (Call C F))
    (hlevels : ∀ a ∈ calls, a.Leveled) (hcount : 0 ≤ count.toInt)
    (hbound : count.toInt + calls.countP Call.adds < 2 ^ 31) :
    ∃ t z polls, exec (traced heapStep) (MinHeapTimer.new count, []) calls = some (t, polls) ∧
      exec (traced listStep) (initTimer defaultHandler, []) calls = some (z, polls) := by
  have hstart : Ahead (MinHeapTimer.new count) (initTimer defaultHandler) calls :=
    ⟨⟨[], valid_new hcount, rep_zslCreate defaultHandler, rfl⟩, hlevels, hbound⟩
  obtain ⟨t, polls, z, hrun, hruns, -⟩ :=
    exec_refines (E := fun z a z' polls => listStep z a = some (z', polls)) (I := Ahead)
      (fun _ _ _ _ h => Ahead.step h) hstart
  exact ⟨t, z, polls, hrun, hruns.exec_traced⟩

/-- Two timers, the later one added first, and two polls. -/
theorem fire_the_same_two :
    ∃ t z polls, exec (traced heapStep) (MinHeapTimer.new 0, [])
        [.add 0 7 (none : Option Unit) () 2, .add 1 3 none () 1, .poll 5, .poll 7] =
          some (t, polls) ∧
      exec (traced listStep) (initTimer (), [])
        [.add 0 7 (none : Option Unit) () 2, .add 1 3 none () 1, .poll 5, .poll 7] =
          some (z, polls) :=
  fire_the_same 0 () _ (by decide) (by decide) (by decide)

end MmorpgServer.Timers
