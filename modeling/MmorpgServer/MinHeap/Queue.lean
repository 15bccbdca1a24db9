import MmorpgServer.MinHeap.Runs
import Mathlib.Data.Finset.Insert

/-!
# The heap timer is a priority queue

What a user of the heap timer can see are the ids of new timers, whether an id was found, and
the timers that fire. These are the answers of a priority queue that is keyed by the ids.

## Main definitions

* `Queue` — the timers that are set, and the ids that were ever given out
* `Effect` — what an operation does to the queue, and what it answers
* `call` — the operations of the heap timer with their answers

## Main results

* `Refines.call` — one operation
* `runs_call` — every sequence of operations
-/

namespace MmorpgServer.MinHeap

open Machine PriorityQueue

variable {H : Type}

/-! ### The queue -/

/-- A priority queue keyed by the ids. An id names one timer at most, and no id is given out
twice. -/
structure Queue (H : Type) where
  timers : Multiset (Timer H)
  issued : Finset Int32
  distinct : (timers.map Prod.fst).Nodup
  known : ∀ e ∈ timers, e.1 ∈ issued

namespace Queue

/-- The queue of a new timer object. -/
def empty : Queue H where
  timers := 0
  issued := ∅
  distinct := Multiset.nodup_zero
  known e he := absurd he (Multiset.notMem_zero e)

/-- Set a timer under an id that was never given out. -/
def add (q : Queue H) (id : Int32) (hid : id ∉ q.issued) (expire : UInt32) (cb : Option H) :
    Queue H where
  timers := (id, expire, cb) ::ₘ q.timers
  issued := insert id q.issued
  distinct := by
    rw [Multiset.map_cons, Multiset.nodup_cons]
    refine ⟨fun hin => ?_, q.distinct⟩
    obtain ⟨e, he, rfl⟩ := Multiset.mem_map.mp hin
    exact hid (q.known e he)
  known e he := by
    rcases Multiset.mem_cons.mp he with rfl | he
    · exact Finset.mem_insert_self _ _
    · exact Finset.mem_insert_of_mem (q.known e he)

/-- Leave only the timers with a property. -/
def keep (q : Queue H) (P : Timer H → Prop) [DecidablePred P] : Queue H where
  timers := q.timers.filter P
  issued := q.issued
  distinct := Multiset.nodup_of_le (Multiset.map_le_map (Multiset.filter_le P _)) q.distinct
  known e he := q.known e (Multiset.mem_of_mem_filter he)

/-- An id names one timer. -/
theorem eq_of_id {q : Queue H} {e e' : Timer H} (he : e ∈ q.timers) (he' : e' ∈ q.timers)
    (hid : e.1 = e'.1) : e = e' :=
  Multiset.inj_on_of_nodup_map q.distinct e he e' he' hid

end Queue

/-- What an operation answers. `fired` lists the timers whose callbacks were called, if they
have one. -/
inductive Answer (H : Type) where
  | id (id : Int32)
  | found (found : Bool)
  | fired (timers : List (Timer H))

/-- The effect of an operation on the queue, with its answer. -/
inductive Effect : Queue H → Act H → Queue H → List (Answer H) → Prop where
  | add {q : Queue H} {id : Int32} (hid : id ∉ q.issued) (currentTime expire : UInt32)
      (cb : Option H) :
      Effect q (.add currentTime expire cb) (q.add id hid (currentTime + expire) cb) [.id id]
  | del (q : Queue H) (id : Int32) :
      Effect q (.del id) (q.keep fun e => e.1 ≠ id) [.found (decide (id ∈ q.timers.map Prod.fst))]
  | expire {q : Queue H} {currentTime : UInt32} {fired : List (Timer H)}
      (h : Drains expiry currentTime.toNat q.timers
        (q.keep fun e => currentTime.toNat < expiry e).timers fired) :
      Effect q (.expire currentTime) (q.keep fun e => currentTime.toNat < expiry e)
        [.fired fired]
  | elsewhere (q : Queue H) : Effect q .elsewhere q []

/-! ### The refinement -/

variable {t t' : MinHeapTimer H} {q : Queue H}

/-- The operations of the heap timer with their answers. -/
def call (t : MinHeapTimer H) : Act H → Option (MinHeapTimer H × List (Answer H))
  | .add currentTime expire cb =>
    (addTimer t currentTime expire cb).map fun r => (r.1, [.id r.2])
  | .del id => (delTimer t id).map fun r => (r.1, [.found r.2])
  | .expire currentTime =>
    (expireTimer (fun _ _ t => some t) t.heap.length currentTime t).map fun r =>
      (r.1, [.fired (r.2.map payload)])
  | .elsewhere => some ({ t with count := t.count + 1 }, [])

/-- `call` is the machine with answers. -/
theorem map_call (t : MinHeapTimer H) (a : Act H) : (call t a).map Prod.fst = step t a := by
  cases a <;> simp [call, step, Option.map_map, Function.comp_def]

/-- A valid heap timer that holds the timers of the queue. The ids that were given out are those
that `_count` has passed. -/
structure Refines (t : MinHeapTimer H) (q : Queue H) : Prop where
  valid : Valid t
  timers : q.timers = contents t
  issued : ∀ id ∈ q.issued, id ≤ t.count

theorem Refines.next_not_issued (h : Refines t q) (hcount : t.count.toInt + 1 < 2 ^ 31) :
    t.count + 1 ∉ q.issued := by
  intro hin
  have hle := Int32.le_iff_toInt_le.mp (h.issued _ hin)
  rw [toInt_succ hcount] at hle
  omega

theorem Refines.le_succ (h : Refines t q) (hcount : t.count.toInt + 1 < 2 ^ 31) :
    ∀ id ∈ q.issued, id ≤ t.count + 1 := by
  intro id hid
  have hle := Int32.le_iff_toInt_le.mp (h.issued id hid)
  apply Int32.le_iff_toInt_le.mpr
  rw [toInt_succ hcount]
  omega

theorem Refines.add (h : Refines t q) (hcount : t.count.toInt + 1 < 2 ^ 31)
    (currentTime expire : UInt32) (cb : Option H) :
    ∃ t' answers q', MinHeap.call t (.add currentTime expire cb) = some (t', answers) ∧
      Effect q (.add currentTime expire cb) q' answers ∧ Refines t' q' ∧
      t'.count.toInt = t.count.toInt + 1 := by
  obtain ⟨t', hadd, hadded⟩ := addTimer_spec h.valid hcount currentTime expire cb
  have hid := h.next_not_issued hcount
  refine ⟨t', _, _, by rw [MinHeap.call, hadd]; rfl, .add hid currentTime expire cb,
    ⟨hadded.valid, ?_, ?_⟩, ?_⟩
  · rw [hadded.contents h.valid, ← h.timers]
    rfl
  · rw [hadded.count]
    intro id hin
    rcases Finset.mem_insert.mp hin with rfl | hin
    · exact Int32.le_refl _
    · exact h.le_succ hcount id hin
  · rw [hadded.count, toInt_succ hcount]

/-- The timers that are left when a node is removed are those with another id. -/
theorem Refines.keep_removed {p : NodePtr} {n : TimerNode H} (h : Refines t q)
    (hn : t.node p = some n) (hremoved : Removed t p t') :
    (q.keep fun e => e.1 ≠ n.id).timers = contents t' := by
  have hrest : ∀ e ∈ contents t', e.1 ≠ n.id := by
    intro e he hid
    obtain ⟨r, n', hn', rfl⟩ := hremoved.valid.mem_contents.mp he
    have hrp : r ≠ p := by
      rintro rfl
      rw [hremoved.gone] at hn'
      cases hn'
    obtain ⟨n'', hn'', hpayload⟩ := exists_of_payload (hremoved.rest r hrp).symm hn'
    exact hrp (h.valid.eq_of_id hn hn'' ((congrArg Prod.fst hpayload).trans hid))
  change q.timers.filter _ = _
  rw [h.timers, hremoved.contents h.valid hn,
    Multiset.filter_cons_of_neg (p := fun e : Timer H => e.1 ≠ n.id) _ (not_not.mpr rfl)]
  exact Multiset.filter_eq_self.mpr hrest

theorem Refines.del (h : Refines t q) (id : Int32) :
    ∃ t' answers q', MinHeap.call t (.del id) = some (t', answers) ∧
      Effect q (.del id) q' answers ∧ Refines t' q' ∧ t'.count = t.count := by
  have heffect := Effect.del q id
  rcases delTimer_cases h.valid id with
    ⟨-, hdel, habsent⟩ | ⟨p, n, t', -, hn, rfl, hdel, hremoved⟩
  · have hnone : ∀ e ∈ q.timers, e.1 ≠ id := by
      intro e he
      rw [h.timers] at he
      obtain ⟨p, n, hn, rfl⟩ := h.valid.mem_contents.mp he
      exact habsent p n hn
    have hout : id ∉ q.timers.map Prod.fst := fun hin => by
      obtain ⟨e, he, hid⟩ := Multiset.mem_map.mp hin
      exact hnone e he hid
    rw [decide_eq_false hout] at heffect
    refine ⟨t, _, _, by rw [MinHeap.call, hdel]; rfl, heffect, ⟨h.valid, ?_, h.issued⟩, rfl⟩
    exact (Multiset.filter_eq_self.mpr hnone).trans h.timers
  · have hsome : n.id ∈ q.timers.map Prod.fst := by
      rw [h.timers, hremoved.contents h.valid hn, Multiset.map_cons]
      exact Multiset.mem_cons_self _ _
    rw [decide_eq_true hsome] at heffect
    refine ⟨t', _, _, by rw [MinHeap.call, hdel]; rfl, heffect,
      ⟨hremoved.valid, h.keep_removed hn hremoved, ?_⟩, hremoved.count⟩
    rw [hremoved.count]
    exact h.issued

theorem Refines.expire (h : Refines t q) (currentTime : UInt32) :
    ∃ t' answers q', MinHeap.call t (.expire currentTime) = some (t', answers) ∧
      Effect q (.expire currentTime) q' answers ∧ Refines t' q' ∧ t'.count = t.count := by
  obtain ⟨t', fired, hexpire, hvalid, hcount, hdrains⟩ := expireTimer_spec h.valid currentTime
  have htimers : (q.keep fun e => currentTime.toNat < expiry e).timers = contents t' := by
    rw [hdrains.rest_eq, ← h.timers]
    rfl
  rw [← h.timers, ← htimers] at hdrains
  refine ⟨t', _, _, by rw [MinHeap.call, hexpire]; rfl, .expire hdrains,
    ⟨hvalid, htimers, ?_⟩, hcount⟩
  rw [hcount]
  exact h.issued

/-- Every operation of the heap timer is an operation of the queue, with the same answer. -/
theorem Refines.call (h : Refines t q) (a : Act H)
    (hcount : a.creates = true → t.count.toInt + 1 < 2 ^ 31) :
    ∃ t' answers q', call t a = some (t', answers) ∧ Effect q a q' answers ∧ Refines t' q' ∧
      t'.count.toInt = t.count.toInt + if a.creates then 1 else 0 := by
  cases a with
  | add currentTime expire cb => exact h.add (hcount rfl) currentTime expire cb
  | del id =>
    obtain ⟨t', answers, q', hcall, heffect, h', hsame⟩ := h.del id
    exact ⟨t', answers, q', hcall, heffect, h', by simp [hsame, Act.creates]⟩
  | expire currentTime =>
    obtain ⟨t', answers, q', hcall, heffect, h', hsame⟩ := h.expire currentTime
    exact ⟨t', answers, q', hcall, heffect, h', by simp [hsame, Act.creates]⟩
  | elsewhere =>
    obtain ⟨t', hone, hvalid, hcount'⟩ := h.valid.step hcount
    obtain rfl := Option.some.inj hone
    exact ⟨_, _, q, rfl, .elsewhere q, ⟨hvalid, h.timers, h.le_succ (hcount rfl)⟩, hcount'⟩

theorem refines_new {count : Int32} (hcount : 0 ≤ count.toInt) :
    Refines (MinHeapTimer.new count : MinHeapTimer H) Queue.empty :=
  ⟨valid_new hcount, rfl, fun id hid => absurd hid (Finset.notMem_empty id)⟩

/-- So every heap timer that a program can build holds the timers of a queue. -/
theorem Refines.exec (h : Refines t q) (acts : List (Act H))
    (hbound : t.count.toInt + acts.countP Act.creates < 2 ^ 31) :
    ∃ t' q', exec step t acts = some t' ∧ Refines t' q' ∧
      t'.count.toInt = t.count.toInt + acts.countP Act.creates := by
  induction acts generalizing t q with
  | nil => exact ⟨t, q, rfl, h, (add_zero _).symm⟩
  | cons a acts ih =>
    rw [List.countP_cons] at hbound ⊢
    obtain ⟨t₁, answers, q₁, hcall, -, h₁, hcount⟩ := h.call a fun hcreates => by
      rw [if_pos hcreates] at hbound
      omega
    have hone : step t a = some t₁ := by
      rw [← map_call, hcall]
      rfl
    obtain ⟨t', q', hrest, h', hcount'⟩ := ih h₁ (by
      split_ifs at hbound hcount <;> omega)
    refine ⟨t', q', exec_cons_eq_some.mpr ⟨t₁, hone, hrest⟩, h', ?_⟩
    split_ifs at hcount ⊢ <;> omega

/-- Every sequence of operations on a new heap timer, at any clock readings and with other timer
objects drawing ids in between, has the answers of a priority queue that is keyed by the ids,
and leaves the timers of this queue in the heap. -/
theorem runs_call (count : Int32) (acts : List (Act H)) (hcount : 0 ≤ count.toInt)
    (hbound : count.toInt + acts.countP Act.creates < 2 ^ 31) :
    ∃ t answers q, exec (traced call) (MinHeapTimer.new count, []) acts = some (t, answers) ∧
      Runs Effect Queue.empty acts q answers ∧ q.timers = contents t := by
  obtain ⟨t, answers, q, hrun, hruns, hrefines, -⟩ := exec_refines (E := Effect)
    (I := fun t q acts => Refines t q ∧ t.count.toInt + acts.countP Act.creates < 2 ^ 31)
    (fun t q a acts ⟨h, hleft⟩ => by
      rw [List.countP_cons] at hleft
      obtain ⟨t', answers, q', hcall, heffect, h', hcount'⟩ := h.call a fun hcreates => by
        rw [if_pos hcreates] at hleft
        omega
      refine ⟨t', answers, q', hcall, heffect, h', ?_⟩
      split_ifs at hleft hcount' <;> omega)
    ⟨refines_new hcount, hbound⟩
  exact ⟨t, answers, q, hrun, hruns, hrefines.timers⟩

/-- Two timers are set, one is deleted, and the other one fires. -/
theorem runs_call_four :
    ∃ t answers q, exec (traced call) (MinHeapTimer.new 0, [])
        [.add 0 5 (none : Option Unit), .add 1 3 none, .del 2, .expire 5] = some (t, answers) ∧
      Runs Effect Queue.empty [.add 0 5 (none : Option Unit), .add 1 3 none, .del 2, .expire 5] q
        answers ∧ q.timers = contents t :=
  runs_call 0 _ (by decide) (by decide)

end MmorpgServer.MinHeap
