import MmorpgServer.MinHeap.Queue
import MmorpgServer.SkipList.Timer
import MmorpgServer.Lib.FirstHit

/-!
# The 32-bit clock of the heap timer and the skip list timer

Both timers read a clock of milliseconds that wraps after 49.7 days, and add the delay of a new
timer to it in 32 bits. A timer fires in the first poll whose reading is not smaller than this
sum. In real time this is the first poll that is due only if the wraps do not come in between.

## Main definitions

* `Timespec`, `currentTime` — the clock
* `Punctual` — a timer fires in the first poll that is due
* `Unwrapped` — no poll before that one has missed a wrap, and neither has that one
* `heapCall`, `listCall` — the two timers, called at given times

## Main results

* `punctual_iff_of_fires` — a timer that fires by its 32-bit expiry
* `heap_fires`, `list_fires` — both timers fire so
* `punctual_iff_unwrapped` — when they are punctual
-/

namespace MmorpgServer.Timers

open FirstHit Machine PriorityQueue

variable {C F ν : Type}

/-! ### The clock -/

/-- `struct timespec` -/
structure Timespec where
  sec : ℕ
  nsec : ℕ

/-- Real milliseconds. -/
def Timespec.ms (ti : Timespec) : ℕ := ti.sec * 1000 + ti.nsec / 1000000

/-- `current_time` -/
def currentTime (ti : Timespec) : UInt32 :=
  UInt32.ofNat ti.sec * 1000 + UInt32.ofNat (ti.nsec / 1000000)

theorem toNat_currentTime (ti : Timespec) : (currentTime ti).toNat = ti.ms % 2 ^ 32 := by
  unfold currentTime Timespec.ms
  rw [UInt32.toNat_add, UInt32.toNat_mul, UInt32.toNat_ofNat', UInt32.toNat_ofNat']
  simp [Nat.add_mod, Nat.mul_mod]

/-- The times of the polls among some calls. -/
def pollTimes {α : Type} (polls : α → Bool) (calls : List (Timespec × α)) : List ℕ :=
  (calls.filter fun c => polls c.2).map fun c => c.1.ms

theorem pollTimes_cons {α : Type} {polls : α → Bool} (c : Timespec × α)
    (calls : List (Timespec × α)) :
    pollTimes polls (c :: calls) = pollTimes polls [c] ++ pollTimes polls calls := by
  unfold pollTimes
  rw [← List.map_append, ← List.filter_append]
  rfl

/-- The polls come after the first call. -/
theorem le_of_mem_pollTimes {α : Type} {polls : α → Bool} {calls : List (Timespec × α)}
    {start p : ℕ} (htimes : (start :: calls.map (·.1.ms)).Pairwise (· ≤ ·))
    (hp : p ∈ pollTimes polls calls) : start ≤ p := by
  obtain ⟨c, hc, rfl⟩ := List.mem_map.mp hp
  exact (List.pairwise_cons.mp htimes).1 _ (List.mem_map_of_mem (List.mem_of_mem_filter hc))

/-! ### Punctuality -/

/-- The timer `x` fires in the first poll at or after the time `due`, and in no other one. A poll
is given by its time and what it fires. -/
def Punctual (due : ℕ) (x : ν) (polls : List (ℕ × List ν)) : Prop :=
  MarksFirst (fun poll => due ≤ poll.1) (fun poll => x ∈ poll.2) polls

/-- The timer `x` fires in the first poll at which the clock shows `expire` or more. -/
def Fires (expire : ℕ) (x : ν) (polls : List (ℕ × List ν)) : Prop :=
  MarksFirst (fun poll => expire ≤ poll.1 % 2 ^ 32) (fun poll => x ∈ poll.2) polls

/-- Between two wraps of the clock: a poll before the time `due` comes after the last wrap before
`due`, and at the first poll after it the clock does not show less than at `due`. -/
def Unwrapped (due : ℕ) (times : List ℕ) : Prop :=
  AtEach (fun pre p => (∀ q ∈ pre, q < due) →
    if p < due then p / 2 ^ 32 = due / 2 ^ 32 else due % 2 ^ 32 ≤ p % 2 ^ 32) times

/-- A time before `due` shows less, unless the clock has wrapped since then. -/
theorem mod_lt_iff {start due p : ℕ} (hstart : start ≤ p) (hdue : p < due)
    (hdelay : due < start + 2 ^ 32) :
    p % 2 ^ 32 < due % 2 ^ 32 ↔ p / 2 ^ 32 = due / 2 ^ 32 := by
  omega

/-- When the expiry that is stored tells the real one. -/
theorem punctual_iff_of_fires (start : ℕ) {due : ℕ} {x : ν} {polls : List (ℕ × List ν)}
    (hfires : Fires (due % 2 ^ 32) x polls) (hdelay : due < start + 2 ^ 32)
    (hstart : ∀ poll ∈ polls, start ≤ poll.1) :
    Punctual due x polls ↔ Unwrapped due (polls.map Prod.fst) := by
  unfold Punctual Unwrapped
  rw [MarksFirst.congr hfires, atEach_map]
  refine forall_congr' fun pre => forall_congr' fun poll => forall_congr' fun post =>
    forall_congr' fun hsplit => ?_
  have hpoll := hstart poll (by simp [hsplit])
  simp only [List.forall_mem_map, not_le]
  refine imp_congr_right fun _ => ?_
  by_cases hdue : poll.1 < due
  · rw [if_pos hdue, ← mod_lt_iff hpoll hdue hdelay]
    exact ⟨fun h => not_le.mp fun hle => (h.mp hle).not_gt hdue,
      fun hlt => iff_of_false hlt.not_ge hdue.not_ge⟩
  · rw [if_neg hdue, iff_true_right (not_lt.mp hdue)]

/-! ### The heap timer -/

/-- What a program does with a heap timer. -/
inductive HeapOp (C : Type) where
  | add (expire : UInt32) (cb : Option C)
  | del (id : Int32)
  | poll
  /-- another `MinHeapTimer` adds a timer -/
  | elsewhere

/-- The operation at a reading of the clock. -/
def HeapOp.act (now : UInt32) : HeapOp C → MinHeap.Act C
  | .add expire cb => .add now expire cb
  | .del id => .del id
  | .poll => .expire now
  | .elsewhere => .elsewhere

/-- A poll, with the ids of the timers that fire. -/
def polled (ti : Timespec) : MinHeap.Answer C → Option (ℕ × List Int32)
  | .fired timers => some (ti.ms, timers.map Prod.fst)
  | _ => none

/-- An operation at a given time. -/
def heapCall (t : MinHeap.MinHeapTimer C) (c : Timespec × HeapOp C) :
    Option (MinHeap.MinHeapTimer C × List (ℕ × List Int32)) :=
  (MinHeap.call t (c.2.act (currentTime c.1))).map fun r => (r.1, r.2.filterMap (polled c.1))

/-- The call is a poll. -/
def HeapOp.polls : HeapOp C → Bool
  | .poll => true
  | _ => false

/-- The call creates a timer. -/
def HeapOp.creates : HeapOp C → Bool
  | .add .. => true
  | .elsewhere => true
  | _ => false

theorem creates_act (now : UInt32) (op : HeapOp C) : (op.act now).creates = op.creates := by
  cases op <;> rfl

section Heap

open MinHeap

variable {q q' : Queue C} {id : Int32} {expire : UInt32} {polls : List (ℕ × List Int32)}

/-- A timer is set until the first poll at which the clock shows its expiry or more. -/
structure HeapTracked (q : Queue C) (id : Int32) (expire : UInt32)
    (polls : List (ℕ × List Int32)) : Prop where
  issued : id ∈ q.issued
  fires : Fires expire.toNat id polls
  pending : (∀ poll ∈ polls, ¬ expire.toNat ≤ poll.1 % 2 ^ 32) → ∃ cb, (id, expire, cb) ∈ q.timers
  gone : (∃ poll ∈ polls, expire.toNat ≤ poll.1 % 2 ^ 32) → ∀ e ∈ q.timers, e.1 ≠ id

/-- A poll of the queue. -/
theorem HeapTracked.poll (h : HeapTracked q id expire polls) {ti : Timespec}
    {fired : List (Timer C)}
    (hdrains : Drains expiry (currentTime ti).toNat q.timers
      (q.keep fun e => (currentTime ti).toNat < expiry e).timers fired) :
    HeapTracked (q.keep fun e => (currentTime ti).toNat < expiry e) id expire
      (polls ++ [(ti.ms, fired.map Prod.fst)]) := by
  have hclock := toNat_currentTime ti
  have hkeep : ∀ e, e ∈ (q.keep fun e => (currentTime ti).toNat < expiry e).timers ↔
      e ∈ q.timers ∧ (currentTime ti).toNat < expiry e := fun e => Multiset.mem_filter
  refine ⟨h.issued, atEach_concat.mpr ⟨h.fires, ?_⟩, fun hnone => ?_, ?_⟩
  · -- the timer fires now if it is set and the clock shows its expiry
    change id ∈ fired.map Prod.fst ↔ expire.toNat ≤ ti.ms % 2 ^ 32 ∧ _
    rw [← hclock]
    constructor
    · intro hin
      obtain ⟨e, he, hid⟩ := List.mem_map.mp hin
      obtain ⟨hmem, hdue⟩ := hdrains.mem_iff.mp he
      have hnone : ∀ poll ∈ polls, ¬ expire.toNat ≤ poll.1 % 2 ^ 32 := fun poll hpoll hle =>
        h.gone ⟨poll, hpoll, hle⟩ e hmem hid
      obtain ⟨cb, hcb⟩ := h.pending hnone
      obtain rfl := Queue.eq_of_id hmem hcb hid
      exact ⟨hdue, hnone⟩
    · rintro ⟨hdue, hnone⟩
      obtain ⟨cb, hcb⟩ := h.pending hnone
      exact List.mem_map_of_mem (hdrains.mem_iff.mpr ⟨hcb, hdue⟩)
  · obtain ⟨cb, hcb⟩ := h.pending fun poll hpoll => hnone poll (List.mem_append_left _ hpoll)
    have hlate := hnone _ (List.mem_append_right polls (List.mem_singleton_self _))
    exact ⟨cb, (hkeep _).mpr ⟨hcb, by rw [hclock]; exact not_le.mp hlate⟩⟩
  · rintro ⟨poll, hpoll, hle⟩ e he hid
    obtain ⟨hmem, hlate⟩ := (hkeep e).mp he
    by_cases hold : ∃ poll ∈ polls, expire.toNat ≤ poll.1 % 2 ^ 32
    · exact h.gone hold e hmem hid
    · obtain ⟨cb, hcb⟩ := h.pending fun poll hpoll hle => hold ⟨poll, hpoll, hle⟩
      obtain rfl := Queue.eq_of_id hmem hcb hid
      rcases List.mem_append.mp hpoll with hpoll | hpoll
      · exact hold ⟨poll, hpoll, hle⟩
      · obtain rfl := List.mem_singleton.mp hpoll
        rw [hclock] at hlate
        exact absurd hle hlate.not_ge

/-- Every operation but the deletion of the timer. -/
theorem HeapTracked.effect (h : HeapTracked q id expire polls) {ti : Timespec} {op : HeapOp C}
    {answers : List (Answer C)} (hop : op ≠ .del id)
    (heffect : Effect q (op.act (currentTime ti)) q' answers) :
    HeapTracked q' id expire (polls ++ answers.filterMap (polled ti)) := by
  cases op with
  | poll =>
    cases heffect with
    | expire hdrains => exact h.poll hdrains
  | elsewhere =>
    cases heffect
    rw [List.filterMap_nil, List.append_nil]
    exact h
  | add delay cb =>
    cases heffect with
    | add hid =>
      change HeapTracked _ id expire (polls ++ [])
      rw [List.append_nil]
      refine ⟨Finset.mem_insert_of_mem h.issued, h.fires, fun hnone => ?_, fun hsome e he => ?_⟩
      · obtain ⟨cb, hcb⟩ := h.pending hnone
        exact ⟨cb, Multiset.mem_cons_of_mem hcb⟩
      · rcases Multiset.mem_cons.mp he with rfl | he
        · rintro rfl
          exact hid h.issued
        · exact h.gone hsome e he
  | del id' =>
    have hne : id ≠ id' := fun heq => hop (congrArg HeapOp.del heq.symm)
    cases heffect
    change HeapTracked _ id expire (polls ++ [])
    rw [List.append_nil]
    refine ⟨h.issued, h.fires, fun hnone => ?_, fun hsome e he => ?_⟩
    · obtain ⟨cb, hcb⟩ := h.pending hnone
      exact ⟨cb, Multiset.mem_filter.mpr ⟨hcb, hne⟩⟩
    · exact h.gone hsome e (Multiset.mem_of_mem_filter he)

/-- A poll shows its time. -/
theorem map_polled {c : Timespec × HeapOp C} {answers : List (Answer C)}
    (heffect : Effect q (c.2.act (currentTime c.1)) q' answers) :
    (answers.filterMap (polled c.1)).map Prod.fst = pollTimes HeapOp.polls [c] := by
  obtain ⟨ti, op⟩ := c
  cases op <;> cases heffect <;> rfl

/-- A timer is tracked through a run with polls at the times `times`. -/
structure HeapAhead (id : Int32) (expire : UInt32) (times : List ℕ)
    (st : MinHeapTimer C × List (ℕ × List Int32)) (calls : List (Timespec × HeapOp C)) :
    Prop where
  tracked : ∃ q, Refines st.1 q ∧ HeapTracked q id expire st.2
  other : ∀ c ∈ calls, c.2 ≠ .del id
  bound : st.1.count.toInt + calls.countP (·.2.creates) < 2 ^ 31
  polls : st.2.map Prod.fst ++ pollTimes HeapOp.polls calls = times

theorem HeapAhead.step {times : List ℕ} {st : MinHeapTimer C × List (ℕ × List Int32)}
    {c : Timespec × HeapOp C} {calls : List (Timespec × HeapOp C)}
    (h : HeapAhead id expire times st (c :: calls)) :
    ∃ st', traced heapCall st c = some st' ∧ HeapAhead id expire times st' calls := by
  obtain ⟨⟨q, hq, htracked⟩, hother, hbound, htimes⟩ := h
  obtain ⟨hop, hother⟩ := List.forall_mem_cons.mp hother
  rw [List.countP_cons] at hbound
  obtain ⟨t', answers, q', hcall, heffect, hq', hcount⟩ :=
    hq.call (c.2.act (currentTime c.1)) fun hcreates => by
      rw [creates_act] at hcreates
      rw [if_pos hcreates] at hbound
      omega
  refine ⟨(t', st.2 ++ answers.filterMap (polled c.1)), ?_,
    ⟨q', hq', htracked.effect hop heffect⟩, hother, ?_, ?_⟩
  · refine traced_eq_some.mpr ⟨t', _, ?_, rfl⟩
    rw [heapCall, hcall]
    rfl
  · rw [creates_act] at hcount
    change t'.count.toInt + _ < _
    split_ifs at hbound hcount <;> omega
  · rw [← htimes, List.map_append, map_polled heffect, pollTimes_cons c calls, List.append_assoc]

/-- A timer that is set fires in the first poll at which the clock shows its expiry or more. -/
theorem heap_fires {t : MinHeapTimer C} (hq : Refines t q) {cb : Option C}
    (hset : (id, expire, cb) ∈ q.timers) {calls : List (Timespec × HeapOp C)}
    (hother : ∀ c ∈ calls, c.2 ≠ .del id)
    (hbound : t.count.toInt + calls.countP (·.2.creates) < 2 ^ 31) :
    ∃ t' polls, exec (traced heapCall) (t, []) calls = some (t', polls) ∧
      Fires expire.toNat id polls ∧ polls.map Prod.fst = pollTimes HeapOp.polls calls := by
  have hstart : HeapAhead id expire (pollTimes HeapOp.polls calls) (t, []) calls :=
    ⟨⟨q, hq, q.known _ hset, atEach_nil, fun _ => ⟨cb, hset⟩, by simp⟩, hother, hbound, rfl⟩
  obtain ⟨⟨t', polls⟩, hrun, ⟨q', -, htracked⟩, -, -, htimes⟩ :=
    exec_progress (fun _ _ _ => HeapAhead.step) hstart
  exact ⟨t', polls, hrun, htracked.fires, by simpa [pollTimes] using htimes⟩

end Heap

/-! ### The skip list timer -/

/-- What a program does with a skip list timer. -/
inductive ListOp (F : Type) where
  | add (msec : UInt32) (func : F) (level : ℕ)
  | del (zn : SkipList.NodePtr)
  | poll

/-- An operation at a given time. -/
def listCall (z : SkipList.Zskiplist F) (c : Timespec × ListOp F) :
    Option (SkipList.Zskiplist F × List (ℕ × List SkipList.NodePtr)) :=
  match c.2 with
  | .add msec func level =>
    (SkipList.addTimer z (currentTime c.1) msec func level).map fun r => (r.1, [])
  | .del zn => (SkipList.delTimer z zn).map fun z => (z, [])
  | .poll =>
    (SkipList.expireTimer (fun _ _ z => some z) (z.length.toNat + 1) (currentTime c.1) z).map
      fun r => (r.1, [(c.1.ms, r.2.map SkipList.Entry.node)])

/-- The call is a poll. -/
def ListOp.polls : ListOp F → Bool
  | .poll => true
  | _ => false

section List

open SkipList

variable {z z' : Zskiplist F} {L L' : List NodePtr} {x : NodePtr} {expire : UInt32}
  {polls : List (ℕ × List NodePtr)} {ti : Timespec}

/-- The outcome of `zslRandomLevel` is one that it can have, and a deletion is that of a listed
node with a score other than that of the timer `x`. -/
def Spared (x : NodePtr) (st : Zskiplist F × List (ℕ × List NodePtr)) (c : Timespec × ListOp F) :
    Prop :=
  match c.2 with
  | .add _ _ level => 1 ≤ level ∧ level ≤ zskiplistMaxlevel
  | .del zn => Listed st.1 zn ∧ score st.1 zn ≠ score st.1 x
  | .poll => True

/-- A timer is listed until the first poll at which the clock shows its expiry or more. -/
structure ListTracked (z : Zskiplist F) (L : List NodePtr) (x : NodePtr) (expire : UInt32)
    (polls : List (ℕ × List NodePtr)) : Prop where
  rep : Rep z L
  expiry : score z x = some expire.toUInt64
  fires : Fires expire.toNat x polls
  pending : (∀ poll ∈ polls, ¬ expire.toNat ≤ poll.1 % 2 ^ 32) → x ∈ L
  gone : (∃ poll ∈ polls, expire.toNat ≤ poll.1 % 2 ^ 32) → x ∉ L

theorem ListTracked.key (h : ListTracked z L x expire polls) : key z x = expire.toNat := by
  rw [key_of_score h.expiry, UInt32.toNat_toUInt64]

/-- The timer is listed as before. -/
theorem ListTracked.congr (h : ListTracked z L x expire polls) (hrep : Rep z' L')
    (hnode : (z'.node x).map shape = (z.node x).map shape) (hmem : x ∈ L' ↔ x ∈ L) :
    ListTracked z' L' x expire polls where
  rep := hrep
  expiry := (score_congr hnode).trans h.expiry
  fires := h.fires
  pending hnone := hmem.mpr (h.pending hnone)
  gone hsome := mt hmem.mp (h.gone hsome)

/-- A poll of the list. -/
theorem ListTracked.poll (h : ListTracked z L x expire polls) {fired : List (Entry F)}
    (hexpired : Expired z L (currentTime ti) z' L' fired) :
    ListTracked z' L' x expire (polls ++ [(ti.ms, fired.map Entry.node)]) := by
  have hclock := toNat_currentTime ti
  have hdrains := hexpired.drains h.rep
  have hkey := h.key
  have hfired : x ∈ fired.map Entry.node ↔ x ∈ L ∧ expire.toNat ≤ ti.ms % 2 ^ 32 := by
    rw [hdrains.mem_iff, hclock, hkey, Multiset.mem_coe]
  have hleft : x ∈ L' ↔ x ∈ L ∧ ¬ expire.toNat ≤ ti.ms % 2 ^ 32 := by
    rw [← Multiset.mem_coe, hdrains.rest_eq, Multiset.mem_filter, hclock, hkey, not_le,
      Multiset.mem_coe]
  have hgone : x ∈ L → ∀ poll ∈ polls, ¬ expire.toNat ≤ poll.1 % 2 ^ 32 :=
    fun hin poll hpoll hle => h.gone ⟨poll, hpoll, hle⟩ hin
  refine ⟨hexpired.rep, (score_congr (hexpired.node x)).trans h.expiry,
    atEach_concat.mpr ⟨h.fires, ?_⟩, fun hnone => ?_, ?_⟩
  · change x ∈ fired.map Entry.node ↔ _
    rw [hfired]
    exact ⟨fun ⟨hin, hdue⟩ => ⟨hdue, hgone hin⟩, fun ⟨hdue, hnone⟩ => ⟨h.pending hnone, hdue⟩⟩
  · refine hleft.mpr ⟨h.pending fun poll hpoll => hnone poll (List.mem_append_left _ hpoll), ?_⟩
    exact hnone _ (List.mem_append_right polls (List.mem_singleton_self _))
  · rintro ⟨poll, hpoll, hle⟩ hin
    obtain ⟨hin, hlate⟩ := hleft.mp hin
    rcases List.mem_append.mp hpoll with hpoll | hpoll
    · exact hgone hin poll hpoll hle
    · obtain rfl := List.mem_singleton.mp hpoll
      exact hlate hle

/-- Every operation that spares the timer. -/
theorem ListTracked.step (h : ListTracked z L x expire polls) {op : ListOp F}
    (hspared : Spared x (z, polls) (ti, op)) :
    ∃ z' L' new, listCall z (ti, op) = some (z', new) ∧
      ListTracked z' L' x expire (polls ++ new) ∧
      new.map Prod.fst = pollTimes ListOp.polls [(ti, op)] := by
  obtain ⟨n, hn, -⟩ := Option.map_eq_some_iff.mp h.expiry
  cases op with
  | add msec func level =>
    obtain ⟨z', A, B, hinsert, rfl, -, -, hrep, -, -, hrest⟩ :=
      zslInsert_spec h.rep hspared.1 hspared.2 (msec + currentTime ti).toUInt64 func
    have hx : x ≠ z.fresh := (h.rep.known x n hn).ne
    refine ⟨z', A ++ z.fresh :: B, [], ?_, ?_, rfl⟩
    · change Option.map _ (zslInsert z _ func level) = _
      rw [hinsert]
      rfl
    · rw [List.append_nil]
      refine h.congr hrep (hrest x hx) ?_
      rw [List.mem_append, List.mem_cons, or_iff_right hx, List.mem_append]
  | del zn =>
    obtain ⟨⟨L₁, hrun, hmem⟩, hne⟩ := hspared
    obtain rfl := h.rep.unique hrun
    obtain ⟨s, hs⟩ := h.rep.exists_score hmem
    obtain ⟨A, y, B, rfl, hy, hA⟩ := h.rep.exists_first hmem hs
    obtain ⟨z', hdelete, hrep, -, -, -, hrest⟩ := zslDelete_first h.rep hA hs hy
    -- the node that is unlinked has another score
    have hxy : x ≠ y := by
      rintro rfl
      exact hne (hs.trans hy.symm)
    refine ⟨z', A ++ B, [], ?_, ?_, rfl⟩
    · change Option.map _ (zslDelete z zn) = _
      rw [hdelete]
      rfl
    · rw [List.append_nil]
      refine h.congr hrep (hrest x hxy) ?_
      rw [List.mem_append, List.mem_append, List.mem_cons, or_iff_right hxy]
  | poll =>
    obtain ⟨z', L', fired, hexpire, hexpired⟩ := SkipList.expireTimer_spec h.rep (currentTime ti)
    refine ⟨z', L', _, ?_, h.poll hexpired, rfl⟩
    change Option.map _ (SkipList.expireTimer _ _ _ z) = _
    rw [hexpire]
    rfl

/-- A timer is tracked through a run with polls at the times `times`. -/
structure ListAhead (x : NodePtr) (expire : UInt32) (times : List ℕ)
    (st : Zskiplist F × List (ℕ × List NodePtr)) (calls : List (Timespec × ListOp F)) :
    Prop where
  tracked : ∃ L, ListTracked st.1 L x expire st.2
  spared : Guarded (traced listCall) (Spared x) st calls
  polls : st.2.map Prod.fst ++ pollTimes ListOp.polls calls = times

theorem ListAhead.step {times : List ℕ} {st : Zskiplist F × List (ℕ × List NodePtr)}
    {c : Timespec × ListOp F} {calls : List (Timespec × ListOp F)}
    (h : ListAhead x expire times st (c :: calls)) :
    ∃ st', traced listCall st c = some st' ∧ ListAhead x expire times st' calls := by
  obtain ⟨⟨L, htracked⟩, ⟨hspared, hrest⟩, htimes⟩ := h
  obtain ⟨z', L', new, hcall, htracked', hnew⟩ := htracked.step hspared
  have hone : traced listCall st c = some (z', st.2 ++ new) :=
    traced_eq_some.mpr ⟨z', new, hcall, rfl⟩
  refine ⟨_, hone, ⟨L', htracked'⟩, hrest _ hone, ?_⟩
  rw [← htimes, List.map_append, hnew, pollTimes_cons c calls, List.append_assoc]

/-- A listed timer fires in the first poll at which the clock shows its expiry or more. -/
theorem list_fires (hrep : Rep z L) (hx : x ∈ L) (hexpire : score z x = some expire.toUInt64)
    {calls : List (Timespec × ListOp F)}
    (hspared : Guarded (traced listCall) (Spared x) (z, []) calls) :
    ∃ z' polls, exec (traced listCall) (z, []) calls = some (z', polls) ∧
      Fires expire.toNat x polls ∧ polls.map Prod.fst = pollTimes ListOp.polls calls := by
  have hstart : ListAhead x expire (pollTimes ListOp.polls calls) (z, []) calls :=
    ⟨⟨L, hrep, hexpire, atEach_nil, fun _ => hx, by simp⟩, hspared, rfl⟩
  obtain ⟨⟨z', polls⟩, hrun, ⟨L', htracked⟩, -, htimes⟩ :=
    exec_progress (fun _ _ _ => ListAhead.step) hstart
  exact ⟨z', polls, hrun, htracked.fires, by simpa [pollTimes] using htimes⟩

end List

/-! ### Both timers -/

/-- Both timers store the time of the addition and the delay, added in 32 bits. -/
theorem punctual_iff_of_added {α : Type} {op : α → Bool} {calls : List (Timespec × α)}
    {ti : Timespec} {m : UInt32} {x : ν} {polls : List (ℕ × List ν)}
    (hpolls : polls.map Prod.fst = pollTimes op calls)
    (htimes : (ti.ms :: calls.map (·.1.ms)).Pairwise (· ≤ ·))
    (hfires : Fires (currentTime ti + m).toNat x polls) :
    Punctual (ti.ms + m.toNat) x polls ↔
      Unwrapped (ti.ms + m.toNat) (pollTimes op calls) := by
  rw [← hpolls]
  refine punctual_iff_of_fires ti.ms ?_ (by have := m.toNat_lt; omega) ?_
  · rw [UInt32.toNat_add, toNat_currentTime, Nat.mod_add_mod] at hfires
    exact hfires
  · exact fun poll hpoll => le_of_mem_pollTimes htimes (hpolls ▸ List.mem_map_of_mem hpoll)

/-- A timer with the delay `m` that `AddTimer` has set in any heap. -/
theorem heap_punctual_iff {count : Int32} {acts : List (MinHeap.Act C)}
    {t₀ t₁ : MinHeap.MinHeapTimer C} {ti : Timespec} {m : UInt32} {cb : Option C} {id : Int32}
    {calls : List (Timespec × HeapOp C)} (hcount : 0 ≤ count.toInt)
    (hbound : count.toInt + acts.countP MinHeap.Act.creates + 1 +
      calls.countP (·.2.creates) < 2 ^ 31)
    (hheap : exec MinHeap.step (.new count) acts = some t₀)
    (hadd : MinHeap.addTimer t₀ (currentTime ti) m cb = some (t₁, id))
    (hother : ∀ c ∈ calls, c.2 ≠ .del id)
    (htimes : (ti.ms :: calls.map (·.1.ms)).Pairwise (· ≤ ·)) :
    ∃ t polls, exec (traced heapCall) (t₁, []) calls = some (t, polls) ∧
      polls.map Prod.fst = pollTimes HeapOp.polls calls ∧
      (Punctual (ti.ms + m.toNat) id polls ↔
        Unwrapped (ti.ms + m.toNat) (pollTimes HeapOp.polls calls)) := by
  obtain ⟨t, q, hrun, hq, hlast⟩ := (MinHeap.refines_new (H := C) hcount).exec acts (by
    change count.toInt + _ < _
    omega)
  obtain rfl := Option.some.inj (hheap.symm.trans hrun)
  change t₀.count.toInt = count.toInt + _ at hlast
  obtain ⟨t₁', answers, q₁, hcall, heffect, hq₁, hcount₁⟩ :=
    hq.call (.add (currentTime ti) m cb) fun _ => by omega
  change _ = _ + (1 : ℤ) at hcount₁
  rw [MinHeap.call, hadd] at hcall
  obtain ⟨rfl, rfl⟩ := Prod.mk.inj (Option.some.inj hcall)
  cases heffect with
  | add hid =>
    have hset : (id, currentTime ti + m, cb) ∈ (q.add id hid (currentTime ti + m) cb).timers :=
      Multiset.mem_cons_self _ _
    obtain ⟨t, polls, hrun, hfires, hpolls⟩ := heap_fires hq₁ hset hother (by omega)
    exact ⟨t, polls, hrun, hpolls, punctual_iff_of_added hpolls htimes hfires⟩

/-- A timer with the delay `m` that `add_timer` has put into any list. -/
theorem list_punctual_iff {defaultHandler func : F} {acts : List (SkipList.Act F)}
    {z₀ z₁ : SkipList.Zskiplist F} {ti : Timespec} {m : UInt32} {level : ℕ}
    {x : SkipList.NodePtr} {calls : List (Timespec × ListOp F)}
    (hlist : exec SkipList.step (SkipList.initTimer defaultHandler) acts = some z₀)
    (hlevel : 1 ≤ level ∧ level ≤ SkipList.zskiplistMaxlevel)
    (hadd : SkipList.addTimer z₀ (currentTime ti) m func level = some (z₁, x))
    (hspared : Guarded (traced listCall) (Spared x) (z₁, []) calls)
    (htimes : (ti.ms :: calls.map (·.1.ms)).Pairwise (· ≤ ·)) :
    ∃ z polls, exec (traced listCall) (z₁, []) calls = some (z, polls) ∧
      polls.map Prod.fst = pollTimes ListOp.polls calls ∧
      (Punctual (ti.ms + m.toNat) x polls ↔
        Unwrapped (ti.ms + m.toNat) (pollTimes ListOp.polls calls)) := by
  obtain ⟨L, hrep⟩ := SkipList.rep_exec hlist
  obtain ⟨z', A, B, hinsert, rfl, -, -, hrep', -, hself, -⟩ :=
    SkipList.zslInsert_spec hrep hlevel.1 hlevel.2 (m + currentTime ti).toUInt64 func
  obtain ⟨rfl, rfl⟩ := Prod.mk.inj (Option.some.inj (hadd.symm.trans hinsert))
  have hscore : SkipList.score z₁ z₀.fresh = some (m + currentTime ti).toUInt64 := by
    obtain ⟨n, hn, hshape⟩ := Option.map_eq_some_iff.mp hself
    rw [SkipList.score_of_node hn, show n.score = _ from congrArg Prod.fst hshape]
  obtain ⟨z, polls, hrun, hfires, hpolls⟩ := list_fires hrep' (by simp) hscore hspared
  rw [UInt32.add_comm] at hfires
  exact ⟨z, polls, hrun, hpolls, punctual_iff_of_added hpolls htimes hfires⟩

/-- A timer that is added at the real time `ti.ms` with the delay `m`, to any heap and to any
skip list that a program can build, fires in the first poll at or after `ti.ms + m` and in no
other one if and only if the polls are `Unwrapped`. -/
theorem punctual_iff_unwrapped (ti : Timespec) (m : UInt32)
    -- the heap timer
    (count : Int32) (acts : List (MinHeap.Act C)) (t₀ t₁ : MinHeap.MinHeapTimer C) (id : Int32)
    (cb : Option C) (calls : List (Timespec × HeapOp C)) (hcount : 0 ≤ count.toInt)
    (hbound : count.toInt + acts.countP MinHeap.Act.creates + 1 +
      calls.countP (·.2.creates) < 2 ^ 31)
    (hheap : exec MinHeap.step (.new count) acts = some t₀)
    (hadd : MinHeap.addTimer t₀ (currentTime ti) m cb = some (t₁, id))
    (hother : ∀ c ∈ calls, c.2 ≠ .del id)
    (htimes : (ti.ms :: calls.map (·.1.ms)).Pairwise (· ≤ ·))
    -- the skip list timer
    (defaultHandler func : F) (acts' : List (SkipList.Act F)) (z₀ z₁ : SkipList.Zskiplist F)
    (level : ℕ) (x : SkipList.NodePtr) (calls' : List (Timespec × ListOp F))
    (hlist : exec SkipList.step (SkipList.initTimer defaultHandler) acts' = some z₀)
    (hlevel : 1 ≤ level ∧ level ≤ SkipList.zskiplistMaxlevel)
    (hadd' : SkipList.addTimer z₀ (currentTime ti) m func level = some (z₁, x))
    (hspared : Guarded (traced listCall) (Spared x) (z₁, []) calls')
    (htimes' : (ti.ms :: calls'.map (·.1.ms)).Pairwise (· ≤ ·)) :
    (∃ t polls, exec (traced heapCall) (t₁, []) calls = some (t, polls) ∧
      polls.map Prod.fst = pollTimes HeapOp.polls calls ∧
      (Punctual (ti.ms + m.toNat) id polls ↔
        Unwrapped (ti.ms + m.toNat) (pollTimes HeapOp.polls calls))) ∧
    ∃ z polls, exec (traced listCall) (z₁, []) calls' = some (z, polls) ∧
      polls.map Prod.fst = pollTimes ListOp.polls calls' ∧
      (Punctual (ti.ms + m.toNat) x polls ↔
        Unwrapped (ti.ms + m.toNat) (pollTimes ListOp.polls calls')) :=
  ⟨heap_punctual_iff hcount hbound hheap hadd hother htimes,
    list_punctual_iff hlist hlevel hadd' hspared htimes'⟩

/-- A timer with a delay of 10 ms, and polls after 5 and 10 ms. -/
theorem punctual_iff_unwrapped_ten :
    ∃ (t₁ : MinHeap.MinHeapTimer Unit) (z₁ : SkipList.Zskiplist Unit),
      (∃ t polls, exec (traced heapCall) (t₁, []) [(⟨1, 5000000⟩, .poll), (⟨1, 10000000⟩, .poll)] =
          some (t, polls) ∧ polls.map Prod.fst = [1005, 1010] ∧
        (Punctual 1010 1 polls ↔ Unwrapped 1010 [1005, 1010])) ∧
      ∃ z polls, exec (traced listCall) (z₁, []) [(⟨1, 5000000⟩, .poll), (⟨1, 10000000⟩, .poll)] =
          some (z, polls) ∧ polls.map Prod.fst = [1005, 1010] ∧
        (Punctual 1010 1 polls ↔ Unwrapped 1010 [1005, 1010]) :=
  ⟨_, _, punctual_iff_unwrapped ⟨1, 0⟩ 10 0 [] _ _ 1 none _ (by decide) (by decide) rfl rfl
    (by simp) (by decide) () () [] _ _ 1 1 _ rfl (by decide) rfl
    ⟨trivial, fun _ _ => ⟨trivial, fun _ _ => trivial⟩⟩ (by decide)⟩

/-- Six milliseconds before the clock wraps a timer is added with a delay of ten: in both
structures it fires one millisecond later. -/
theorem not_punctual_wrap :
    ∃ (t₁ t : MinHeap.MinHeapTimer Unit) (z₁ z : SkipList.Zskiplist Unit),
      MinHeap.addTimer (.new 0) (currentTime ⟨4294967, 290000000⟩) 10 none = some (t₁, 1) ∧
      exec (traced heapCall) (t₁, []) [(⟨4294967, 291000000⟩, .poll)] =
        some (t, [(4294967291, [1])]) ∧
      ¬ Punctual (4294967290 + 10) (1 : Int32) [(4294967291, [1])] ∧
      SkipList.addTimer (SkipList.initTimer ()) (currentTime ⟨4294967, 290000000⟩) 10 () 1 =
        some (z₁, 1) ∧
      exec (traced listCall) (z₁, []) [(⟨4294967, 291000000⟩, .poll)] =
        some (z, [(4294967291, [1])]) ∧
      ¬ Punctual (4294967290 + 10) (1 : ℕ) [(4294967291, [1])] := by
  refine ⟨_, _, _, _, rfl, rfl, fun h => ?_, rfl, rfl, fun h => ?_⟩
  · exact absurd ((h [] _ [] rfl).mp (by decide)).1 (by decide)
  · exact absurd ((h [] _ [] rfl).mp (by decide)).1 (by decide)

end MmorpgServer.Timers
