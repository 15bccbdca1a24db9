import MmorpgServer.SkipList.Linear
import MmorpgServer.Lib.PriorityQueue

/-!
# The timers of `skl-timer.c`

A translation of the functions that use the skip list as a timer. The value of
`current_time()` is an argument of every function that reads the clock.

## Main definitions

* `addTimer`, `delTimer`, `expireTimer` — the functions of the source
* `dueHead` — the first node, if it is due

## Main results

* `dueHead_cases` — it is the earliest one
* `expireTimer_spec`, `Expired.drains` — `expire_timer` drains the list
-/

namespace MmorpgServer.SkipList

open PriorityQueue

variable {H : Type} {z z' : Zskiplist H} {L : List NodePtr} {now : UInt32}

/-- `init_timer` -/
def initTimer (defaultHandler : H) : Zskiplist H := zslCreate defaultHandler

/-- `add_timer`. The sum is formed in 32 bits. -/
def addTimer (zsl : Zskiplist H) (currentTime msec : UInt32) (func : H) (level : ℕ) :
    Option (Zskiplist H × NodePtr) :=
  let msec := msec + currentTime
  zslInsert zsl msec.toUInt64 func level

/-- `del_timer` -/
def delTimer (zsl : Zskiplist H) (zn : NodePtr) : Option (Zskiplist H) := zslDelete zsl zn

/-- The two `break`s of the loop of `expire_timer`: it goes on with the first node, if there is
one and it is due. -/
def dueHead (now : UInt32) (zsl : Zskiplist H) : Option (Option NodePtr) := do
  match ← zslMin zsl with
  | none => return none
  | some x =>
    if (← score zsl x) > now.toUInt64 then
      return none
    else
      return some x

/-- The loop of `expire_timer`, with what the handlers do to the list. The nodes whose handlers
were called are returned as they were passed to them. -/
def expireLoop (handler : H → NodePtr → Zskiplist H → Option (Zskiplist H)) (now : UInt32) :
    ℕ → Zskiplist H → Option (Zskiplist H × List (Entry H))
  | 0, _ => none
  | fuel + 1, zsl => do
    match ← dueHead now zsl with
    | none => return (zsl, [])
    | some x =>
      let n ← zsl.node x
      let zsl ← handler n.handler x zsl
      let zsl ← zslDeleteHead zsl
      let (zsl, fired) ← expireLoop handler now fuel zsl
      return (zsl, ⟨x, n.score, n.handler⟩ :: fired)

/-- `expire_timer`. With handlers that do not touch the list there is a round for every node,
and one more in which the loop ends. -/
def expireTimer (handler : H → NodePtr → Zskiplist H → Option (Zskiplist H)) (fuel : ℕ)
    (currentTime : UInt32) (zsl : Zskiplist H) : Option (Zskiplist H × List (Entry H)) :=
  expireLoop handler currentTime fuel zsl

/-! ### The first node -/

/-- Either no node is due, or the first one is. -/
theorem dueHead_cases (h : Rep z L) (now : UInt32) :
    (dueHead now z = some none ∧ ∀ p ∈ L, now.toNat < key z p) ∨
    ∃ x L', L = x :: L' ∧ dueHead now z = some (some x) ∧ key z x ≤ now.toNat := by
  unfold dueHead
  rw [h.zslMin_eq]
  cases L with
  | nil => exact Or.inl ⟨rfl, fun p hp => absurd hp List.not_mem_nil⟩
  | cons x L =>
    obtain ⟨s, hs⟩ := h.exists_score (p := x) List.mem_cons_self
    have hkey := key_of_score hs
    simp only [List.head?_cons, hs, Option.bind_eq_bind, Option.bind_some]
    by_cases hlate : s > now.toUInt64
    · rw [if_pos hlate]
      have hlt : now.toNat < key z x := by
        rw [hkey]
        exact UInt64.lt_iff_toNat_lt.mp hlate
      refine Or.inl ⟨rfl, fun p hp => ?_⟩
      rcases List.mem_cons.mp hp with rfl | hp
      · exact hlt
      · -- the list is sorted
        exact hlt.trans_le ((List.pairwise_cons.mp h.sorted).1 p hp)
    · rw [if_neg hlate]
      refine Or.inr ⟨x, L, rfl, rfl, ?_⟩
      rw [hkey]
      exact UInt64.le_iff_toNat_le.mp (UInt64.not_lt.mp hlate)

/-! ### Handlers that do not touch the list -/

/-- What a call of `expire_timer` does: the due nodes are a prefix of the list, and the others
are left. -/
structure Expired (z : Zskiplist H) (L : List NodePtr) (now : UInt32) (z' : Zskiplist H)
    (L' : List NodePtr) (fired : List (Entry H)) : Prop where
  rep : Rep z' L'
  fresh : z'.fresh = z.fresh
  node : ∀ p, (z'.node p).map shape = (z.node p).map shape
  split : L = fired.map Entry.node ++ L'
  scores : ∀ e ∈ fired, key z e.node = e.score.toNat
  due : ∀ e ∈ fired, key z e.node ≤ now.toNat
  late : ∀ p ∈ L', now.toNat < key z p

theorem expireLoop_spec {fuel : ℕ} (h : Rep z L) (hfuel : L.length < fuel) (now : UInt32) :
    ∃ z' L' fired, expireLoop (fun _ _ z => some z) now fuel z = some (z', fired) ∧
      Expired z L now z' L' fired := by
  induction fuel generalizing z L with
  | zero => omega
  | succ fuel ih =>
    rw [expireLoop]
    rcases dueHead_cases h now with ⟨hhead, hlate⟩ | ⟨x, L, rfl, hhead, hdue⟩
    · rw [hhead]
      exact ⟨z, L, [], rfl, h, rfl, fun _ => rfl, rfl, by simp, by simp, hlate⟩
    · -- the first node is due: its handler is called, and it is removed
      obtain ⟨n, hn⟩ := h.exists_node (p := x) List.mem_cons_self
      obtain ⟨z₁, hdelete, hrep, hfresh, hnode⟩ := zslDeleteHead_spec h
      obtain ⟨z', L', fired, hloop, hexpired⟩ := ih hrep (by simpa using hfuel)
      have hkey : ∀ p, key z₁ p = key z p := fun p => key_congr (hnode p)
      refine ⟨z', L', ⟨x, n.score, n.handler⟩ :: fired, ?_, hexpired.rep,
        hexpired.fresh.trans hfresh, fun p => (hexpired.node p).trans (hnode p), ?_, ?_, ?_, ?_⟩
      · simp [hhead, hn, hdelete, hloop]
      · exact congrArg (x :: ·) hexpired.split
      · refine List.forall_mem_cons.mpr ⟨key_of_score (score_of_node hn), fun e he => ?_⟩
        exact (hkey e.node).symm.trans (hexpired.scores e he)
      · refine List.forall_mem_cons.mpr ⟨hdue, fun e he => ?_⟩
        exact (hkey e.node).symm.trans_le (hexpired.due e he)
      · exact fun p hp => (hexpired.late p hp).trans_eq (hkey p)

/-- `expire_timer` returns within a round for every node and one more. -/
theorem expireTimer_spec (h : Rep z L) (now : UInt32) :
    ∃ z' L' fired, expireTimer (fun _ _ z => some z) (z.length.toNat + 1) now z =
      some (z', fired) ∧ Expired z L now z' L' fired := by
  refine expireLoop_spec h ?_ now
  rw [h.length, Int.toNat_natCast]
  exact Nat.lt_succ_self _

/-- It drains the list. -/
theorem Expired.drains {L' : List NodePtr} {fired : List (Entry H)}
    (hexpired : Expired z L now z' L' fired) (h : Rep z L) :
    Drains (key z) now.toNat ↑L ↑L' (fired.map Entry.node) := by
  have hsorted := h.sorted
  rw [hexpired.split] at hsorted
  refine ⟨?_, (List.pairwise_append.mp hsorted).1, ?_, hexpired.late⟩
  · rw [Multiset.coe_add, ← hexpired.split]
  · intro p hp
    obtain ⟨e, he, rfl⟩ := List.mem_map.mp hp
    exact hexpired.due e he

end MmorpgServer.SkipList
