import MmorpgServer.SkipList.Timer
import MmorpgServer.SkipList.Runs

/-!
# Which nodes are freed

`zslDelete` frees the node that it unlinks, `zslFree` frees the header and the nodes of the
list, and `zslDeleteHead`, which `expire_timer` calls for every timer that fires, frees
nothing. A list owns the nodes that are allocated as long as no timer fires; every timer that
does is lost.

## Main definitions

* `TimerOp`, `timerStep` — the functions of `skl-timer.c` as a machine
* `Owned` — the allocated nodes are the header and those of the lowest level
* `FreesAll` — `zslFree` leaves no node

## Main results

* `freeLoop_spec`, `Rep.freesAll_iff` — `zslFree` frees what the list owns
* `expireTimer_loses` — a timer that fires stays allocated and is in no list any more
* `owned_iff_quiet` — the runs in which nothing is lost
-/

namespace MmorpgServer.SkipList

open Chain Machine

variable {H : Type} {z z' : Zskiplist H} {L : List NodePtr} {p x zn : NodePtr} {now : UInt32}

/-! ### The machine of the timer -/

/-- A call of `skl-timer.c`, with the clock readings and the outcome of `zslRandomLevel`. -/
inductive TimerOp (H : Type) where
  | add (currentTime msec : UInt32) (func : H) (level : ℕ)
  | del (zn : NodePtr)
  | expire (currentTime : UInt32)

/-- One call; the handlers do not touch the list. -/
def timerStep (z : Zskiplist H) : TimerOp H → Option (Zskiplist H)
  | .add currentTime msec func level => (addTimer z currentTime msec func level).map Prod.fst
  | .del zn => delTimer z zn
  | .expire currentTime =>
    (expireTimer (fun _ _ z => some z) (z.length.toNat + 1) currentTime z).map Prod.fst

/-- The height is one that `zslRandomLevel` can return, and a deleted timer is listed. -/
def TimerAllowed (z : Zskiplist H) : TimerOp H → Prop
  | .add _ _ _ level => 1 ≤ level ∧ level ≤ zskiplistMaxlevel
  | .del zn => Listed z zn
  | .expire _ => True

/-- The allocated nodes are the header and the nodes of the lowest level. -/
def Owned (z : Zskiplist H) : Prop :=
  ∃ L, Run (forward z 0) z.header L ∧ ∀ p, z.node p ≠ none ↔ p ∈ z.header :: L

/-- `zslFree` returns and leaves no node. A node is read right before it is freed and addresses
are not used again, so that a second `free` of one would be a fault. -/
def FreesAll (z : Zskiplist H) : Prop := ∃ z', zslFree z = some z' ∧ ∀ p, z'.node p = none

/-- The call is no `expire_timer` that finds a timer due. -/
def Quiet (z : Zskiplist H) : TimerOp H → Prop
  | .expire currentTime => dueHead currentTime z = some none
  | _ => True

/-! ### `zslFree` -/

@[simp] theorem free_node_self (z : Zskiplist H) (x : NodePtr) : (free z x).node x = none :=
  Function.update_self _ _ _

theorem free_node_of_ne (h : p ≠ x) : (free z x).node p = z.node p :=
  Function.update_of_ne h _ _

theorem forward_free (h : p ≠ x) (i : ℕ) : forward (free z x) i p = forward z i p := by
  unfold forward
  rw [free_node_of_ne h]

/-- The walk frees the nodes of the path that it follows, and no other. -/
theorem freeLoop_spec {fuel : ℕ} {a : Option NodePtr} (hpath : Path (forward z 0) a L)
    (hnodup : L.Nodup) (hfuel : L.length ≤ fuel) :
    ∃ z', freeLoop fuel z a = some z' ∧ (∀ p ∈ L, z'.node p = none) ∧
      ∀ p ∉ L, z'.node p = z.node p := by
  induction L generalizing z a fuel with
  | nil =>
    obtain rfl : a = none := hpath
    exact ⟨z, by rw [freeLoop], fun p hp => absurd hp List.not_mem_nil, fun p _ => rfl⟩
  | cons x L ih =>
    obtain ⟨hxL, hnodupL⟩ := List.nodup_cons.mp hnodup
    obtain ⟨rfl, next, hnext, hrest⟩ := hpath
    obtain ⟨fuel, rfl⟩ : ∃ n, fuel = n + 1 :=
      Nat.exists_eq_succ_of_ne_zero (Nat.ne_of_gt (Nat.lt_of_lt_of_le (by simp) hfuel))
    -- the rest of the path does not meet the freed node
    have hpath' : Path (forward (free z x) 0) next L :=
      hrest.congr fun b hb => forward_free (ne_of_mem_of_not_mem hb hxL) 0
    obtain ⟨z', hloop, hfreed, hkept⟩ := ih hpath' hnodupL (by simpa using hfuel)
    refine ⟨z', by rw [freeLoop, hnext]; exact hloop, ?_, ?_⟩
    · rw [List.forall_mem_cons]
      refine ⟨?_, hfreed⟩
      rw [hkept x hxL, free_node_self]
    · intro p hp
      obtain ⟨hpx, hpL⟩ := not_or.mp (List.mem_cons.not.mp hp)
      rw [hkept p hpL, free_node_of_ne hpx]

/-- `zslFree` frees the header and the nodes of the list. -/
theorem Rep.zslFree_spec (h : Rep z L) :
    ∃ z', zslFree z = some z' ∧ (∀ p ∈ z.header :: L, z'.node p = none) ∧
      ∀ p ∉ z.header :: L, z'.node p = z.node p := by
  obtain ⟨hheader, hnodup⟩ := List.nodup_cons.mp h.nodup
  have hzero := h.chain 0 (by decide)
  rw [h.onLevel_zero fun _ hp => hp, run_iff_path] at hzero
  obtain ⟨a, ha, hpath⟩ := hzero
  have hpath' : Path (forward (SkipList.free z z.header) 0) a L :=
    hpath.congr fun b hb => forward_free (ne_of_mem_of_not_mem hb hheader) 0
  obtain ⟨z', hloop, hfreed, hkept⟩ := freeLoop_spec hpath' hnodup h.length_lt.le
  refine ⟨z', by rw [zslFree, ha]; exact hloop, ?_, ?_⟩
  · rw [List.forall_mem_cons]
    refine ⟨?_, hfreed⟩
    rw [hkept _ hheader, free_node_self]
  · intro p hp
    obtain ⟨hph, hpL⟩ := not_or.mp (List.mem_cons.not.mp hp)
    rw [hkept p hpL, free_node_of_ne hph]

theorem Rep.owned_iff (h : Rep z L) :
    Owned z ↔ ∀ p, z.node p ≠ none → p ∈ z.header :: L := by
  constructor
  · rintro ⟨L', hrun, howned⟩ p hp
    obtain rfl := h.unique hrun
    exact (howned p).mp hp
  · intro honly
    have hzero := h.chain 0 (by decide)
    rw [h.onLevel_zero fun _ hp => hp] at hzero
    refine ⟨L, hzero, fun p => ⟨honly p, fun hp => ?_⟩⟩
    rcases List.mem_cons.mp hp with rfl | hp
    · obtain ⟨n, hn⟩ := h.exists_header
      exact Option.ne_none_iff_exists'.mpr ⟨n, hn⟩
    · obtain ⟨n, hn⟩ := h.exists_node hp
      exact Option.ne_none_iff_exists'.mpr ⟨n, hn⟩

/-- `zslFree` leaves no node exactly when the list owns all of them. -/
theorem Rep.freesAll_iff (h : Rep z L) : FreesAll z ↔ Owned z := by
  obtain ⟨z', hfree, hfreed, hkept⟩ := h.zslFree_spec
  rw [h.owned_iff]
  constructor
  · rintro ⟨z₁, hfree₁, hnone⟩ p hp
    obtain rfl := Option.some.inj (hfree.symm.trans hfree₁)
    by_contra hout
    exact hp ((hkept p hout).symm.trans (hnone p))
  · intro honly
    refine ⟨z', hfree, fun p => ?_⟩
    by_cases hp : p ∈ z.header :: L
    · exact hfreed p hp
    · rw [hkept p hp]
      by_contra hne
      exact hp (honly p hne)

/-! ### The header stays -/

theorem foldlM_header {f : Zskiplist H → ℕ → Option (Zskiplist H)}
    (hf : ∀ z i z', f z i = some z' → z'.header = z.header) {levels : List ℕ}
    (hfold : levels.foldlM f z = some z') : z'.header = z.header := by
  induction levels generalizing z with
  | nil =>
    obtain rfl := Option.some.inj hfold
    rfl
  | cons i levels ih =>
    rw [List.foldlM_cons] at hfold
    obtain ⟨z₁, hone, hrest⟩ := Option.bind_eq_some_iff.mp hfold
    exact (ih hrest).trans (hf z i z₁ hone)

theorem setForward_header {i : ℕ} {f : Option NodePtr} (h : setForward z p i f = some z') :
    z'.header = z.header := by
  obtain ⟨n, -, hset⟩ := Option.bind_eq_some_iff.mp h
  split at hset
  · obtain rfl := Option.some.inj hset
    rfl
  · cases hset

theorem linkAt_header {update : Update} {i : ℕ} (h : linkAt x update z i = some z') :
    z'.header = z.header := by
  obtain ⟨u, -, h⟩ := Option.bind_eq_some_iff.mp h
  obtain ⟨f, -, h⟩ := Option.bind_eq_some_iff.mp h
  obtain ⟨z₁, hset, h⟩ := Option.bind_eq_some_iff.mp h
  exact (setForward_header h).trans (setForward_header hset)

theorem unlinkAt_header {u : NodePtr} {i : ℕ} (h : unlinkAt x u z i = some z') :
    z'.header = z.header := by
  obtain ⟨f, -, h⟩ := Option.bind_eq_some_iff.mp h
  split at h
  · obtain ⟨g, -, hset⟩ := Option.bind_eq_some_iff.mp h
    exact setForward_header hset
  · obtain rfl := Option.some.inj h
    rfl

theorem zslInsert_header {s : UInt64} {func : H} {level : ℕ}
    (h : zslInsert z s func level = some (z', x)) : z'.header = z.header := by
  obtain ⟨⟨last, update⟩, hsearch, h⟩ := Option.bind_eq_some_iff.mp h
  obtain ⟨z₁, hlink, h⟩ := Option.bind_eq_some_iff.mp h
  obtain ⟨rfl, -⟩ := Prod.mk.inj (Option.some.inj h)
  have hheader := foldlM_header (fun _ _ _ => linkAt_header) hlink
  exact hheader

theorem zslDeleteHead_header (h : zslDeleteHead z = some z') : z'.header = z.header := by
  obtain ⟨a, -, h⟩ := Option.bind_eq_some_iff.mp h
  cases a with
  | none =>
    obtain rfl := Option.some.inj h
    rfl
  | some x =>
    obtain ⟨z₁, hunlink, h⟩ := Option.bind_eq_some_iff.mp h
    obtain ⟨level, -, h⟩ := Option.bind_eq_some_iff.mp h
    obtain rfl := Option.some.inj h
    have hheader := foldlM_header (fun _ _ _ => unlinkAt_header) hunlink
    exact hheader

theorem expireTimer_header {fuel : ℕ} {fired : List (Entry H)}
    (h : expireTimer (fun _ _ z => some z) fuel now z = some (z', fired)) :
    z'.header = z.header := by
  unfold expireTimer at h
  induction fuel generalizing z fired with
  | zero => cases h
  | succ fuel ih =>
    obtain ⟨a, -, h⟩ := Option.bind_eq_some_iff.mp h
    cases a with
    | none =>
      obtain ⟨rfl, -⟩ := Prod.mk.inj (Option.some.inj h)
      rfl
    | some x =>
      obtain ⟨n, -, h⟩ := Option.bind_eq_some_iff.mp h
      obtain ⟨z₀, hhandler, h⟩ := Option.bind_eq_some_iff.mp h
      obtain rfl := Option.some.inj hhandler
      obtain ⟨z₁, hdelete, h⟩ := Option.bind_eq_some_iff.mp h
      obtain ⟨⟨z₂, rest⟩, hloop, h⟩ := Option.bind_eq_some_iff.mp h
      obtain ⟨rfl, -⟩ := Prod.mk.inj (Option.some.inj h)
      exact (ih hloop).trans (zslDeleteHead_header hdelete)

/-! ### What each call does to the allocated nodes -/

theorem node_ne_none_iff (h : (z'.node p).map shape = (z.node p).map shape) :
    z'.node p ≠ none ↔ z.node p ≠ none := by
  rw [ne_eq, ne_eq, ← Option.map_eq_none_iff (f := shape), h, Option.map_eq_none_iff]

/-- An insertion allocates one node and links it. -/
theorem addTimer_keeps (h : Rep z L) (howned : Owned z) {level : ℕ} (hlevel : 1 ≤ level)
    (hmax : level ≤ zskiplistMaxlevel) (currentTime msec : UInt32) (func : H) :
    ∃ z', addTimer z currentTime msec func level = some (z', z.fresh) ∧
      (∃ L', Rep z' L') ∧ Owned z' := by
  obtain ⟨z', A, B, hinsert, rfl, -, -, hrep, -, -, hrest⟩ :=
    zslInsert_spec h hlevel hmax (msec + currentTime).toUInt64 func
  refine ⟨z', hinsert, ⟨_, hrep⟩, ?_⟩
  rw [h.owned_iff] at howned
  rw [hrep.owned_iff, zslInsert_header hinsert]
  intro p hp
  by_cases hfresh : p = z.fresh
  · simp [hfresh]
  · have hold := howned p ((node_ne_none_iff (hrest p hfresh)).mp hp)
    simp only [List.mem_cons, List.mem_append] at hold ⊢
    tauto

/-- The deletion of a listed timer frees the node that it unlinks. -/
theorem delTimer_keeps (h : Rep z L) (howned : Owned z) (hlisted : Listed z zn) :
    ∃ z', delTimer z zn = some z' ∧ (∃ L', Rep z' L') ∧ Owned z' := by
  obtain ⟨L', hrun, hmem⟩ := hlisted
  obtain rfl := h.unique hrun
  obtain ⟨s, hs⟩ := h.exists_score hmem
  obtain ⟨A, x, B, rfl, hx, hA⟩ := h.exists_first hmem hs
  obtain ⟨z', hdelete, hrep, hheader, -, hfreed, hrest⟩ := zslDelete_first h hA hs hx
  refine ⟨z', hdelete, ⟨_, hrep⟩, ?_⟩
  rw [h.owned_iff] at howned
  rw [hrep.owned_iff, hheader]
  intro p hp
  have hpx : p ≠ x := by
    rintro rfl
    exact hp hfreed
  have hold := howned p ((node_ne_none_iff (hrest p hpx)).mp hp)
  simp only [List.mem_cons, List.mem_append] at hold ⊢
  tauto

/-- While no timer is due, `expire_timer` changes nothing. -/
theorem expireTimer_quiet (hquiet : dueHead now z = some none) (fuel : ℕ) :
    expireTimer (fun _ _ z => some z) (fuel + 1) now z = some (z, []) := by
  rw [expireTimer, expireLoop, hquiet]
  rfl

/-- A timer that fires is in no list any more, and its node stays allocated. -/
theorem expireTimer_loses (h : Rep z L) (hdue : dueHead now z ≠ some none) :
    ∃ z' L' fired, expireTimer (fun _ _ z => some z) (z.length.toNat + 1) now z =
      some (z', fired) ∧ Rep z' L' ∧ ¬ Owned z' := by
  obtain ⟨z', L', fired, hexpire, hexpired⟩ := expireTimer_spec h now
  refine ⟨z', L', fired, hexpire, hexpired.rep, fun howned => ?_⟩
  rcases dueHead_cases h now with ⟨hnone, -⟩ | ⟨x, L, rfl, -, hkey⟩
  · exact hdue hnone
  obtain ⟨n, hn⟩ := h.exists_node (p := x) List.mem_cons_self
  rw [hexpired.rep.owned_iff, expireTimer_header hexpire] at howned
  have hmem : x ∈ z.header :: L' :=
    howned x ((node_ne_none_iff (hexpired.node x)).mpr (by rw [hn]; exact Option.some_ne_none n))
  -- the first node is neither the header nor one of those that are left, which are not due
  rcases List.mem_cons.mp hmem with rfl | hleft
  · exact (List.nodup_cons.mp h.nodup).1 List.mem_cons_self
  · exact absurd hkey (Nat.not_le.mpr (hexpired.late x hleft))

/-! ### Runs -/

theorem owned_initTimer (defaultHandler : H) : Owned (initTimer defaultHandler) := by
  have hrep : Rep (initTimer defaultHandler) [] := rep_zslCreate defaultHandler
  rw [hrep.owned_iff]
  intro p hp
  by_contra hne
  have hp0 : p ≠ 0 := fun heq => hne (heq ▸ List.mem_cons_self)
  have hnone : (zslCreate defaultHandler).node p = none := by
    unfold zslCreate
    dsimp only
    rw [Function.update_of_ne hp0]
  exact hp hnone

/-- A quiet call keeps what the list owns. -/
theorem timerStep_keeps (h : Rep z L) (howned : Owned z) {op : TimerOp H}
    (hallowed : TimerAllowed z op) (hquiet : Quiet z op) :
    ∃ z', timerStep z op = some z' ∧ (∃ L', Rep z' L') ∧ Owned z' := by
  cases op with
  | add currentTime msec func level =>
    obtain ⟨z', hadd, hkept⟩ := addTimer_keeps h howned hallowed.1 hallowed.2 currentTime msec func
    exact ⟨z', by rw [timerStep, hadd]; rfl, hkept⟩
  | del zn =>
    obtain ⟨z', hdelete, hkept⟩ := delTimer_keeps h howned hallowed
    exact ⟨z', hdelete, hkept⟩
  | expire now =>
    exact ⟨z, by rw [timerStep, expireTimer_quiet hquiet]; rfl, ⟨L, h⟩, howned⟩

/-- Between the calls of a run the allocated nodes are the header and the nodes of the list, so
that `zslFree` frees every one of them once, exactly in the runs in which no timer fires. -/
theorem owned_iff_quiet (defaultHandler : H) (ops : List (TimerOp H))
    (hallowed : Guarded timerStep TimerAllowed (initTimer defaultHandler) ops) :
    Throughout timerStep (fun z => Owned z ∧ FreesAll z) (initTimer defaultHandler) ops ↔
      Guarded timerStep Quiet (initTimer defaultHandler) ops := by
  have hrep : Rep (initTimer defaultHandler) [] := rep_zslCreate defaultHandler
  have howned := owned_initTimer defaultHandler
  refine throughout_iff_guarded (I := fun z => ∃ L, Rep z L) ?_ ?_ hallowed ⟨[], hrep⟩
    ⟨howned, hrep.freesAll_iff.mpr howned⟩
  · rintro z op hallowed hquiet ⟨L, hL⟩ ⟨howned, -⟩
    obtain ⟨z', hone, ⟨L', hL'⟩, howned'⟩ := timerStep_keeps hL howned hallowed hquiet
    exact ⟨z', hone, ⟨L', hL'⟩, howned', hL'.freesAll_iff.mpr howned'⟩
  · rintro z op z' - ⟨L, hL⟩ - hone ⟨howned', -⟩
    cases op with
    | add => trivial
    | del => trivial
    | expire now =>
      by_contra hdue
      obtain ⟨z₁, L₁, fired, hexpire, -, hlost⟩ := expireTimer_loses hL hdue
      rw [timerStep, hexpire] at hone
      obtain rfl := Option.some.inj hone
      exact hlost howned'

/-- Two timers, one of which is deleted; the poll finds the other one not yet due. -/
theorem owned_iff_quiet_two :
    Throughout timerStep (fun z => Owned z ∧ FreesAll z) (initTimer ())
        [.add 0 5 () 1, .add 0 9 () 2, .del 1, .expire 7] ↔
      Guarded timerStep Quiet (initTimer ()) [.add 0 5 () 1, .add 0 9 () 2, .del 1, .expire 7] :=
  owned_iff_quiet () _ <| .cons ⟨by decide, by decide⟩ rfl <| .cons ⟨by decide, by decide⟩ rfl <|
    .cons ⟨[1, 2], ⟨rfl, rfl, rfl⟩, by decide⟩ rfl ⟨trivial, fun _ _ => trivial⟩

/-- One timer that fires: its node stays allocated when the list is empty again, also after
`zslFree`. -/
theorem not_owned_one :
    ∃ z, exec timerStep (initTimer ()) [.add 0 5 () 1, .expire 5] = some z ∧
      zslMin z = some none ∧ ¬ Owned z ∧
      ∃ z', zslFree z = some z' ∧ (z'.node 1).isSome = true := by
  refine ⟨_, rfl, rfl, ?_, _, rfl, rfl⟩
  rintro ⟨L, hrun, howned⟩
  -- the list is empty, and node `1` is allocated
  have hempty : L.head? = none := (Option.some.inj hrun.head).symm
  obtain rfl := List.head?_eq_none_iff.mp hempty
  have hmem := (howned 1).mp (Option.some_ne_none _)
  exact absurd hmem (by decide)

end MmorpgServer.SkipList
