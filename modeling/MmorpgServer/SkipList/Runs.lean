import MmorpgServer.SkipList.Invariant
import MmorpgServer.Lib.Machine

/-!
# Runs of the skip list

## Main definitions

* `Leveled` — the representation invariant, in terms of the chains of the levels
* `HitsTarget` — a call of `zslDelete` unlinks and frees its argument and nothing else
* `FoundFirst` — the argument is the first listed node with its score

## Main results

* `leveled_exec` — the invariant holds after every run that deletes listed nodes only
* `hitsTarget_iff` — in every reachable state, exactly the first nodes of a score are hit
-/

namespace MmorpgServer.SkipList

open Chain Machine

variable {H : Type} {z z' : Zskiplist H} {L : List NodePtr} {p zn : NodePtr} {s : UInt64}

/-! ### The representation invariant -/

/-- `chain i` is the list of the nodes on level `i`. -/
structure Leveled (z : Zskiplist H) (chain : ℕ → List NodePtr) : Prop where
  run : ∀ i < zskiplistMaxlevel, Run (forward z i) z.header (chain i)
  sorted : (chain 0).Pairwise fun p q => key z p ≤ key z q
  nested : ∀ i, i + 1 < zskiplistMaxlevel → (chain (i + 1)).Sublist (chain i)
  exact : ∀ i < zskiplistMaxlevel, ∀ p, p ∈ chain i ↔ p ∈ chain 0 ∧ i < height z p
  empty : chain 0 = [] → z.level = 1
  highest : chain 0 ≠ [] →
    (∃ p ∈ chain 0, height z p = z.level) ∧ ∀ p ∈ chain 0, height z p ≤ z.level
  unused : ∀ i, z.level ≤ i → i < zskiplistMaxlevel → forward z i z.header = some none
  length : z.length = (chain 0).length
  print : ∃ scores, zslPrint z = some scores ∧ scores.map UInt64.toNat = (chain 0).map (key z)

/-- `zslPrint` follows no `NULL` as long as the chain is. -/
theorem printLoop_spec {x : NodePtr} (hrun : Run (forward z 0) x L)
    (hnode : ∀ p ∈ L, ∃ n, z.node p = some n) :
    ∃ f scores, forward z 0 x = some f ∧ printLoop z L.length f = some scores ∧
      scores.map UInt64.toNat = L.map (key z) := by
  induction L generalizing x with
  | nil => exact ⟨none, [], hrun, rfl, rfl⟩
  | cons p L ih =>
    obtain ⟨⟨n, hn⟩, hnode⟩ := List.forall_mem_cons.mp hnode
    have hs := score_of_node hn
    obtain ⟨f, scores, hforward, hprint, hscores⟩ := ih hrun.2 hnode
    refine ⟨some p, n.score :: scores, hrun.1, ?_, ?_⟩
    · simp [printLoop, hs, hforward, hprint]
    · rw [List.map_cons, List.map_cons, hscores, key_of_score hs]

theorem Rep.leveled (h : Rep z L) : Leveled z fun i => onLevel z i L := by
  have hzero : onLevel z 0 L = L := h.onLevel_zero fun _ hp => hp
  have hrun := h.chain 0 (by decide)
  rw [hzero] at hrun
  refine ⟨h.chain, ?_, fun i _ => ?_, fun i _ p => ?_, ?_, ?_, fun i hi hmax => ?_, ?_, ?_⟩
  · rw [hzero]
    exact h.sorted
  · apply List.monotone_filter_right L
    intro p hp
    simp only [decide_eq_true_eq] at hp ⊢
    omega
  · rw [hzero, mem_onLevel]
  · rw [hzero]
    rintro rfl
    exact h.tight.resolve_right fun ⟨p, hp, _⟩ => absurd hp List.not_mem_nil
  · rw [hzero]
    intro hne
    refine ⟨?_, fun p hp => (h.listed p hp).2⟩
    rcases h.tight with hone | htight
    · obtain ⟨p, hp⟩ := List.exists_mem_of_ne_nil L hne
      have := h.listed p hp
      exact ⟨p, hp, by omega⟩
    · exact htight
  · have hrun := h.chain i hmax
    rwa [h.onLevel_unused hi] at hrun
  · rw [hzero]
    exact h.length
  · obtain ⟨f, scores, hforward, hprint, hscores⟩ :=
      printLoop_spec hrun fun p hp => h.exists_node hp
    refine ⟨scores, ?_, by rw [hzero, hscores]⟩
    unfold zslPrint
    rw [hforward, h.length, Int.toNat_natCast]
    exact hprint

/-- The node is in the list. -/
def Listed (z : Zskiplist H) (zn : NodePtr) : Prop :=
  ∃ L, Run (forward z 0) z.header L ∧ zn ∈ L

/-- A node is created with a height that `zslRandomLevel` can return, and deleted only while
it is in the list. -/
def Allowed (z : Zskiplist H) : Act H → Prop
  | .insert _ _ level => 1 ≤ level ∧ level ≤ zskiplistMaxlevel
  | .deleteHead => True
  | .delete zn => Listed z zn

theorem Rep.unique (h : Rep z L) {L' : List NodePtr} (hrun : Run (forward z 0) z.header L') :
    L' = L := by
  have hzero := h.chain 0 (by decide)
  rw [h.onLevel_zero fun _ hp => hp] at hzero
  exact hrun.unique hzero

/-- The first node with a score that is in the list. -/
theorem Rep.exists_first (h : Rep z L) (hp : p ∈ L) (hs : score z p = some s) :
    ∃ A x B, L = A ++ x :: B ∧ score z x = some s ∧ ∀ q ∈ A, key z q ≠ s.toNat := by
  cases hfind : L.find? fun q => key z q = s.toNat with
  | none =>
    exact absurd (key_of_score hs) (by simpa using List.find?_eq_none.mp hfind p hp)
  | some x =>
    obtain ⟨hx, A, B, rfl, hA⟩ := List.find?_eq_some_iff_append.mp hfind
    refine ⟨A, x, B, rfl, ?_, fun q hq => by simpa using hA q hq⟩
    exact (h.key_eq_iff (List.mem_append_right A List.mem_cons_self)).mp (by simpa using hx)

/-- Every allowed step returns and keeps the representation. -/
theorem Rep.step (h : Rep z L) {a : Act H} (hallowed : Allowed z a) :
    ∃ z', step z a = some z' ∧ ∃ L', Rep z' L' := by
  cases a with
  | insert s func level =>
    obtain ⟨z', A, B, hinsert, -, -, -, hrep, -⟩ := zslInsert_spec h hallowed.1 hallowed.2 s func
    refine ⟨z', ?_, _, hrep⟩
    rw [SkipList.step, if_pos (show 1 ≤ level ∧ level ≤ _ from hallowed), hinsert]
    rfl
  | deleteHead =>
    obtain ⟨z', hdelete, hrep, -⟩ := zslDeleteHead_spec h
    exact ⟨z', hdelete, _, hrep⟩
  | delete zn =>
    obtain ⟨L', hrun, hmem⟩ := hallowed
    obtain rfl := h.unique hrun
    obtain ⟨s, hs⟩ := h.exists_score hmem
    obtain ⟨A, x, B, rfl, hx, hA⟩ := h.exists_first hmem hs
    obtain ⟨z', hdelete, hrep, -⟩ := zslDelete_first h hA hs hx
    exact ⟨z', hdelete, _, hrep⟩

/-- After every sequence of insertions, with any scores and heights, and of deletions of the
first node and of listed nodes: no operation faults and the representation invariant holds. -/
theorem leveled_exec (defaultHandler : H) (acts : List (Act H))
    (hallowed : Guarded step Allowed (zslCreate defaultHandler) acts) :
    ∃ z, exec step (zslCreate defaultHandler) acts = some z ∧ ∃ chain, Leveled z chain := by
  obtain ⟨z, hrun, L, hrep⟩ := exec_progress_of_guarded (I := fun z => ∃ L, Rep z L)
    (fun z a hallowed ⟨L, hrep⟩ => hrep.step hallowed) hallowed ⟨[], rep_zslCreate defaultHandler⟩
  exact ⟨z, hrun, _, hrep.leveled⟩

/-- Two insertions and the deletion of the first node. -/
theorem leveled_exec_three :
    ∃ z, exec step (zslCreate ()) [.insert 5 () 1, .insert 7 () 3, .deleteHead] = some z ∧
      ∃ chain, Leveled z chain :=
  leveled_exec () _ ⟨⟨by decide, by decide⟩, fun _ _ =>
    ⟨⟨by decide, by decide⟩, fun _ _ => ⟨trivial, fun _ _ => trivial⟩⟩⟩

/-! ### The target of a deletion -/

/-- `zslDelete` unlinks a listed node from every level, keeping the order of the others, and
frees it and no other node; for a node that is not listed it changes nothing. -/
def HitsTarget (z : Zskiplist H) (L : List NodePtr) (zn : NodePtr) : Prop :=
  ∃ z', zslDelete z zn = some z' ∧
    if zn ∈ L then
      (∀ i < zskiplistMaxlevel, ∀ l, Run (forward z i) z.header l →
        Run (forward z' i) z'.header (l.erase zn)) ∧
      z'.node zn = none ∧ ∀ p ≠ zn, (z'.node p).map shape = (z.node p).map shape
    else z' = z

/-- No node with the same score stands before a listed node. A node that is not listed can
still be read and no listed node has its score, or the list is empty. -/
def FoundFirst (z : Zskiplist H) (L : List NodePtr) (zn : NodePtr) : Prop :=
  if zn ∈ L then ∀ A B, L = A ++ zn :: B → ∀ p ∈ A, score z p ≠ score z zn
  else L = [] ∨ ∃ s, score z zn = some s ∧ ∀ p ∈ L, score z p ≠ some s

/-- In an empty list the search reads no score. -/
theorem search_empty (h : Rep z []) (s : Option UInt64) {k : ℕ} (hk : k ≤ zskiplistMaxlevel)
    (update : Update) : ∃ update', search z s k z.header update = some (z.header, update') := by
  induction k generalizing update with
  | zero => exact ⟨update, rfl⟩
  | succ i ih =>
    obtain ⟨fuel, hfuel⟩ := Nat.exists_eq_succ_of_ne_zero (Nat.ne_of_gt h.length_lt)
    have hnull : forward z i z.header = some none := h.chain i hk
    obtain ⟨update', hsearch⟩ := ih (by omega) (Function.update update i (some z.header))
    refine ⟨update', ?_⟩
    rw [search, hfuel, advance, hnull]
    exact hsearch

theorem zslDelete_empty (h : Rep z []) : zslDelete z zn = some z := by
  obtain ⟨update, hsearch⟩ := search_empty h (score z zn) h.level.2 fun _ => none
  have hnull : forward z 0 z.header = some none := h.chain 0 (by decide)
  unfold zslDelete
  simp only [hsearch, hnull, Option.bind_eq_bind, Option.bind_some]
  rfl

/-- With a node in the list, `zslDelete` reads the score of its argument. -/
theorem zslDelete_freed (h : Rep z L) (hne : L ≠ []) (hs : score z zn = none) :
    zslDelete z zn = none := by
  obtain ⟨i, hi⟩ : ∃ i, z.level = i + 1 := Nat.exists_eq_succ_of_ne_zero (Nat.ne_of_gt h.level.1)
  have hlevel := h.level.2
  -- the highest level in use has a node
  obtain ⟨p, l, hp⟩ : ∃ p l, onLevel z i L = p :: l := by
    apply List.exists_cons_of_ne_nil
    rcases h.tight with hone | ⟨p, hp, hheight⟩
    · rw [show i = 0 by omega, h.onLevel_zero fun _ hp => hp]
      exact hne
    · exact List.ne_nil_of_mem (mem_onLevel.mpr ⟨hp, by omega⟩)
  have hrun := h.chain i (by omega)
  rw [hp] at hrun
  obtain ⟨fuel, hfuel⟩ :=
    Nat.exists_eq_succ_of_ne_zero (Nat.ne_of_gt (Nat.zero_lt_of_lt h.length_lt))
  have hsearch : search z none (i + 1) z.header (fun _ => none) = none := by
    rw [search, hfuel, advance]
    simp [hrun.1]
  unfold zslDelete
  simp only [hs, hi, hsearch]
  rfl

/-- Every step keeps the representation, whatever node is deleted. -/
theorem Rep.any_step (h : Rep z L) {a : Act H} (hstep : SkipList.step z a = some z') :
    ∃ L', Rep z' L' := by
  cases a with
  | insert s func level =>
    rw [SkipList.step] at hstep
    split_ifs at hstep with hlevel
    obtain ⟨z₁, A, B, hinsert, -, -, -, hrep, -⟩ := zslInsert_spec h hlevel.1 hlevel.2 s func
    rw [hinsert] at hstep
    obtain rfl := Option.some.inj hstep
    exact ⟨_, hrep⟩
  | deleteHead =>
    obtain ⟨z₁, hdelete, hrep, -⟩ := zslDeleteHead_spec h
    obtain rfl := Option.some.inj (hdelete.symm.trans hstep)
    exact ⟨_, hrep⟩
  | delete zn =>
    change zslDelete z zn = some z' at hstep
    -- the steps that are not allowed: the node may be freed, unlisted or hidden by another one
    by_cases hempty : L = []
    · subst hempty
      obtain rfl := Option.some.inj ((zslDelete_empty h).symm.trans hstep)
      exact ⟨_, h⟩
    cases hs : score z zn with
    | none =>
      rw [zslDelete_freed h hempty hs] at hstep
      cases hstep
    | some s =>
      by_cases hfound : ∃ p ∈ L, score z p = some s
      · obtain ⟨p, hp, hps⟩ := hfound
        obtain ⟨A, x, B, rfl, hx, hA⟩ := h.exists_first hp hps
        obtain ⟨z₁, hdelete, hrep, -⟩ := zslDelete_first h hA hs hx
        obtain rfl := Option.some.inj (hdelete.symm.trans hstep)
        exact ⟨_, hrep⟩
      · have habsent : ∀ p ∈ L, key z p ≠ s.toNat := fun p hp hkey =>
          hfound ⟨p, hp, (h.key_eq_iff hp).mp hkey⟩
        obtain rfl := Option.some.inj ((zslDelete_absent h hs habsent).symm.trans hstep)
        exact ⟨_, h⟩

theorem rep_exec {defaultHandler : H} {acts : List (Act H)}
    (hrun : exec step (zslCreate defaultHandler) acts = some z) : ∃ L, Rep z L :=
  exec_invariant (I := fun z => ∃ L, Rep z L) (fun _ _ _ ⟨_, h⟩ hstep => h.any_step hstep)
    ⟨[], rep_zslCreate defaultHandler⟩ hrun

/-- The first node of its score is hit. -/
theorem hitsTarget_of_foundFirst (h : Rep z L) (hfirst : FoundFirst z L zn) :
    HitsTarget z L zn := by
  unfold FoundFirst at hfirst
  unfold HitsTarget
  by_cases hmem : zn ∈ L
  · rw [if_pos hmem] at hfirst
    simp only [if_pos hmem]
    obtain ⟨A, B, rfl⟩ := List.append_of_mem hmem
    obtain ⟨s, hs⟩ := h.exists_score hmem
    have hA : ∀ p ∈ A, key z p ≠ s.toNat := fun p hp hkey => by
      have hscore := (h.key_eq_iff (List.mem_append_left (zn :: B) hp)).mp hkey
      exact hfirst A B rfl p hp (hscore.trans hs.symm)
    obtain ⟨z', hdelete, hrep, hheader, -, hfree, hrest⟩ := zslDelete_first h hA hs hs
    refine ⟨z', hdelete, fun i hi l hl => ?_, hfree, hrest⟩
    have hnodup := (List.nodup_cons.mp h.nodup).2
    have hnew : zn ∉ A ++ B := (List.nodup_cons.mp (List.nodup_middle.mp hnodup)).1
    have herase : (A ++ zn :: B).erase zn = A ++ B := by
      rw [List.erase_append_right _ fun hzn => hnew (List.mem_append_left B hzn),
        List.erase_cons_head]
    have hsame : onLevel z' i (A ++ B) = onLevel z i (A ++ B) := onLevel_congr fun p hp =>
      height_congr (hrest p fun heq => hnew (heq ▸ hp))
    rw [hl.unique (h.chain i hi), erase_onLevel hnodup, herase, ← hsame]
    exact hrep.chain i hi
  · rw [if_neg hmem] at hfirst
    refine ⟨z, ?_, by rw [if_neg hmem]⟩
    rcases hfirst with rfl | ⟨s, hs, habsent⟩
    · exact zslDelete_empty h
    · exact zslDelete_absent h hs fun p hp hkey => habsent p hp ((h.key_eq_iff hp).mp hkey)

/-- A node behind another one with its score is missed, and so is a node that is not listed
when a listed node has its score. -/
theorem not_hitsTarget (h : Rep z L) (hs : score z zn = some s) {A B : List NodePtr} {x : NodePtr}
    (hL : L = A ++ x :: B) (hne : x ≠ zn) (hx : score z x = some s)
    (hA : ∀ q ∈ A, key z q ≠ s.toNat) : ¬ HitsTarget z L zn := by
  subst hL
  rintro ⟨z', hdelete, hhit⟩
  obtain ⟨z₁, hdelete₁, -, -, -, hfree, hrest⟩ := zslDelete_first h hA hs hx
  obtain rfl := Option.some.inj (hdelete.symm.trans hdelete₁)
  obtain ⟨n, hn⟩ : ∃ n, z.node x = some n := h.exists_node (by simp)
  obtain ⟨m, hm, -⟩ := Option.map_eq_some_iff.mp (show (z.node zn).map (·.score) = some s from hs)
  split_ifs at hhit with hmem
  · have hkeep := hrest zn hne.symm
    rw [hhit.2.1, hm] at hkeep
    cases hkeep
  · rw [hhit, hn] at hfree
    cases hfree

/-- In every reachable list, `zslDelete` hits its target exactly when the target is the first
listed node with its score; and for a node that is not listed it changes nothing exactly when
the node was not freed and no listed node has its score, or the list is empty. -/
theorem hitsTarget_iff {defaultHandler : H} {acts : List (Act H)} {z : Zskiplist H}
    (hrun : exec step (zslCreate defaultHandler) acts = some z) {L : List NodePtr}
    (hL : Run (forward z 0) z.header L) (zn : NodePtr) :
    HitsTarget z L zn ↔ FoundFirst z L zn := by
  obtain ⟨L', hrep⟩ := rep_exec hrun
  obtain rfl := hrep.unique hL
  refine ⟨fun hhit => ?_, hitsTarget_of_foundFirst hrep⟩
  unfold FoundFirst
  split_ifs with hmem
  · intro A B hsplit p hp hscore
    obtain ⟨s, hs⟩ := hrep.exists_score hmem
    have hpL : p ∈ L := hsplit ▸ List.mem_append_left _ hp
    obtain ⟨A', x, B', hsplit', hx, hA'⟩ := hrep.exists_first hpL (hscore.trans hs)
    refine not_hitsTarget hrep hs hsplit' ?_ hx hA' hhit
    rintro rfl
    -- the target would have to stand in two places
    have hnodup := (List.nodup_cons.mp hrep.nodup).2
    rw [hsplit] at hnodup
    have hnew := (List.nodup_cons.mp (List.nodup_middle.mp hnodup)).1
    obtain ⟨rfl, -⟩ := (List.append_cons_inj_of_notMem
      (fun hin => hnew (List.mem_append_left B hin))
      (fun hin => hnew (List.mem_append_right A hin))).mp (hsplit.symm.trans hsplit')
    exact hA' p hp (key_of_score (hscore.trans hs))
  · by_cases hempty : L = []
    · exact Or.inl hempty
    right
    cases hs : score z zn with
    | none =>
      obtain ⟨z', hdelete, -⟩ := hhit
      rw [zslDelete_freed hrep hempty hs] at hdelete
      cases hdelete
    | some s =>
      refine ⟨s, rfl, fun p hp hps => ?_⟩
      obtain ⟨A, x, B, hsplit, hx, hA⟩ := hrep.exists_first hp hps
      refine not_hitsTarget hrep hs hsplit ?_ hx hA hhit
      rintro rfl
      exact hmem (hsplit ▸ by simp)

/-- Four nodes, two of them with the same score: the one that was inserted later is listed first,
and is hit. -/
theorem hitsTarget_iff_tie :
    ∃ z, exec step (zslCreate ()) [.insert 7 () 1, .insert 5 () 2, .insert 5 () 1, .insert 9 () 3] =
        some z ∧ Run (forward z 0) z.header [3, 2, 1, 4] ∧
      HitsTarget z [3, 2, 1, 4] 3 ∧ ¬ HitsTarget z [3, 2, 1, 4] 2 := by
  obtain ⟨z, hrun, hL, hscore⟩ : ∃ z, exec step (zslCreate ())
      [.insert 7 () 1, .insert 5 () 2, .insert 5 () 1, .insert 9 () 3] = some z ∧
      Run (forward z 0) z.header [3, 2, 1, 4] ∧ score z 3 = score z 2 :=
    ⟨_, rfl, ⟨rfl, rfl, rfl, rfl, rfl⟩, rfl⟩
  refine ⟨z, hrun, hL, (hitsTarget_iff hrun hL 3).mpr ?_, fun hhit => ?_⟩
  · rintro (_ | ⟨x, A⟩) B hsplit
    · exact fun p hp => absurd hp List.not_mem_nil
    · -- the node is listed once
      have hnodup : [3, 2, 1, 4].Nodup := by decide
      rw [hsplit] at hnodup
      obtain ⟨rfl, -⟩ := List.cons.inj hsplit
      exact absurd (List.mem_append_right A List.mem_cons_self) (List.nodup_cons.mp hnodup).1
  · have hfirst := (hitsTarget_iff hrun hL 2).mp hhit
    exact hfirst [3] [1, 4] rfl 3 List.mem_cons_self hscore

/-- Two timers with the same score: the second one is put before the first, and to delete the
first one deletes the second. -/
theorem not_hitsTarget_tie :
    ∃ z, exec step (zslCreate ()) [.insert 5 () 1, .insert 5 () 1] = some z ∧
      Run (forward z 0) z.header [2, 1] ∧ ¬ HitsTarget z [2, 1] 1 := by
  obtain ⟨z, hrun, hL, hfirst, hsecond⟩ : ∃ z,
      exec step (zslCreate ()) [.insert 5 () 1, .insert 5 () 1] = some z ∧
        Run (forward z 0) z.header [2, 1] ∧ score z 1 = some 5 ∧ score z 2 = some 5 :=
    ⟨_, rfl, ⟨rfl, rfl, rfl⟩, rfl, rfl⟩
  refine ⟨z, hrun, hL, ?_⟩
  obtain ⟨L, hrep⟩ := rep_exec hrun
  obtain rfl := hrep.unique hL
  exact not_hitsTarget hrep hfirst (List.nil_append _).symm (by decide) hsecond
    fun q hq => absurd hq List.not_mem_nil

end MmorpgServer.SkipList
