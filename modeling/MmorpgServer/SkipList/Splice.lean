import MmorpgServer.SkipList.Model
import MmorpgServer.Lib.Chain

/-!
# Splicing the levels of a skip list

Each level of the list is a chain behind the header. A write to one `forward` pointer of one
level leaves all other levels alone, so the loops over the levels splice one chain per round.

## Main definitions

* `SameShape` — nothing but `forward` pointers changed
* `Spliced` — the search stopped on this level right before the place of a node

## Main results

* `linkAt_spec`, `link_levels` — linking a node into its levels
* `unlinkAt_spec`, `unlink_levels` — unlinking a node from every level
-/

namespace MmorpgServer.SkipList

open Chain

variable {H : Type} {z z' z'' : Zskiplist H} {p q u x : NodePtr} {i j : ℕ}
  {l l₁ l₂ : List NodePtr} {n : ZskiplistNode H}

/-- What a node carries but its `forward` pointers. -/
def shape (n : ZskiplistNode H) : UInt64 × H × ℕ := (n.score, n.handler, n.level.length)

/-- How many levels the node was created with, `0` where there is no node. -/
def height (z : Zskiplist H) (p : NodePtr) : ℕ := ((z.node p).map (·.level.length)).getD 0

/-- Nothing but `forward` pointers changed. -/
structure SameShape (z z' : Zskiplist H) : Prop where
  header : z'.header = z.header
  length : z'.length = z.length
  level : z'.level = z.level
  fresh : z'.fresh = z.fresh
  node : ∀ p, (z'.node p).map shape = (z.node p).map shape

theorem SameShape.refl : SameShape z z := ⟨rfl, rfl, rfl, rfl, fun _ => rfl⟩

theorem SameShape.trans (h : SameShape z z') (h' : SameShape z' z'') : SameShape z z'' where
  header := h'.header.trans h.header
  length := h'.length.trans h.length
  level := h'.level.trans h.level
  fresh := h'.fresh.trans h.fresh
  node p := (h'.node p).trans (h.node p)

/-- Heights and scores are part of the shape. -/
theorem height_congr (h : (z'.node p).map shape = (z.node p).map shape) :
    height z' p = height z p := by
  have hmap := congrArg (Option.map fun s : UInt64 × H × ℕ => s.2.2) h
  rw [Option.map_map, Option.map_map] at hmap
  exact congrArg (Option.getD · 0) hmap

theorem score_congr (h : (z'.node p).map shape = (z.node p).map shape) :
    score z' p = score z p := by
  have hmap := congrArg (Option.map fun s : UInt64 × H × ℕ => s.1) h
  rwa [Option.map_map, Option.map_map] at hmap

/-- A node that keeps its shape was there before. -/
theorem exists_of_shape (h : (z'.node p).map shape = (z.node p).map shape)
    (hn : z'.node p = some n) : ∃ n', z.node p = some n' ∧ shape n' = shape n := by
  rw [hn] at h
  exact Option.map_eq_some_iff.mp h.symm

theorem height_of_node (h : z.node p = some n) : height z p = n.level.length := by
  unfold height
  rw [h]
  rfl

theorem exists_node_of_lt_height (h : i < height z p) :
    ∃ n, z.node p = some n ∧ i < n.level.length := by
  unfold height at h
  cases hn : z.node p with
  | none => simp [hn] at h
  | some n => exact ⟨n, rfl, by simpa [hn] using h⟩

/-- A pointer can be read exactly below the height. -/
theorem exists_forward (h : i < height z p) : ∃ f, forward z i p = some f := by
  obtain ⟨n, hn, hi⟩ := exists_node_of_lt_height h
  refine ⟨n.level[i], ?_⟩
  unfold forward
  rw [hn, Option.bind_some, List.getElem?_eq_getElem hi]

theorem lt_height_of_forward {f : Option NodePtr} (h : forward z i p = some f) :
    i < height z p := by
  obtain ⟨n, hn, hi⟩ := Option.bind_eq_some_iff.mp h
  rw [height_of_node hn]
  exact (List.getElem?_eq_some_iff.mp hi).1

/-! ### One write -/

theorem setForward_spec (hi : i < height z p) (f : Option NodePtr) :
    ∃ z', setForward z p i f = some z' ∧ SameShape z z' ∧ forward z' i p = some f ∧
      (∀ q ≠ p, forward z' i q = forward z i q) ∧ ∀ j ≠ i, forward z' j = forward z j := by
  obtain ⟨n, hn, hi⟩ := exists_node_of_lt_height hi
  let n' : ZskiplistNode H := { n with level := n.level.set i f }
  let z' : Zskiplist H := { z with node := Function.update z.node p (some n') }
  have hself : z'.node p = some n' := Function.update_self _ _ _
  have hother : ∀ q ≠ p, z'.node q = z.node q := fun q hq => Function.update_of_ne hq _ _
  refine ⟨z', ?_, ⟨rfl, rfl, rfl, rfl, fun q => ?_⟩, ?_, fun q hq => ?_, fun j hj => ?_⟩
  · unfold setForward
    rw [hn, Option.bind_some, if_pos hi]
  · by_cases hq : q = p
    · subst hq
      rw [hself, hn]
      simp [n', shape]
    · rw [hother q hq]
  · unfold forward
    rw [hself, Option.bind_some, List.getElem?_set_self hi]
  · unfold forward
    rw [hother q hq]
  · funext q
    unfold forward
    by_cases hq : q = p
    · subst hq
      rw [hself, hn, Option.bind_some, Option.bind_some]
      exact List.getElem?_set_ne hj.symm
    · rw [hother q hq]

/-! ### Loops over levels -/

/-- A loop over distinct levels, of which each round writes to its own level only. What a round
needs is seen from its level and the shape of the nodes. -/
theorem each_level {f : Zskiplist H → ℕ → Option (Zskiplist H)}
    {P : Zskiplist H → ℕ → Prop} {Q : (NodePtr → Option (Option NodePtr)) → ℕ → Prop}
    {levels : List ℕ} (hlevels : levels.Nodup)
    (hkeep : ∀ z z' i, SameShape z z' → forward z' i = forward z i → P z i → P z' i)
    (hone : ∀ z, ∀ i ∈ levels, P z i → ∃ z', f z i = some z' ∧ SameShape z z' ∧
      Q (forward z' i) i ∧ ∀ j ≠ i, forward z' j = forward z j)
    (h : ∀ i ∈ levels, P z i) :
    ∃ z', levels.foldlM f z = some z' ∧ SameShape z z' ∧
      (∀ i ∈ levels, Q (forward z' i) i) ∧ ∀ i ∉ levels, forward z' i = forward z i := by
  induction levels generalizing z with
  | nil => exact ⟨z, rfl, .refl, fun i hi => absurd hi List.not_mem_nil, fun _ _ => rfl⟩
  | cons i levels ih =>
    obtain ⟨hnew, hlevels⟩ := List.nodup_cons.mp hlevels
    obtain ⟨hpre, hrest⟩ := List.forall_mem_cons.mp h
    obtain ⟨z₁, hround, hshape₁, hpost₁, hlevel₁⟩ := hone z i List.mem_cons_self hpre
    -- the other rounds write to other levels, which this one leaves alone
    have hne : ∀ j ∈ levels, j ≠ i := fun j hj heq => hnew (heq ▸ hj)
    obtain ⟨z₂, hloop, hshape₂, hpost, hlevel₂⟩ :=
      ih hlevels (fun z j hj => hone z j (List.mem_cons_of_mem i hj)) fun j hj =>
        hkeep z z₁ j hshape₁ (hlevel₁ j (hne j hj)) (hrest j hj)
    refine ⟨z₂, ?_, hshape₁.trans hshape₂, ?_, fun j hj => ?_⟩
    · rw [List.foldlM_cons, hround]
      exact hloop
    · refine List.forall_mem_cons.mpr ⟨?_, hpost⟩
      rwa [hlevel₂ i hnew]
    · obtain ⟨hji, hj⟩ := List.ne_and_not_mem_of_not_mem_cons hj
      exact (hlevel₂ j hj).trans (hlevel₁ j hji)

/-! ### Linking -/

/-- One round of the loop that links a node. -/
theorem linkAt_spec {update : Update} (hrun : Run (forward z i) p (l₁ ++ l₂))
    (hnodup : (p :: (l₁ ++ l₂)).Nodup) (hx : x ∉ p :: (l₁ ++ l₂)) (hheight : i < height z x)
    (hupdate : update i = some (l₁.getLastD p)) :
    ∃ z', linkAt x update z i = some z' ∧ SameShape z z' ∧
      Run (forward z' i) p (l₁ ++ x :: l₂) ∧ ∀ j ≠ i, forward z' j = forward z j := by
  have hlast := hrun.next_last
  -- the two writes go to different nodes
  have hne : l₁.getLastD p ≠ x := by
    rintro rfl
    apply hx
    rw [← List.cons_append]
    exact List.mem_append_left l₂ getLastD_mem
  obtain ⟨z₁, hset₁, hshape₁, hx₁, hother₁, hlevel₁⟩ := setForward_spec hheight l₂.head?
  have hheight₁ : i < height z₁ (l₁.getLastD p) := by
    rw [height_congr (hshape₁.node _)]
    exact lt_height_of_forward hlast
  obtain ⟨z₂, hset₂, hshape₂, hu₂, hother₂, hlevel₂⟩ := setForward_spec hheight₁ (some x)
  refine ⟨z₂, ?_, hshape₁.trans hshape₂, ?_, fun j hj => (hlevel₂ j hj).trans (hlevel₁ j hj)⟩
  · simp only [linkAt, hupdate, hlast, hset₁, hset₂, Option.bind_eq_bind, Option.bind_some]
  · apply hrun.insert hnodup ((hother₂ x hne.symm).trans hx₁) hu₂
    intro b hb hb'
    exact (hother₂ b hb').trans (hother₁ b fun heq => hx (heq ▸ hb))

/-- The loop that links a node into its levels, `before i` and `behind i` being the parts of
level `i` around it. -/
theorem link_levels {update : Update} {before behind : ℕ → List NodePtr} {levels : List ℕ}
    (hlevels : levels.Nodup)
    (h : ∀ i ∈ levels, Run (forward z i) p (before i ++ behind i) ∧
      (p :: (before i ++ behind i)).Nodup ∧ x ∉ p :: (before i ++ behind i) ∧
      i < height z x ∧ update i = some ((before i).getLastD p)) :
    ∃ z', levels.foldlM (linkAt x update) z = some z' ∧ SameShape z z' ∧
      (∀ i ∈ levels, Run (forward z' i) p (before i ++ x :: behind i)) ∧
      ∀ i ∉ levels, forward z' i = forward z i := by
  refine each_level (P := fun z i => Run (forward z i) p (before i ++ behind i) ∧
      (p :: (before i ++ behind i)).Nodup ∧ x ∉ p :: (before i ++ behind i) ∧
      i < height z x ∧ update i = some ((before i).getLastD p))
    (Q := fun next i => Run next p (before i ++ x :: behind i)) hlevels ?_ ?_ h
  · rintro z z' i hshape hlevel ⟨hrun, hnodup, hx, hheight, hupdate⟩
    refine ⟨?_, hnodup, hx, ?_, hupdate⟩
    · rwa [hlevel]
    · rwa [height_congr (hshape.node x)]
  · rintro z i - ⟨hrun, hnodup, hx, hheight, hupdate⟩
    exact linkAt_spec hrun hnodup hx hheight hupdate

/-! ### Unlinking -/

/-- On this level `u` is the last node before the place of `x`, which is or is not there. -/
def Spliced (p x u : NodePtr) (l : List NodePtr) : Prop :=
  ∃ l₁ l₂, l = l₁ ++ l₂ ∧ u = l₁.getLastD p ∧ x ∉ l₁ ∧ (x ∈ l₂ → l₂.head? = some x)

/-- One round of the loops that unlink a node. -/
theorem unlinkAt_spec (hrun : Run (forward z i) p l) (hnodup : (p :: l).Nodup)
    (hsplice : Spliced p x u l) :
    ∃ z', unlinkAt x u z i = some z' ∧ SameShape z z' ∧ Run (forward z' i) p (l.erase x) ∧
      ∀ j ≠ i, forward z' j = forward z j := by
  obtain ⟨l₁, l₂, rfl, rfl, hbefore, hhead⟩ := hsplice
  have hlast := hrun.next_last
  unfold unlinkAt
  rw [hlast]
  by_cases hx : x ∈ l₂
  · -- if `x` is linked into this level at all, it follows `u`
    obtain ⟨l₂, rfl⟩ : ∃ l, l₂ = x :: l := List.head?_eq_some_iff.mp (hhead hx)
    have hxnext : forward z i x = some l₂.head? := hrun.drop.2.head
    obtain ⟨z', hset, hshape, hu, hother, hlevel⟩ :=
      setForward_spec (lt_height_of_forward hlast) l₂.head?
    refine ⟨z', ?_, hshape, ?_, hlevel⟩
    · simp only [List.head?_cons, if_pos, hxnext, hset, Option.bind_eq_bind, Option.bind_some]
    · rw [List.erase_append_right _ hbefore, List.erase_cons_head]
      exact hrun.erase hnodup hu fun b _ hb => hother b hb
  · have hne : l₂.head? ≠ some x := fun heq => hx (List.mem_of_head? heq)
    refine ⟨z, by simp [hne], .refl, ?_, fun _ _ => rfl⟩
    rw [List.erase_of_not_mem fun hmem => (List.mem_append.mp hmem).elim hbefore hx]
    exact hrun

/-- The loops that unlink a node, whatever their order. -/
theorem unlink_levels (us : ℕ → NodePtr) {f : Zskiplist H → ℕ → Option (Zskiplist H)}
    (chain : ℕ → List NodePtr) {levels : List ℕ} (hlevels : levels.Nodup)
    (hf : ∀ z, ∀ i ∈ levels, f z i = unlinkAt x (us i) z i)
    (h : ∀ i ∈ levels, Run (forward z i) p (chain i) ∧ (p :: chain i).Nodup ∧
      Spliced p x (us i) (chain i)) :
    ∃ z', levels.foldlM f z = some z' ∧ SameShape z z' ∧
      (∀ i ∈ levels, Run (forward z' i) p ((chain i).erase x)) ∧
      ∀ i ∉ levels, forward z' i = forward z i := by
  refine each_level (P := fun z i => Run (forward z i) p (chain i) ∧ (p :: chain i).Nodup ∧
      Spliced p x (us i) (chain i))
    (Q := fun next i => Run next p ((chain i).erase x)) hlevels ?_ ?_ h
  · rintro z z' i - hlevel ⟨hrun, hnodup, hsplice⟩
    exact ⟨by rwa [hlevel], hnodup, hsplice⟩
  · rintro z i hi ⟨hrun, hnodup, hsplice⟩
    rw [hf z i hi]
    exact unlinkAt_spec hrun hnodup hsplice

end MmorpgServer.SkipList
