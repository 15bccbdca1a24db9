import MmorpgServer.SkipList.Splice
import Mathlib.Data.List.Nodup
import Mathlib.Data.List.Perm.Subperm
import Mathlib.Data.List.TakeWhile

/-!
# The skip list represents a sorted list of nodes

`Rep z L` says that the nodes of the list are `L`: level `i` is the chain of those nodes of
`L` whose height is more than `i`. A search stops, on every level, between the nodes with a
smaller score and the others, so that an insertion and a removal splice every level at the
same place of `L`.

## Main definitions

* `Rep` — the representation
* `key` — the score of a node

## Main results

* `search_spec` — where the search stops
* `zslInsert_spec`, `zslDeleteHead_spec`, `zslDelete_spec` — what each operation does to `L`
-/

namespace MmorpgServer.SkipList

open Chain

variable {H : Type} {z z₁ z' : Zskiplist H} {L A B : List NodePtr} {p q x zn : NodePtr}
  {i k : ℕ} {s : UInt64} {n : ZskiplistNode H}

/-- The score of a node as a number. -/
def key (z : Zskiplist H) (p : NodePtr) : ℕ := ((score z p).map UInt64.toNat).getD 0

theorem key_of_score (h : score z p = some s) : key z p = s.toNat := by
  unfold key
  rw [h]
  rfl

theorem score_of_node (h : z.node p = some n) : score z p = some n.score := by
  unfold score
  rw [h]
  rfl

theorem key_congr (h : (z'.node p).map shape = (z.node p).map shape) : key z' p = key z p := by
  unfold key
  rw [score_congr h]

/-- The nodes of the list that are linked into level `i`. -/
def onLevel (z : Zskiplist H) (i : ℕ) (L : List NodePtr) : List NodePtr :=
  L.filter fun p => i < height z p

theorem mem_onLevel : p ∈ onLevel z i L ↔ p ∈ L ∧ i < height z p := by
  simp [onLevel]

theorem onLevel_append : onLevel z i (A ++ B) = onLevel z i A ++ onLevel z i B :=
  List.filter_append ..

theorem onLevel_congr (h : ∀ p ∈ L, height z' p = height z p) :
    onLevel z' i L = onLevel z i L :=
  List.filter_congr fun p hp => by rw [h p hp]

/-- The first node of a list is first on each of its levels. -/
theorem head?_onLevel_cons (h : i < height z p) : (onLevel z i (p :: L)).head? = some p := by
  unfold onLevel
  rw [List.filter_cons_of_pos (by simpa using h)]
  rfl

theorem erase_onLevel (h : L.Nodup) : (onLevel z i L).erase x = onLevel z i (L.erase x) := by
  unfold onLevel
  rw [(h.filter _).erase_eq_filter, h.erase_eq_filter, List.filter_comm]

/-- The list holds the nodes `L`, in this order. -/
structure Rep (z : Zskiplist H) (L : List NodePtr) : Prop where
  header : height z z.header = zskiplistMaxlevel
  listed : ∀ p ∈ L, 1 ≤ height z p ∧ height z p ≤ z.level
  nodup : (z.header :: L).Nodup
  sorted : L.Pairwise fun p q => key z p ≤ key z q
  chain : ∀ i < zskiplistMaxlevel, Run (forward z i) z.header (onLevel z i L)
  level : 1 ≤ z.level ∧ z.level ≤ zskiplistMaxlevel
  tight : z.level = 1 ∨ ∃ p ∈ L, height z p = z.level
  length : z.length = L.length
  known : ∀ p n, z.node p = some n → p < z.fresh

theorem rep_zslCreate (defaultHandler : H) : Rep (zslCreate defaultHandler) [] where
  header := rfl
  listed _ h := absurd h List.not_mem_nil
  nodup := List.nodup_singleton _
  sorted := List.Pairwise.nil
  chain i hi := by
    change forward (zslCreate defaultHandler) i 0 = some none
    unfold forward zslCreate
    dsimp only
    rw [Function.update_self, Option.bind_some, List.getElem?_replicate, if_pos hi]
  level := ⟨le_rfl, show 1 ≤ 32 by omega⟩
  tight := Or.inl rfl
  length := rfl
  known p n h := by
    by_cases hp : p = 0
    · rw [hp]
      exact Nat.one_pos
    · unfold zslCreate at h
      dsimp only at h
      rw [Function.update_of_ne hp] at h
      cases h

theorem Rep.exists_node (h : Rep z L) (hp : p ∈ L) : ∃ n, z.node p = some n := by
  obtain ⟨n, hn, -⟩ := exists_node_of_lt_height (h.listed p hp).1
  exact ⟨n, hn⟩

theorem Rep.exists_score (h : Rep z L) (hp : p ∈ L) : ∃ s, score z p = some s := by
  obtain ⟨n, hn⟩ := h.exists_node hp
  exact ⟨n.score, score_of_node hn⟩

/-- The keys of listed nodes are their scores. -/
theorem Rep.key_eq_iff (h : Rep z L) (hp : p ∈ L) : key z p = s.toNat ↔ score z p = some s := by
  obtain ⟨t, ht⟩ := h.exists_score hp
  rw [key_of_score ht, ht, UInt64.toNat_inj, Option.some.injEq]

theorem Rep.exists_header (h : Rep z L) : ∃ n, z.node z.header = some n := by
  obtain ⟨n, hn, -⟩ := exists_node_of_lt_height (i := 0) (z := z) (p := z.header)
    (by rw [h.header]; decide)
  exact ⟨n, hn⟩

/-- The address that `malloc` returns next is that of no node of the list. -/
theorem Rep.ne_fresh (h : Rep z L) (hp : p ∈ z.header :: L) : p ≠ z.fresh := by
  rcases List.mem_cons.mp hp with rfl | hp
  · obtain ⟨n, hn⟩ := h.exists_header
    exact (h.known _ n hn).ne
  · obtain ⟨n, hn⟩ := h.exists_node hp
    exact (h.known p n hn).ne

theorem Rep.onLevel_zero (h : Rep z L) (hA : ∀ p ∈ A, p ∈ L) : onLevel z 0 A = A :=
  List.filter_eq_self.mpr fun p hp => decide_eq_true (h.listed p (hA p hp)).1

theorem Rep.zslMin_eq (h : Rep z L) : zslMin z = some L.head? := by
  have hzero := h.chain 0 (by decide)
  rw [h.onLevel_zero fun _ hp => hp] at hzero
  exact hzero.head

/-- A level that is not in use has no nodes. -/
theorem Rep.onLevel_unused (h : Rep z L) (hi : z.level ≤ i) : onLevel z i L = [] := by
  apply List.filter_eq_nil_iff.mpr
  intro p hp
  have hheight := (h.listed p hp).2
  simp only [decide_eq_true_eq]
  omega

/-- There are fewer nodes in the list than were ever allocated. -/
theorem Rep.length_lt (h : Rep z L) : L.length < z.fresh := by
  have hsub : z.header :: L ⊆ List.range z.fresh := by
    intro p hp
    rw [List.mem_range]
    rcases List.mem_cons.mp hp with rfl | hp
    · obtain ⟨n, hn⟩ := h.exists_header
      exact h.known _ n hn
    · obtain ⟨n, hn⟩ := h.exists_node hp
      exact h.known _ n hn
  have hle := (h.nodup.subperm hsub).length_le
  rw [List.length_range, List.length_cons] at hle
  omega

/-! ### The search -/

/-- The inner loop of the search goes on over the nodes with a smaller score. -/
theorem advance_spec {l₁ l₂ : List NodePtr} {fuel : ℕ} (hrun : Run (forward z i) x (l₁ ++ l₂))
    (hnode : ∀ p ∈ l₁ ++ l₂, ∃ n, z.node p = some n) (hlt : ∀ p ∈ l₁, key z p < s.toNat)
    (hge : ∀ p ∈ l₂, s.toNat ≤ key z p) (hfuel : l₁.length < fuel) :
    advance z (some s) i fuel x = some (l₁.getLastD x) := by
  induction l₁ generalizing x fuel with
  | nil =>
    obtain ⟨fuel, rfl⟩ : ∃ f, fuel = f + 1 := Nat.exists_eq_succ_of_ne_zero (by omega)
    -- the next node, if there is one, has a score that is not smaller
    have hhead := hrun.head
    rw [advance]
    cases l₂ with
    | nil => simp only [hhead, List.nil_append, List.head?_nil]; rfl
    | cons q l₂ =>
      obtain ⟨n, hn⟩ := hnode q List.mem_cons_self
      have hs := score_of_node hn
      have hle := hge q List.mem_cons_self
      rw [key_of_score hs] at hle
      have hnot : ¬ n.score < s := by
        rw [UInt64.lt_iff_toNat_lt]
        omega
      simp only [hhead, List.nil_append, List.head?_cons, hs, Option.bind_eq_bind,
        Option.bind_some, if_neg hnot]
      rfl
  | cons q l₁ ih =>
    obtain ⟨fuel, rfl⟩ : ∃ f, fuel = f + 1 := Nat.exists_eq_succ_of_ne_zero (by omega)
    obtain ⟨hq, hnode⟩ := List.forall_mem_cons.mp hnode
    obtain ⟨hltq, hlt⟩ := List.forall_mem_cons.mp hlt
    obtain ⟨n, hn⟩ := hq
    have hs := score_of_node hn
    rw [key_of_score hs, ← UInt64.lt_iff_toNat_lt] at hltq
    rw [advance, List.getLastD_cons]
    simp only [hrun.1, hs, Option.bind_eq_bind, Option.bind_some, if_pos hltq]
    exact ih hrun.2 hnode hlt (by simpa using hfuel)

/-- A list sorted by score splits at a score. -/
theorem Rep.split (h : Rep z L) (s : UInt64) :
    ∃ A B, L = A ++ B ∧ (∀ p ∈ A, key z p < s.toNat) ∧ ∀ p ∈ B, s.toNat ≤ key z p := by
  refine ⟨L.takeWhile (key z · < s.toNat), L.dropWhile (key z · < s.toNat),
    List.takeWhile_append_dropWhile.symm, fun p hp => by simpa using List.mem_takeWhile_imp hp,
    fun p hp => ?_⟩
  have hsorted := h.sorted.sublist (List.dropWhile_sublist (key z · < s.toNat))
  -- the first node that is dropped is not smaller, and the others follow it
  have hhead := List.head?_dropWhile_not (fun p => decide (key z p < s.toNat)) L
  cases hB : L.dropWhile (key z · < s.toNat) with
  | nil =>
    rw [hB] at hp
    exact absurd hp List.not_mem_nil
  | cons q B =>
    rw [hB] at hp hsorted hhead
    have hq : s.toNat ≤ key z q := by simpa using hhead
    rcases List.mem_cons.mp hp with rfl | hp
    · exact hq
    · exact Nat.le_trans hq ((List.pairwise_cons.mp hsorted).1 p hp)

/-- The search stops on every level behind the nodes with a smaller score. -/
theorem search_spec (h : Rep z (A ++ B)) (hA : ∀ p ∈ A, key z p < s.toNat)
    (hB : ∀ p ∈ B, s.toNat ≤ key z p) (hk : k ≤ zskiplistMaxlevel)
    (hx : x = z.header ∨ (x ∈ A ∧ k ≤ height z x)) (update : Update) :
    ∃ x' update', search z (some s) k x update = some (x', update') ∧
      (∀ i < k, update' i = some ((onLevel z i A).getLastD z.header)) ∧
      (∀ i, k ≤ i → update' i = update i) ∧
      (0 < k → x' = (onLevel z 0 A).getLastD z.header) := by
  induction k generalizing x update with
  | zero => exact ⟨x, update, rfl, fun i hi => absurd hi (Nat.not_lt_zero i), fun _ _ => rfl,
      fun h => absurd h (lt_irrefl 0)⟩
  | succ i ih =>
    -- on level `i` the search stands at a node of `A` or at the header, and walks to the last one
    have hrun := h.chain i hk
    rw [onLevel_append] at hrun
    have hmem : x ∈ z.header :: onLevel z i A := by
      rcases hx with rfl | ⟨hx, hheight⟩
      · exact List.mem_cons_self
      · exact List.mem_cons_of_mem _ (mem_onLevel.mpr ⟨hx, hheight⟩)
    obtain ⟨l₁, l₂, hsplit, rfl⟩ := exists_split hmem
    have hend : (onLevel z i A).getLastD z.header = l₂.getLastD (l₁.getLastD z.header) := by
      rw [hsplit, getLastD_append]
    have hin : ∀ p ∈ l₂, p ∈ onLevel z i A := fun p hp => by
      rw [hsplit]
      exact List.mem_append_right l₁ hp
    rw [hsplit, List.append_assoc] at hrun
    have hfuel : l₂.length < z.fresh := by
      have hlen := h.length_lt
      have hle := congrArg List.length hsplit
      have hfilter : (onLevel z i A).length ≤ A.length := List.length_filter_le ..
      rw [List.length_append] at hle hlen
      omega
    have hadvance := advance_spec (s := s) hrun.drop (fun p hp => ?_)
      (fun p hp => hA p (mem_onLevel.mp (hin p hp)).1)
      (fun p hp => hB p (mem_onLevel.mp hp).1) hfuel
    · rw [← hend] at hadvance
      have hx' : (onLevel z i A).getLastD z.header = z.header ∨
          ((onLevel z i A).getLastD z.header ∈ A ∧
            i ≤ height z ((onLevel z i A).getLastD z.header)) := by
        rcases List.mem_cons.mp (getLastD_mem (l := onLevel z i A) (a := z.header)) with heq | hmem
        · exact Or.inl heq
        · exact Or.inr ⟨(mem_onLevel.mp hmem).1, Nat.le_of_lt (mem_onLevel.mp hmem).2⟩
      obtain ⟨x', update', hsearch, hbelow, habove, hlast⟩ := ih (by omega) hx'
        (Function.update update i (some ((onLevel z i A).getLastD z.header)))
      refine ⟨x', update', ?_, fun j hj => ?_, fun j hj => ?_, fun _ => ?_⟩
      · rw [search, hadvance]
        exact hsearch
      · rcases Nat.lt_succ_iff_lt_or_eq.mp hj with hj | rfl
        · exact hbelow j hj
        · exact (habove j le_rfl).trans (Function.update_self _ _ _)
      · exact (habove j (by omega)).trans (Function.update_of_ne (by omega) _ _)
      · rcases Nat.eq_zero_or_pos i with rfl | hpos
        · obtain ⟨rfl, -⟩ := Prod.mk.inj (Option.some.inj hsearch)
          rfl
        · exact hlast hpos
    · rcases List.mem_append.mp hp with hp | hp
      · exact h.exists_node (List.mem_append_left B (mem_onLevel.mp (hin p hp)).1)
      · exact h.exists_node (List.mem_append_right A (mem_onLevel.mp hp).1)

/-! ### Insertion -/

/-- The new node, not linked yet. -/
def created (z : Zskiplist H) (level : ℕ) (s : UInt64) (func : H) : Zskiplist H :=
  (zslCreateNode { z with level := max z.level level } level s func).1

section Created

variable {level : ℕ} {func : H}

theorem created_node_self :
    (created z level s func).node z.fresh = some ⟨s, func, List.replicate level none⟩ :=
  Function.update_self _ _ _

theorem created_node_of_ne (hp : p ≠ z.fresh) : (created z level s func).node p = z.node p :=
  Function.update_of_ne hp _ _

theorem forward_created (hp : p ≠ z.fresh) :
    forward (created z level s func) i p = forward z i p := by
  unfold forward
  rw [created_node_of_ne hp]

theorem height_created_self : height (created z level s func) z.fresh = level := by
  rw [height_of_node created_node_self, List.length_replicate]

/-- The places where `zslInsert` splices: on a level that was not in use, behind the header. -/
theorem Rep.places (h : Rep z (A ++ B)) (s : UInt64) (func : H) (hmax : level ≤ zskiplistMaxlevel)
    {update : Update}
    (hupdate : ∀ i < z.level, update i = some ((onLevel z i A).getLastD z.header)) :
    ∀ i ∈ List.range level,
      Run (forward (created z level s func) i) z.header (onLevel z i A ++ onLevel z i B) ∧
        (z.header :: (onLevel z i A ++ onLevel z i B)).Nodup ∧
        z.fresh ∉ z.header :: (onLevel z i A ++ onLevel z i B) ∧
        i < height (created z level s func) z.fresh ∧
        (if z.level ≤ i ∧ i < level then some z.header else update i) =
          some ((onLevel z i A).getLastD z.header) := by
  intro i hi
  rw [List.mem_range] at hi
  have hsub : ∀ p ∈ z.header :: onLevel z i (A ++ B), p ≠ z.fresh := fun p hp =>
    h.ne_fresh (List.filter_sublist.cons_cons _ |>.subset hp)
  rw [height_created_self, ← onLevel_append]
  refine ⟨?_, ?_, fun hmem => hsub _ hmem rfl, hi, ?_⟩
  · exact (h.chain i (by omega)).congr fun p hp => forward_created (hsub p hp)
  · exact h.nodup.sublist (List.filter_sublist.cons_cons _)
  · by_cases hnew : z.level ≤ i
    · have hnil : onLevel z i A = [] := by
        have hunused := h.onLevel_unused hnew
        rw [onLevel_append] at hunused
        exact (List.append_eq_nil_iff.mp hunused).1
      rw [if_pos ⟨hnew, hi⟩, hnil]
      rfl
    · rw [if_neg fun hn => hnew hn.1]
      exact hupdate i (not_le.mp hnew)

variable {z₂ : Zskiplist H}

theorem node_inserted (hshape : SameShape (created z level s func) z₂) (hp : p ≠ z.fresh) :
    (z₂.node p).map shape = (z.node p).map shape :=
  (hshape.node p).trans (congrArg _ (created_node_of_ne hp))

theorem node_inserted_self (hshape : SameShape (created z level s func) z₂) :
    (z₂.node z.fresh).map shape = some (s, func, level) := by
  rw [hshape.node, created_node_self]
  simp [shape]

theorem height_inserted_self (hshape : SameShape (created z level s func) z₂) :
    height z₂ z.fresh = level :=
  (height_congr (hshape.node _)).trans height_created_self

theorem key_inserted_self (hshape : SameShape (created z level s func) z₂) :
    key z₂ z.fresh = s.toNat :=
  (key_congr (hshape.node _)).trans (key_of_score (score_of_node created_node_self))

/-- The levels of the list with the new node. -/
theorem Rep.onLevel_inserted (h : Rep z (A ++ B))
    (hshape : SameShape (created z level s func) z₂) (i : ℕ) :
    onLevel z₂ i (A ++ z.fresh :: B) =
      if i < level then onLevel z i A ++ z.fresh :: onLevel z i B
      else onLevel z i (A ++ B) := by
  have hheight : ∀ p ∈ A ++ B, height z₂ p = height z p := fun p hp =>
    height_congr (node_inserted hshape (h.ne_fresh (List.mem_cons_of_mem _ hp)))
  have hA : onLevel z₂ i A = onLevel z i A := onLevel_congr fun p hp =>
    hheight p (List.mem_append_left B hp)
  have hB : onLevel z₂ i B = onLevel z i B := onLevel_congr fun p hp =>
    hheight p (List.mem_append_right A hp)
  have hnew := height_inserted_self hshape
  rw [onLevel_append, hA]
  by_cases hi : i < level
  · rw [if_pos hi, ← hB]
    exact congrArg _ (List.filter_cons_of_pos (by simpa [hnew] using hi))
  · rw [if_neg hi, onLevel_append, ← hB]
    exact congrArg _ (List.filter_cons_of_neg (by simpa [hnew] using hi))

/-- The list stays sorted, since the new node stands where the search stopped. -/
theorem Rep.sorted_inserted (h : Rep z (A ++ B)) (hA : ∀ p ∈ A, key z p < s.toNat)
    (hB : ∀ p ∈ B, s.toNat ≤ key z p) (hshape : SameShape (created z level s func) z₂) :
    (A ++ z.fresh :: B).Pairwise fun p q => key z₂ p ≤ key z₂ q := by
  have hkey : ∀ p ∈ A ++ B, key z₂ p = key z p := fun p hp =>
    key_congr (node_inserted hshape (h.ne_fresh (List.mem_cons_of_mem _ hp)))
  have hnew := key_inserted_self hshape
  have hsorted : (A ++ B).Pairwise fun p q => key z₂ p ≤ key z₂ q :=
    h.sorted.imp_of_mem fun {p q} hp hq hle => by rwa [hkey p hp, hkey q hq]
  obtain ⟨hsA, hsB, hAB⟩ := List.pairwise_append.mp hsorted
  refine List.pairwise_append.mpr ⟨hsA, List.pairwise_cons.mpr ⟨fun q hq => ?_, hsB⟩, ?_⟩
  · rw [hnew, hkey q (List.mem_append_right A hq)]
    exact hB q hq
  · intro p hp q hq
    rcases List.mem_cons.mp hq with rfl | hq
    · rw [hnew, hkey p (List.mem_append_left B hp)]
      exact Nat.le_of_lt (hA p hp)
    · exact hAB p hp q hq

/-- With the new node linked into its levels, the list holds it where the search stopped. -/
theorem Rep.inserted (h : Rep z (A ++ B)) (hA : ∀ p ∈ A, key z p < s.toNat)
    (hB : ∀ p ∈ B, s.toNat ≤ key z p) (hlevel : 1 ≤ level) (hmax : level ≤ zskiplistMaxlevel)
    (hshape : SameShape (created z level s func) z₂)
    (hruns : ∀ i < level,
      Run (forward z₂ i) z.header (onLevel z i A ++ z.fresh :: onLevel z i B))
    (hrest : ∀ i, level ≤ i → forward z₂ i = forward (created z level s func) i) :
    Rep { z₂ with length := z₂.length + 1 } (A ++ z.fresh :: B) := by
  have hheader : z₂.header = z.header := hshape.header
  have hlevel₂ : z₂.level = max z.level level := hshape.level
  have hlength : z₂.length = (A ++ B).length := hshape.length.trans h.length
  have hnew := height_inserted_self hshape
  have hheight : ∀ p ∈ z.header :: (A ++ B), height z₂ p = height z p := fun p hp =>
    height_congr (node_inserted hshape (h.ne_fresh hp))
  have hmem : ∀ p ∈ A ++ z.fresh :: B, p = z.fresh ∨ p ∈ A ++ B := by
    intro p hp
    simp only [List.mem_append, List.mem_cons] at hp ⊢
    tauto
  have hsorted := h.sorted_inserted hA hB hshape
  refine ⟨?_, ?_, ?_, hsorted, ?_, ?_, ?_, ?_, ?_⟩
  · change height z₂ z₂.header = _
    rw [hheader, hheight _ List.mem_cons_self, h.header]
  · intro p hp
    change 1 ≤ height z₂ p ∧ height z₂ p ≤ z₂.level
    rcases hmem p hp with rfl | hp
    · omega
    · have hlisted := h.listed p hp
      rw [hheight p (List.mem_cons_of_mem _ hp)]
      omega
  · change (z₂.header :: (A ++ z.fresh :: B)).Nodup
    rw [hheader, ← List.cons_append, List.nodup_middle, List.nodup_cons]
    exact ⟨fun hin => h.ne_fresh hin rfl, h.nodup⟩
  · intro i hi
    change Run (forward z₂ i) z₂.header (onLevel z₂ i (A ++ z.fresh :: B))
    rw [hheader, h.onLevel_inserted hshape]
    by_cases hlt : i < level
    · rw [if_pos hlt]
      exact hruns i hlt
    · -- the new node is not linked into this level
      rw [if_neg hlt]
      apply (h.chain i hi).congr
      intro p hp
      rw [hrest i (not_lt.mp hlt)]
      exact forward_created (h.ne_fresh (List.filter_sublist.cons_cons _ |>.subset hp))
  · change 1 ≤ z₂.level ∧ z₂.level ≤ _
    have hold := h.level
    omega
  · change z₂.level = 1 ∨ ∃ p ∈ A ++ z.fresh :: B, height z₂ p = z₂.level
    by_cases hle : z.level ≤ level
    · refine Or.inr ⟨z.fresh, by simp, ?_⟩
      rw [hnew, hlevel₂, max_eq_right hle]
    · rcases h.tight with hone | ⟨p, hp, hheight'⟩
      · omega
      · refine Or.inr ⟨p, ?_, ?_⟩
        · simp only [List.mem_append, List.mem_cons] at hp ⊢
          tauto
        · rw [hheight p (List.mem_cons_of_mem _ hp), hheight', hlevel₂, max_eq_left (by omega)]
  · change z₂.length + 1 = _
    rw [hlength]
    simp only [List.length_append, List.length_cons]
    omega
  · intro p n hn
    change p < z₂.fresh
    rw [show z₂.fresh = z.fresh + 1 from hshape.fresh]
    by_cases hp : p = z.fresh
    · rw [hp]
      exact Nat.lt_succ_self _
    · obtain ⟨n', hn', -⟩ := exists_of_shape (node_inserted hshape hp) hn
      exact Nat.lt_succ_of_lt (h.known p n' hn')

end Created

/-- `zslInsert` puts the new node before the first one whose score is not smaller. -/
theorem zslInsert_spec (h : Rep z L) {level : ℕ} (hlevel : 1 ≤ level)
    (hmax : level ≤ zskiplistMaxlevel) (s : UInt64) (func : H) :
    ∃ z' A B, zslInsert z s func level = some (z', z.fresh) ∧ L = A ++ B ∧
      (∀ p ∈ A, key z p < s.toNat) ∧ (∀ p ∈ B, s.toNat ≤ key z p) ∧
      Rep z' (A ++ z.fresh :: B) ∧ z'.fresh = z.fresh + 1 ∧
      (z'.node z.fresh).map shape = some (s, func, level) ∧
      ∀ p ≠ z.fresh, (z'.node p).map shape = (z.node p).map shape := by
  obtain ⟨A, B, rfl, hA, hB⟩ := h.split s
  obtain ⟨x', update, hsearch, hbelow, -, -⟩ :=
    search_spec h hA hB h.level.2 (Or.inl rfl) fun _ => none
  obtain ⟨z₂, hlink, hshape, hruns, hrest⟩ :=
    link_levels List.nodup_range (h.places s func hmax hbelow)
  have hinsert : zslInsert z s func level =
      some ({ z₂ with length := z₂.length + 1 }, z.fresh) := by
    unfold zslInsert
    rw [hsearch]
    simp only [Option.bind_eq_bind, Option.bind_some]
    exact congrArg (fun o : Option (Zskiplist H) => o.bind _) hlink
  have hself := node_inserted_self hshape
  have hother : ∀ p ≠ z.fresh, (z₂.node p).map shape = (z.node p).map shape :=
    fun p hp => node_inserted hshape hp
  refine ⟨_, A, B, hinsert, rfl, hA, hB, h.inserted hA hB hlevel hmax hshape ?_ ?_, hshape.fresh,
    hself, hother⟩
  · exact fun i hi => hruns i (List.mem_range.mpr hi)
  · exact fun i hi => hrest i fun hin => absurd (List.mem_range.mp hin) (not_lt.mpr hi)

/-! ### Removal -/

/-- The loop that lowers `zsl->level` stops above the highest level in use. -/
theorem shrink_spec (hheader : height z z.header = zskiplistMaxlevel) (hk : 1 ≤ k)
    (hmax : k ≤ zskiplistMaxlevel) :
    ∃ level, shrink z k = some level ∧ 1 ≤ level ∧ level ≤ k ∧
      (∀ i, level ≤ i → i < k → forward z i z.header = some none) ∧
      (level = 1 ∨ forward z (level - 1) z.header ≠ some none) := by
  induction k with
  | zero => omega
  | succ k ih =>
    rcases Nat.eq_zero_or_pos k with rfl | hpos
    · exact ⟨1, rfl, le_rfl, le_rfl, fun i _ _ => by omega, Or.inl rfl⟩
    · obtain ⟨k, rfl⟩ : ∃ j, k = j + 1 := Nat.exists_eq_succ_of_ne_zero (by omega)
      obtain ⟨f, hf⟩ : ∃ f, forward z (k + 1) z.header = some f :=
        exists_forward (by omega)
      rw [shrink]
      cases f with
      | none =>
        obtain ⟨level, hshrink, hone, hle, hempty, hstop⟩ := ih (by omega) (by omega)
        refine ⟨level, by simp [hf, hshrink], hone, by omega, fun i hi hik => ?_, hstop⟩
        rcases Nat.lt_succ_iff_lt_or_eq.mp hik with hik | rfl
        · exact hempty i hi hik
        · exact hf
      | some q =>
        refine ⟨k + 2, by simp [hf], by omega, le_rfl, fun i _ _ => by omega, Or.inr ?_⟩
        simp [hf]

/-- What the operations that remove a node have in common: once the node is unlinked from
every level, `zsl->level` and `zsl->length` are brought in step. -/
theorem dropLevels_spec (h : Rep z L) (hx : x ∈ L) (hshape : SameShape z z₁)
    (hruns : ∀ i < zskiplistMaxlevel,
      Run (forward z₁ i) z.header ((onLevel z i L).erase x)) :
    ∃ z', dropLevels z₁ = some z' ∧ Rep z' (L.erase x) ∧ z'.node = z₁.node ∧
      z'.header = z.header ∧ z'.fresh = z.fresh := by
  have hheight : ∀ p, height z₁ p = height z p := fun p => height_congr (hshape.node p)
  have hnodup : L.Nodup := (List.nodup_cons.mp h.nodup).2
  have honLevel : ∀ i, (onLevel z i L).erase x = onLevel z₁ i (L.erase x) := fun i =>
    (erase_onLevel hnodup).trans (onLevel_congr fun p _ => hheight p).symm
  have hheader : height z₁ z₁.header = zskiplistMaxlevel := by
    rw [hshape.header, hheight, h.header]
  have hlevel₁ : z₁.level = z.level := hshape.level
  have hlevel := h.level
  obtain ⟨level, hshrink, hone, hle, hempty, hstop⟩ :=
    shrink_spec hheader (k := z₁.level) (by omega) (by omega)
  have hmem : ∀ p ∈ L.erase x, p ∈ L := fun p hp => List.mem_of_mem_erase hp
  -- no node that is left is higher
  have hhigh : ∀ p ∈ L.erase x, height z p ≤ level := by
    intro p hp
    by_contra hgt
    have hlisted := (h.listed p (hmem p hp)).2
    have hnull := hempty level le_rfl (by omega)
    have hrun := hruns level (by omega)
    rw [honLevel, ← hshape.header] at hrun
    have hnil : onLevel z₁ level (L.erase x) = [] := hrun.unique hnull
    have hin : p ∈ onLevel z₁ level (L.erase x) :=
      mem_onLevel.mpr ⟨hp, by rw [hheight]; omega⟩
    rw [hnil] at hin
    exact List.not_mem_nil hin
  refine ⟨{ z₁ with level := level, length := z₁.length - 1 }, ?_, ?_, rfl, hshape.header,
    hshape.fresh⟩
  · unfold dropLevels
    rw [hshrink]
    rfl
  refine ⟨hheader, fun p hp => ?_, ?_, ?_, fun i hi => ?_, ⟨hone, ?_⟩, ?_, ?_, ?_⟩
  · change 1 ≤ height z₁ p ∧ height z₁ p ≤ level
    rw [hheight]
    exact ⟨(h.listed p (hmem p hp)).1, hhigh p hp⟩
  · change (z₁.header :: L.erase x).Nodup
    rw [hshape.header]
    exact h.nodup.sublist (List.erase_sublist.cons_cons _)
  · refine (h.sorted.sublist List.erase_sublist).imp fun {p q} hpq => ?_
    change key z₁ p ≤ key z₁ q
    rwa [key_congr (hshape.node p), key_congr (hshape.node q)]
  · change Run (forward z₁ i) z₁.header (onLevel z₁ i (L.erase x))
    rw [← honLevel, hshape.header]
    exact hruns i hi
  · change level ≤ _
    omega
  · change level = 1 ∨ ∃ p ∈ L.erase x, height z₁ p = level
    apply hstop.imp_right
    intro hused
    -- the header has a successor on the highest level
    have hrun := hruns (level - 1) (by omega)
    rw [honLevel, ← hshape.header] at hrun
    cases hchain : onLevel z₁ (level - 1) (L.erase x) with
    | nil =>
      rw [hchain] at hrun
      exact absurd hrun hused
    | cons p l =>
      have hp : p ∈ onLevel z₁ (level - 1) (L.erase x) := by
        rw [hchain]
        exact List.mem_cons_self
      obtain ⟨hp, hlt⟩ := mem_onLevel.mp hp
      have := hhigh p hp
      have := hheight p
      exact ⟨p, hp, by omega⟩
  · change z₁.length - 1 = _
    have hpos := List.length_pos_of_mem hx
    rw [hshape.length, h.length, List.length_erase_of_mem hx]
    omega
  · intro p n hn
    change p < z₁.fresh
    rw [hshape.fresh]
    obtain ⟨n', hn', -⟩ := exists_of_shape (hshape.node p) hn
    exact h.known p n' hn'

/-- Unlinking a listed node from the levels in use leaves all levels without it. -/
theorem Rep.unlink (h : Rep z L) (us : ℕ → NodePtr)
    {f : Zskiplist H → ℕ → Option (Zskiplist H)} {levels : List ℕ} (hlevels : levels.Nodup)
    (hmem : ∀ i, i ∈ levels ↔ i < z.level)
    (hf : ∀ z, ∀ i ∈ levels, f z i = unlinkAt x (us i) z i)
    (hus : ∀ i < z.level, Spliced z.header x (us i) (onLevel z i L)) :
    ∃ z₁, levels.foldlM f z = some z₁ ∧ SameShape z z₁ ∧
      ∀ i < zskiplistMaxlevel, Run (forward z₁ i) z.header ((onLevel z i L).erase x) := by
  have hlevel := h.level.2
  obtain ⟨z₁, hloop, hshape, hruns, hrest⟩ :=
    unlink_levels (p := z.header) us (fun i => onLevel z i L) hlevels hf fun i hi => by
      have hlt := (hmem i).mp hi
      exact ⟨h.chain i (by omega), h.nodup.sublist (List.filter_sublist.cons_cons _), hus i hlt⟩
  refine ⟨z₁, hloop, hshape, fun i hi => ?_⟩
  by_cases hlt : i < z.level
  · exact hruns i ((hmem i).mpr hlt)
  · -- the loop does not visit this level, and need not
    have hrun := h.chain i hi
    rw [hrest i (mt (hmem i).mp hlt)]
    rw [h.onLevel_unused (not_lt.mp hlt)] at hrun ⊢
    exact hrun

/-- `zslDeleteHead` removes the first node and does not free it. -/
theorem zslDeleteHead_spec (h : Rep z L) :
    ∃ z', zslDeleteHead z = some z' ∧ Rep z' L.tail ∧ z'.fresh = z.fresh ∧
      ∀ p, (z'.node p).map shape = (z.node p).map shape := by
  unfold zslDeleteHead
  rw [h.zslMin_eq]
  cases L with
  | nil => exact ⟨z, rfl, h, rfl, fun _ => rfl⟩
  | cons x L =>
    obtain ⟨z₁, hloop, hshape, hruns⟩ := h.unlink (x := x) (fun _ => z.header)
      (f := unlinkAt x z.header) (List.nodup_reverse.mpr (List.nodup_range (n := z.level)))
      (fun i => by simp) (fun _ _ _ => rfl) fun i _ => by
        refine ⟨[], onLevel z i (x :: L), rfl, rfl, List.not_mem_nil, fun hx => ?_⟩
        exact head?_onLevel_cons (mem_onLevel.mp hx).2
    obtain ⟨z', hdrop, hrep, hnode, -, hfresh⟩ :=
      dropLevels_spec h List.mem_cons_self hshape hruns
    rw [List.erase_cons_head] at hrep
    refine ⟨z', ?_, hrep, hfresh, fun p => ?_⟩
    · simp only [List.head?_cons, Option.bind_eq_bind, Option.bind_some]
      rw [hloop]
      exact hdrop
    · rw [hnode]
      exact hshape.node p

/-- Where a search for a listed score stops: right before the first node with this score. -/
theorem search_end (h : Rep z L) (s : UInt64) :
    ∃ A B update, L = A ++ B ∧ (∀ p ∈ A, key z p < s.toNat) ∧ (∀ p ∈ B, s.toNat ≤ key z p) ∧
      search z (some s) z.level z.header (fun _ => none) = some (A.getLastD z.header, update) ∧
      (∀ i < z.level, update i = some ((onLevel z i A).getLastD z.header)) ∧
      forward z 0 (A.getLastD z.header) = some B.head? := by
  obtain ⟨A, B, rfl, hA, hB⟩ := h.split s
  obtain ⟨x', update, hsearch, hbelow, -, hlast⟩ :=
    search_spec h hA hB h.level.2 (Or.inl rfl) fun _ => none
  have hzero := h.chain 0 (by decide)
  rw [h.onLevel_zero fun _ hp => hp] at hzero
  have hx' := hlast h.level.1
  rw [h.onLevel_zero fun p hp => List.mem_append_left B hp] at hx'
  subst hx'
  exact ⟨A, B, update, rfl, hA, hB, hsearch, hbelow, hzero.next_last⟩

/-- A node that is not in the list can be freed. -/
theorem Rep.free (h : Rep z L) (hx : x ∉ z.header :: L) : Rep (free z x) L := by
  have hnode : ∀ p ∈ z.header :: L, (SkipList.free z x).node p = z.node p := fun p hp =>
    Function.update_of_ne (fun heq : p = x => hx (heq ▸ hp)) _ _
  have hheight : ∀ p ∈ z.header :: L, height (SkipList.free z x) p = height z p := fun p hp =>
    height_congr (congrArg _ (hnode p hp))
  have hlisted : ∀ p ∈ L, height (SkipList.free z x) p = height z p := fun p hp =>
    hheight p (List.mem_cons_of_mem _ hp)
  refine { h with header := ?_, listed := ?_, sorted := ?_, chain := ?_, tight := ?_, known := ?_ }
  · exact (hheight _ List.mem_cons_self).trans h.header
  · intro p hp
    rw [hlisted p hp]
    exact h.listed p hp
  · refine h.sorted.imp_of_mem fun {p q} hp hq hle => ?_
    rwa [key_congr (congrArg _ (hnode p (List.mem_cons_of_mem _ hp))),
      key_congr (congrArg _ (hnode q (List.mem_cons_of_mem _ hq)))]
  · intro i hi
    rw [onLevel_congr hlisted]
    apply (h.chain i hi).congr
    intro p hp
    unfold forward
    rw [hnode p ?_]
    rcases List.mem_cons.mp hp with rfl | hp
    · exact List.mem_cons_self
    · exact List.mem_cons_of_mem _ (mem_onLevel.mp hp).1
  · refine h.tight.imp_right fun ⟨p, hp, hheight⟩ => ⟨p, hp, ?_⟩
    rw [hlisted p hp]
    exact hheight
  · intro p n hn
    apply h.known p n
    by_cases hp : p = x
    · subst hp
      rw [show (SkipList.free z p).node p = none from Function.update_self _ _ _] at hn
      cases hn
    · rwa [show (SkipList.free z x).node p = z.node p from Function.update_of_ne hp _ _] at hn

/-- The list splits in one way before the first node with a score. -/
theorem Rep.split_first (h : Rep z (A ++ x :: B)) (hA : ∀ p ∈ A, key z p ≠ s.toNat)
    (hx : key z x = s.toNat) {A' B' : List NodePtr} (hsplit : A ++ x :: B = A' ++ B')
    (hA' : ∀ p ∈ A', key z p < s.toNat) (hB' : ∀ p ∈ B', s.toNat ≤ key z p) :
    A = A' ∧ x :: B = B' := by
  have hsmaller : ∀ p ∈ A, key z p < s.toNat := by
    intro p hp
    have hle := (List.pairwise_append.mp h.sorted).2.2 p hp x List.mem_cons_self
    have hne := hA p hp
    omega
  rcases List.append_eq_append_iff.mp hsplit with ⟨C, rfl, hC⟩ | ⟨C, rfl, hC⟩
  · cases C with
    | nil => exact ⟨(List.append_nil A).symm, hC⟩
    | cons c C =>
      obtain ⟨rfl, -⟩ := List.cons.inj hC
      have hlt := hA' x (List.mem_append_right A List.mem_cons_self)
      omega
  · cases C with
    | nil => exact ⟨List.append_nil A', hC.symm⟩
    | cons c C =>
      have hlt := hsmaller c (List.mem_append_right A' List.mem_cons_self)
      have hle := hB' c (by rw [hC]; exact List.mem_cons_self)
      omega

/-- `zslDelete` removes and frees the first node with the score of `zn`. -/
theorem zslDelete_first (h : Rep z (A ++ x :: B)) (hA : ∀ p ∈ A, key z p ≠ s.toNat)
    (hs : score z zn = some s) (hx : score z x = some s) :
    ∃ z', zslDelete z zn = some z' ∧ Rep z' (A ++ B) ∧ z'.header = z.header ∧
      z'.fresh = z.fresh ∧ z'.node x = none ∧
      ∀ p ≠ x, (z'.node p).map shape = (z.node p).map shape := by
  have hnodup := (List.nodup_cons.mp h.nodup).2
  have hxA : x ∉ A := fun hmem => hA x hmem (key_of_score hx)
  have herase : (A ++ x :: B).erase x = A ++ B := by
    rw [List.erase_append_right _ hxA, List.erase_cons_head]
  obtain ⟨A', B', update, hsplit, hA', hB', hsearch, hupdate, hforward⟩ := search_end h s
  obtain ⟨rfl, rfl⟩ := h.split_first hA (key_of_score hx) hsplit hA' hB'
  obtain ⟨z₁, hloop, hshape, hruns⟩ := h.unlink (x := x)
    (fun i => (onLevel z i A).getLastD z.header)
    (f := fun z i => do unlinkAt x (← update i) z i) (List.nodup_range (n := z.level))
    (fun i => List.mem_range) (fun z' i hi => by rw [hupdate i (List.mem_range.mp hi)]; rfl)
    fun i _ => by
      refine ⟨onLevel z i A, onLevel z i (x :: B), onLevel_append, rfl, ?_, fun hin => ?_⟩
      · exact fun hin => hxA (mem_onLevel.mp hin).1
      · exact head?_onLevel_cons (mem_onLevel.mp hin).2
  obtain ⟨z₂, hdrop, hrep, hnode, hheader, hfresh⟩ := dropLevels_spec h (by simp) hshape hruns
  have hnode₂ : ∀ p, (z₂.node p).map shape = (z.node p).map shape := fun p => by
    rw [hnode]
    exact hshape.node p
  have hother : ∀ p ≠ x, (free z₂ x).node p = z₂.node p := fun p hp =>
    Function.update_of_ne hp _ _
  rw [herase] at hrep
  have hdelete : zslDeleteNode z x update = some z₂ := by
    unfold zslDeleteNode
    rw [hloop]
    exact hdrop
  refine ⟨free z₂ x, ?_, hrep.free fun hmem => ?_, hheader, hfresh, Function.update_self _ _ _,
    fun p hp => ?_⟩
  · unfold zslDelete
    simp only [hs, hsearch, hforward, hx, hdelete, List.head?_cons, Option.bind_eq_bind,
      Option.bind_some, if_pos]
    rfl
  · have hnew := h.nodup
    rw [← List.cons_append, List.nodup_middle, List.nodup_cons] at hnew
    rw [hheader] at hmem
    exact hnew.1 hmem
  · rw [hother p hp, hnode₂ p]

/-- `zslDelete` changes nothing when no node has the score of `zn`. -/
theorem zslDelete_absent (h : Rep z L) (hs : score z zn = some s)
    (habsent : ∀ p ∈ L, key z p ≠ s.toNat) : zslDelete z zn = some z := by
  obtain ⟨A, B, update, rfl, -, hB, hsearch, -, hforward⟩ := search_end h s
  unfold zslDelete
  simp only [hs, hsearch, hforward, Option.bind_eq_bind, Option.bind_some]
  cases B with
  | nil => rfl
  | cons x B =>
    obtain ⟨n, hn⟩ := h.exists_node (List.mem_append_right A List.mem_cons_self)
    have hx := score_of_node hn
    have hne : s ≠ n.score := by
      rintro rfl
      exact habsent x (by simp) (key_of_score hx)
    simp only [List.head?_cons, hx, Option.bind_some, if_neg hne]
    rfl

end MmorpgServer.SkipList
