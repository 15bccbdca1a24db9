import MmorpgServer.SkipList.Runs
import Mathlib.Data.List.Sort

/-!
# The skip list is a sorted list

What a user of the list can see is the sequence of the nodes on level 0. It is that of a plain
sorted list, on which every operation scans from the front: an insertion puts the new node
before the first one whose score is not smaller, and a deletion drops the first node with the
score. The heights of the nodes do not show.

## Main definitions

* `Plain`, `Plain.step` — the plain sorted list, and the same machine on it
* `Shows` — the sequence of nodes on level 0, with their scores and handlers

## Main results

* `step_plain` — one step of the skip list is one step of the plain list
* `shows_exec` — so is every run, whatever the heights
-/

namespace MmorpgServer.SkipList

open Chain Machine

variable {H : Type} {z z' : Zskiplist H} {L A B : List NodePtr} {p q x zn : NodePtr} {s : UInt64}

/-- A node as a user sees it. -/
structure Entry (H : Type) where
  node : NodePtr
  score : UInt64
  handler : H

/-! ### The plain list -/

/-- A sorted list of nodes. `score` is what the memory holds: nodes that were dropped from the
list can still be read, unless they were freed. -/
structure Plain (H : Type) where
  list : List (Entry H)
  score : NodePtr → Option UInt64
  fresh : NodePtr

namespace Plain

/-- The list after `zslCreate`. The memory holds the header. -/
def empty : Plain H where
  list := []
  score := Function.update (fun _ => none) 0 (some 0)
  fresh := 1

/-- A new node goes before the first one whose score is not smaller. -/
def insert (t : Plain H) (s : UInt64) (func : H) : Plain H where
  list := t.list.orderedInsert (fun e f => e.score ≤ f.score) ⟨t.fresh, s, func⟩
  score := Function.update t.score t.fresh (some s)
  fresh := t.fresh + 1

/-- Drop the first node, which is not freed. -/
def deleteHead (t : Plain H) : Plain H := { t with list := t.list.tail }

/-- Drop the first node with a score, and free it. -/
def delete (t : Plain H) (s : UInt64) : Plain H :=
  match t.list.find? (·.score = s) with
  | none => t
  | some e =>
    { t with list := t.list.eraseP (·.score = s), score := Function.update t.score e.node none }

/-- The machine of `SkipList.step` on a plain list. -/
def step (t : Plain H) : Act H → Option (Plain H)
  | .insert s func level =>
    if 1 ≤ level ∧ level ≤ zskiplistMaxlevel then some (t.insert s func) else none
  | .deleteHead => some t.deleteHead
  | .delete zn => if t.list = [] then some t else (t.score zn).map t.delete

end Plain

/-! ### The view of a skip list -/

/-- What a user sees of a node. -/
def entry (z : Zskiplist H) (p : NodePtr) : Option (Entry H) :=
  (z.node p).map fun n => ⟨p, n.score, n.handler⟩

/-- The nodes of level 0 are those of `l`, with their scores and handlers. -/
def Shows (z : Zskiplist H) (l : List (Entry H)) : Prop :=
  ∃ L, Run (forward z 0) z.header L ∧ L.map (entry z) = l.map some

/-- The nodes `L` of a list as a plain list. -/
def view (z : Zskiplist H) (L : List NodePtr) : Plain H where
  list := L.filterMap (entry z)
  score := score z
  fresh := z.fresh

theorem entry_congr (h : (z'.node p).map shape = (z.node p).map shape) :
    entry z' p = entry z p := by
  have hmap := congrArg (Option.map fun s : UInt64 × H × ℕ => Entry.mk p s.1 s.2.1) h
  rw [Option.map_map, Option.map_map] at hmap
  exact hmap

theorem score_of_entry {e : Entry H} (h : entry z p = some e) :
    e.node = p ∧ score z p = some e.score := by
  obtain ⟨n, hn, rfl⟩ := Option.map_eq_some_iff.mp h
  exact ⟨rfl, score_of_node hn⟩

theorem filterMap_entry_congr (h : ∀ p ∈ L, (z'.node p).map shape = (z.node p).map shape) :
    L.filterMap (entry z') = L.filterMap (entry z) :=
  List.filterMap_congr fun p hp => entry_congr (h p hp)

/-- Every listed node has an entry. -/
theorem Rep.exists_entry (h : Rep z L) (hp : p ∈ L) : ∃ e, entry z p = some e := by
  obtain ⟨n, hn⟩ := h.exists_node hp
  exact ⟨_, congrArg _ hn⟩

theorem Rep.shows (h : Rep z L) : Shows z (view z L).list := by
  have hrun := h.chain 0 (by decide)
  rw [h.onLevel_zero fun _ hp => hp] at hrun
  refine ⟨L, hrun, ?_⟩
  have hentries : ∀ p ∈ L, (entry z p).isSome := fun p hp => by
    obtain ⟨e, he⟩ := h.exists_entry hp
    rw [he]
    rfl
  clear h hrun
  induction L with
  | nil => rfl
  | cons p L ih =>
    obtain ⟨hp, hrest⟩ := List.forall_mem_cons.mp hentries
    obtain ⟨e, he⟩ := Option.isSome_iff_exists.mp hp
    change _ = ((p :: L).filterMap (entry z)).map some
    rw [List.map_cons, List.filterMap_cons_some he, List.map_cons, ih hrest, he]
    rfl

/-- The sequence that a list shows is determined. -/
theorem Rep.shows_iff (h : Rep z L) {l : List (Entry H)} : Shows z l ↔ l = (view z L).list := by
  constructor
  · rintro ⟨L', hrun, hl⟩
    obtain rfl := h.unique hrun
    obtain ⟨L'', hrun', hl'⟩ := h.shows
    obtain rfl := h.unique hrun'
    exact List.map_injective_iff.mpr (Option.some_injective _) (hl.symm.trans hl')
  · rintro rfl
    exact h.shows

/-- The scores of the entries of some nodes. -/
theorem mem_filterMap_entry {e : Entry H} (he : e ∈ L.filterMap (entry z)) :
    e.node ∈ L ∧ score z e.node = some e.score := by
  obtain ⟨p, hp, hpe⟩ := List.mem_filterMap.mp he
  obtain ⟨rfl, hs⟩ := score_of_entry hpe
  exact ⟨hp, hs⟩

/-! ### One step -/

/-- Where the plain list puts a new node. -/
theorem orderedInsert_split {α : Type*} {r : α → α → Prop} [DecidableRel r] {a : α} {l₁ l₂ : List α}
    (h₁ : ∀ b ∈ l₁, ¬ r a b) (h₂ : ∀ b ∈ l₂, r a b) :
    (l₁ ++ l₂).orderedInsert r a = l₁ ++ a :: l₂ := by
  induction l₁ with
  | nil =>
    cases l₂ with
    | nil => rfl
    | cons b l₂ => exact List.orderedInsert_cons_of_le r l₂ (h₂ b List.mem_cons_self)
  | cons b l₁ ih =>
    obtain ⟨hb, h₁⟩ := List.forall_mem_cons.mp h₁
    rw [List.cons_append, List.orderedInsert_of_not_le r _ hb, ih h₁]
    rfl

/-- An insertion, as the plain list does it. -/
theorem zslInsert_plain (h : Rep z L) {level : ℕ} (hlevel : 1 ≤ level)
    (hmax : level ≤ zskiplistMaxlevel) (s : UInt64) (func : H) :
    ∃ z' L', zslInsert z s func level = some (z', z.fresh) ∧ Rep z' L' ∧
      (view z L).insert s func = view z' L' := by
  obtain ⟨z', A, B, hinsert, rfl, hA, hB, hrep, hfresh, hself, hrest⟩ :=
    zslInsert_spec h hlevel hmax s func
  refine ⟨z', _, hinsert, hrep, ?_⟩
  have hold : ∀ p ∈ A ++ B, (z'.node p).map shape = (z.node p).map shape := fun p hp =>
    hrest p (h.ne_fresh (List.mem_cons_of_mem _ hp))
  have hnew : entry z' z.fresh = some ⟨z.fresh, s, func⟩ := by
    obtain ⟨n, hn, hshape⟩ := Option.map_eq_some_iff.mp hself
    obtain ⟨rfl, hhandler⟩ := Prod.mk.inj hshape
    obtain ⟨rfl, -⟩ := Prod.mk.inj hhandler
    exact congrArg _ hn
  have hlist : (A ++ z.fresh :: B).filterMap (entry z') =
      A.filterMap (entry z) ++ ⟨z.fresh, s, func⟩ :: B.filterMap (entry z) := by
    rw [List.filterMap_append, List.filterMap_cons_some hnew,
      filterMap_entry_congr fun p hp => hold p (List.mem_append_left B hp),
      filterMap_entry_congr fun p hp => hold p (List.mem_append_right A hp)]
  have hscore : score z' = Function.update (score z) z.fresh (some s) := by
    funext p
    by_cases hp : p = z.fresh
    · subst hp
      rw [Function.update_self]
      exact (score_of_entry hnew).2
    · rw [Function.update_of_ne hp, score_congr (hrest p hp)]
  unfold Plain.insert view
  rw [hlist, hscore, hfresh, List.filterMap_append]
  congr 1
  -- the nodes before the new one are smaller, those behind it are not
  refine orderedInsert_split (fun e he => ?_) fun e he => ?_
  · obtain ⟨hmem, hs⟩ := mem_filterMap_entry he
    have hlt := hA _ hmem
    rw [key_of_score hs] at hlt
    exact UInt64.not_le.mpr (UInt64.lt_iff_toNat_lt.mpr hlt)
  · obtain ⟨hmem, hs⟩ := mem_filterMap_entry he
    have hle := hB _ hmem
    rw [key_of_score hs] at hle
    exact UInt64.le_iff_toNat_le.mpr hle

theorem zslDeleteHead_plain (h : Rep z L) :
    ∃ z' L', zslDeleteHead z = some z' ∧ Rep z' L' ∧ (view z L).deleteHead = view z' L' := by
  obtain ⟨z', hdelete, hrep, hfresh, hnode⟩ := zslDeleteHead_spec h
  refine ⟨z', _, hdelete, hrep, ?_⟩
  have hscore : score z' = score z := funext fun p => score_congr (hnode p)
  unfold Plain.deleteHead view
  rw [hscore, hfresh, filterMap_entry_congr fun p _ => hnode p]
  congr 1
  cases L with
  | nil => rfl
  | cons p L =>
    obtain ⟨e, he⟩ := h.exists_entry (p := p) List.mem_cons_self
    rw [List.filterMap_cons_some he]
    rfl

/-- A deletion with a score that can be read, as the plain list does it. -/
theorem zslDelete_plain (h : Rep z L) (hs : score z zn = some s) :
    ∃ z' L', zslDelete z zn = some z' ∧ Rep z' L' ∧ (view z L).delete s = view z' L' := by
  by_cases hfound : ∃ p ∈ L, score z p = some s
  · obtain ⟨p, hp, hps⟩ := hfound
    obtain ⟨A, x, B, rfl, hx, hA⟩ := h.exists_first hp hps
    obtain ⟨z', hdelete, hrep, -, hfresh, hfree, hrest⟩ := zslDelete_first h hA hs hx
    refine ⟨z', _, hdelete, hrep, ?_⟩
    obtain ⟨e, he⟩ := h.exists_entry (p := x) (by simp)
    obtain ⟨hnode, hes⟩ := score_of_entry he
    have hscore : e.score = s := Option.some.inj (hes.symm.trans hx)
    have hbefore : ∀ f ∈ A.filterMap (entry z), ¬ f.score = s := by
      intro f hf heq
      obtain ⟨hmem, hfs⟩ := mem_filterMap_entry hf
      exact hA _ hmem (key_of_score (hfs.trans (congrArg _ heq)))
    have hlist : (A ++ x :: B).filterMap (entry z) =
        A.filterMap (entry z) ++ e :: B.filterMap (entry z) := by
      rw [List.filterMap_append, List.filterMap_cons_some he]
    have hfind : (view z (A ++ x :: B)).list.find? (·.score = s) = some e := by
      refine List.find?_eq_some_iff_append.mpr ⟨by simpa using hscore, _, _, hlist, ?_⟩
      simpa using hbefore
    have hout : x ∉ A ++ B := by
      have hnodup := (List.nodup_cons.mp h.nodup).2
      exact (List.nodup_cons.mp (List.nodup_middle.mp hnodup)).1
    unfold Plain.delete
    rw [hfind]
    unfold view
    dsimp only
    rw [hlist, hfresh, hnode]
    congr 1
    · rw [List.eraseP_append_right _ (by simpa using hbefore),
        List.eraseP_cons_of_pos (by simpa using hscore), ← List.filterMap_append]
      exact (filterMap_entry_congr fun p hp => hrest p fun heq => hout (heq ▸ hp)).symm
    · funext p
      by_cases hp : p = x
      · subst hp
        rw [Function.update_self]
        unfold score
        rw [hfree]
        rfl
      · rw [Function.update_of_ne hp, score_congr (hrest p hp)]
  · have habsent : ∀ p ∈ L, key z p ≠ s.toNat := fun p hp hkey =>
      hfound ⟨p, hp, (h.key_eq_iff hp).mp hkey⟩
    refine ⟨z, L, zslDelete_absent h hs habsent, h, ?_⟩
    have hfind : (view z L).list.find? (·.score = s) = none := by
      apply List.find?_eq_none.mpr
      intro e he heq
      obtain ⟨hmem, hes⟩ := mem_filterMap_entry he
      exact hfound ⟨_, hmem, by rw [hes, of_decide_eq_true heq]⟩
    unfold Plain.delete
    rw [hfind]

theorem view_list_eq_nil (h : Rep z L) : (view z L).list = [] ↔ L = [] := by
  constructor
  · intro hnil
    cases L with
    | nil => rfl
    | cons p L =>
      obtain ⟨e, he⟩ := h.exists_entry (p := p) List.mem_cons_self
      unfold view at hnil
      rw [List.filterMap_cons_some he] at hnil
      cases hnil
  · rintro rfl
    rfl

/-- A skip list that looks like a plain list. -/
def Looks (z : Zskiplist H) (t : Plain H) : Prop := ∃ L, Rep z L ∧ view z L = t

/-- Two operations that differ at most in the height of a new node. -/
inductive SameButLevel : Act H → Act H → Prop where
  | insert (s : UInt64) (func : H) {level level' : ℕ}
      (h : 1 ≤ level ∧ level ≤ zskiplistMaxlevel) (h' : 1 ≤ level' ∧ level' ≤ zskiplistMaxlevel) :
      SameButLevel (.insert s func level) (.insert s func level')
  | deleteHead : SameButLevel .deleteHead .deleteHead
  | delete (zn : NodePtr) : SameButLevel (.delete zn) (.delete zn)

/-- One step of the skip list is one step of the plain list. -/
theorem step_plain {t : Plain H} (a : Act H) (h : Looks z t) :
    Option.Rel Looks (step z a) (t.step a) := by
  obtain ⟨L, hrep, rfl⟩ := h
  cases a with
  | insert s func level =>
    rw [step, Plain.step]
    split_ifs with hlevel
    · obtain ⟨z', L', hinsert, hrep', hview⟩ := zslInsert_plain hrep hlevel.1 hlevel.2 s func
      rw [hinsert]
      exact .some ⟨L', hrep', hview.symm⟩
    · exact .none
  | deleteHead =>
    obtain ⟨z', L', hdelete, hrep', hview⟩ := zslDeleteHead_plain hrep
    rw [step, Plain.step, hdelete]
    exact .some ⟨L', hrep', hview.symm⟩
  | delete zn =>
    rw [step, Plain.step]
    by_cases hempty : L = []
    · subst hempty
      rw [zslDelete_empty hrep, if_pos ((view_list_eq_nil hrep).mpr rfl)]
      exact .some ⟨[], hrep, rfl⟩
    · rw [if_neg (mt (view_list_eq_nil hrep).mp hempty)]
      change Option.Rel Looks _ ((score z zn).map _)
      -- the score of a freed node is not read by the plain list either
      cases hs : score z zn with
      | none =>
        rw [zslDelete_freed hrep hempty hs]
        exact .none
      | some s =>
        obtain ⟨z', L', hdelete, hrep', hview⟩ := zslDelete_plain hrep hs
        rw [hdelete]
        exact .some ⟨L', hrep', hview.symm⟩

/-! ### Runs -/

theorem looks_zslCreate (defaultHandler : H) : Looks (zslCreate defaultHandler) Plain.empty := by
  refine ⟨[], rep_zslCreate defaultHandler, ?_⟩
  unfold view Plain.empty
  congr 1
  funext p
  unfold score zslCreate
  dsimp only
  by_cases hp : p = 0
  · subst hp
    rfl
  · rw [Function.update_of_ne hp, Function.update_of_ne hp]
    rfl

theorem exec_plain (defaultHandler : H) (acts : List (Act H)) :
    Option.Rel Looks (exec step (zslCreate defaultHandler) acts)
      (exec Plain.step Plain.empty acts) :=
  exec_simulation (Q := Eq) (fun _ _ a _ heq h => heq ▸ step_plain a h)
    (List.forall₂_eq_eq_eq ▸ rfl) (looks_zslCreate defaultHandler)

/-- The plain list does not look at the heights. -/
theorem exec_plain_congr {t : Plain H} {acts acts' : List (Act H)}
    (h : List.Forall₂ SameButLevel acts acts') :
    exec Plain.step t acts = exec Plain.step t acts' := by
  induction h generalizing t with
  | nil => rfl
  | cons hlabel _ ih =>
    have hone : ∀ {a a' : Act H}, SameButLevel a a' → t.step a = t.step a' := by
      rintro _ _ (⟨s, func, hlevel, hlevel'⟩ | _ | _)
      · rw [Plain.step, Plain.step, if_pos hlevel, if_pos hlevel']
      · rfl
      · rfl
    rw [exec_cons, exec_cons, hone hlabel]
    exact congrArg _ (funext fun _ => ih)

/-- After every sequence of operations the skip list shows the nodes of the plain list, or both
have refused the same operation; and two runs that differ in the heights of the nodes only
show the same nodes. -/
theorem shows_exec (defaultHandler : H) (acts : List (Act H)) :
    Option.Rel (fun z t => Shows z t.list) (exec step (zslCreate defaultHandler) acts)
      (exec Plain.step Plain.empty acts) ∧
    ∀ acts', List.Forall₂ SameButLevel acts acts' →
      Option.Rel (fun z z' => ∃ l, Shows z l ∧ Shows z' l)
        (exec step (zslCreate defaultHandler) acts)
        (exec step (zslCreate defaultHandler) acts') := by
  have hrun := exec_plain defaultHandler acts
  constructor
  · generalize exec step (zslCreate defaultHandler) acts = o, exec Plain.step _ acts = o' at hrun ⊢
    cases hrun with
    | none => exact .none
    | some h =>
      obtain ⟨L, hrep, rfl⟩ := h
      exact .some hrep.shows
  · intro acts' hlabels
    have hrun' := exec_plain defaultHandler acts'
    rw [← exec_plain_congr hlabels] at hrun'
    generalize exec step (zslCreate defaultHandler) acts = o,
      exec step (zslCreate defaultHandler) acts' = u, exec Plain.step _ acts = o' at hrun hrun' ⊢
    cases hrun with
    | none =>
      cases hrun'
      exact .none
    | some h =>
      cases hrun' with
      | some h' =>
        obtain ⟨L, hrep, rfl⟩ := h
        obtain ⟨L', hrep', hview⟩ := h'
        refine .some ⟨_, hrep.shows, ?_⟩
        rw [← hview]
        exact hrep'.shows

/-- Two insertions with two pairs of heights. -/
theorem shows_exec_two :
    Option.Rel (fun z z' => ∃ l, Shows z l ∧ Shows z' l)
      (exec step (zslCreate ()) [.insert 5 () 1, .insert 5 () 3])
      (exec step (zslCreate ()) [.insert 5 () 2, .insert 5 () 1]) :=
  (shows_exec () _).2 _ <| .cons (.insert 5 () (by decide) (by decide)) <|
    .cons (.insert 5 () (by decide) (by decide)) .nil

end MmorpgServer.SkipList
