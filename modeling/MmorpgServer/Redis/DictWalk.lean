import MmorpgServer.Redis.DictMap

/-!
# The walk over a hash table

An iterator saves the entry behind the one that it returns, and so the entries that were returned
may be removed before it goes on.

## Main definitions

* `At` — where an iterator stands, and what is left of the walk
* `Walk` — a walk on which entries are removed

## Main results

* `walk_exact` — every entry is returned once, in the order of the chains
-/

namespace MmorpgServer.Redis

open Buckets
open Machine
open Dict

variable {α β : Type} {type : DictType α} {ht : Dict α β} {key : α} {addr : ℕ}
  {e : DictEntry α β} {iter : DictIterator} {rest : List (DictEntry α β)}

/-! ### Addresses -/

theorem entryAt_eq_none {c : List (DictEntry α β)} (h : addr ∉ c.map DictEntry.addr) :
    entryAt addr c = none := by
  induction c with
  | nil => rfl
  | cons he c ih =>
    rw [List.map_cons, List.mem_cons, not_or] at h
    rw [entryAt, if_neg fun heq => h.1 heq.symm]
    exact ih h.2

theorem entryAt_append {pre suf : List (DictEntry α β)} (h : e.addr ∉ pre.map DictEntry.addr) :
    entryAt e.addr (pre ++ e :: suf) = some (e, suf.head?.map DictEntry.addr) := by
  induction pre with
  | nil => rw [List.nil_append, entryAt, if_pos rfl]
  | cons he pre ih =>
    rw [List.map_cons, List.mem_cons, not_or] at h
    rw [List.cons_append, entryAt, if_neg fun heq => h.1 heq.symm]
    exact ih h.2

/-- What is read at the address of an entry -/
theorem Dict.Valid.deref (h : Valid type ht) {i : ℕ} (pre : List (DictEntry α β))
    {suf : List (DictEntry α β)} (hi : i < ht.table.length)
    (hchain : chain ht.table i = pre ++ e :: suf) :
    ht.deref e.addr = some (e, suf.head?.map DictEntry.addr) := by
  have haddrs := h.addrs
  unfold Dict.entries Distinct at haddrs
  rw [flatten_eq hi, hchain, List.map_append, List.map_append, List.map_append,
    List.map_cons] at haddrs
  -- the address is in no chain in front, and in none of the entries in front
  have hfront : ∀ c ∈ ht.table.take i, e.addr ∉ c.map DictEntry.addr := by
    intro c hc hmem
    obtain ⟨e', he', heq⟩ := List.mem_map.mp hmem
    refine (List.nodup_append.mp haddrs).2.2 e'.addr
      (List.mem_map_of_mem (List.mem_flatten.mpr ⟨c, hc, he'⟩)) e'.addr ?_ rfl
    rw [heq]
    simp
  have hpre : e.addr ∉ pre.map DictEntry.addr := by
    intro hmem
    have hinner := (List.nodup_append.mp (List.nodup_append.mp haddrs).2.1).1
    exact (List.nodup_append.mp hinner).2.2 _ hmem _ List.mem_cons_self rfl
  have hnone : (ht.table.take i).findSome? (entryAt e.addr) = none := by
    apply List.findSome?_eq_none_iff.mpr
    intro c hc
    exact entryAt_eq_none (hfront c hc)
  have hget : chain ht.table i = ht.table[i] := by simp [chain, hi]
  unfold Dict.deref
  rw [← List.take_append_drop i ht.table, List.findSome?_append, hnone, Option.none_or,
    List.drop_eq_getElem_cons hi, List.findSome?_cons, ← hget, hchain, entryAt_append hpre]

/-! ### Where an iterator stands -/

/-- An iterator stands between two chains, or in one behind the entry that it returned. `rest` is
what it has not returned. -/
inductive At (ht : Dict α β) (iter : DictIterator) (rest : List (DictEntry α β)) : Prop
  | between : iter.entry = none → -1 ≤ iter.index →
      rest = (ht.table.drop (iter.index + 1).toNat).flatten → At ht iter rest
  | within (pre suf : List (DictEntry α β)) : iter.entry ≠ none → 0 ≤ iter.index →
      iter.index < ht.size → chain ht.table iter.index.toNat = pre ++ suf →
      iter.nextEntry = suf.head?.map DictEntry.addr →
      rest = suf ++ (ht.table.drop (iter.index + 1).toNat).flatten → At ht iter rest

theorem at_start (ht : Dict α β) : At ht dictGetIterator ht.entries :=
  .between rfl le_rfl rfl

theorem Dict.Valid.size_lt (h : Valid type ht) : ht.size < 2 ^ 31 := by
  rcases h.size with hzero | ⟨hsized, -⟩
  · omega
  · have hle := hsized.le
    omega

/-- The chains from an index on -/
theorem drop_eq_chain {t : List (List (DictEntry α β))} {i : ℕ} (hi : i < t.length) :
    (t.drop i).flatten = chain t i ++ (t.drop (i + 1)).flatten := by
  rw [List.drop_eq_getElem_cons hi, List.flatten_cons]
  simp [chain, hi]

/-- The next entry is returned, `NULL` where there is none. -/
theorem At.next (hat : At ht iter rest) (h : Valid type ht) :
    ∃ iter', dictNext ht iter = some (iter', rest.head?) ∧ At ht iter' rest.tail := by
  have hint : toInt (ht.size : ℤ) = ht.size := by
    have hlt := h.size_lt
    exact toInt_of_lt (by omega) (by omega)
  induction iter using dictNext.induct ht with
  | case1 iter hentry index hend =>
    cases hat with
    | within _ _ hne => exact absurd hentry hne
    | between _ hlow hrest =>
      have hnil : rest = [] := by
        rw [hrest, List.drop_eq_nil_of_le]
        · rfl
        · rw [h.length]
          omega
      rw [dictNext, if_pos hentry]
      dsimp only
      rw [if_pos hend, hnil]
      refine ⟨_, rfl, .between hentry (by dsimp only; omega) ?_⟩
      rw [List.tail_nil, List.drop_eq_nil_of_le]
      · rfl
      · rw [h.length]
        dsimp only
        omega
  | case2 iter hentry index hmore hhead ih =>
    cases hat with
    | within _ _ hne => exact absurd hentry hne
    | between _ hlow hrest =>
      have hempty : chain ht.table index.toNat = [] := List.head?_eq_none_iff.mp hhead
      rw [dictNext, if_pos hentry]
      dsimp only
      rw [if_neg hmore, hhead]
      apply ih
      refine .between rfl (by dsimp only; omega) ?_
      have hi : index.toNat < ht.table.length := by rw [h.length]; omega
      have hdrop : (index + 1).toNat = index.toNat + 1 := by omega
      rw [hrest, drop_eq_chain hi, hempty, List.nil_append]
      dsimp only
      rw [hdrop]
  | case3 iter hentry index hmore he hhead =>
    cases hat with
    | within _ _ hne => exact absurd hentry hne
    | between _ hlow hrest =>
      have hi : index.toNat < ht.table.length := by rw [h.length]; omega
      obtain ⟨suf, hchain⟩ : ∃ suf, chain ht.table index.toNat = he :: suf :=
        List.head?_eq_some_iff.mp hhead
      have hderef := h.deref [] hi hchain
      rw [dictNext, if_pos hentry]
      dsimp only
      rw [if_neg hmore, hhead]
      dsimp only
      have hdrop : (index + 1).toNat = index.toNat + 1 := by omega
      rw [drop_eq_chain hi, hchain] at hrest
      rw [hderef, hrest]
      refine ⟨_, rfl, .within [he] suf (by simp) (by dsimp only; omega) (by dsimp only; omega)
        hchain rfl ?_⟩
      dsimp only
      rw [hdrop]
      rfl
  | case4 iter hentry hnext ih =>
    cases hat with
    | between hnone => exact absurd hnone hentry
    | within pre suf _ hlow hlt hchain hsaved hrest =>
      have hsuf : suf = [] := by
        cases suf with
        | nil => rfl
        | cons e suf => exact absurd (hsaved.symm.trans hnext) (by simp)
      rw [dictNext, if_neg hentry]
      split
      · exact ih (.between rfl (by dsimp only; omega) (by rw [hrest, hsuf]; rfl))
      · next hsome => exact absurd (hsome.symm.trans hnext) (by simp)
  | case5 iter hentry addr hnext =>
    cases hat with
    | between hnone => exact absurd hnone hentry
    | within pre suf _ hlow hlt hchain hsaved hrest =>
      obtain ⟨e, suf', rfl⟩ : ∃ e suf', suf = e :: suf' := by
        cases suf with
        | nil => exact absurd (hsaved.symm.trans hnext) (by simp)
        | cons e suf => exact ⟨e, suf, rfl⟩
      obtain rfl : e.addr = addr := Option.some.inj (hsaved.symm.trans hnext)
      have hi : iter.index.toNat < ht.table.length := by rw [h.length]; omega
      rw [dictNext, if_neg hentry, hnext]
      dsimp only
      rw [h.deref _ hi hchain, hrest]
      refine ⟨_, rfl, .within (pre ++ [e]) suf' (by simp) hlow hlt ?_ rfl rfl⟩
      rw [hchain, List.append_assoc]
      rfl

/-! ### Entries are removed on the way -/

/-- A walk, with the entries that were returned -/
structure Walk (α β : Type) where
  dict : Dict α β
  iter : DictIterator
  returned : List (DictEntry α β)
  /-- `NULL` was returned -/
  done : Bool

inductive WalkCall (α : Type) where
  | next
  | delete (key : α)
  deriving DecidableEq

/-- A call on a walk, `none` where the iterator reads what was freed -/
def Walk.step (type : DictType α) (w : Walk α β) : WalkCall α → Option (Walk α β)
  | .next => (dictNext w.dict w.iter).map fun res =>
      ⟨w.dict, res.1, w.returned ++ res.2.toList, res.2.isNone⟩
  | .delete key => some { w with dict := (dictDelete type w.dict key).1 }

/-- Only entries that were returned are removed. -/
def Walk.Returned (w : Walk α β) : WalkCall α → Prop
  | .next => True
  | .delete key => key ∈ w.returned.map DictEntry.key

/-- The keys that were removed -/
def removed : List (WalkCall α) → List α
  | [] => []
  | .next :: calls => removed calls
  | .delete key :: calls => key :: removed calls

/-- The chains behind an index do not change where they have no such entry. -/
theorem drop_eraseP {t : List (List (DictEntry α β))} {i n : ℕ} {p : DictEntry α β → Bool}
    (h : ∀ e ∈ (t.drop n).flatten, ¬p e = true) :
    (t.modify i fun c => c.eraseP p).drop n = t.drop n := by
  apply List.ext_getElem?
  intro j
  rw [List.getElem?_drop, List.getElem?_drop, List.getElem?_modify]
  split
  · next heq =>
    cases hget : t[n + j]? with
    | none => rfl
    | some c =>
      refine congrArg some (List.eraseP_of_forall_not fun e he => h e ?_)
      refine List.mem_flatten.mpr ⟨c, List.mem_iff_getElem?.mpr ⟨j, ?_⟩, he⟩
      rw [List.getElem?_drop, hget]
  · simp

/-- An entry that is not left is removed. -/
theorem At.delete (hat : At ht iter rest) (h : Valid type ht) (hkey : ∀ e ∈ rest, e.key ≠ key) :
    At (dictDelete type ht key).1 iter rest := by
  unfold dictDelete
  by_cases hzero : ht.size = 0
  · rw [if_pos hzero]
    exact hat
  · rw [if_neg hzero]
    dsimp only
    split
    · have hp : ∀ e ∈ rest, ¬type.keyCompare key e.key = true := by
        intro e he heq
        exact hkey e he ((type.keyCompare_iff key e.key).mp heq).symm
      cases hat with
      | between hentry hlow hrest =>
        refine .between hentry hlow ?_
        dsimp only
        rw [drop_eraseP fun e he => hp e (hrest ▸ he)]
        exact hrest
      | within pre suf hentry hlow hlt hchain hsaved hrest =>
        have hsuf : ∀ e ∈ suf, ¬type.keyCompare key e.key = true := fun e he =>
          hp e (hrest ▸ List.mem_append_left _ he)
        have hi : type.slot ht.sizemask key < ht.table.length := h.slot_lt (by omega) key
        have hafter : chain (ht.table.modify (type.slot ht.sizemask key) fun c =>
            c.eraseP fun de => type.keyCompare key de.key) iter.index.toNat =
            (if type.slot ht.sizemask key = iter.index.toNat then
              pre.eraseP fun de => type.keyCompare key de.key else pre) ++ suf := by
          rw [chain_modify hi]
          split
          · next heq =>
            rw [heq, hchain]
            by_cases hex : ∃ e ∈ pre, type.keyCompare key e.key = true
            · obtain ⟨e, he, heq⟩ := hex
              exact List.eraseP_append_left (p := fun de => type.keyCompare key de.key) heq _ he
            · have hnone : ∀ e ∈ pre, ¬type.keyCompare key e.key = true := fun e he heq =>
                hex ⟨e, he, heq⟩
              rw [List.eraseP_append_right _ hnone, List.eraseP_of_forall_not hsuf,
                List.eraseP_of_forall_not hnone]
          · exact hchain
        refine .within _ suf hentry hlow hlt hafter hsaved ?_
        dsimp only
        rw [drop_eraseP fun e he => hp e (hrest ▸ List.mem_append_right _ he)]
        exact hrest
    · exact hat

variable [DecidableEq α]

/-- What holds on a walk: `rest` is what is left of it. -/
structure Walking (type : DictType α) (ht : Dict α β) (keys : List α) (w : Walk α β)
    (rest : List (DictEntry α β)) : Prop where
  valid : Valid type w.dict
  at_rest : At w.dict w.iter rest
  order : w.returned ++ rest = ht.entries
  done : w.done = true → rest = []
  map : w.dict.map = keys.foldl (fun m key => m.erase key) ht.map

/-- While an iterator walks over a table, entries that it has returned may be removed: it never
reads an entry that was freed, it returns every entry of the table once, in the order of the chains,
and the table loses what is removed and nothing else. -/
theorem walk_exact {calls : List (WalkCall α)} (h : Valid type ht)
    (hreturned : Guarded (Walk.step type) Walk.Returned ⟨ht, dictGetIterator, [], false⟩ calls) :
    ∃ w, exec (Walk.step type) ⟨ht, dictGetIterator, [], false⟩ calls = some w ∧
      w.returned <+: ht.entries ∧ (w.done = true → w.returned = ht.entries) ∧
      w.dict.map = (removed calls).foldl (fun m key => m.erase key) ht.map := by
  suffices hrun : ∀ (w : Walk α β) keys rest, Walking type ht keys w rest →
      Guarded (Walk.step type) Walk.Returned w calls →
      ∃ w' rest', exec (Walk.step type) w calls = some w' ∧
        Walking type ht (keys ++ removed calls) w' rest' by
    obtain ⟨w, rest, hexec, hwalk⟩ := hrun ⟨ht, dictGetIterator, [], false⟩ [] ht.entries
      ⟨h, at_start ht, rfl, by simp, rfl⟩ hreturned
    refine ⟨w, hexec, ⟨rest, hwalk.order⟩, fun hdone => ?_, hwalk.map⟩
    rw [← hwalk.order, hwalk.done hdone, List.append_nil]
  clear hreturned
  induction calls with
  | nil =>
    intro w keys rest hwalk _
    exact ⟨w, rest, rfl, by rwa [removed, List.append_nil]⟩
  | cons call calls ih =>
    intro w keys rest hwalk hguard
    cases call with
    | next =>
      obtain ⟨iter', hnext, hat⟩ := hwalk.at_rest.next hwalk.valid
      have hone : w.step type .next = some ⟨w.dict, iter', w.returned ++ rest.head?.toList,
          rest.head?.isNone⟩ := by
        rw [Walk.step, hnext]
        rfl
      have hwalk' : Walking type ht keys ⟨w.dict, iter', w.returned ++ rest.head?.toList,
          rest.head?.isNone⟩ rest.tail := by
        refine ⟨hwalk.valid, hat, ?_, fun hdone => ?_, hwalk.map⟩
        · rw [List.append_assoc, ← hwalk.order]
          congr 1
          cases rest <;> rfl
        · cases rest with
          | nil => rfl
          | cons e rest => exact absurd hdone (by simp)
      obtain ⟨w', rest', hexec, hfinal⟩ := ih _ keys _ hwalk' (hguard.2 _ hone)
      exact ⟨w', rest', exec_cons_eq_some.mpr ⟨_, hone, hexec⟩, hfinal⟩
    | delete key =>
      obtain ⟨-, hvalid, hmap, -⟩ := hwalk.valid.delete key
      have hkey : ∀ e ∈ rest, e.key ≠ key := by
        intro e he heq
        obtain ⟨e', he', heq'⟩ := List.mem_map.mp (show key ∈ w.returned.map DictEntry.key from
          hguard.1)
        have hdistinct := h.distinct
        rw [← hwalk.order, Distinct, List.map_append] at hdistinct
        exact (List.nodup_append.mp hdistinct).2.2 _ (List.mem_map_of_mem he') _
          (List.mem_map_of_mem he) (heq'.trans heq.symm)
      have hwalk' : Walking type ht (keys ++ [key])
          { w with dict := (dictDelete type w.dict key).1 } rest := by
        refine ⟨hvalid, hwalk.at_rest.delete hwalk.valid hkey, hwalk.order, hwalk.done, ?_⟩
        rw [List.foldl_append, ← hwalk.map]
        exact hmap
      obtain ⟨w', rest', hexec, hfinal⟩ := ih _ (keys ++ [key]) _ hwalk' (hguard.2 _ rfl)
      rw [List.append_assoc] at hfinal
      exact ⟨w', rest', exec_cons_eq_some.mpr ⟨_, rfl, hexec⟩, hfinal⟩

instance Walk.Returned.decidable (w : Walk α β) : ∀ call, Decidable (w.Returned call)
  | .next => isTrue trivial
  | .delete _ => inferInstanceAs (Decidable (_ ∈ _))

/-- Three entries, two of which are in one chain -/
def threeEntries : Dict Bytes ℕ :=
  ⟨[[], [⟨10, bytes "l", 1⟩], [], [⟨20, bytes "b", 2⟩, ⟨30, bytes "f", 3⟩]], 4, 3, 3⟩

/-- Every entry is removed when it was returned. -/
def removeAll : List (WalkCall Bytes) :=
  [.next, .delete (bytes "l"), .next, .delete (bytes "b"), .next, .delete (bytes "f"), .next]

theorem walk_exact_removeAll : ∃ w : Walk Bytes ℕ,
    exec (Walk.step callbackDict) ⟨threeEntries, dictGetIterator, [], false⟩ removeAll = some w ∧
      w.returned <+: threeEntries.entries := by
  have hvalid : Valid callbackDict threeEntries :=
    { length := rfl
      size := .inr ⟨⟨2, rfl, le_rfl, by omega⟩, rfl⟩
      placed := by
        intro i e he
        match i with
        | 0 | 1 | 2 | 3 => revert e; decide +kernel
        | i + 4 => exact absurd he (by simp [threeEntries, chain])
      distinct := by unfold Distinct; decide +kernel
      addrs := by unfold Distinct; decide +kernel
      used := rfl
      le := by decide }
  obtain ⟨w, hexec, horder, -⟩ := @walk_exact _ _ _ _ _ removeAll hvalid (by decide +kernel)
  exact ⟨w, hexec, horder⟩

end MmorpgServer.Redis
