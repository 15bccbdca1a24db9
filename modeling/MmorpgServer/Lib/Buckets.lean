import Mathlib.Data.Finmap

/-!
# Tables of chains

A table is a list of chains, and an entry stands in the chain of its slot. Searching, removing and
changing an entry look at one chain only, and do to the whole table what they do to this chain.

## Main definitions

* `chain` — the chain of a slot
* `Placed` — every entry is in the chain of its slot
* `contents` — the finite map of entries
* `push`, `pushEach` — entries in front of their chains

## Main results

* `find?_flatten` — what is found in the chain is what is in the table
* `contents_perm` — the order of the entries does not matter
* `contents_eraseP`, `contents_update` — removing an entry and changing it
* `pushEach_perm` — no entry is lost when all are moved
-/

namespace MmorpgServer.Buckets

universe u v w

variable {α : Type u} {β : Type v} {ε : Type w} {slot : ε → ℕ} {t t' : List (List ε)} {i j : ℕ}
  {e e' : ε} {p : ε → Bool} {f : List ε → List ε}

/-! ### One chain -/

/-- The chain of a slot -/
def chain (t : List (List ε)) (i : ℕ) : List ε := (t[i]?).getD []

/-- Every entry is in the chain of its slot. -/
def Placed (slot : ε → ℕ) (t : List (List ε)) : Prop := ∀ i, ∀ e ∈ chain t i, slot e = i

theorem chain_modify (hi : i < t.length) (j : ℕ) :
    chain (t.modify i f) j = if i = j then f (chain t i) else chain t j := by
  unfold chain
  rw [List.getElem?_modify]
  split
  · next heq =>
    subst heq
    simp [hi]
  · simp

/-- A table is its chain of a slot with the others around it. -/
theorem flatten_eq (hi : i < t.length) :
    t.flatten = (t.take i).flatten ++ (chain t i ++ (t.drop (i + 1)).flatten) := by
  have hchain : chain t i = t[i] := by simp [chain, hi]
  conv_lhs => rw [← List.take_append_drop i t, List.drop_eq_getElem_cons hi]
  rw [List.flatten_append, List.flatten_cons, hchain]

theorem flatten_modify (hi : i < t.length) :
    (t.modify i f).flatten =
      (t.take i).flatten ++ (f (chain t i) ++ (t.drop (i + 1)).flatten) := by
  have hchain : chain t i = t[i] := by simp [chain, hi]
  rw [List.modify_eq_take_cons_drop hi, List.flatten_append, List.flatten_cons, hchain]

theorem mem_flatten_iff : e ∈ t.flatten ↔ ∃ i, e ∈ chain t i := by
  rw [List.mem_flatten]
  constructor
  · rintro ⟨c, hc, he⟩
    obtain ⟨i, hi, rfl⟩ := List.mem_iff_getElem.mp hc
    exact ⟨i, by simpa [chain, hi] using he⟩
  · rintro ⟨i, he⟩
    by_cases hi : i < t.length
    · exact ⟨t[i], List.getElem_mem hi, by simpa [chain, hi] using he⟩
    · exact absurd he (by simp [chain, hi])

theorem chain_drop (n : ℕ) : chain (t.drop n) i = chain t (n + i) := by
  unfold chain
  rw [List.getElem?_drop]

theorem chain_take (n : ℕ) : chain (t.take n) i = if i < n then chain t i else [] := by
  unfold chain
  rw [List.getElem?_take]
  split <;> rfl

namespace Placed

/-- The other chains have no entry of the slot. -/
theorem ne_of_mem_take (h : Placed slot t) (he : e ∈ (t.take i).flatten) : slot e ≠ i := by
  obtain ⟨j, hj⟩ := mem_flatten_iff.mp he
  rw [chain_take] at hj
  split at hj
  · next hlt =>
    have hslot := h j e hj
    omega
  · exact absurd hj (by simp)

theorem ne_of_mem_drop (h : Placed slot t) (he : e ∈ (t.drop (i + 1)).flatten) : slot e ≠ i := by
  obtain ⟨j, hj⟩ := mem_flatten_iff.mp he
  rw [chain_drop] at hj
  have hslot := h _ e hj
  omega

/-- What is found in the table is found in the chain. -/
theorem find?_flatten (h : Placed slot t) (hi : i < t.length) (hp : ∀ e, p e = true → slot e = i) :
    t.flatten.find? p = (chain t i).find? p := by
  have hfront : (t.take i).flatten.find? p = none := by
    apply List.find?_eq_none.mpr
    intro e he hpe
    exact h.ne_of_mem_take he (hp e hpe)
  have hback : (t.drop (i + 1)).flatten.find? p = none := by
    apply List.find?_eq_none.mpr
    intro e he hpe
    exact h.ne_of_mem_drop he (hp e hpe)
  rw [flatten_eq hi, List.find?_append, List.find?_append, hfront, hback, Option.none_or,
    Option.or_none]

/-- Entries are removed from the table when they are from the chain. -/
theorem eraseP_flatten (h : Placed slot t) (hi : i < t.length)
    (hp : ∀ e, p e = true → slot e = i) :
    (t.modify i fun c => c.eraseP p).flatten = t.flatten.eraseP p := by
  rw [flatten_modify hi, flatten_eq hi]
  rw [List.eraseP_append_right _ fun e he hpe => h.ne_of_mem_take he (hp e hpe)]
  congr 1
  by_cases hex : ∃ e ∈ chain t i, p e = true
  · obtain ⟨e, he, hpe⟩ := hex
    rw [List.eraseP_append_left hpe _ he]
  · have hnone : ∀ e ∈ chain t i, ¬p e = true := fun e he hpe => hex ⟨e, he, hpe⟩
    rw [List.eraseP_append_right _ hnone, List.eraseP_of_forall_not hnone,
      List.eraseP_of_forall_not fun e he hpe => h.ne_of_mem_drop he (hp e hpe)]

theorem modify (h : Placed slot t) (hi : i < t.length) (hf : ∀ e ∈ f (chain t i), slot e = i) :
    Placed slot (t.modify i f) := by
  intro j e he
  rw [chain_modify hi] at he
  split at he
  · next heq => exact heq ▸ hf e he
  · exact h j e he

theorem eraseP (h : Placed slot t) (hi : i < t.length) :
    Placed slot (t.modify i fun c => c.eraseP p) :=
  h.modify hi fun e he => h i e (List.mem_of_mem_eraseP he)

end Placed

/-! ### Entries in front of their chains -/

/-- An entry is put in front of the chain of its slot. -/
def push (slot : ε → ℕ) (t : List (List ε)) (e : ε) : List (List ε) :=
  t.modify (slot e) (e :: ·)

/-- Entries are put in front of their chains, one after the other. -/
def pushEach (slot : ε → ℕ) (t : List (List ε)) (es : List ε) : List (List ε) :=
  es.foldl (push slot) t

theorem push_perm (slot : ε → ℕ) (e : ε) (h : slot e < t.length) :
    (push slot t e).flatten.Perm (e :: t.flatten) := by
  unfold push
  rw [flatten_modify h, flatten_eq h]
  exact List.perm_middle

@[simp] theorem length_push (slot : ε → ℕ) (t : List (List ε)) (e : ε) :
    (push slot t e).length = t.length := List.length_modify ..

@[simp] theorem length_pushEach (slot : ε → ℕ) (t : List (List ε)) (es : List ε) :
    (pushEach slot t es).length = t.length := by
  induction es generalizing t with
  | nil => rfl
  | cons e es ih => exact (ih _).trans (length_push slot t e)

theorem Placed.push (h : Placed slot t) (he : slot e < t.length) : Placed slot (push slot t e) := by
  apply h.modify he
  intro e' he'
  rcases List.mem_cons.mp he' with rfl | hmem
  · rfl
  · exact h _ e' hmem

theorem Placed.pushEach {es : List ε} (h : Placed slot t) (hes : ∀ e ∈ es, slot e < t.length) :
    Placed slot (pushEach slot t es) := by
  induction es generalizing t with
  | nil => exact h
  | cons e es ih =>
    obtain ⟨he, hes⟩ := List.forall_mem_cons.mp hes
    exact ih (h.push he) fun e' he' => by rw [length_push]; exact hes e' he'

/-- No entry is lost, and none is there twice. -/
theorem pushEach_perm {es : List ε} (hes : ∀ e ∈ es, slot e < t.length) :
    (pushEach slot t es).flatten.Perm (es ++ t.flatten) := by
  induction es generalizing t with
  | nil => exact .refl _
  | cons e es ih =>
    obtain ⟨he, hes⟩ := List.forall_mem_cons.mp hes
    have hrest := ih (t := Buckets.push slot t e) fun e' he' => by
      rw [length_push]
      exact hes e' he'
    exact hrest.trans (((push_perm slot e he).append_left es).trans List.perm_middle)

theorem placed_replicate (slot : ε → ℕ) (n : ℕ) : Placed slot (List.replicate n []) := by
  intro i e he
  refine absurd he ?_
  unfold chain
  rw [List.getElem?_replicate]
  split <;> simp

/-! ### The map of entries -/

section Contents

variable {key : ε → α} {val : ε → β} {l l' : List ε} {k k' : α} {b : β}

/-- The keys are different. -/
def Distinct (key : ε → α) (l : List ε) : Prop := (l.map key).Nodup

theorem Distinct.cons (hl : Distinct key l) (h : ∀ e' ∈ l, key e' ≠ key e) :
    Distinct key (e :: l) := by
  refine List.nodup_cons.mpr ⟨fun hmem => ?_, hl⟩
  obtain ⟨e', he', heq⟩ := List.mem_map.mp hmem
  exact h e' he' heq

theorem Distinct.perm (h : Distinct key l) (hperm : l.Perm l') : Distinct key l' :=
  (hperm.map key).nodup_iff.mp h

theorem Distinct.eraseP (h : Distinct key l) (p : ε → Bool) : Distinct key (l.eraseP p) :=
  h.sublist (List.eraseP_sublist.map key)

theorem Distinct.map {g : ε → ε} (h : Distinct key l) (hkey : ∀ e, key (g e) = key e) :
    Distinct key (l.map g) := by
  have hmap : (l.map g).map key = l.map key := by
    rw [List.map_map]
    exact List.map_congr_left fun e _ => hkey e
  rwa [Distinct, hmap]

variable [DecidableEq α]

/-- The finite map of entries -/
def contents (key : ε → α) (val : ε → β) (l : List ε) : Finmap fun _ : α => β :=
  (l.map fun e => ⟨key e, val e⟩).toFinmap

theorem contents_cons : contents key val (e :: l) = (contents key val l).insert (key e) (val e) :=
  rfl

theorem lookup_contents (l : List ε) (k : α) :
    (contents key val l).lookup k = (l.find? fun e => key e = k).map val := by
  induction l with
  | nil => exact Finmap.lookup_empty k
  | cons e l ih =>
    rw [contents_cons]
    by_cases h : key e = k
    · subst h
      rw [Finmap.lookup_insert, List.find?_cons_of_pos (by simp)]
      rfl
    · rw [Finmap.lookup_insert_of_ne _ (Ne.symm h), ih, List.find?_cons_of_neg (by simp [h])]

theorem mem_contents : k ∈ contents key val l ↔ ∃ e ∈ l, key e = k := by
  rw [← Finmap.lookup_isSome, lookup_contents, Option.isSome_map, List.find?_isSome]
  simp

/-- The entry of a key. -/
theorem Distinct.find?_eq_some (h : Distinct key l) (he : e ∈ l) :
    (l.find? fun e' => key e' = key e) = some e := by
  obtain ⟨e', he'⟩ : ∃ e', (l.find? fun e' => key e' = key e) = some e' :=
    Option.isSome_iff_exists.mp (List.find?_isSome.mpr ⟨e, he, by simp⟩)
  have hkey : key e' = key e := by simpa using List.find?_some he'
  rw [he', List.inj_on_of_nodup_map h (List.mem_of_find?_eq_some he') he hkey]

/-- The order of the entries does not matter. -/
theorem contents_perm (h : Distinct key l) (hperm : l.Perm l') :
    contents key val l = contents key val l' := by
  apply Finmap.ext_lookup
  intro k
  have h' := h.perm hperm
  rw [lookup_contents, lookup_contents]
  cases hfind : l.find? fun e => key e = k with
  | none =>
    have hnone : (l'.find? fun e => key e = k) = none := by
      apply List.find?_eq_none.mpr
      intro e he
      exact List.find?_eq_none.mp hfind e (hperm.mem_iff.mpr he)
    rw [hnone]
  | some e =>
    have hkey : key e = k := by simpa using List.find?_some hfind
    subst hkey
    rw [h'.find?_eq_some (hperm.mem_iff.mp (List.mem_of_find?_eq_some hfind))]

theorem card_keys_contents (h : Distinct key l) : (contents key val l).keys.card = l.length := by
  have hkeys : (contents key val l).keys = (l.map key).toFinset := by
    ext k
    rw [Finmap.mem_keys, mem_contents]
    simp
  rw [hkeys, List.toFinset_card_of_nodup h, List.length_map]

theorem contents_eraseP (val : ε → β) (h : Distinct key l) (k : α) :
    contents key val (l.eraseP fun e => key e = k) = (contents key val l).erase k := by
  apply Finmap.ext_lookup
  intro k'
  induction l with
  | nil =>
    have hempty : contents key val ([] : List ε) = ∅ := rfl
    rw [List.eraseP_nil, hempty, Finmap.lookup_empty, eq_comm, Finmap.lookup_eq_none,
      Finmap.mem_erase]
    exact fun h => Finmap.notMem_empty h.2
  | cons e l ih =>
    obtain ⟨hnotmem, hl⟩ := List.nodup_cons.mp h
    by_cases hkey : key e = k
    · subst hkey
      rw [List.eraseP_cons_of_pos (by simp), contents_cons]
      by_cases hk' : k' = key e
      · subst hk'
        rw [Finmap.lookup_erase, Finmap.lookup_eq_none, mem_contents]
        rintro ⟨e', he', heq⟩
        exact hnotmem (heq ▸ List.mem_map_of_mem he')
      · rw [Finmap.lookup_erase_ne hk', Finmap.lookup_insert_of_ne _ hk']
    · rw [List.eraseP_cons_of_neg (by simp [hkey]), contents_cons, contents_cons]
      by_cases hk' : k' = key e
      · subst hk'
        rw [Finmap.lookup_insert, Finmap.lookup_erase_ne hkey, Finmap.lookup_insert]
      · rw [Finmap.lookup_insert_of_ne _ hk', ih hl]
        by_cases hk : k' = k
        · subst hk
          rw [Finmap.lookup_erase, Finmap.lookup_erase]
        · rw [Finmap.lookup_erase_ne hk, Finmap.lookup_erase_ne hk,
            Finmap.lookup_insert_of_ne _ hk']

/-- The value of a key is changed in place. -/
theorem contents_update {g : ε → ε} (hkey : ∀ e, key (g e) = key e)
    (hval : ∀ e ∈ l, key e = k → val (g e) = b)
    (hsame : ∀ e ∈ l, key e ≠ k → val (g e) = val e) (hmem : ∃ e ∈ l, key e = k) :
    contents key val (l.map g) = (contents key val l).insert k b := by
  apply Finmap.ext_lookup
  intro k'
  have hfind : ((l.map g).find? fun e => key e = k') = (l.find? fun e => key e = k').map g := by
    rw [List.find?_map]
    congr 2
    funext e
    simp [hkey]
  rw [lookup_contents, hfind, Option.map_map]
  by_cases hk : k' = k
  · subst hk
    obtain ⟨e, he, heq⟩ := hmem
    obtain ⟨e', he'⟩ : ∃ e', (l.find? fun e => key e = k') = some e' :=
      Option.isSome_iff_exists.mp (List.find?_isSome.mpr ⟨e, he, by simp [heq]⟩)
    rw [Finmap.lookup_insert, he']
    have heq' : key e' = k' := by simpa using List.find?_some he'
    exact congrArg some (hval e' (List.mem_of_find?_eq_some he') heq')
  · rw [Finmap.lookup_insert_of_ne _ hk, lookup_contents]
    cases hfind' : l.find? fun e => key e = k' with
    | none => rfl
    | some e =>
      have heq : key e = k' := by simpa using List.find?_some hfind'
      exact congrArg some (hsame e (List.mem_of_find?_eq_some hfind') (heq ▸ hk))

end Contents

end MmorpgServer.Buckets
