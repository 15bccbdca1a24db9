import MmorpgServer.Redis.Dict

/-!
# The hash table is a finite map

As long as a table has fewer than `2 ^ 30` entries, its functions do what the operations of a
finite map do, and `used` is the number of keys. With more entries the index of a chain is no
longer an `int`.

## Main definitions

* `Dict.Valid` — the invariant
* `DictCall`, `DictRun` — the functions in any order, and what they return

## Main results

* `dict_refines` — every run does what the finite map does
-/

namespace MmorpgServer.Redis

open Buckets
open Machine

variable {α β : Type} {type : DictType α} {ht ht' : Dict α β} {key : α} {val : β}
  {addr n : ℕ} {e : DictEntry α β}

namespace Dict

/-- All entries, chain by chain -/
def entries (ht : Dict α β) : List (DictEntry α β) := ht.table.flatten

/-- A size that a table can have -/
def Sized (n : ℕ) : Prop := ∃ k, n = 2 ^ k ∧ 2 ≤ k ∧ k ≤ 30

/-- What holds of every table -/
structure Valid (type : DictType α) (ht : Dict α β) : Prop where
  length : ht.table.length = ht.size
  size : ht.size = 0 ∨ Sized ht.size ∧ ht.sizemask = ht.size - 1
  placed : Placed (fun e => type.slot ht.sizemask e.key) ht.table
  distinct : Distinct DictEntry.key ht.entries
  addrs : Distinct DictEntry.addr ht.entries
  used : ht.used = ht.entries.length
  le : ht.used ≤ ht.size

end Dict

open Dict

theorem valid_create : Valid type (dictCreate : Dict α β) where
  length := rfl
  size := .inl rfl
  placed := fun i e he => absurd he (by simp [chain, dictCreate])
  distinct := List.nodup_nil
  addrs := List.nodup_nil
  used := rfl
  le := le_rfl

/-! ### Sizes -/

theorem Dict.Sized.pos (h : Sized n) : 0 < n := by
  obtain ⟨k, rfl, -, -⟩ := h
  exact Nat.two_pow_pos k

theorem Dict.Sized.le (h : Sized n) : n ≤ 2 ^ 30 := by
  obtain ⟨k, rfl, -, hk⟩ := h
  exact Nat.pow_le_pow_right (by omega) hk

/-- The double of a size is one, below the limit. -/
theorem Dict.Sized.double (h : Sized n) (hlt : n < 2 ^ 30) : Sized (n * 2) := by
  obtain ⟨k, rfl, hlow, hk⟩ := h
  refine ⟨k + 1, (pow_succ 2 k).symm, by omega, ?_⟩
  have hne : k ≠ 30 := fun heq => absurd hlt (by rw [heq]; omega)
  omega

theorem nextPowerLoop_pow {j k : ℕ} (h : j ≤ k) : nextPowerLoop (2 ^ k) (2 ^ j) = 2 ^ k := by
  induction hd : k - j generalizing j with
  | zero =>
    obtain rfl : j = k := by omega
    rw [nextPowerLoop, if_pos (.inl le_rfl)]
  | succ d ih =>
    have hlt : 2 ^ j < 2 ^ k := Nat.pow_lt_pow_right (by omega) (by omega)
    have hpos := Nat.two_pow_pos j
    rw [nextPowerLoop, if_neg (by omega), ← pow_succ]
    exact ih (by omega) (by omega)

theorem dictNextPower_sized (h : Sized n) : dictNextPower n = n := by
  have hle := h.le
  obtain ⟨k, rfl, hlow, hk⟩ := h
  unfold dictNextPower
  rw [if_neg (by unfold longMax; omega)]
  exact nextPowerLoop_pow hlow

theorem slot_lt (type : DictType α) (key : α) (h : 0 < n) : type.slot (n - 1) key < n := by
  have hle : type.slot (n - 1) key ≤ n - 1 := Nat.and_le_right
  omega

/-! ### Growing -/

/-- No entry is lost by the loop of `dictExpand`. -/
theorem dictExpandLoop_eq (type : DictType α) (mask : ℕ)
    {chains table : List (List (DictEntry α β))} {used : ℕ} (hused : used = chains.flatten.length) :
    dictExpandLoop type mask chains table used =
      (pushEach (fun e => type.slot mask e.key) table chains.flatten, 0) := by
  induction chains generalizing table used with
  | nil =>
    obtain rfl : used = 0 := hused
    rfl
  | cons he chains ih =>
    rw [List.flatten_cons, List.length_append] at hused
    unfold dictExpandLoop
    by_cases hpos : used > 0
    · rw [if_pos hpos, ih (by omega), List.flatten_cons, pushEach, pushEach, pushEach,
        List.foldl_append]
    · have hnil : (he :: chains).flatten = [] := by
        apply List.eq_nil_of_length_eq_zero
        rw [List.flatten_cons, List.length_append]
        omega
      rw [if_neg hpos, hnil]
      obtain rfl : used = 0 := by omega
      rfl

/-- A larger table has the same entries. -/
theorem Dict.Valid.expand (h : Valid type ht) (hn : Sized n) (hle : ht.used ≤ n) :
    ∃ ht', dictExpand type ht n = some (ht', true) ∧ Valid type ht' ∧
      ht'.entries.Perm ht.entries ∧ ht'.size = n := by
  have hpos := hn.pos
  have hslot : ∀ e ∈ ht.entries,
      type.slot (n - 1) e.key < (List.replicate n ([] : List (DictEntry α β))).length := by
    intro e _
    rw [List.length_replicate]
    exact slot_lt type e.key hpos
  have hperm := pushEach_perm hslot
  rw [List.flatten_replicate_nil, List.append_nil] at hperm
  refine ⟨⟨pushEach (fun e => type.slot (n - 1) e.key) (List.replicate n []) ht.entries, n, n - 1,
    ht.used⟩, ?_, ?_, hperm, rfl⟩
  · unfold dictExpand
    rw [if_neg (by omega), dictNextPower_sized hn, dictExpandLoop_eq type (n - 1) h.used]
    rfl
  · exact { length := by rw [length_pushEach, List.length_replicate]
            size := .inr ⟨hn, rfl⟩
            placed := (placed_replicate _ n).pushEach hslot
            distinct := h.distinct.perm hperm.symm
            addrs := h.addrs.perm hperm.symm
            used := h.used.trans hperm.length_eq.symm
            le := hle }

/-- There is room for one more entry. -/
theorem Dict.Valid.expandIfNeeded (h : Valid type ht) (hlt : ht.used < 2 ^ 30) :
    ∃ ht', dictExpandIfNeeded type ht = some (ht', true) ∧ Valid type ht' ∧
      ht'.entries.Perm ht.entries ∧ ht'.used < ht'.size ∧ Sized ht'.size := by
  unfold dictExpandIfNeeded
  rcases h.size with hzero | ⟨hsized, -⟩
  · have hfour : Sized 4 := ⟨2, rfl, le_rfl, by omega⟩
    have hused := h.le
    obtain ⟨ht', hexp, hvalid, hperm, hsize⟩ := h.expand hfour (by omega)
    rw [if_pos hzero]
    refine ⟨ht', hexp, hvalid, hperm, ?_, hsize ▸ hfour⟩
    rw [hvalid.used, hperm.length_eq, ← h.used]
    omega
  · have hpos := hsized.pos
    rw [if_neg (by omega)]
    by_cases hfull : ht.used = ht.size
    · have hdouble := hsized.double (hfull ▸ hlt)
      obtain ⟨ht', hexp, hvalid, hperm, hsize⟩ := h.expand hdouble (by omega)
      rw [if_pos hfull, Nat.mod_eq_of_lt (by omega)]
      refine ⟨ht', hexp, hvalid, hperm, ?_, hsize ▸ hdouble⟩
      rw [hvalid.used, hperm.length_eq, ← h.used]
      omega
    · rw [if_neg hfull]
      have hle := h.le
      exact ⟨ht, rfl, h, .refl _, by omega, hsized⟩

/-! ### Looking up -/

theorem Dict.Valid.entries_of_size (h : Valid type ht) (hzero : ht.size = 0) :
    ht.entries = [] := by
  have hused := h.used
  have hle := h.le
  exact List.eq_nil_of_length_eq_zero (by omega)

theorem entries_setHashVal (ht : Dict α β) (addr : ℕ) (val : β) :
    (dictSetHashVal ht addr val).entries =
      ht.entries.map fun he => if he.addr = addr then { he with val } else he := by
  unfold Dict.entries dictSetHashVal
  rw [List.map_flatten]

theorem chain_map {γ δ : Type} (g : γ → δ) (t : List (List γ)) (i : ℕ) :
    chain (t.map fun c => c.map g) i = (chain t i).map g := by
  unfold chain
  rw [List.getElem?_map]
  cases t[i]? <;> rfl

theorem Dict.Valid.slot_lt (h : Valid type ht) (hpos : 0 < ht.size) (key : α) :
    type.slot ht.sizemask key < ht.table.length := by
  rw [h.length]
  rcases h.size with hzero | ⟨-, hmask⟩
  · omega
  · rw [hmask]
    exact Redis.slot_lt type key hpos

variable [DecidableEq α]

/-- The finite map of a table -/
def Dict.map (ht : Dict α β) : Finmap fun _ : α => β :=
  contents DictEntry.key DictEntry.val ht.entries

theorem keyCompare_eq (type : DictType α) (key : α) :
    (fun he : DictEntry α β => type.keyCompare key he.key) = fun he => decide (he.key = key) := by
  funext he
  rw [Bool.eq_iff_iff, type.keyCompare_iff, decide_eq_true_iff]
  exact eq_comm

/-- An entry of the key is searched for in its chain only. -/
theorem Dict.Valid.search_eq (h : Valid type ht) (hpos : 0 < ht.size) (key : α) :
    ht.search type (type.slot ht.sizemask key) key =
      ht.entries.find? fun he => he.key = key := by
  unfold Dict.search Dict.entries
  rw [keyCompare_eq, h.placed.find?_flatten (h.slot_lt hpos key)]
  intro e he
  rw [of_decide_eq_true he]

theorem Dict.Valid.find_eq (h : Valid type ht) (key : α) :
    dictFind type ht key = ht.entries.find? fun he => he.key = key := by
  unfold dictFind
  by_cases hzero : ht.size = 0
  · rw [if_pos hzero, h.entries_of_size hzero]
    rfl
  · rw [if_neg hzero, h.search_eq (by omega)]

/-- What is found is what the map has. -/
theorem Dict.Valid.lookup_map (h : Valid type ht) (key : α) :
    ht.map.lookup key = (dictFind type ht key).map DictEntry.val := by
  rw [h.find_eq]
  exact lookup_contents ht.entries key

theorem Dict.Valid.mem_map (h : Valid type ht) (key : α) :
    key ∈ ht.map ↔ (dictFind type ht key).isSome := by
  rw [← Finmap.lookup_isSome, h.lookup_map, Option.isSome_map]

/-- `used` is the number of keys. -/
theorem Dict.Valid.card_map (h : Valid type ht) : ht.map.keys.card = ht.used :=
  (card_keys_contents h.distinct).trans h.used.symm

/-! ### Adding -/

/-- The index where a key can be added -/
theorem Dict.Valid.keyIndex (h : Valid type ht) (hlt : ht.used < 2 ^ 30) (key : α) :
    ∃ ht', dictKeyIndex type ht key = some (ht',
        if key ∈ ht.map then -1 else (type.slot ht'.sizemask key : ℤ)) ∧
      Valid type ht' ∧ ht'.map = ht.map ∧ ht'.entries.Perm ht.entries ∧ ht'.used < ht'.size := by
  obtain ⟨ht', hexp, hvalid, hperm, hroom, hsized⟩ := h.expandIfNeeded hlt
  have hmap : ht'.map = ht.map := contents_perm hvalid.distinct hperm
  refine ⟨ht', ?_, hvalid, hmap, hperm, hroom⟩
  have hfind := hvalid.find_eq key
  unfold dictFind at hfind
  rw [if_neg (by omega)] at hfind
  unfold dictKeyIndex
  rw [hexp]
  simp only [Option.map_some, Bool.true_eq_false, if_false, ← hmap, hvalid.mem_map key,
    hvalid.find_eq, hfind]
  split
  · rfl
  · have hslot := hvalid.slot_lt (by omega) key
    have hle := hsized.le
    rw [hvalid.length] at hslot
    rw [toInt_of_lt (by omega) (by omega)]

/-- An entry at a fresh address -/
theorem Dict.Valid.push (h : Valid type ht) (val : β) (hroom : ht.used < ht.size)
    (hkey : key ∉ ht.map)
    (haddr : addr ∉ ht.entries.map DictEntry.addr) :
    Valid type { ht with
        table := ht.table.modify (type.slot ht.sizemask key) (⟨addr, key, val⟩ :: ·)
        used := ht.used + 1 } ∧
      Dict.map { ht with
        table := ht.table.modify (type.slot ht.sizemask key) (⟨addr, key, val⟩ :: ·)
        used := ht.used + 1 } = ht.map.insert key val := by
  have hslot := h.slot_lt (by omega) key
  have hperm := push_perm (fun e : DictEntry α β => type.slot ht.sizemask e.key)
    ⟨addr, key, val⟩ hslot
  have hkeys : Distinct DictEntry.key (⟨addr, key, val⟩ :: ht.entries) := by
    apply h.distinct.cons
    intro e' he' heq
    exact hkey (mem_contents.mpr ⟨e', he', heq⟩)
  have haddrs : Distinct DictEntry.addr (⟨addr, key, val⟩ :: ht.entries) := by
    apply h.addrs.cons
    intro e' he' heq
    exact haddr (List.mem_map.mpr ⟨e', he', heq⟩)
  refine ⟨?_, (contents_perm (hkeys.perm hperm.symm) hperm).trans contents_cons⟩
  exact { length := (List.length_modify ..).trans h.length
          size := h.size
          placed := h.placed.push hslot
          distinct := hkeys.perm hperm.symm
          addrs := haddrs.perm hperm.symm
          used := by rw [h.used]; exact hperm.length_eq.symm
          le := hroom }

/-- What `dictAdd` does -/
theorem Dict.Valid.add (h : Valid type ht) (key : α) (val : β) (hlt : ht.used < 2 ^ 30)
    (haddr : addr ∉ ht.entries.map DictEntry.addr) :
    ∃ ht', dictAdd type ht key val addr = some (ht', decide (key ∉ ht.map)) ∧ Valid type ht' ∧
      ht'.map = (if key ∈ ht.map then ht.map else ht.map.insert key val) ∧
      ∀ e ∈ ht'.entries, e.addr ∈ ht.entries.map DictEntry.addr ∨ e.addr = addr := by
  obtain ⟨ht', hindex, hvalid, hmap, hperm, hroom⟩ := h.keyIndex hlt key
  unfold dictAdd
  rw [hindex]
  by_cases hmem : key ∈ ht.map
  · refine ⟨ht', ?_, hvalid, by rw [if_pos hmem, hmap], fun e he => .inl ?_⟩
    · simp [hmem]
    · exact List.mem_map_of_mem (hperm.mem_iff.mp he)
  · have haddr' : addr ∉ ht'.entries.map DictEntry.addr := by
      rwa [(hperm.map DictEntry.addr).mem_iff]
    obtain ⟨hvalid', hmap'⟩ := hvalid.push val hroom (hmap ▸ hmem) haddr'
    refine ⟨_, ?_, hvalid', by rw [if_neg hmem, hmap', hmap], fun e he => ?_⟩
    · rw [Option.bind_some, if_neg hmem, if_neg (by omega), if_neg (by omega), Int.toNat_natCast]
      simp [hmem]
    · have hslot := hvalid.slot_lt (by omega) key
      have hpush := push_perm (fun e : DictEntry α β => type.slot ht'.sizemask e.key)
        ⟨addr, key, val⟩ hslot
      rcases List.mem_cons.mp (hpush.mem_iff.mp he) with rfl | hold
      · exact .inr rfl
      · exact .inl (List.mem_map_of_mem (hperm.mem_iff.mp hold))

/-! ### Changing and removing -/

/-- What `dictSetHashVal` does -/
theorem Dict.Valid.setHashVal (h : Valid type ht) (he : e ∈ ht.entries) (val : β) :
    Valid type (dictSetHashVal ht e.addr val) ∧
      (dictSetHashVal ht e.addr val).map = ht.map.insert e.key val := by
  have hkey : ∀ he : DictEntry α β,
      (if he.addr = e.addr then { he with val } else he).key = he.key := by
    intro he
    split <;> rfl
  have haddr : ∀ he : DictEntry α β,
      (if he.addr = e.addr then { he with val } else he).addr = he.addr := by
    intro he
    split <;> rfl
  have hentries := entries_setHashVal ht e.addr val
  have hsame : ∀ e' ∈ ht.entries, e'.key = e.key → e' = e := fun e' he' heq =>
    List.inj_on_of_nodup_map h.distinct he' he heq
  constructor
  · exact { length := (List.length_map ..).trans h.length
            size := h.size
            placed := by
              intro i e' he'
              rw [dictSetHashVal, chain_map] at he'
              obtain ⟨e'', hmem, rfl⟩ := List.mem_map.mp he'
              dsimp only
              rw [hkey]
              exact h.placed i e'' hmem
            distinct := by rw [hentries]; exact h.distinct.map hkey
            addrs := by rw [hentries]; exact h.addrs.map haddr
            used := by rw [hentries, List.length_map]; exact h.used
            le := h.le }
  · unfold Dict.map
    rw [hentries]
    refine contents_update hkey ?_ ?_ ⟨e, he, rfl⟩
    · intro e' he' heq
      rw [hsame e' he' heq, if_pos rfl]
    · intro e' he' hne
      rw [if_neg fun heq => hne ?_]
      rw [List.inj_on_of_nodup_map h.addrs he' he heq]

/-- What `dictReplace` does -/
theorem Dict.Valid.replace (h : Valid type ht) (key : α) (val : β) (hlt : ht.used < 2 ^ 30)
    (haddr : addr ∉ ht.entries.map DictEntry.addr) :
    ∃ ht', dictReplace type ht key val addr = some (ht', decide (key ∉ ht.map)) ∧
      Valid type ht' ∧ ht'.map = ht.map.insert key val ∧
      ∀ e ∈ ht'.entries, e.addr ∈ ht.entries.map DictEntry.addr ∨ e.addr = addr := by
  obtain ⟨ht', hadd, hvalid, hmap, haddrs⟩ := h.add key val hlt haddr
  unfold dictReplace
  rw [hadd]
  by_cases hmem : key ∈ ht.map
  · rw [if_pos hmem] at hmap
    obtain ⟨entry, hentry⟩ := Option.isSome_iff_exists.mp ((hvalid.mem_map key).mp (hmap ▸ hmem))
    have hfound := hentry
    rw [hvalid.find_eq] at hfound
    obtain ⟨hvalid', hmap'⟩ := hvalid.setHashVal (List.mem_of_find?_eq_some hfound) val
    have hkey : entry.key = key := by simpa using List.find?_some hfound
    refine ⟨_, ?_, hvalid', by rw [hmap', hmap, hkey], fun e he => ?_⟩
    · simp [hmem, hentry]
    · rw [entries_setHashVal] at he
      obtain ⟨e', he', rfl⟩ := List.mem_map.mp he
      have haddr' : (if e'.addr = entry.addr then { e' with val } else e').addr = e'.addr := by
        split <;> rfl
      rw [haddr']
      exact haddrs e' he'
  · rw [if_neg hmem] at hmap
    refine ⟨ht', ?_, hvalid, hmap, haddrs⟩
    simp [hmem]

/-- What `dictDelete` does -/
theorem Dict.Valid.delete (h : Valid type ht) (key : α) :
    (dictDelete type ht key).2 = decide (key ∈ ht.map) ∧ Valid type (dictDelete type ht key).1 ∧
      (dictDelete type ht key).1.map = ht.map.erase key ∧
      (dictDelete type ht key).1.entries = ht.entries.eraseP fun he => he.key = key := by
  have hmem := h.mem_map key
  rw [h.find_eq] at hmem
  -- nothing is removed where there is no entry of the key
  have hnone : key ∉ ht.map → (ht.entries.eraseP fun he => he.key = key) = ht.entries := by
    intro hnot
    apply List.eraseP_of_forall_not
    intro e he hkey
    exact hnot (mem_contents.mpr ⟨e, he, of_decide_eq_true hkey⟩)
  have herase : key ∉ ht.map → ht.map = ht.map.erase key := by
    intro hnot
    have hmap := contents_eraseP DictEntry.val h.distinct key
    rw [hnone hnot] at hmap
    exact hmap
  unfold dictDelete
  by_cases hzero : ht.size = 0
  · have hnot : key ∉ ht.map := by
      rw [hmem, h.entries_of_size hzero]
      simp
    rw [if_pos hzero]
    exact ⟨by simp [hnot], h, herase hnot, (hnone hnot).symm⟩
  · rw [if_neg hzero]
    dsimp only
    rw [h.search_eq (by omega)]
    by_cases hin : key ∈ ht.map
    · have hslot := h.slot_lt (by omega) key
      have hentries : Dict.entries { ht with
          table := ht.table.modify (type.slot ht.sizemask key) fun c => c.eraseP fun de =>
            type.keyCompare key de.key
          used := ht.used - 1 } = ht.entries.eraseP fun he => he.key = key := by
        unfold Dict.entries
        rw [keyCompare_eq]
        exact h.placed.eraseP_flatten hslot fun e he => by rw [of_decide_eq_true he]
      obtain ⟨e, he, hkey⟩ := mem_contents.mp hin
      have hlength : (ht.entries.eraseP fun he => he.key = key).length = ht.entries.length - 1 :=
        List.length_eraseP_of_mem he (by simp [hkey])
      rw [if_pos (hmem.mp hin)]
      refine ⟨by simp [hin], ?_, ?_, hentries⟩
      · exact { length := (List.length_modify ..).trans h.length
                size := h.size
                placed := h.placed.eraseP hslot
                distinct := by rw [hentries]; exact h.distinct.eraseP _
                addrs := by rw [hentries]; exact h.addrs.eraseP _
                used := by rw [hentries, hlength, ← h.used]
                le := (Nat.sub_le _ _).trans h.le }
      · unfold Dict.map
        rw [hentries]
        exact contents_eraseP _ h.distinct key
    · rw [if_neg fun hsome => hin (hmem.mpr hsome)]
      exact ⟨by simp [hin], h, herase hin, (hnone hin).symm⟩

/-! ### Runs -/

inductive DictCall (α β : Type) where
  | add (key : α) (val : β) (addr : ℕ)
  | replace (key : α) (val : β) (addr : ℕ)
  | delete (key : α)
  | find (key : α)
  deriving DecidableEq

/-- What a call returns -/
inductive DictResult (β : Type) where
  | flag (b : Bool)
  | value (val : Option β)
  deriving DecidableEq

/-- A call of a table, `none` where it is undefined -/
def Dict.call (type : DictType α) (ht : Dict α β) :
    DictCall α β → Option (Dict α β × List (DictResult β))
  | .add key val addr => (dictAdd type ht key val addr).map fun res => (res.1, [.flag res.2])
  | .replace key val addr =>
    (dictReplace type ht key val addr).map fun res => (res.1, [.flag res.2])
  | .delete key => some ((dictDelete type ht key).1, [.flag (dictDelete type ht key).2])
  | .find key => some (ht, [.value ((dictFind type ht key).map DictEntry.val)])

/-- There is room for one more entry, and its address is new. -/
def Dict.Room (ht : Dict α β) : DictCall α β → Prop
  | .add _ _ addr | .replace _ _ addr =>
    ht.used < 2 ^ 30 ∧ addr ∉ ht.entries.map DictEntry.addr
  | _ => True

/-- What the finite map does -/
def mapCall (m : Finmap fun _ : α => β) :
    DictCall α β → (Finmap fun _ : α => β) × List (DictResult β)
  | .add key val _ => (if key ∈ m then m else m.insert key val, [.flag (key ∉ m)])
  | .replace key val _ => (m.insert key val, [.flag (key ∉ m)])
  | .delete key => (m.erase key, [.flag (key ∈ m)])
  | .find key => (m, [.value (m.lookup key)])

/-- A call does what the map does. -/
theorem Dict.Valid.call (h : Valid type ht) {c : DictCall α β} (hroom : ht.Room c) :
    ∃ ht', ht.call type c = some (ht', (mapCall ht.map c).2) ∧ Valid type ht' ∧
      ht'.map = (mapCall ht.map c).1 := by
  cases c with
  | add key val addr =>
    obtain ⟨ht', hadd, hvalid, hmap, -⟩ := h.add key val hroom.1 hroom.2
    exact ⟨ht', by simp [Dict.call, hadd, mapCall], hvalid, hmap⟩
  | replace key val addr =>
    obtain ⟨ht', hrep, hvalid, hmap, -⟩ := h.replace key val hroom.1 hroom.2
    exact ⟨ht', by simp [Dict.call, hrep, mapCall], hvalid, hmap⟩
  | delete key =>
    obtain ⟨hflag, hvalid, hmap, -⟩ := h.delete key
    exact ⟨_, by rw [Dict.call, hflag]; rfl, hvalid, hmap⟩
  | find key => exact ⟨ht, by rw [Dict.call, ← h.lookup_map]; rfl, h, rfl⟩

/-- A finite map as a machine -/
def mapStep (m : Finmap fun _ : α => β) (c : DictCall α β) :
    Option ((Finmap fun _ : α => β) × List (DictResult β)) := some (mapCall m c)

/-- Whatever is added, replaced, removed and looked up, and whenever the table grows: every call is
defined and returns what a finite map returns, the table has the entries of the map, and `used` is
how many there are. -/
theorem dict_refines {calls : List (DictCall α β)}
    (hroom : Guarded (traced (Dict.call type)) (fun st => Dict.Room st.1) (dictCreate, []) calls) :
    ∃ ht results m, exec (traced (Dict.call type)) (dictCreate, []) calls = some (ht, results) ∧
      exec (traced mapStep) (∅, []) calls = some (m, results) ∧ ht.map = m ∧
      ht.used = m.keys.card ∧ ∀ key, (dictFind type ht key).map DictEntry.val = m.lookup key := by
  suffices hrun : ∀ (ht : Dict α β) (results : List (DictResult β)), Valid type ht →
      Guarded (traced (Dict.call type)) (fun st => Dict.Room st.1) (ht, results) calls →
      ∃ ht' results', exec (traced (Dict.call type)) (ht, results) calls = some (ht', results') ∧
        exec (traced mapStep) (ht.map, results) calls = some (ht'.map, results') ∧
        Valid type ht' by
    obtain ⟨ht', results', hexec, hmap, hvalid⟩ := hrun dictCreate [] valid_create hroom
    exact ⟨ht', results', ht'.map, hexec, hmap, rfl, hvalid.card_map.symm,
      fun key => (hvalid.lookup_map key).symm⟩
  clear hroom
  induction calls with
  | nil => exact fun ht results hvalid _ => ⟨ht, results, rfl, rfl, hvalid⟩
  | cons c calls ih =>
    intro ht results hvalid hguard
    obtain ⟨ht₁, hcall, hvalid₁, hmap₁⟩ := hvalid.call hguard.1
    have hone : traced (Dict.call type) (ht, results) c =
        some (ht₁, results ++ (mapCall ht.map c).2) := traced_eq_some.mpr ⟨_, _, hcall, rfl⟩
    obtain ⟨ht', results', hexec, hmap, hvalid'⟩ := ih ht₁ _ hvalid₁ (hguard.2 _ hone)
    have hspec : traced mapStep (ht.map, results) c =
        some (ht₁.map, results ++ (mapCall ht.map c).2) :=
      traced_eq_some.mpr ⟨_, _, rfl, by rw [hmap₁]; rfl⟩
    exact ⟨ht', results', exec_cons_eq_some.mpr ⟨_, hone, hexec⟩,
      exec_cons_eq_some.mpr ⟨_, hspec, hmap⟩, hvalid'⟩

instance Dict.Room.decidable (ht : Dict α β) : ∀ c, Decidable (ht.Room c)
  | .add _ _ _ => inferInstanceAs (Decidable (_ ∧ _))
  | .replace _ _ _ => inferInstanceAs (Decidable (_ ∧ _))
  | .delete _ => isTrue trivial
  | .find _ => isTrue trivial

/-- Five channels, of which one is replaced and one is removed; the table grows once. -/
def fiveKeys : List (DictCall Bytes ℕ) :=
  [.add (bytes "a") 1 10, .add (bytes "b") 2 20, .add (bytes "c") 3 30, .add (bytes "d") 4 40,
    .replace (bytes "b") 5 50, .add (bytes "e") 6 50, .delete (bytes "c"), .add (bytes "a") 7 30,
    .find (bytes "b")]

theorem dict_refines_fiveKeys : ∃ ht results m,
    exec (traced (Dict.call callbackDict)) (dictCreate, []) fiveKeys = some (ht, results) ∧
      exec (traced mapStep) (∅, []) fiveKeys = some (m, results) ∧ ht.used = m.keys.card := by
  obtain ⟨ht, results, m, hexec, hmap, -, hcard, -⟩ :=
    @dict_refines _ _ callbackDict _ fiveKeys (by decide +kernel)
  exact ⟨ht, results, m, hexec, hmap, hcard⟩

end MmorpgServer.Redis
