import MmorpgServer.Redis.SdsHeader
import MmorpgServer.Lib.Machine
import Mathlib.Data.List.DropRight

/-!
# What dynamic strings stand for

A string in memory stands for its bytes. Every function of `sds.c` that changes a string stays in
the block, leaves a header that is right, and does to the bytes what it is documented to do. So the
other modules may take a string as its bytes.

## Main definitions

* `Rep` — a string in memory stands for bytes
* `SdsCall.apply` — what a call does to the bytes
* `Fits` — the calls that are spoken of

## Main results

* `sdsMakeRoomFor_rep`, `sdscatlen_rep`, and so on — a function on memory and on bytes
* `sds_refines` — every run of calls does to the bytes what each call is to do
-/

namespace MmorpgServer.Redis.Header

open Block Machine

variable {s s' : Sds} {u v t rest : Bytes} {n len addlen : ℕ} {mem : Option (ℕ → UInt8)}
  {fill : ℕ → UInt8} {type : SdsType}

/-- The header is right about the block. -/
structure Sound (s : Sds) : Prop where
  room : sdsalloc s + 1 ≤ s.buf.length
  bits : sdsalloc s < 2 ^ s.type.bits

structure Rep (s : Sds) (u : Bytes) : Prop extends Sound s where
  buf : ∃ spare, s.buf = u ++ 0 :: spare
  len : s.len = u.length
  le : u.length ≤ sdsalloc s

/-! ### Lengths and writes -/

/-- The length of a string that ends in front of a zero byte -/
theorem rep_setlen (h : Sound s) (hbuf : ∃ spare, s.buf = v ++ 0 :: spare)
    (hle : v.length ≤ sdsalloc s) : Rep (sdssetlen s v.length) v := by
  have hbits := h.bits
  have hroom := h.room
  have hlen : v.length % 2 ^ s.type.bits = v.length := Nat.mod_eq_of_lt (by omega)
  by_cases htype : s.type = .t5
  · have halloc : sdsalloc (sdssetlen s v.length) = v.length := by
      unfold sdsalloc sdssetlen
      rw [if_pos htype]
      exact hlen
    exact { room := by
              rw [halloc]
              exact le_trans (by omega) hroom
            bits := by
              rw [halloc]
              exact lt_of_le_of_lt hle hbits
            buf := hbuf
            len := hlen
            le := halloc.ge }
  · have halloc : sdsalloc (sdssetlen s v.length) = sdsalloc s := by
      unfold sdsalloc sdssetlen
      rw [if_neg htype, if_neg htype]
    exact { room := by rw [halloc]; exact hroom
            bits := by rw [halloc]; exact hbits
            buf := hbuf
            len := hlen
            le := by rw [halloc]; exact hle }

/-- Only the header matters for how much room there is. -/
theorem Sound.congr (h : Sound s) {buf : Bytes} (hlen : buf.length = s.buf.length) :
    Sound { s with buf } :=
  ⟨le_trans h.room hlen.ge, h.bits⟩

theorem put_text (hbuf : s.buf = v ++ rest) (hle : t.length ≤ rest.length) :
    ∃ rest', s.put v.length t = some { s with buf := v ++ (t ++ rest') } ∧
      rest'.length = rest.length - t.length := by
  obtain ⟨b, c, rfl, hb⟩ := exists_append_of_le hle
  refine ⟨c, ?_, by rw [List.length_append]; omega⟩
  unfold Sds.put
  rw [hbuf, write_append hb rfl, Option.map_some]

/-- The length may be set in front of a write or behind it. -/
theorem setlen_put (s : Sds) (n i : ℕ) (t : Bytes) :
    (sdssetlen s n).put i t = (s.put i t).map fun s => sdssetlen s n := by
  unfold Sds.put
  rw [Option.map_map]
  rfl

/-- Writes do not change the header. -/
theorem setlen_of_put {i : ℕ} (hput : s.put i t = some s') (hlen : s.len = n % 2 ^ s.type.bits) :
    sdssetlen s' n = s' := by
  obtain ⟨buf, -, rfl⟩ := Option.map_eq_some_iff.mp hput
  unfold sdssetlen
  dsimp only
  rw [← hlen]

/-- Bytes are written into the room behind others. -/
theorem text_sound (h : Sound s) (hbuf : s.buf = v ++ rest)
    (hle : v.length + t.length ≤ sdsalloc s + 1) :
    ∃ s₁ rest', s.put v.length t = some s₁ ∧ Sound s₁ ∧ sdsalloc s₁ = sdsalloc s ∧
      s₁.type = s.type ∧ s₁.len = s.len ∧ s₁.alloc = s.alloc ∧ s₁.buf = (v ++ t) ++ rest' := by
  have hroom := h.room
  have hlength := congrArg List.length hbuf
  rw [List.length_append] at hlength
  obtain ⟨rest', hput, hrest⟩ := @put_text s v t rest hbuf (by omega)
  refine ⟨_, rest', hput, h.congr ?_, rfl, rfl, rfl, rfl, (List.append_assoc _ _ _).symm⟩
  simp only [List.length_append]
  omega

/-- A string is ended with a zero byte, and its length is set. -/
theorem end_rep (h : Sound s) (hbuf : s.buf = v ++ rest) (hle : v.length ≤ sdsalloc s) :
    ∃ s₁, s.put v.length [0] = some s₁ ∧ Rep (sdssetlen s₁ v.length) v := by
  obtain ⟨s₁, rest', hput, hsound, halloc, -, -, -, hbuf₁⟩ :=
    @text_sound s v [0] rest h hbuf (Nat.add_le_add_right hle 1)
  refine ⟨s₁, hput, rep_setlen hsound ⟨rest', hbuf₁.trans (List.append_assoc _ _ _)⟩ ?_⟩
  rw [halloc]
  exact hle

/-! ### Allocation -/

theorem hdrSize_le (type : SdsType) : sdsHdrSize type ≤ 17 := by
  cases type <;> decide

theorem behindHeader_eq (type : SdsType) (h : n < 2 ^ 63) : behindHeader type n = n + 1 := by
  have hle := hdrSize_le type
  unfold behindHeader
  rw [Nat.mod_eq_of_lt (by omega)]
  omega

/-- The header that is chosen for a size has room for it. -/
theorem lt_reqType (h : n < 2 ^ 64) : n < 2 ^ (sdsReqType n).bits := by
  unfold sdsReqType
  split_ifs with h5 h8 h16 h32
  · exact h5
  · exact lt_trans h8 (by decide)
  · exact lt_trans h16 (by decide)
  · exact lt_trans h32 (by decide)
  · exact h

/-- The header of a block that begins with a string and its zero byte -/
theorem rep_setalloc (hlen : s.len = u.length) (hbuf : s.buf = (u ++ [0]) ++ rest)
    (hlength : s.buf.length = n + 1) (hle : u.length ≤ n) (hbits : n < 2 ^ s.type.bits)
    (htype : s.type = .t5 → n = u.length) :
    Rep (sdssetalloc s n) u ∧ n ≤ sdsalloc (sdssetalloc s n) := by
  have hsame : (sdssetalloc s n).type = s.type ∧ (sdssetalloc s n).buf = s.buf ∧
      (sdssetalloc s n).len = s.len := by
    unfold sdssetalloc
    split_ifs <;> exact ⟨rfl, rfl, rfl⟩
  obtain ⟨htypes, hbufs, hlens⟩ := hsame
  have halloc : sdsalloc (sdssetalloc s n) = n := by
    unfold sdsalloc sdssetalloc
    by_cases ht5 : s.type = .t5
    · rw [if_pos ht5, if_pos ht5, hlen, htype ht5]
    · rw [if_neg ht5, if_neg ht5]
      exact Nat.mod_eq_of_lt hbits
  refine ⟨{ room := ?_, bits := ?_, buf := ⟨rest, ?_⟩, len := hlens.trans hlen, le := ?_ },
    halloc.ge⟩
  · rw [halloc, hbufs, hlength]
  · rw [halloc, htypes]
    exact hbits
  · rw [hbufs, hbuf, List.append_assoc]
    rfl
  · rw [halloc]
    exact hle

/-- A string that has moved is the same, with the room that was asked for. A header of type `t5`
does not know of room. -/
theorem move_rep (h : Rep s u) (hn : n < 2 ^ 63) (hle : u.length ≤ n) (hbits : n < 2 ^ type.bits)
    (htype : type = .t5 → n = u.length) :
    ∃ s', s.move fill type n = some s' ∧ Rep s' u ∧ n ≤ sdsalloc s' := by
  obtain ⟨spare, hbuf⟩ := h.buf
  have hsplit : s.buf = (u ++ [0]) ++ spare := by rw [hbuf, List.append_assoc]; rfl
  have hkeep : (u ++ [0]).length ≤ n + 1 := by
    rw [List.length_append, List.length_singleton]
    omega
  unfold Sds.move
  rw [behindHeader_eq type hn]
  by_cases hsame : s.type = type
  · -- the block is made longer or shorter
    rw [if_pos hsame]
    obtain ⟨rest, hresize, -⟩ := resize_append (b := spare) fill hkeep
    have hbits' : n < 2 ^ s.type.bits := by rw [hsame]; exact hbits
    exact ⟨_, rfl, @rep_setalloc { s with buf := resize fill (n + 1) s.buf } u rest n h.len
      (by rw [hsplit]; exact hresize) (length_resize _ _ _) hle hbits' fun ht =>
        htype (hsame.symm.trans ht)⟩
  · -- the string is copied
    have hlong : s.len + 1 ≤ s.buf.length := by
      rw [h.len, hbuf]
      simp
    have htake : s.buf.take (s.len + 1) = u ++ [0] := by
      rw [hsplit, h.len]
      exact List.take_left' (by simp)
    obtain ⟨rest, hput, hrest⟩ := @put_text ⟨type, 0, 0, resize fill (n + 1) []⟩ [] (u ++ [0])
      (resize fill (n + 1) []) rfl (by rw [length_resize]; exact hkeep)
    have hlen : s.len % 2 ^ type.bits = u.length := by
      rw [h.len]
      exact Nat.mod_eq_of_lt (by omega)
    have hlength : (u ++ [0] ++ rest).length = n + 1 := by
      rw [length_resize] at hrest
      rw [List.length_append]
      omega
    rw [if_neg hsame, if_pos hlong, htake]
    refine ⟨sdssetalloc (sdssetlen ⟨type, 0, 0, u ++ [0] ++ rest⟩ s.len) n, ?_, ?_⟩
    · exact (congrArg (Option.bind · _) hput).trans rfl
    · exact @rep_setalloc (sdssetlen ⟨type, 0, 0, u ++ [0] ++ rest⟩ s.len) u rest n hlen rfl hlength
        hle hbits htype

theorem sdsavail_eq (h : Rep s u) (ht5 : s.type ≠ .t5) (hle : sdsalloc s < 2 ^ 64) :
    sdsavail s = sdsalloc s - u.length := by
  have hlen := h.len
  have hge := h.le
  have halloc : sdsalloc s = s.alloc := if_neg ht5
  rw [halloc] at hle hge
  rw [sdsavail, if_neg ht5, halloc, hlen]
  omega

/-- A header never says more than a `size_t` holds. -/
theorem Sound.lt (h : Sound s) : sdsalloc s < 2 ^ 64 := by
  apply lt_of_lt_of_le h.bits
  cases s.type <;> decide

/-- The room is there, or there is no memory. -/
theorem sdsMakeRoomFor_rep (h : Rep s u) (hfits : u.length + addlen < 2 ^ 62) :
    ∃ r, sdsMakeRoomFor mem s addlen = some r ∧ (r = none → mem = none) ∧
      ∀ s', r = some s' → Rep s' u ∧ u.length + addlen ≤ sdsalloc s' := by
  unfold sdsMakeRoomFor
  by_cases havail : sdsavail s ≥ addlen
  · rw [if_pos havail]
    refine ⟨some s, rfl, by simp, ?_⟩
    rintro _ ⟨⟩
    refine ⟨h, ?_⟩
    by_cases ht5 : s.type = .t5
    · rw [sdsavail, if_pos ht5] at havail
      have hle := h.le
      omega
    · rw [sdsavail_eq h ht5 h.lt] at havail
      have hle := h.le
      omega
  · rw [if_neg havail]
    dsimp only
    cases mem with
    | none => exact ⟨none, rfl, fun _ => rfl, by simp⟩
    | some fill =>
      have hlen : (sdslen s + addlen) % 2 ^ 64 = u.length + addlen := by
        rw [sdslen, h.len]
        exact Nat.mod_eq_of_lt (by omega)
      rw [hlen]
      -- at least what was asked for
      obtain ⟨n, hn, hge, hlt⟩ : ∃ n, (if u.length + addlen < sdsMaxPrealloc then
          (u.length + addlen) * 2 else u.length + addlen + sdsMaxPrealloc) % 2 ^ 64 = n ∧
          u.length + addlen ≤ n ∧ n < 2 ^ 63 := by
        refine ⟨_, rfl, ?_⟩
        unfold sdsMaxPrealloc
        split_ifs <;> omega
      rw [hn]
      have hbits : n < 2 ^ (if sdsReqType n = .t5 then SdsType.t8 else sdsReqType n).bits := by
        have hreq := @lt_reqType n (by omega)
        split_ifs with ht5
        · rw [ht5] at hreq
          exact lt_trans hreq (by decide)
        · exact hreq
      obtain ⟨s', hmove, hrep, hroom⟩ := @move_rep s u n fill
        (if sdsReqType n = .t5 then SdsType.t8 else sdsReqType n) h hlt (by omega) hbits (by
          split_ifs with ht5
          · exact fun heq => absurd heq (by decide)
          · exact fun heq => absurd heq ht5)
      refine ⟨some s', congrArg (Option.map some) hmove, by simp, ?_⟩
      rintro _ ⟨⟩
      exact ⟨hrep, by omega⟩

/-- A string without free space -/
theorem sdsRemoveFreeSpace_rep (h : Rep s u) (hfits : u.length < 2 ^ 62) :
    ∃ r, sdsRemoveFreeSpace mem s = some r ∧ (r = none → mem = none) ∧
      ∀ s', r = some s' → Rep s' u := by
  unfold sdsRemoveFreeSpace
  cases mem with
  | none => exact ⟨none, rfl, fun _ => rfl, by simp⟩
  | some fill =>
    have hlen : sdslen s = u.length := h.len
    rw [hlen]
    obtain ⟨s', hmove, hrep, -⟩ := @move_rep s u u.length fill (sdsReqType u.length) h (by omega)
      le_rfl (lt_reqType (by omega)) fun _ => rfl
    refine ⟨some s', congrArg (Option.map some) hmove, by simp, ?_⟩
    rintro _ ⟨⟩
    exact hrep

/-- A new string stands for what it was made from. -/
theorem sdsnewlen_rep (init : Option Bytes) (hinit : ∀ t, init = some t → len ≤ t.length)
    (hfits : len < 2 ^ 62) :
    ∃ r, sdsnewlen mem init len = some r ∧ (r = none → mem = none) ∧
      ∀ s, r = some s → Rep s ((init.getD (List.replicate len 0)).take len) := by
  unfold sdsnewlen
  cases mem with
  | none => exact ⟨none, rfl, fun _ => rfl, by simp⟩
  | some fill =>
    dsimp only
    rw [behindHeader_eq _ (by omega)]
    generalize htype :
      (if sdsReqType len = .t5 ∧ len = 0 then SdsType.t8 else sdsReqType len) = type
    have hbits : len < 2 ^ type.bits := by
      rw [← htype]
      split_ifs with hzero
      · rw [hzero.2]
        decide
      · exact lt_reqType (by omega)
    have hmod : len % 2 ^ type.bits = len := Nat.mod_eq_of_lt hbits
    -- a header with this length, whatever is in the block
    have hheader : ∀ buf : Bytes, buf.length = len + 1 →
        ∃ s, sdssetalloc (sdssetlen ⟨type, 0, 0, buf⟩ len) len = s ∧ Sound s ∧ sdsalloc s = len ∧
          s.buf = buf ∧ s.len = len % 2 ^ s.type.bits := by
      intro buf hbuf
      refine ⟨_, rfl, ?_⟩
      have halloc : sdsalloc (sdssetalloc (sdssetlen ⟨type, 0, 0, buf⟩ len) len) = len := by
        unfold sdsalloc sdssetalloc sdssetlen
        dsimp only
        split_ifs <;> exact hmod
      have hsame : (sdssetalloc (sdssetlen ⟨type, 0, 0, buf⟩ len) len).buf = buf ∧
          (sdssetalloc (sdssetlen ⟨type, 0, 0, buf⟩ len) len).type = type ∧
          (sdssetalloc (sdssetlen ⟨type, 0, 0, buf⟩ len) len).len = len % 2 ^ type.bits := by
        unfold sdssetalloc
        split_ifs <;> exact ⟨rfl, rfl, rfl⟩
      obtain ⟨hbufs, htypes, hlens⟩ := hsame
      exact ⟨⟨by rw [halloc, hbufs, hbuf], by rw [halloc, htypes]; exact hbits⟩, halloc, hbufs,
        by rw [hlens, htypes]⟩
    cases init with
    | none =>
      obtain ⟨s, hs, hsound, halloc, hbuf, hlen⟩ :=
        hheader _ (length_resize (fun _ => 0) (len + 1) [])
      have hzeros : s.buf = List.replicate len 0 ++ [0] := by
        rw [hbuf, ← List.replicate_succ']
        apply List.ext_getElem
        · simp
        · intro i h₁ h₂
          simp [resize]
      obtain ⟨s₁, hput, hrep⟩ := end_rep hsound hzeros (by rw [List.length_replicate, halloc])
      rw [List.length_replicate] at hput hrep
      rw [setlen_of_put hput hlen] at hrep
      refine ⟨some s₁, ?_, by simp, ?_⟩
      · simp only [if_true, hs, Option.bind_eq_bind, Option.bind_some, hput]
        rfl
      · rintro _ ⟨⟩
        rw [Option.getD_none, List.take_of_length_le (by simp)]
        exact hrep
    | some t =>
      obtain ⟨s, hs, hsound, halloc, hbuf, hlen⟩ := hheader _ (length_resize fill (len + 1) [])
      have htake : (t.take len).length = len := List.length_take_of_le (hinit t rfl)
      obtain ⟨s₁, rest, hput₁, hsound₁, halloc₁, htype₁, hlen₁, -, hbuf₁⟩ :=
        @text_sound s [] (t.take len) s.buf hsound rfl (by rw [htake, halloc]; simp)
      obtain ⟨s₂, hput₂, hrep⟩ := end_rep hsound₁ hbuf₁ (by
        rw [List.nil_append, htake, halloc₁, halloc])
      rw [List.nil_append, htake] at hput₂ hrep
      rw [setlen_of_put hput₂ (by rw [hlen₁, htype₁]; exact hlen)] at hrep
      refine ⟨some s₂, ?_, by simp, ?_⟩
      · have hlong : ¬t.length < len := Nat.not_lt.mpr (hinit t rfl)
        simp only [reduceCtorEq, if_false, hs, Option.bind_eq_bind, hlong]
        rw [show s.put 0 (t.take len) = some s₁ from hput₁]
        simp only [Option.bind_some, hput₂]
        rfl
      · rintro _ ⟨⟩
        exact hrep

/-! ### Writing -/

/-- What is written behind a string, and how it is ended -/
theorem append_rep (h : Rep s u) (hroom : u.length + t.length ≤ sdsalloc s) :
    ∃ s₁ s₂, s.put u.length t = some s₁ ∧ s₁.type = s.type ∧ s₁.len = s.len ∧ s₁.alloc = s.alloc ∧
      (sdssetlen s₁ (u.length + t.length)).put (u.length + t.length) [0] = some s₂ ∧
      Rep s₂ (u ++ t) := by
  obtain ⟨spare, hbuf⟩ := h.buf
  obtain ⟨s₁, rest, hput, hsound, halloc, htype, hlen, hfield, hbuf₁⟩ :=
    text_sound h.toSound hbuf (Nat.le_succ_of_le hroom)
  have hlength : (u ++ t).length = u.length + t.length := List.length_append
  obtain ⟨s₂, hzero, hrep⟩ := end_rep hsound hbuf₁ (by rw [hlength, halloc]; exact hroom)
  rw [hlength] at hzero hrep
  refine ⟨s₁, _, hput, htype, hlen, hfield, ?_, hrep⟩
  rw [setlen_put, hzero, Option.map_some]

theorem sdscatlen_rep (h : Rep s u) (hfits : u.length + t.length < 2 ^ 62) :
    ∃ r, sdscatlen mem s t = some r ∧ (r = none → mem = none) ∧
      ∀ s', r = some s' → Rep s' (u ++ t) := by
  obtain ⟨r, hmake, hnone, hsome⟩ := @sdsMakeRoomFor_rep s u t.length mem h hfits
  have hlen : sdslen s = u.length := h.len
  unfold sdscatlen
  dsimp only
  rw [hmake, hlen]
  cases r with
  | none => exact ⟨none, rfl, hnone, by simp⟩
  | some s' =>
    obtain ⟨hrep, hroom⟩ := hsome s' rfl
    obtain ⟨s₁, s₂, hput, -, -, -, hzero, hrep'⟩ := append_rep hrep hroom
    refine ⟨some s₂, ?_, by simp, ?_⟩
    · simp only [Option.bind_eq_bind, Option.bind_some, hput, hzero]
      rfl
    · rintro _ ⟨⟩
      exact hrep'

theorem sdscpylen_rep (h : Rep s u) (hfits : t.length < 2 ^ 62) :
    ∃ r, sdscpylen mem s t = some r ∧ (r = none → mem = none) ∧
      ∀ s', r = some s' → Rep s' t := by
  have hlen : sdslen s = u.length := h.len
  obtain ⟨r, hmake, hnone, hsome⟩ : ∃ r,
      (if sdsalloc s < t.length then sdsMakeRoomFor mem s (t.length - sdslen s)
        else some (some s)) = some r ∧ (r = none → mem = none) ∧
      ∀ s', r = some s' → Rep s' u ∧ t.length ≤ sdsalloc s' := by
    have hle := h.le
    split_ifs with hlt
    · obtain ⟨r, hmake, hnone, hsome⟩ :=
        @sdsMakeRoomFor_rep s u (t.length - sdslen s) mem h (by omega)
      refine ⟨r, hmake, hnone, fun s' heq => ?_⟩
      obtain ⟨hrep, hroom⟩ := hsome s' heq
      exact ⟨hrep, by omega⟩
    · refine ⟨some s, rfl, by simp, ?_⟩
      rintro _ ⟨⟩
      exact ⟨h, by omega⟩
  unfold sdscpylen
  dsimp only
  rw [hmake]
  cases r with
  | none => exact ⟨none, rfl, hnone, by simp⟩
  | some s' =>
    obtain ⟨hrep, hroom⟩ := hsome s' rfl
    obtain ⟨s₁, rest, hput, hsound, halloc, -, -, -, hbuf⟩ :=
      @text_sound s' [] t s'.buf hrep.toSound rfl (by simp only [List.length_nil]; omega)
    obtain ⟨s₂, hzero, hrep'⟩ := end_rep hsound hbuf (by rw [List.nil_append, halloc]; exact hroom)
    refine ⟨some (sdssetlen s₂ t.length), ?_, by simp, ?_⟩
    · simp only [Option.bind_eq_bind, Option.bind_some]
      rw [show s'.put 0 t = some s₁ from hput]
      simp only [Option.bind_some]
      rw [show s₁.put t.length [0] = some s₂ from hzero]
      rfl
    · rintro _ ⟨⟩
      exact hrep'

theorem sdsgrowzero_rep (h : Rep s u) (hfits : len < 2 ^ 62) :
    ∃ r, sdsgrowzero mem s len = some r ∧ (r = none → mem = none) ∧
      ∀ s', r = some s' → Rep s' (u ++ List.replicate (len - u.length) 0) := by
  have hlen : sdslen s = u.length := h.len
  unfold sdsgrowzero
  dsimp only
  rw [hlen]
  by_cases hle : len ≤ u.length
  · rw [if_pos hle]
    refine ⟨some s, rfl, by simp, ?_⟩
    rintro _ ⟨⟩
    rw [Nat.sub_eq_zero_of_le hle, List.replicate_zero, List.append_nil]
    exact h
  · rw [if_neg hle]
    obtain ⟨r, hmake, hnone, hsome⟩ := @sdsMakeRoomFor_rep s u (len - u.length) mem h (by omega)
    rw [hmake]
    cases r with
    | none => exact ⟨none, rfl, hnone, by simp⟩
    | some s' =>
      obtain ⟨hrep, hroom⟩ := hsome s' rfl
      obtain ⟨spare, hbuf⟩ := hrep.buf
      -- the last zero byte that is written ends the string
      obtain ⟨s₁, rest, hput, hsound, halloc, -, -, -, hbuf₁⟩ :=
        @text_sound s' u (List.replicate (len - u.length + 1) 0) (0 :: spare) hrep.toSound hbuf (by
          rw [List.length_replicate]
          omega)
      rw [List.replicate_succ', ← List.append_assoc, List.append_assoc _ [0]] at hbuf₁
      have hlength : (u ++ List.replicate (len - u.length) (0 : UInt8)).length = len := by
        rw [List.length_append, List.length_replicate]
        omega
      have hrep' := rep_setlen hsound ⟨rest, hbuf₁⟩ (by rw [hlength, halloc]; omega)
      rw [hlength] at hrep'
      refine ⟨some (sdssetlen s₁ len), ?_, by simp, ?_⟩
      · simp only [Option.bind_eq_bind, Option.bind_some, hput]
        rfl
      · rintro _ ⟨⟩
        exact hrep'

/-- The program has written into the room that was made. -/
theorem sdsIncrLen_append (h : Rep s u) (ht5 : s.type ≠ .t5) (hroom : t.length ≤ sdsavail s) :
    ∃ s', ((s.put (sdslen s) t).bind fun s => sdsIncrLen s t.length) = some s' ∧
      Rep s' (u ++ t) := by
  have hlen : sdslen s = u.length := h.len
  have hle := h.le
  rw [sdsavail_eq h ht5 h.lt] at hroom
  obtain ⟨s₁, s₂, hput, htype, hlen₁, halloc₁, hzero, hrep⟩ :=
    @append_rep s u t h (by omega)
  have halloc : sdsalloc s = s.alloc := if_neg ht5
  refine ⟨s₂, ?_, hrep⟩
  rw [hlen, hput, Option.bind_some]
  have hfield : s₁.len = u.length := hlen₁.trans h.len
  have hassert : incrAsserted s₁ t.length = true := by
    unfold incrAsserted
    rw [if_neg (by rw [htype]; exact ht5), halloc₁, hfield]
    apply decide_eq_true
    left
    omega
  have hbits := h.bits
  have hnat : (s₁.len + (t.length : ℤ)).toNat = u.length + t.length := by
    rw [hfield]
    omega
  have hnew : (sdssetlen s₁ (u.length + t.length)).len = u.length + t.length := by
    unfold sdssetlen
    rw [htype]
    exact Nat.mod_eq_of_lt (by omega)
  unfold sdsIncrLen
  rw [if_pos hassert, hnat]
  dsimp only
  rw [hnew]
  exact hzero

/-! ### Shorter strings -/

/-- A string is ended further in front. -/
theorem cut_rep (h : Rep s u) (hle : n ≤ u.length) :
    ∃ s₁, s.put n [0] = some s₁ ∧ Rep (sdssetlen s₁ n) (u.take n) := by
  obtain ⟨spare, hbuf⟩ := h.buf
  have hsplit : s.buf = u.take n ++ (u.drop n ++ 0 :: spare) := by
    rw [← List.append_assoc, List.take_append_drop, hbuf]
  have htake : (u.take n).length = n := List.length_take_of_le hle
  obtain ⟨s₁, hput, hrep⟩ := end_rep h.toSound hsplit (by
    rw [htake]
    exact hle.trans h.le)
  rw [htake] at hput hrep
  exact ⟨s₁, hput, hrep⟩

/-- `sdsIncrLen` with a negative number -/
theorem sdsIncrLen_cut (h : Rep s u) (hpos : 0 < n) (hle : n ≤ u.length) :
    ∃ s', sdsIncrLen s (-n) = some s' ∧ Rep s' (u.take (u.length - n)) := by
  have hlen := h.len
  have hbits := h.bits
  have hge := h.le
  obtain ⟨s₁, hput, hrep⟩ := cut_rep h (Nat.sub_le u.length n)
  have hassert : incrAsserted s (-n) = true := by
    unfold incrAsserted
    rw [hlen]
    split_ifs
    · apply decide_eq_true
      right
      omega
    · apply decide_eq_true
      right
      omega
  have hnat : (s.len + (-n : ℤ)).toNat = u.length - n := by
    rw [hlen]
    omega
  have hnew : (sdssetlen s (u.length - n)).len = u.length - n := Nat.mod_eq_of_lt (by omega)
  refine ⟨sdssetlen s₁ (u.length - n), ?_, hrep⟩
  unfold sdsIncrLen
  rw [if_pos hassert, hnat]
  dsimp only
  rw [hnew, setlen_put, hput, Option.map_some]

theorem sdsclear_rep (h : Rep s u) : ∃ s', sdsclear s = some s' ∧ Rep s' [] := by
  obtain ⟨s₁, hput, hrep⟩ := cut_rep h (Nat.zero_le u.length)
  refine ⟨sdssetlen s₁ 0, ?_, hrep⟩
  unfold sdsclear
  rw [setlen_put, hput, Option.map_some]

/-- What is in front of the first zero byte -/
theorem cstr_split {l : Bytes} (h : 0 ∈ l) : ∃ rest, l = cstr l ++ 0 :: rest := by
  induction l with
  | nil => exact absurd h List.not_mem_nil
  | cons b l ih =>
    by_cases hb : b = 0
    · subst hb
      exact ⟨l, by simp [cstr]⟩
    · obtain ⟨rest, hrest⟩ := ih ((List.mem_cons.mp h).resolve_left fun heq => hb heq.symm)
      refine ⟨rest, ?_⟩
      have hcons : cstr (b :: l) = b :: cstr l := List.takeWhile_cons_of_pos (by simpa using hb)
      rw [hcons, List.cons_append, ← hrest]

theorem cstr_append_zero (u spare : Bytes) : cstr (u ++ 0 :: spare) = cstr u := by
  induction u with
  | nil => rfl
  | cons b u ih =>
    unfold cstr at ih ⊢
    rw [List.cons_append, List.takeWhile_cons, List.takeWhile_cons, ih]

/-- The string ends at its first zero byte. -/
theorem sdsupdatelen_rep (h : Rep s u) (hfits : u.length < 2 ^ 31) :
    ∃ s', sdsupdatelen s = some s' ∧ Rep s' (cstr u) := by
  obtain ⟨spare, hbuf⟩ := h.buf
  have hzero : 0 ∈ s.buf := by
    rw [hbuf]
    exact List.mem_append_right _ List.mem_cons_self
  have hcstr : cstr s.buf = cstr u := by rw [hbuf, cstr_append_zero]
  have hle : (cstr u).length ≤ u.length := (List.takeWhile_prefix _).length_le
  have hnat : (toInt ((cstr u).length : ℤ) % 2 ^ 64).toNat = (cstr u).length := by
    rw [toInt_of_lt (by omega) (by omega)]
    omega
  unfold sdsupdatelen
  rw [if_pos hzero]
  dsimp only
  rw [hcstr, hnat]
  refine ⟨_, rfl, rep_setlen h.toSound ?_ (hle.trans h.le)⟩
  rw [← hcstr]
  exact cstr_split hzero

/-- A part of a string is moved to its front, and ended. -/
theorem move_front_rep {i : ℕ} (h : Rep s u) (hle : i + n ≤ u.length) :
    ∃ s₁ s₂, s.put 0 ((s.buf.drop i).take n) = some s₁ ∧ s₁.put n [0] = some s₂ ∧
      Rep (sdssetlen s₂ n) ((u.drop i).take n) := by
  obtain ⟨spare, hbuf⟩ := h.buf
  have hge := h.le
  have hpart : (s.buf.drop i).take n = (u.drop i).take n := by
    rw [hbuf, List.drop_append_of_le_length (by omega),
      List.take_append_of_le_length (by rw [List.length_drop]; omega)]
  have hlength : ((u.drop i).take n).length = n := by
    rw [List.length_take, List.length_drop]
    omega
  obtain ⟨s₁, rest, hput, hsound, halloc, -, -, -, hbuf₁⟩ :=
    @text_sound s [] ((u.drop i).take n) s.buf h.toSound rfl (by
      rw [hlength, List.length_nil]
      omega)
  obtain ⟨s₂, hzero, hrep⟩ := end_rep hsound hbuf₁ (by
    rw [List.nil_append, hlength, halloc]
    omega)
  rw [List.nil_append, hlength] at hzero hrep
  exact ⟨s₁, s₂, by rw [hpart]; exact hput, hzero, hrep⟩

/-- The end of `sdsrange`: the part is moved unless it is in front already. -/
theorem part_rep {i : ℤ} (h : Rep s u) (hi : 0 ≤ i) (hle : n = 0 ∨ i + n ≤ u.length) :
    ∃ s', (do
        let s ← if i ≠ 0 ∧ n ≠ 0 then
            if i.toNat + n ≤ s.buf.length then s.put 0 ((s.buf.drop i.toNat).take n) else none
          else some s
        let s ← s.put n [0]
        return sdssetlen s n) = some s' ∧ Rep s' ((u.drop i.toNat).take n) := by
  by_cases hmove : i ≠ 0 ∧ n ≠ 0
  · obtain ⟨spare, hbuf⟩ := h.buf
    have hpart : i.toNat + n ≤ u.length := by
      have hint := hle.resolve_left hmove.2
      omega
    have hlong : i.toNat + n ≤ s.buf.length := by
      rw [hbuf, List.length_append]
      omega
    obtain ⟨s₁, s₂, hput, hzero, hrep⟩ := move_front_rep h hpart
    refine ⟨_, ?_, hrep⟩
    rw [if_pos hmove, if_pos hlong, hput]
    simp only [Option.bind_eq_bind, Option.bind_some, hzero]
    rfl
  · have hshort : n ≤ u.length := by omega
    obtain ⟨s₁, hzero, hrep⟩ := cut_rep h hshort
    refine ⟨sdssetlen s₁ n, ?_, ?_⟩
    · rw [if_neg hmove]
      simp only [Option.bind_eq_bind, Option.bind_some, hzero]
      rfl
    · by_cases hzero : n = 0
      · subst hzero
        rw [List.take_zero] at hrep ⊢
        exact hrep
      · have hfront : i = 0 := by
          by_contra hne
          exact hmove ⟨hne, hzero⟩
        rw [hfront]
        exact hrep

/-- The part that `sdsrange` keeps -/
theorem sdsrange_rep {start stop : ℤ} (h : Rep s u) (hfits : u.length < 2 ^ 31) :
    ∃ s', sdsrange s start stop = some s' ∧ Rep s' (Redis.sdsrange u start stop) := by
  have hslen : sdslen s = u.length := h.len
  have hlen : toInt (u.length : ℤ) = u.length := toInt_of_lt (by omega) (by omega)
  unfold sdsrange Redis.sdsrange
  dsimp only
  rw [hslen]
  by_cases hzero : (u.length : ℤ) = 0
  · rw [if_pos hzero, if_pos hzero]
    exact ⟨s, rfl, h⟩
  · rw [if_neg hzero, if_neg hzero, hlen]
    have hlast : toInt ((u.length : ℤ) - 1) = u.length - 1 := toInt_of_lt (by omega) (by omega)
    rw [hlast]
    generalize hstart : (if start < 0 then max (toInt (u.length + start)) 0 else start) = a
    generalize (if stop < 0 then max (toInt (u.length + stop)) 0 else stop) = b
    have ha : 0 ≤ a := by
      rw [← hstart]
      split_ifs with hneg
      · exact le_max_right _ _
      · exact not_lt.mp hneg
    by_cases hempty : a > b
    · -- an interval without places
      rw [if_pos (Or.inl hempty), if_pos hempty]
      exact @part_rep s u 0 0 h le_rfl (Or.inl rfl)
    · rw [if_neg hempty, if_pos (Nat.succ_ne_zero _)]
      by_cases hbehind : a ≥ u.length
      · -- an interval behind the string
        rw [if_pos (Or.inr hbehind), if_pos hbehind]
        obtain ⟨s', hpart, hrep⟩ := @part_rep s u 0 a h ha (Or.inl rfl)
        exact ⟨s', hpart, hrep⟩
      · rw [if_neg (not_or.mpr ⟨hempty, hbehind⟩), if_neg hbehind]
        by_cases hend : b ≥ u.length
        · have hgt : ¬a > (u.length : ℤ) - 1 := by omega
          rw [if_pos hend, if_pos hend, if_neg hgt, if_neg hgt]
          exact part_rep h ha (Or.inr (by omega))
        · rw [if_neg hend, if_neg hend, if_neg hempty]
          exact part_rep h ha (Or.inr (by omega))

/-! ### Trimming -/

theorem trimStart_eq (cset u : Bytes) :
    trimStart cset u ≤ u.length ∧ u.drop (trimStart cset u) = u.dropWhile (inSet cset) := by
  induction u with
  | nil => exact ⟨le_rfl, rfl⟩
  | cons b u ih =>
    unfold trimStart
    by_cases hb : inSet cset b = true
    · rw [if_pos hb, List.dropWhile_cons_of_pos hb]
      exact ⟨Nat.succ_le_succ ih.1, ih.2⟩
    · rw [if_neg hb, List.dropWhile_cons_of_neg hb]
      exact ⟨Nat.zero_le _, rfl⟩

theorem trimEnd_le (cset u : Bytes) (sp : ℕ) : ∀ ep, trimEnd cset u sp ep ≤ ep := by
  intro ep
  induction ep with
  | zero => exact le_rfl
  | succ ep ih =>
    unfold trimEnd
    split_ifs
    · exact Nat.le_succ_of_le ih
    · exact le_rfl

/-- Where the second loop ends, in a string whose first byte stays -/
theorem trimEnd_eq (cset : Bytes) {v : Bytes} {b : UInt8} (hb : inSet cset b = false) :
    ∀ w : Bytes, ∀ rest, v.length ≤ trimEnd cset (v ++ (b :: w ++ rest)) v.length
        (v.length + w.length) ∧
      (b :: w ++ rest).take (trimEnd cset (v ++ (b :: w ++ rest)) v.length
        (v.length + w.length) - v.length + 1) = (b :: w).rdropWhile (inSet cset) := by
  intro w
  induction w using List.reverseRecOn with
  | nil =>
    intro rest
    have hstop : trimEnd cset (v ++ (b :: [] ++ rest)) v.length (v.length + 0) = v.length := by
      cases v with
      | nil => rfl
      | cons c v =>
        unfold trimEnd
        exact if_neg fun h => absurd h.1 (lt_irrefl _)
    rw [List.length_nil, hstop]
    refine ⟨le_rfl, ?_⟩
    rw [Nat.sub_self, List.rdropWhile_singleton, hb]
    rfl
  | append_singleton w c ih =>
    intro rest
    have hlast : (v ++ (b :: (w ++ [c]) ++ rest)).getD (v.length + w.length + 1) 0 = c := by
      have hsplit : v ++ (b :: (w ++ [c]) ++ rest) = (v ++ b :: w) ++ c :: rest := by simp
      have hplace : v.length + w.length + 1 = (v ++ b :: w).length := by
        rw [List.length_append, List.length_cons]
        rfl
      rw [hsplit, hplace, List.getD_eq_getElem?_getD, List.getElem?_append_right le_rfl,
        Nat.sub_self]
      rfl
    have hlength : v.length + (w ++ [c]).length = v.length + w.length + 1 := by
      rw [List.length_append]
      rfl
    rw [hlength]
    unfold trimEnd
    rw [hlast, ← List.cons_append, List.rdropWhile_concat]
    by_cases hc : inSet cset c = true
    · rw [if_pos ⟨by omega, hc⟩, if_pos hc, List.append_assoc]
      exact ih ([c] ++ rest)
    · rw [if_neg (fun h => hc h.2), if_neg hc]
      refine ⟨by omega, List.take_left' ?_⟩
      simp only [List.length_append, List.length_cons, List.length_nil]
      omega

theorem sdstrim_rep {cset : Bytes} (h : Rep s u) :
    ∃ s', sdstrim s cset = some s' ∧
      Rep s' ((u.dropWhile (inSet (cstr cset))).rdropWhile (inSet (cstr cset))) := by
  have hslen : sdslen s = u.length := h.len
  obtain ⟨spare, hbuf⟩ := h.buf
  have htake : s.buf.take u.length = u := by rw [hbuf, List.take_left]
  obtain ⟨hsp, hdrop⟩ := trimStart_eq (cstr cset) u
  have hlong : ¬s.buf.length < u.length := by
    rw [hbuf, List.length_append]
    omega
  unfold sdstrim
  rw [hslen, if_neg hlong]
  dsimp only
  rw [htake]
  generalize hstart : trimStart (cstr cset) u = sp at hsp hdrop ⊢
  generalize hend : trimEnd (cstr cset) u sp (u.length - 1) = ep
  generalize hlen : (if u.length = 0 ∨ sp > ep then 0 else ep - sp + 1) = n
  -- what is between the two pointers
  have hpart : sp + n ≤ u.length ∧ (u.drop sp).take n =
      (u.dropWhile (inSet (cstr cset))).rdropWhile (inSet (cstr cset)) := by
    have hep := trimEnd_le (cstr cset) u sp (u.length - 1)
    rw [hend] at hep
    rw [← hdrop]
    rcases hrest : u.drop sp with _ | ⟨b, w⟩
    · -- every byte was in the set
      have hall := List.drop_eq_nil_iff.mp hrest
      have hn : n = 0 := by
        rw [← hlen]
        exact if_pos (by omega)
      rw [hn]
      exact ⟨by omega, rfl⟩
    · have hb : inSet (cstr cset) b = false := by
        rw [hdrop] at hrest
        have hhead := List.head?_dropWhile_not (inSet (cstr cset)) u
        rw [hrest] at hhead
        simpa using hhead
      have hsplit : u = u.take sp ++ (b :: w ++ []) := by
        rw [List.append_nil, ← hrest, List.take_append_drop]
      have hsplen : (u.take sp).length = sp := List.length_take_of_le hsp
      have hulen : u.length = sp + w.length + 1 := by
        have hcount := congrArg List.length hrest
        rw [List.length_drop, List.length_cons] at hcount
        omega
      obtain ⟨hge, heq⟩ := @trimEnd_eq (cstr cset) (u.take sp) b hb w []
      rw [← hsplit, hsplen, show sp + w.length = u.length - 1 by omega, hend] at hge heq
      rw [List.append_nil] at heq
      have hn : n = ep - sp + 1 := by
        rw [← hlen]
        exact if_neg (by omega)
      rw [hn]
      exact ⟨by omega, heq⟩
  rw [← hpart.2]
  by_cases hfront : sp = 0
  · obtain ⟨s₁, hzero, hrep⟩ := cut_rep h (show n ≤ u.length by omega)
    refine ⟨sdssetlen s₁ n, ?_, ?_⟩
    · rw [if_neg (not_not.mpr hfront)]
      simp only [Option.bind_eq_bind, Option.bind_some, hzero]
      rfl
    · rw [hfront]
      exact hrep
  · obtain ⟨s₁, s₂, hput, hzero, hrep⟩ := move_front_rep h hpart.1
    refine ⟨sdssetlen s₂ n, ?_, hrep⟩
    rw [if_pos hfront, hput]
    simp only [Option.bind_eq_bind, Option.bind_some, hzero]
    rfl

/-! ### Characters -/

theorem mapBytes_rep {f : UInt8 → UInt8} (h : Rep s u) (hn : n = u.length) :
    ∃ s', mapBytes f s n = some s' ∧ Rep s' (u.map f) := by
  subst hn
  obtain ⟨spare, hbuf⟩ := h.buf
  have hlong : u.length ≤ s.buf.length := by
    rw [hbuf, List.length_append]
    omega
  have htake : s.buf.take u.length = u := by rw [hbuf, List.take_left]
  have hwrite : write s.buf 0 (u.map f) = some (u.map f ++ 0 :: spare) := by
    rw [hbuf]
    exact write_append (a := []) (List.length_map f).symm rfl
  have hlength : (u.map f ++ 0 :: spare).length = s.buf.length := by
    rw [hbuf, List.length_append, List.length_append, List.length_map]
  refine ⟨{ s with buf := u.map f ++ 0 :: spare }, ?_, ?_⟩
  · unfold mapBytes Sds.put
    rw [if_pos hlong, htake, hwrite]
    rfl
  · exact { h.toSound.congr hlength with
            buf := ⟨spare, rfl⟩
            len := by
              rw [List.length_map]
              exact h.len
            le := by
              rw [List.length_map]
              exact h.le }

/-! ### Runs of calls -/

/-- What a call is to do to the bytes of a string -/
def SdsCall.apply (u : Bytes) : SdsCall → Bytes
  | .catlen _ t | .append t => u ++ t
  | .cpylen _ t => t
  | .growzero _ len => u ++ List.replicate (len - u.length) 0
  | .makeRoomFor _ _ | .removeFreeSpace _ => u
  | .cut n => u.take (u.length - n)
  | .range start stop => Redis.sdsrange u start stop
  | .trim cset => (u.dropWhile (inSet (cstr cset))).rdropWhile (inSet (cstr cset))
  | .clear => []
  | .updatelen => cstr u
  | .tolower => u.map Redis.tolower
  | .toupper => u.map Header.toupper
  | .mapchars fromSet toSet => u.map (mapChar fromSet toSet)

/-- The allocator has no memory for the call. -/
def SdsCall.NoMemory : SdsCall → Prop
  | .catlen mem _ | .cpylen mem _ | .growzero mem _ | .makeRoomFor mem _ | .removeFreeSpace mem =>
    mem = none
  | _ => False

/-- What a program has to keep to: sizes that exist, places that an `int` holds, and room that was
made. `sdsIncrLen` takes no step of length `0` for a string of the smallest kind. -/
def Fits (s : Sds) : SdsCall → Prop
  | .catlen _ t => sdslen s + t.length < 2 ^ 62
  | .cpylen _ t => t.length < 2 ^ 62
  | .growzero _ len => len < 2 ^ 62
  | .makeRoomFor _ addlen => sdslen s + addlen < 2 ^ 62
  | .removeFreeSpace _ => sdslen s < 2 ^ 62
  | .append t => s.type ≠ .t5 ∧ t.length ≤ sdsavail s ∧ t.length < 2 ^ 31
  | .cut n => 0 < n ∧ n ≤ sdslen s ∧ n < 2 ^ 31
  | .range start stop =>
    sdslen s < 2 ^ 31 ∧ -2 ^ 31 ≤ start ∧ start < 2 ^ 31 ∧ -2 ^ 31 ≤ stop ∧ stop < 2 ^ 31 - 1
  | .updatelen | .tolower | .toupper => sdslen s < 2 ^ 31
  | .mapchars fromSet toSet => fromSet.length = toSet.length
  | .trim _ | .clear => True

/-- A call that cannot fail -/
theorem result_of_some {c : SdsCall} {r : Option Sds} (hr : s.result c = r.map some)
    (h : ∃ s', r = some s' ∧ Rep s' v) :
    ∃ r, s.result c = some r ∧ (r = none → c.NoMemory) ∧ ∀ s', r = some s' → Rep s' v := by
  obtain ⟨s', rfl, hrep⟩ := h
  refine ⟨some s', hr, by simp, ?_⟩
  rintro _ ⟨⟩
  exact hrep

/-- Every call does to the bytes what it is to do, or there is no memory for it. -/
theorem result_rep {c : SdsCall} (h : Rep s u) (hfits : Fits s c) :
    ∃ r, s.result c = some r ∧ (r = none → c.NoMemory) ∧
      ∀ s', r = some s' → Rep s' (c.apply u) := by
  have hlen : sdslen s = u.length := h.len
  have hint : sdslen s < 2 ^ 31 → (toInt (sdslen s)).toNat = u.length := by
    intro hlt
    rw [toInt_of_lt (by omega) (by omega), Int.toNat_natCast, hlen]
  cases c with
  | catlen mem t =>
    rw [Fits, hlen] at hfits
    exact sdscatlen_rep h hfits
  | cpylen mem t => exact sdscpylen_rep h hfits
  | growzero mem len => exact sdsgrowzero_rep h hfits
  | makeRoomFor mem addlen =>
    rw [Fits, hlen] at hfits
    obtain ⟨r, hr, hnone, hsome⟩ := @sdsMakeRoomFor_rep s u addlen mem h hfits
    exact ⟨r, hr, hnone, fun s' heq => (hsome s' heq).1⟩
  | removeFreeSpace mem =>
    rw [Fits, hlen] at hfits
    exact sdsRemoveFreeSpace_rep h hfits
  | append t => exact result_of_some rfl (sdsIncrLen_append h hfits.1 hfits.2.1)
  | cut n => exact result_of_some rfl (sdsIncrLen_cut h hfits.1 (hlen ▸ hfits.2.1))
  | range start stop => exact result_of_some rfl (sdsrange_rep h (hlen ▸ hfits.1))
  | trim cset => exact result_of_some rfl (sdstrim_rep h)
  | clear => exact result_of_some rfl (sdsclear_rep h)
  | updatelen => exact result_of_some rfl (sdsupdatelen_rep h (hlen ▸ hfits))
  | tolower => exact @result_of_some s _ .tolower (sdstolower s) rfl (mapBytes_rep h (hint hfits))
  | toupper => exact @result_of_some s _ .toupper (sdstoupper s) rfl (mapBytes_rep h (hint hfits))
  | mapchars fromSet toSet => exact result_of_some rfl (mapBytes_rep h hlen)

/-- What the calls that have succeeded do to the bytes -/
def contents (u : Bytes) (evs : List (SdsCall × Bool)) : Bytes :=
  (evs.filter Prod.snd).foldl (fun u ev => ev.1.apply u) u

theorem contents_append (u : Bytes) (evs₁ evs₂ : List (SdsCall × Bool)) :
    contents u (evs₁ ++ evs₂) = contents (contents u evs₁) evs₂ := by
  unfold contents
  rw [List.filter_append, List.foldl_append]

/-- One call of a run -/
theorem call_rep {c : SdsCall} (h : Rep s u) (hfits : Fits s c) :
    ∃ s' b, s.call c = some (s', [(c, b)]) ∧ (b = false → c.NoMemory) ∧
      Rep s' (contents u [(c, b)]) := by
  obtain ⟨r, hr, hnone, hsome⟩ := result_rep h hfits
  unfold Sds.call
  rw [hr]
  cases r with
  | none => exact ⟨s, false, rfl, fun _ => hnone rfl, h⟩
  | some s' => exact ⟨s', true, rfl, by simp, hsome s' rfl⟩

/-- A run of calls on a string -/
theorem calls_rep (calls : List SdsCall) : ∀ {s : Sds} {u : Bytes} {tr : List (SdsCall × Bool)},
    Rep s u → Guarded (traced Sds.call) (fun st => Fits st.1) (s, tr) calls →
    ∃ s' evs, exec (traced Sds.call) (s, tr) calls = some (s', tr ++ evs) ∧
      evs.map Prod.fst = calls ∧ (∀ ev ∈ evs, ev.2 = false → ev.1.NoMemory) ∧
      Rep s' (contents u evs) := by
  induction calls with
  | nil =>
    intro s u tr h _
    exact ⟨s, [], by rw [List.append_nil]; rfl, rfl, by simp, h⟩
  | cons c calls ih =>
    intro s u tr h hguard
    obtain ⟨s₁, b, hcall, hb, hrep⟩ := call_rep h hguard.1
    have hstep : traced Sds.call (s, tr) c = some (s₁, tr ++ [(c, b)]) :=
      traced_eq_some.mpr ⟨s₁, _, hcall, rfl⟩
    obtain ⟨s', evs, hrun, hmap, hfail, hrep'⟩ := ih hrep (hguard.2 _ hstep)
    refine ⟨s', (c, b) :: evs, ?_, ?_, ?_, ?_⟩
    · rw [exec_cons, hstep, Option.bind_some, hrun, List.append_assoc]
      rfl
    · rw [List.map_cons, hmap]
    · intro ev hev hfalse
      rcases List.mem_cons.mp hev with rfl | hmem
      · exact hb hfalse
      · exact hfail ev hmem hfalse
    · rw [← List.singleton_append, contents_append]
      exact hrep'

/-- From `sdsnewlen` on, every run of calls that a program may make stays in the block and fails no
assertion. A call does to the bytes what it is to do; only where the allocator has no memory it does
nothing. The header is right behind each call. -/
theorem sds_refines {init : Option Bytes} {initlen : ℕ} {calls : List SdsCall}
    (hinit : ∀ t, init = some t → initlen ≤ t.length) (hfits : initlen < 2 ^ 62)
    (hnew : sdsnewlen mem init initlen = some (some s))
    (hguard : Guarded (traced Sds.call) (fun st => Fits st.1) (s, []) calls) :
    ∃ s' evs, exec (traced Sds.call) (s, []) calls = some (s', evs) ∧
      evs.map Prod.fst = calls ∧ (∀ ev ∈ evs, ev.2 = false → ev.1.NoMemory) ∧
      Rep s' (contents ((init.getD (List.replicate initlen 0)).take initlen) evs) := by
  obtain ⟨r, hr, -, hsome⟩ := @sdsnewlen_rep initlen mem init hinit hfits
  obtain rfl := Option.some.inj (hnew.symm.trans hr)
  obtain ⟨s', evs, hrun, hmap, hfail, hrep⟩ := calls_rep calls (hsome s rfl) hguard
  exact ⟨s', evs, hrun, hmap, hfail, hrep⟩

instance Fits.decidable (s : Sds) : ∀ c, Decidable (Fits s c)
  | .catlen _ _ | .cpylen _ _ | .growzero _ _ | .makeRoomFor _ _ | .removeFreeSpace _ =>
    inferInstanceAs (Decidable (_ < _))
  | .append _ | .cut _ | .range _ _ => inferInstanceAs (Decidable (_ ∧ _))
  | .updatelen | .tolower | .toupper => inferInstanceAs (Decidable (_ < _))
  | .mapchars _ _ => inferInstanceAs (Decidable (_ = _))
  | .trim _ | .clear => isTrue trivial

/-- A string of the smallest kind that has to move, with a call that fails -/
def movedString : List SdsCall :=
  [.catlen none (bytes "c "), .catlen (some fun _ => 7) (bytes "c "), .append (bytes "-d"),
    .trim (bytes " a"), .toupper, .range 1 (-2), .removeFreeSpace (some fun _ => 9), .cut 1]

theorem sds_refines_movedString : ∃ s s' evs,
    sdsnewlen (some fun _ => 5) (some (bytes "ab")) 2 = some (some s) ∧
      exec (traced Sds.call) (s, []) movedString = some (s', evs) ∧
      evs.map Prod.fst = movedString ∧ Rep s' (contents (bytes "ab") evs) := by
  have hinit : ∀ t, some (bytes "ab") = some t → 2 ≤ t.length := by
    rintro _ ⟨⟩
    decide
  obtain ⟨s', evs, hrun, hmap, -, hrep⟩ :=
    @sds_refines ⟨.t5, 2, 0, [97, 98, 0]⟩ (some fun _ => 5) (some (bytes "ab")) 2 movedString hinit
      (by decide) (by rfl) (by decide +kernel)
  exact ⟨_, s', evs, by rfl, hrun, hmap, hrep⟩

end MmorpgServer.Redis.Header
