import MmorpgServer.RingBuffer.Model
import Mathlib.Data.Nat.Bitwise

/-!
# The ring buffer is a bounded byte queue

For a size that is a power of two the buffer refines `BoundedFifo UInt8`: its two free
running positions name the ends of a stream whose unread part lies circularly in `buf`.
The refinement survives the wrap of both positions because the size divides `2 ^ 32`.

## Main definitions

* `Represents` — the buffer holds exactly the items of a queue

## Main results

* `Represents.write_push`, `Represents.write_refused` — a write that fits is a push, any other
  changes nothing
* `Represents.read_pop` — a read of a non-empty buffer pops and delivers the oldest bytes
* `rb_is_byte_fifo` — the law of every run
-/

namespace MmorpgServer.RingBuffer

variable {t : Ringbuffer} {k : ℕ}

/-! ### Word arithmetic -/

theorem minMacro_toNat (a b : UInt32) : (minMacro a b).toNat = min a.toNat b.toNat := by
  unfold minMacro
  split
  · next h => rw [UInt32.lt_iff_toNat_lt] at h; omega
  · next h => rw [UInt32.lt_iff_toNat_lt] at h; omega

/-- Masking with `size - 1` takes the remainder modulo a size that is a power of two. -/
theorem mask_toNat {size : UInt32} (hsize : size.toNat = 2 ^ k) (x : UInt32) :
    (x &&& (size - 1)).toNat = x.toNat % 2 ^ k := by
  have hpos : 1 ≤ size.toNat := hsize ▸ Nat.one_le_two_pow
  have hpred : (size - 1).toNat = 2 ^ k - 1 := by
    rw [UInt32.toNat_sub_of_le _ _ (UInt32.le_iff_toNat_le.mpr (by simpa using hpos)), hsize]
    rfl
  rw [UInt32.toNat_and, hpred, Nat.and_two_pow_sub_one_eq_mod]

theorem two_pow_dvd (hk : k ≤ 31) : 2 ^ k ∣ 2 ^ 32 := pow_dvd_pow 2 (by omega)

/-- The length of the first copy's room: what `size - pos & (size - 1)` computes is the
distance to the end of the memory, except that it is `0` at offset `0`. -/
theorem room_toNat {size : UInt32} (hsize : size.toNat = 2 ^ k) (hk : k ≤ 31)
    (pos : UInt32) :
    (size - pos &&& (size - 1)).toNat =
      if pos.toNat % 2 ^ k = 0 then 0 else 2 ^ k - pos.toNat % 2 ^ k := by
  rw [mask_toNat hsize, UInt32.toNat_sub, hsize]
  obtain ⟨c, hc⟩ := two_pow_dvd hk
  have hpow : 0 < 2 ^ k := Nat.two_pow_pos k
  have hlt := Nat.mod_lt pos.toNat hpow
  have hpos := pos.toNat_lt
  have hdiv := Nat.div_add_mod pos.toNat (2 ^ k)
  rw [Nat.mod_mod_of_dvd _ ⟨c, hc⟩]
  -- pos = 2 ^ k * q + r with q < c, so the difference is 2 ^ k * (c - q) + (2 ^ k - r)
  have hq : pos.toNat / 2 ^ k < c := by
    apply Nat.div_lt_of_lt_mul
    omega
  have hsplit : 2 ^ 32 - pos.toNat + 2 ^ k =
      (2 ^ k - pos.toNat % 2 ^ k) + 2 ^ k * (c - pos.toNat / 2 ^ k) := by
    rw [Nat.mul_sub, ← hc]
    have : 2 ^ k * (pos.toNat / 2 ^ k) ≤ 2 ^ 32 := by omega
    omega
  rw [hsplit, Nat.add_mul_mod_self_left]
  split
  · next h => rw [h, Nat.sub_zero, Nat.mod_self]
  · next h => exact Nat.mod_eq_of_lt (by omega)

/-- The split that `rb_write` and `rb_read` compute is one that the two copies allow. -/
theorem split_cases (hsize : t.size.toNat = 2 ^ k) (hk : k ≤ 31) (n pos : UInt32) :
    let i := minMacro n (t.size - pos &&& (t.size - 1))
    i.toNat = min n.toNat (2 ^ k - pos.toNat % 2 ^ k) ∨
      (pos.toNat % 2 ^ k = 0 ∧ i.toNat = 0) := by
  intro i
  have hi : i.toNat = min n.toNat (t.size - pos &&& (t.size - 1)).toNat := minMacro_toNat ..
  rw [room_toNat hsize hk] at hi
  split at hi
  · next hzero => exact Or.inr ⟨hzero, by omega⟩
  · exact Or.inl hi

/-- The difference of the positions is the distance between them, also across the wrap. -/
theorem rbLength_toNat_of {len : ℕ}
    (hpos : t.writePos.toNat = (t.readPos.toNat + len) % 2 ^ 32) (hlen : len < 2 ^ 32) :
    (rbLength t).toNat = len := by
  have hlt := t.readPos.toNat_lt
  rw [rbLength, UInt32.toNat_sub, hpos]
  omega

theorem rbReamin_toNat_of {len : ℕ}
    (hpos : t.writePos.toNat = (t.readPos.toNat + len) % 2 ^ 32) (hlen : len ≤ t.size.toNat) :
    (rbReamin t).toNat = t.size.toNat - len := by
  have hlength := rbLength_toNat_of hpos (hlen.trans_lt t.size.toNat_lt)
  rw [rbReamin, UInt32.toNat_sub_of_le, hlength]
  rw [UInt32.le_iff_toNat_le, hlength]
  exact hlen

theorem rbIsEmpty_iff_of {len : ℕ}
    (hpos : t.writePos.toNat = (t.readPos.toNat + len) % 2 ^ 32) (hlen : len < 2 ^ 32) :
    rbIsEmpty t = true ↔ len = 0 := by
  rw [← rbLength_toNat_of hpos hlen, rbIsEmpty, beq_iff_eq, rbLength]
  constructor
  · intro heq
    rw [heq, UInt32.sub_self]
    rfl
  · intro hzero
    have hsub : t.writePos - t.readPos = 0 := UInt32.toNat_inj.mp hzero
    rw [UInt32.sub_eq_iff_eq_add, UInt32.zero_add] at hsub
    exact hsub.symm

/-! ### The refinement -/

/-- The buffer holds exactly the items of `q`. -/
structure Represents (k : ℕ) (t : Ringbuffer) (q : BoundedFifo UInt8 (2 ^ k)) : Prop where
  size : t.size.toNat = 2 ^ k
  writePos : t.writePos.toNat = (t.readPos.toNat + q.items.length) % 2 ^ 32
  cells : Stored t.buf (2 ^ k) t.readPos.toNat q.items

theorem represents_rbInit (junk : Mem) {sz : UInt32} (hsz : sz.toNat = 2 ^ k) :
    Represents k (rbInit junk sz) .empty where
  size := hsz
  writePos := by
    rw [BoundedFifo.items_empty, List.length_nil, Nat.add_zero,
      Nat.mod_eq_of_lt (UInt32.toNat_lt _)]
    rfl
  cells := stored_nil

namespace Represents

variable {q : BoundedFifo UInt8 (2 ^ k)}

theorem length_le (h : Represents k t q) : q.items.length ≤ t.size.toNat :=
  q.bound.trans_eq h.size.symm

theorem rbLength_toNat (h : Represents k t q) : (rbLength t).toNat = q.items.length :=
  rbLength_toNat_of h.writePos (h.length_le.trans_lt t.size.toNat_lt)

theorem rbReamin_toNat (h : Represents k t q) : (rbReamin t).toNat = q.room := by
  rw [rbReamin_toNat_of h.writePos h.length_le, h.size]
  rfl

theorem rbIsEmpty_iff (h : Represents k t q) : rbIsEmpty t = true ↔ q.items = [] := by
  rw [rbIsEmpty_iff_of h.writePos (h.length_le.trans_lt t.size.toNat_lt),
    List.length_eq_zero_iff]

theorem rbIsFull_iff (h : Represents k t q) : rbIsFull t = true ↔ q.room = 0 := by
  have hlen := h.rbLength_toNat
  have hroom := q.length_add_room
  rw [rbIsFull, beq_iff_eq, ← UInt32.toNat_inj, h.size]
  change _ = (rbLength t).toNat ↔ _
  rw [hlen]
  omega

/-- The write position names the cell after the last item. -/
theorem writePos_mod (h : Represents k t q) (hk : k ≤ 31) :
    t.writePos.toNat % 2 ^ k = (t.readPos.toNat + q.items.length) % 2 ^ k := by
  rw [h.writePos, Nat.mod_mod_of_dvd _ (two_pow_dvd hk)]

/-- A write that fits is a push. -/
theorem write_push (h : Represents k t q) (hk : k ≤ 31) (src : Mem) (n : UInt32)
    (hn : (segment src n.toNat).length ≤ q.room) :
    (rbWrite t src n).1 = n ∧ Represents k (rbWrite t src n).2 (q.push _ hn) := by
  have hroom := h.rbReamin_toNat
  have hfit : ¬ n > rbReamin t := by
    rw [gt_iff_lt, UInt32.lt_iff_toNat_lt, hroom]
    rw [length_segment] at hn
    omega
  rw [length_segment] at hn
  have hsplit := split_cases h.size hk n t.writePos
  have hsum := q.length_add_room
  unfold rbWrite
  rw [if_neg hfit]
  -- the positions move as the queue grows, and the two copies fill the cells behind it
  refine ⟨rfl, ⟨h.size, ?_, ?_⟩⟩
  · change (t.writePos + n).toNat = _
    rw [UInt32.toNat_add, h.writePos, BoundedFifo.items_push, List.length_append, length_segment,
      Nat.mod_add_mod, Nat.add_assoc]
  · change Stored (blit (blit t.buf (t.writePos &&& (t.size - 1)).toNat src 0 _) 0 src _ _)
      (2 ^ k) t.readPos.toNat (q.items ++ segment src n.toNat)
    have hle : minMacro n (t.size - t.writePos &&& (t.size - 1)) ≤ n := by
      rw [UInt32.le_iff_toNat_le, minMacro_toNat]
      exact Nat.min_le_left _ _
    rw [mask_toNat h.size, h.writePos_mod hk, UInt32.toNat_sub_of_le _ _ hle]
    rw [h.writePos_mod hk] at hsplit
    exact (h.cells.blit_two (Nat.two_pow_pos k) (by omega) hsplit).append
      (stored_blit_two (Nat.two_pow_pos k) (by omega) hsplit)

/-- A write that does not fit is refused and changes nothing. -/
theorem write_refused (h : Represents k t q) (src : Mem) {n : UInt32}
    (hn : q.room < n.toNat) : rbWrite t src n = (uint32Max, t) := by
  unfold rbWrite
  -- the guard compares with the room of the queue
  rw [if_pos]
  rw [gt_iff_lt, UInt32.lt_iff_toNat_lt, h.rbReamin_toNat]
  exact hn

/-- A read of a non-empty buffer delivers the oldest bytes and pops them. -/
theorem read_pop (h : Represents k t q) (hk : k ≤ 31) (hne : q.items ≠ []) (dst : Mem)
    (n : UInt32) :
    let r := rbRead t dst n
    r.ret.toNat = min n.toNat q.items.length ∧
      segment r.dstBuf r.ret.toNat = q.items.take n.toNat ∧
      Represents k r.rb (q.pop r.ret.toNat) := by
  have hempty : ¬ rbIsEmpty t = true := fun hemp => hne ((h.rbIsEmpty_iff).mp hemp)
  have hret : (minMacro n (rbLength t)).toNat = min n.toNat q.items.length := by
    rw [minMacro_toNat, h.rbLength_toNat]
  have hbound := q.bound
  unfold rbRead
  rw [if_neg hempty]
  -- from here on only the number of bytes to be read matters
  generalize minMacro n (rbLength t) = m at hret
  have hsplit := split_cases h.size hk m t.readPos
  have hle : minMacro m (t.size - t.readPos &&& (t.size - 1)) ≤ m := by
    rw [UInt32.le_iff_toNat_le, minMacro_toNat]
    exact Nat.min_le_left _ _
  refine ⟨hret, ?_, ⟨h.size, ?_, ?_⟩⟩
  · dsimp only
    rw [UInt32.toNat_sub_of_le _ _ hle, mask_toNat h.size]
    dsimp only at hsplit
    generalize (minMacro m (t.size - t.readPos &&& (t.size - 1))).toNat = i at hsplit
    -- byte by byte: where the two copies put it is where the queue keeps it
    apply List.ext_getElem
    · rw [length_segment, List.length_take, hret]
    · intro j hj hj'
      rw [length_segment] at hj
      rw [getElem_segment, List.getElem_take, ← h.cells j (by omega),
        add_mod_of_lt (Nat.two_pow_pos k) (by omega)]
      have hlt := Nat.mod_lt t.readPos.toNat (Nat.two_pow_pos k)
      by_cases hji : j < i
      · -- byte `j` comes from the first copy, which ends at the end of the memory at most
        rw [blit_of_not_mem (by omega), blit_of_mem (Nat.zero_le _) (by omega), if_pos (by omega)]
        exact congrArg t.buf (by omega)
      · rw [blit_of_mem (by omega) (by omega)]
        apply congrArg t.buf
        split <;> omega
  · change t.writePos.toNat = ((t.readPos + m).toNat + _) % 2 ^ 32
    rw [UInt32.toNat_add, h.writePos, BoundedFifo.items_pop, List.length_drop, hret]
    omega
  · change Stored t.buf (2 ^ k) (t.readPos + m).toNat (q.items.drop m.toNat)
    -- the read position wraps at 2 ^ 32, a multiple of the size, and names the same cell
    apply (h.cells.drop m.toNat).of_modEq
    rw [UInt32.toNat_add]
    exact Nat.mod_mod_of_dvd _ (two_pow_dvd hk)

theorem read_empty (h : Represents k t q) (hne : q.items = []) (dst : Mem)
    (n : UInt32) : rbRead t dst n = ⟨uint32Max, dst, t⟩ := by
  unfold rbRead
  rw [if_pos ((h.rbIsEmpty_iff).mpr hne)]

end Represents

/-! ### Runs -/

/-- What every run keeps: the buffer holds exactly the bytes accepted and not yet
delivered. -/
def Log.Good (k : ℕ) (st : Log) : Prop :=
  ∃ q : BoundedFifo UInt8 (2 ^ k),
    Represents k st.rb q ∧ st.accepted = st.delivered ++ q.items

theorem lt_uint32Max {n : UInt32} (hk : k ≤ 31) (hn : n.toNat ≤ 2 ^ k) : n ≠ uint32Max := by
  rintro rfl
  have hpow : 2 ^ k ≤ 2 ^ 31 := Nat.pow_le_pow_right (by omega) hk
  have hval : uint32Max.toNat = 2 ^ 32 - 1 := rfl
  omega

theorem Log.Good.step {st : Log} (h : st.Good k) (hk : k ≤ 31) (op : Op) :
    (st.step op).Good k := by
  obtain ⟨q, hrep, hlog⟩ := h
  cases op with
  | write src n =>
    by_cases hn : n.toNat ≤ q.room
    · have hlen : (segment src n.toNat).length ≤ q.room := by rwa [length_segment]
      obtain ⟨hret, hrep'⟩ := hrep.write_push hk src n hlen
      have hcap := q.length_add_room
      refine ⟨q.push _ hlen, ?_⟩
      simp only [Log.step, hret, if_neg (lt_uint32Max hk (show n.toNat ≤ 2 ^ k by omega))]
      exact ⟨hrep', by rw [hlog, BoundedFifo.items_push, List.append_assoc]⟩
    · refine ⟨q, ?_⟩
      rw [Log.step, hrep.write_refused src (show q.room < n.toNat by omega), if_pos rfl]
      exact ⟨hrep, hlog⟩
  | read dst n =>
    by_cases hne : q.items = []
    · refine ⟨q, ?_⟩
      rw [Log.step, hrep.read_empty hne dst n, if_pos rfl]
      exact ⟨hrep, hlog⟩
    · -- what is delivered is taken from the front of the unread bytes
      obtain ⟨hret, hbytes, hrep'⟩ := hrep.read_pop hk hne dst n
      have hbound := q.bound
      -- a length that fits is never the error value
      have hmax := lt_uint32Max (n := (rbRead st.rb dst n).ret) hk (by omega)
      refine ⟨q.pop (rbRead st.rb dst n).ret.toNat, ?_⟩
      simp only [Log.step, if_neg hmax]
      refine ⟨hrep', ?_⟩
      rw [hbytes, hlog, List.append_assoc, BoundedFifo.items_pop, hret, List.take_eq_take_min,
        List.take_append_drop]

theorem good_runOps (junk : Mem) {sz : UInt32} (hk : k ≤ 31) (hsz : sz.toNat = 2 ^ k)
    (ops : List Op) : (runOps junk sz ops).Good k := by
  unfold runOps
  have hinit : Log.Good k ⟨rbInit junk sz, [], []⟩ := ⟨.empty, represents_rbInit junk hsz, rfl⟩
  generalize (⟨rbInit junk sz, [], []⟩ : Log) = st at hinit
  induction ops generalizing st with
  | nil => exact hinit
  | cons op ops ih => exact ih _ (hinit.step hk op)

/-- The ring buffer is a byte queue across the wrap of its counters: after every run, the
bytes delivered are a prefix of the bytes accepted; a write is accepted exactly when it
fits next to the unread bytes and otherwise changes nothing; a read of a non-empty buffer
delivers exactly the oldest unread bytes. -/
theorem rb_is_byte_fifo (junk : Mem) {sz : UInt32} (hk : k ≤ 31) (hsz : sz.toNat = 2 ^ k)
    (ops : List Op) :
    let st := runOps junk sz ops
    st.delivered <+: st.accepted ∧
      (∀ src n, (n.toNat ≤ 2 ^ k - st.unread.length →
          (rbWrite st.rb src n).1 = n ∧ n ≠ uint32Max ∧
            (st.step (.write src n)).accepted = st.accepted ++ segment src n.toNat) ∧
        (¬ n.toNat ≤ 2 ^ k - st.unread.length → rbWrite st.rb src n = (uint32Max, st.rb))) ∧
      (∀ dst n, st.unread ≠ [] →
        (rbRead st.rb dst n).ret.toNat = min n.toNat st.unread.length ∧
          segment (rbRead st.rb dst n).dstBuf (min n.toNat st.unread.length) =
            st.unread.take n.toNat) := by
  intro st
  obtain ⟨q, hrep, hlog⟩ := good_runOps junk hk hsz ops
  change Represents k st.rb q at hrep
  change st.accepted = st.delivered ++ q.items at hlog
  have hunread : st.unread = q.items := by rw [Log.unread, hlog, List.drop_left]
  have hcap := q.length_add_room
  rw [hunread]
  refine ⟨⟨q.items, hlog.symm⟩, ?_, ?_⟩
  · intro src n
    constructor
    · intro hn
      have hlen : (segment src n.toNat).length ≤ q.room := by rw [length_segment]; omega
      obtain ⟨hret, -⟩ := hrep.write_push hk src n hlen
      have hmax := lt_uint32Max hk (show n.toNat ≤ 2 ^ k by omega)
      refine ⟨hret, hmax, ?_⟩
      simp only [Log.step, hret, if_neg hmax]
    · intro hn
      exact hrep.write_refused src (by omega)
  · intro dst n hne
    obtain ⟨hret, hbytes, -⟩ := hrep.read_pop hk hne dst n
    exact ⟨hret, by rw [← hret]; exact hbytes⟩

/-- Four cells, chunks of three: both positions pass `2 ^ 32` on the way. -/
theorem rb_is_byte_fifo_four :
    let st := runOps (fun _ => 0) 4
      [.write (fun i => i.toUInt8) 3, .read (fun _ => 0) 2, .write (fun i => i.toUInt8) 3,
        .read (fun _ => 0) 9]
    st.delivered <+: st.accepted :=
  (rb_is_byte_fifo (k := 2) (fun _ => 0) (by decide) rfl _).1

end MmorpgServer.RingBuffer
