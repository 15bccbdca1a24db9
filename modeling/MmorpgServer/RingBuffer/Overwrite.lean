import MmorpgServer.RingBuffer.Fifo
import MmorpgServer.RingBuffer.Sizes
import Mathlib.Data.List.Nodup
import Mathlib.Data.List.Perm.Subperm

/-!
# Which sizes keep unread bytes safe

`rb_init` takes any size, and the positions are turned into cells with the mask `size - 1`.
A run is followed together with the cells in which the unread bytes were stored. If the size
is a power of two, no accepted write stores to one of them; for any other size the mask
leaves cells out, and as many single bytes as the buffer takes cannot all have one of their
own.

## Main definitions

* `writtenCells` — the cells that an accepted `rb_write` stores to
* `Tracked`, `runTracked` — a run with the cells of the unread bytes
* `Tracked.Overwrites` — a call that stores to one of these cells

## Main results

* `rbWrite_buf_of_not_mem` — an accepted write changes no other cell
* `runTracked_window` — for a power of two the unread bytes lie in a window of the circle
* `overwrites_nothing_iff` — unread bytes are safe in every run if and only if the size is a
  power of two
-/

namespace MmorpgServer.RingBuffer

variable {t : Ringbuffer} {k : ℕ}

/-! ### Where a write goes -/

/-- The cells that the two copies of an accepted `rb_write` of `n` bytes store to, in the order
of the bytes. -/
def writtenCells (t : Ringbuffer) (n : UInt32) : List ℕ :=
  let i := minMacro n (t.size - t.writePos &&& (t.size - 1))
  (List.range i.toNat).map (fun j => (t.writePos &&& (t.size - 1)).toNat + j) ++
    List.range (n - i).toNat

theorem rbWrite_buf_of_not_mem {n : UInt32} (hn : ¬ n > rbReamin t) (src : Mem) {c : ℕ}
    (hc : c ∉ writtenCells t n) : (rbWrite t src n).2.buf c = t.buf c := by
  simp only [writtenCells, List.mem_append, List.mem_map, List.mem_range, not_or, not_exists,
    not_and] at hc
  obtain ⟨hfirst, hsecond⟩ := hc
  unfold rbWrite
  rw [if_neg hn]
  dsimp only
  rw [blit_of_not_mem (by omega), blit_of_not_mem]
  intro ⟨hle, hlt⟩
  exact hfirst (c - (t.writePos &&& (t.size - 1)).toNat) (by omega) (by omega)

theorem length_writtenCells (t : Ringbuffer) (n : UInt32) :
    (writtenCells t n).length = n.toNat := by
  have hle : minMacro n (t.size - t.writePos &&& (t.size - 1)) ≤ n := by
    rw [UInt32.le_iff_toNat_le, minMacro_toNat]
    exact Nat.min_le_left _ _
  simp only [writtenCells, List.length_append, List.length_map, List.length_range]
  rw [UInt32.toNat_sub_of_le _ _ hle]
  exact Nat.add_sub_cancel' (UInt32.le_iff_toNat_le.mp hle)

/-- When the cells of a write are distinct, each of them holds its byte afterwards. -/
theorem rbWrite_buf_getElem {n : UInt32} (hn : ¬ n > rbReamin t) (src : Mem)
    (hnodup : (writtenCells t n).Nodup) (j : ℕ) (hj : j < (writtenCells t n).length) :
    (rbWrite t src n).2.buf (writtenCells t n)[j] = src j := by
  unfold rbWrite
  rw [if_neg hn]
  unfold writtenCells at hnodup hj ⊢
  dsimp only at hnodup hj ⊢
  generalize (minMacro n (t.size - t.writePos &&& (t.size - 1))) = i at *
  rw [List.nodup_append] at hnodup
  obtain ⟨-, -, hdisj⟩ := hnodup
  simp only [List.length_append, List.length_map, List.length_range] at hj
  by_cases hji : j < i.toNat
  · -- a cell of the first copy, which the second one does not reach
    rw [List.getElem_append_left (by simpa using hji), List.getElem_map, List.getElem_range]
    have hout : ¬ (t.writePos &&& (t.size - 1)).toNat + j < (n - i).toNat := fun hlt =>
      hdisj _ (List.mem_map.mpr ⟨j, List.mem_range.mpr hji, rfl⟩) _ (List.mem_range.mpr hlt) rfl
    rw [blit_of_not_mem (by omega), blit_of_mem (by omega) (by omega)]
    exact congrArg src (by omega)
  · rw [List.getElem_append_right (by simpa using hji), List.getElem_range, List.length_map,
      List.length_range, blit_of_mem (Nat.zero_le _) (by omega)]
    exact congrArg src (by omega)

/-! ### Runs -/

/-- A buffer with the cells of the bytes accepted and not yet read, oldest first. -/
structure Tracked where
  rb : Ringbuffer
  unread : List ℕ

/-- One call: an accepted write adds its cells, a read takes the oldest off. -/
def Tracked.step (st : Tracked) : Op → Tracked
  | .write srcBuf srcSz =>
    let r := rbWrite st.rb srcBuf srcSz
    if srcSz > rbReamin st.rb then { st with rb := r.2 }
    else { rb := r.2, unread := st.unread ++ writtenCells st.rb srcSz }
  | .read dstBuf dstSz =>
    let r := rbRead st.rb dstBuf dstSz
    if rbIsEmpty st.rb then { st with rb := r.rb }
    else { rb := r.rb, unread := st.unread.drop r.ret.toNat }

/-- A sequence of calls on a fresh buffer. -/
def runTracked (junk : Mem) (sz : UInt32) (ops : List Op) : Tracked :=
  ops.foldl Tracked.step ⟨rbInit junk sz, []⟩

/-- The call is an accepted write that stores to the cell of an unread byte. -/
def Tracked.Overwrites (st : Tracked) : Op → Prop
  | .write _ srcSz => ¬ srcSz > rbReamin st.rb ∧ ∃ c ∈ writtenCells st.rb srcSz, c ∈ st.unread
  | .read _ _ => False

theorem runTracked_concat (junk : Mem) (sz : UInt32) (ops : List Op) (op : Op) :
    runTracked junk sz (ops ++ [op]) = (runTracked junk sz ops).step op := by
  rw [runTracked, List.foldl_append]
  rfl

@[simp] theorem rbWrite_size (t : Ringbuffer) (src : Mem) (n : UInt32) :
    (rbWrite t src n).2.size = t.size := by
  unfold rbWrite
  split <;> rfl

theorem rbWrite_readPos (t : Ringbuffer) (src : Mem) (n : UInt32) :
    (rbWrite t src n).2.readPos = t.readPos := by
  unfold rbWrite
  split <;> rfl

@[simp] theorem rbRead_size (t : Ringbuffer) (dst : Mem) (n : UInt32) :
    (rbRead t dst n).rb.size = t.size := by
  unfold rbRead
  split <;> rfl

theorem rbRead_writePos (t : Ringbuffer) (dst : Mem) (n : UInt32) :
    (rbRead t dst n).rb.writePos = t.writePos := by
  unfold rbRead
  split <;> rfl

theorem rbRead_readPos (hne : ¬ rbIsEmpty t = true) (dst : Mem) (n : UInt32) :
    (rbRead t dst n).rb.readPos = t.readPos + (rbRead t dst n).ret := by
  rw [rbRead, if_neg hne]

theorem rbWrite_writePos {n : UInt32} (hn : ¬ n > rbReamin t) (src : Mem) :
    (rbWrite t src n).2.writePos = t.writePos + n := by
  rw [rbWrite, if_neg hn]

/-! ### Counting, for every size -/

/-- The positions count the unread bytes, of which there are at most `sz`. -/
structure Tracked.Counted (sz : UInt32) (st : Tracked) : Prop where
  size : st.rb.size = sz
  bound : st.unread.length ≤ sz.toNat
  pos : st.rb.writePos.toNat = (st.rb.readPos.toNat + st.unread.length) % 2 ^ 32

namespace Tracked.Counted

variable {sz : UInt32} {st : Tracked}

theorem rbReamin_toNat (h : st.Counted sz) :
    (rbReamin st.rb).toNat = sz.toNat - st.unread.length := by
  have hbound := h.bound
  rw [← h.size] at hbound ⊢
  exact rbReamin_toNat_of h.pos hbound

/-- A write is accepted exactly when its bytes fit next to the unread ones. -/
theorem accepted_iff (h : st.Counted sz) (n : UInt32) :
    ¬ n > rbReamin st.rb ↔ st.unread.length + n.toNat ≤ sz.toNat := by
  have hbound := h.bound
  rw [gt_iff_lt, UInt32.lt_iff_toNat_lt, h.rbReamin_toNat]
  omega

theorem rbIsEmpty_iff (h : st.Counted sz) : rbIsEmpty st.rb = true ↔ st.unread.length = 0 :=
  rbIsEmpty_iff_of h.pos (h.bound.trans_lt sz.toNat_lt)

theorem rbRead_ret (h : st.Counted sz) (dst : Mem) (n : UInt32)
    (hne : ¬ rbIsEmpty st.rb = true) :
    (rbRead st.rb dst n).ret.toNat = min n.toNat st.unread.length := by
  rw [rbRead, if_neg hne]
  dsimp only
  rw [minMacro_toNat, rbLength_toNat_of h.pos (h.bound.trans_lt sz.toNat_lt)]

theorem step (h : st.Counted sz) (op : Op) : (st.step op).Counted sz := by
  have hlt := st.rb.readPos.toNat_lt
  have hpos := h.pos
  have hbound := h.bound
  cases op with
  | write src n =>
    unfold Tracked.step
    dsimp only
    split
    · next hn =>
      rw [rbWrite, if_pos hn]
      exact h
    · next hn =>
      have hfit := (h.accepted_iff n).mp hn
      have hlen : (st.unread ++ writtenCells st.rb n).length = st.unread.length + n.toNat := by
        rw [List.length_append, length_writtenCells]
      refine ⟨(rbWrite_size ..).trans h.size, hlen.trans_le hfit, ?_⟩
      dsimp only
      rw [rbWrite_writePos hn, rbWrite_readPos, hlen, UInt32.toNat_add]
      omega
  | read dst n =>
    unfold Tracked.step
    dsimp only
    split
    · next hn =>
      rw [rbRead, if_pos hn]
      exact h
    · next hn =>
      have hret := h.rbRead_ret dst n hn
      have hlen : (st.unread.drop (rbRead st.rb dst n).ret.toNat).length =
          st.unread.length - (rbRead st.rb dst n).ret.toNat := List.length_drop
      refine ⟨(rbRead_size ..).trans h.size, by rw [hlen]; omega, ?_⟩
      dsimp only
      rw [rbRead_writePos, rbRead_readPos hn, hlen, UInt32.toNat_add]
      omega

end Tracked.Counted

theorem counted_runTracked (junk : Mem) (sz : UInt32) (ops : List Op) :
    (runTracked junk sz ops).Counted sz := by
  induction ops using List.reverseRecOn with
  | nil =>
    refine ⟨rfl, Nat.zero_le _, ?_⟩
    change (uint32Max - 2).toNat = ((uint32Max - 2).toNat + 0) % 2 ^ 32
    rw [Nat.add_zero, Nat.mod_eq_of_lt (UInt32.toNat_lt _)]
  | append_singleton ops op ih =>
    rw [runTracked_concat]
    exact ih.step op

/-! ### Powers of two -/

theorem le_thirty_one {sz : UInt32} (hsz : sz.toNat = 2 ^ k) : k ≤ 31 := by
  have hlt := sz.toNat_lt
  rw [hsz] at hlt
  exact Nat.le_of_lt_succ ((Nat.pow_lt_pow_iff_right (by omega)).mp hlt)

/-- The cells of `len` stream positions from `start` on, in a circle of `2 ^ k`. -/
def window (k start len : ℕ) : List ℕ := (List.range len).map fun j => (start + j) % 2 ^ k

theorem window_append (k start len more : ℕ) :
    window k start len ++ window k (start + len) more = window k start (len + more) := by
  simp only [window, List.range_add, List.map_append, List.map_map, Function.comp_def,
    Nat.add_assoc]

theorem window_drop (k start len n : ℕ) :
    (window k start len).drop n = window k (start + n) (len - n) := by
  apply List.ext_getElem
  · simp [window]
  · intro j hj hj'
    simp only [window, List.getElem_drop, List.getElem_map, List.getElem_range, Nat.add_assoc]

theorem window_modEq {start start' : ℕ} (h : start ≡ start' [MOD 2 ^ k]) (len : ℕ) :
    window k start len = window k start' len :=
  List.map_congr_left fun j _ => h.add_right j

/-- One turn of the circle meets no cell twice. -/
theorem nodup_window {len : ℕ} (hlen : len ≤ 2 ^ k) (start : ℕ) :
    (window k start len).Nodup := by
  refine List.Nodup.map_on ?_ List.nodup_range
  intro i hi j hj heq
  rw [List.mem_range] at hi hj
  have hmod : i ≡ j [MOD 2 ^ k] := Nat.ModEq.add_left_cancel' start heq
  exact hmod.eq_of_lt_of_lt (by omega) (by omega)

/-- The two copies of a write fill the next stretch of the circle. -/
theorem writtenCells_eq_window (hsize : t.size.toNat = 2 ^ k) (hk : k ≤ 31) {n : UInt32}
    (hn : n.toNat ≤ 2 ^ k) : writtenCells t n = window k t.writePos.toNat n.toNat := by
  have hsplit := split_cases hsize hk n t.writePos
  have hlt := Nat.mod_lt t.writePos.toNat (Nat.two_pow_pos k)
  have hlen : (writtenCells t n).length = (window k t.writePos.toNat n.toNat).length := by
    rw [length_writtenCells, window, List.length_map, List.length_range]
  refine List.ext_getElem hlen ?_
  intro j hj hj'
  rw [length_writtenCells] at hj
  simp only [writtenCells, window, List.getElem_append, List.length_map, List.length_range,
    List.getElem_map, List.getElem_range, mask_toNat hsize]
  rw [add_mod_of_lt (Nat.two_pow_pos k) (by omega)]
  split <;> split <;> omega

/-- The unread bytes lie in the window that starts at the read position. -/
theorem runTracked_window (junk : Mem) {sz : UInt32} (hsz : sz.toNat = 2 ^ k) (ops : List Op) :
    let st := runTracked junk sz ops
    st.unread = window k st.rb.readPos.toNat st.unread.length := by
  have hk : k ≤ 31 := le_thirty_one hsz
  induction ops using List.reverseRecOn with
  | nil => rfl
  | append_singleton ops op ih =>
    have hcount := counted_runTracked junk sz ops
    rw [runTracked_concat]
    generalize runTracked junk sz ops = st at hcount ih
    dsimp only at ih ⊢
    have hbound := hcount.bound
    have hdvd := two_pow_dvd hk
    cases op with
    | write src n =>
      unfold Tracked.step
      dsimp only
      split
      · next hn =>
        rw [rbWrite, if_pos hn]
        exact ih
      · next hn =>
        have hfit := (hcount.accepted_iff n).mp hn
        have hpos : st.rb.writePos.toNat ≡
            st.rb.readPos.toNat + st.unread.length [MOD 2 ^ k] := by
          rw [hcount.pos]
          exact Nat.mod_mod_of_dvd _ hdvd
        dsimp only
        rw [rbWrite_readPos, List.length_append, length_writtenCells, ← window_append, ← ih,
          writtenCells_eq_window (by rw [hcount.size, hsz]) hk (by omega), window_modEq hpos]
    | read dst n =>
      unfold Tracked.step
      dsimp only
      split
      · next hn =>
        rw [rbRead, if_pos hn]
        exact ih
      · next hn =>
        dsimp only
        rw [rbRead_readPos hn, List.length_drop]
        conv_lhs => rw [ih, window_drop]
        apply window_modEq
        rw [UInt32.toNat_add]
        exact (Nat.mod_mod_of_dvd _ hdvd).symm

theorem overwrites_nothing (junk : Mem) {sz : UInt32} (hsz : sz.toNat = 2 ^ k) (ops : List Op)
    (op : Op) : ¬ (runTracked junk sz ops).Overwrites op := by
  have hk : k ≤ 31 := le_thirty_one hsz
  have hcount := counted_runTracked junk sz ops
  have hwindow := runTracked_window junk hsz ops
  generalize runTracked junk sz ops = st at hcount hwindow
  dsimp only at hwindow
  cases op with
  | read dst n => exact id
  | write src n =>
    rintro ⟨hn, c, hwritten, hunread⟩
    have hfit := (hcount.accepted_iff n).mp hn
    have hpos : st.rb.writePos.toNat ≡ st.rb.readPos.toNat + st.unread.length [MOD 2 ^ k] := by
      rw [hcount.pos]
      exact Nat.mod_mod_of_dvd _ (two_pow_dvd hk)
    -- the old and the new bytes together fill at most one turn
    have hnodup := nodup_window (k := k) (hsz ▸ hfit) st.rb.readPos.toNat
    rw [← window_append, ← hwindow, ← window_modEq hpos,
      ← writtenCells_eq_window (by rw [hcount.size, hsz]) hk (by omega)] at hnodup
    exact (List.nodup_append.mp hnodup).2.2 c hunread c hwritten rfl

/-! ### Other sizes -/

/-- The cell of a single byte has no bit outside the mask. -/
theorem writtenCells_one (hsize : 1 ≤ t.size) {c : ℕ} (hc : c ∈ writtenCells t 1) :
    c < t.size.toNat ∧ c &&& (t.size.toNat - 1) = c := by
  have hpos : 1 ≤ t.size.toNat := UInt32.le_iff_toNat_le.mp hsize
  have hi : (minMacro 1 (t.size - t.writePos &&& (t.size - 1))).toNat ≤ 1 := by
    rw [minMacro_toNat]
    exact Nat.min_le_left _ _
  have hrest : (1 - minMacro 1 (t.size - t.writePos &&& (t.size - 1))).toNat ≤ 1 := by
    rw [UInt32.toNat_sub_of_le _ _ (UInt32.le_iff_toNat_le.mpr hi)]
    exact Nat.sub_le _ _
  have hmask : (t.writePos &&& (t.size - 1)).toNat =
      t.writePos.toNat &&& (t.size.toNat - 1) := by
    rw [UInt32.toNat_and, UInt32.toNat_sub_of_le _ _ hsize]
    rfl
  simp only [writtenCells, List.mem_append, List.mem_map, List.mem_range] at hc
  rcases hc with ⟨j, hj, rfl⟩ | hj
  · obtain rfl : j = 0 := by omega
    have hle : t.writePos.toNat &&& (t.size.toNat - 1) ≤ t.size.toNat - 1 := Nat.and_le_right
    rw [hmask, Nat.add_zero, Nat.and_assoc, Nat.and_self]
    exact ⟨by omega, rfl⟩
  · obtain rfl : c = 0 := by omega
    exact ⟨hpos, Nat.zero_and _⟩

/-- A number of cells that are all unchanged by the mask is a power of two. -/
theorem isPowerOfTwo_of_and_pred {m : ℕ} (hm : 0 < m) (h : ∀ c < m, c &&& (m - 1) = c) :
    m.isPowerOfTwo := by
  rcases Nat.eq_zero_or_pos (m - 1) with hzero | hpos
  · exact ⟨0, by omega⟩
  · -- all bits below the highest bit of the mask are in it
    have hle : 2 ^ (m - 1).log2 ≤ m - 1 := Nat.log2_self_le hpos.ne'
    have hlt : m - 1 < 2 ^ ((m - 1).log2 + 1) := Nat.lt_log2_self
    have hlow := h (2 ^ (m - 1).log2 - 1) (by omega)
    rw [Nat.and_comm, Nat.and_two_pow_sub_one_eq_mod] at hlow
    have hone : 0 < 2 ^ (m - 1).log2 := Nat.two_pow_pos _
    refine ⟨(m - 1).log2 + 1, ?_⟩
    rw [Nat.pow_succ] at hlt ⊢
    have hdiv := Nat.div_add_mod (m - 1) (2 ^ (m - 1).log2)
    rw [hlow, Nat.div_eq_of_lt_le (k := 1) (by omega) (by omega)] at hdiv
    omega

/-- `n` writes of one byte each. -/
def singles (n : ℕ) : List Op := List.replicate n (.write (fun _ => 0) 1)

/-- If no write hits an unread byte, single bytes get a cell of their own each. -/
theorem runTracked_singles (junk : Mem) {sz : UInt32} (hsz : 1 ≤ sz)
    (hsafe : ∀ ops op, ¬ (runTracked junk sz ops).Overwrites op) {n : ℕ} (hn : n ≤ sz.toNat) :
    let st := runTracked junk sz (singles n)
    st.unread.length = n ∧ st.unread.Nodup ∧
      ∀ c ∈ st.unread, c < sz.toNat ∧ c &&& (sz.toNat - 1) = c := by
  induction n with
  | zero => exact ⟨rfl, List.nodup_nil, fun c hc => absurd hc List.not_mem_nil⟩
  | succ n ih =>
    obtain ⟨hlen, hnodup, hcells⟩ := ih (by omega)
    have hcount := counted_runTracked junk sz (singles n)
    have hkeep := hsafe (singles n) (.write (fun _ => 0) 1)
    have hrun : singles (n + 1) = singles n ++ [.write (fun _ => 0) 1] := List.replicate_succ'
    rw [hrun, runTracked_concat]
    generalize runTracked junk sz (singles n) = st at *
    have hacc : ¬ 1 > rbReamin st.rb := (hcount.accepted_iff 1).mpr (by rw [hlen]; exact hn)
    rw [Tracked.Overwrites] at hkeep
    simp only [Tracked.step, if_neg hacc]
    refine ⟨by rw [List.length_append, length_writtenCells, hlen]; rfl, ?_, ?_⟩
    · rw [List.nodup_append]
      refine ⟨hnodup, ?_, ?_⟩
      · obtain ⟨c, hc⟩ := List.length_eq_one_iff.mp (length_writtenCells st.rb 1)
        rw [hc]
        exact List.nodup_singleton c
      · rintro c hc c' hc' rfl
        exact hkeep ⟨hacc, c, hc', hc⟩
    · intro c hc
      rcases List.mem_append.mp hc with hc | hc
      · exact hcells c hc
      · rw [← hcount.size]
        exact writtenCells_one (by rw [hcount.size]; exact hsz) hc

/-- Accepted writes leave unread bytes alone, over every run of writes and reads, exactly for
the sizes that are powers of two. -/
theorem overwrites_nothing_iff (junk : Mem) {sz : UInt32} (hsz : 1 ≤ sz) :
    (∀ ops op, ¬ (runTracked junk sz ops).Overwrites op) ↔ sz.toNat.isPowerOfTwo := by
  have hpos : 1 ≤ sz.toNat := UInt32.le_iff_toNat_le.mp hsz
  constructor
  · intro hsafe
    obtain ⟨hlen, hnodup, hcells⟩ := runTracked_singles junk hsz hsafe le_rfl
    -- as many distinct cells as there are below the size: all of them
    have hperm : (runTracked junk sz (singles sz.toNat)).unread.Perm (List.range sz.toNat) := by
      refine (List.Nodup.subperm hnodup fun c hc => ?_).perm_of_length_le ?_
      · exact List.mem_range.mpr (hcells c hc).1
      · rw [List.length_range, hlen]
    refine isPowerOfTwo_of_and_pred hpos fun c hc => ?_
    exact (hcells c (hperm.mem_iff.mpr (List.mem_range.mpr hc))).2
  · rintro ⟨k, hk⟩ ops op
    exact overwrites_nothing junk hk ops op

/-- A size of `9`, the one `main` uses: after `4` and `4` bytes the ninth byte goes to the cell of
the fifth. -/
theorem overwrites_nine :
    (runTracked (fun _ => 0) 9 [.write (fun _ => 1) 4, .write (fun _ => 2) 4]).Overwrites
      (.write (fun _ => 3) 1) :=
  ⟨by decide, 0, by decide, by decide⟩

theorem overwrites_nothing_iff_eight :
    (∀ ops op, ¬ (runTracked (fun _ => 0) 8 ops).Overwrites op) ↔
      (8 : UInt32).toNat.isPowerOfTwo :=
  overwrites_nothing_iff (fun _ => 0) (by decide)

end MmorpgServer.RingBuffer
