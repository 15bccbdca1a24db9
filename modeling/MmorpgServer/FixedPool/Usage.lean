import MmorpgServer.FixedPool.Cells

/-!
# What users see of the block allocator

A user finds in a block what it has written there, and the memory that the allocator takes depends
only on how many blocks have been in use at a time.

## Main definitions

* `noted` — the machine that notes what was written to the blocks
* `peaked` — the machine that notes how many blocks have been in use at a time

## Main results

* `contents_kept` — what was written to a block is there until the block is given back
* `chunks_eq_peak` — there are as many chunks as the peak needs
-/

namespace MmorpgServer.FixedPool

open Bump ByteMemory Chain Machine

variable {m n size a b p q : ℕ} {mem mem' : Memory} {s s' : Sys} {free : List ℕ}
  {c : Interval} {acts : List Act}

/-! ### Contents -/

/-- What users have written to the blocks that they have, byte by byte -/
def note (size : ℕ) (notes : ℕ → Option UInt8) : Act → ℕ → Option UInt8
  | .allocate _ => notes
  | .deallocate phead => fun a => if phead ≤ a ∧ a < phead + size then none else notes a
  | .write a byte => Function.update notes a (some byte)

/-- The steps with these notes -/
def noted (size : ℕ) (st : Sys × (ℕ → Option UInt8)) (act : Act) :
    Option (Sys × (ℕ → Option UInt8)) :=
  (step size st.1 act).map fun s => (s, note size st.2 act)

/-- The notes are right, and about blocks that are handed out. -/
def Right (size : ℕ) (s : Sys) (notes : ℕ → Option UInt8) : Prop :=
  ∀ a byte, notes a = some byte → s.memory a = byte ∧ ∃ p ∈ s.live, p ≤ a ∧ a < p + size

theorem step_right {act : Act} {notes : ℕ → Option UInt8} (hsize : sizeofObj ≤ size) (hm : 1 ≤ m)
    (hfit : m * size < 2 ^ 64) (h : Inv m size s free) (hright : Right size s notes)
    (hone : step size s act = some s') : Right size s' (note size notes act) := by
  obtain ⟨hallowed, hone⟩ := step_eq_some hone
  intro a byte hnote
  cases act with
  | allocate answer =>
    -- links are written only where nothing is handed out
    obtain ⟨hbyte, p, hp, hle, hlt⟩ := hright a byte hnote
    obtain ⟨c, hc, hlo, hhi⟩ := h.mem_chunk (List.mem_append_left free hp)
    obtain ⟨u, q, free', hu, -, hlive, hframe, -⟩ := allocate_spec hsize hm hfit h hallowed
    obtain rfl := Option.some.inj (hone.symm.trans hu)
    refine ⟨(hframe c hc a (by omega) (by omega)).trans hbyte, p, ?_, hle, hlt⟩
    rw [hlive]
    exact List.mem_cons_of_mem q hp
  | deallocate phead =>
    obtain ⟨u, hu, -, hlive, -, hframe⟩ := deallocate_spec hsize h hallowed
    obtain rfl := Option.some.inj (hone.symm.trans hu)
    unfold note at hnote
    dsimp only at hnote
    split at hnote
    -- nothing is known any more about the block that is given back, where the link goes
    · cases hnote
    next hout =>
      obtain ⟨hbyte, p, hp, hle, hlt⟩ := hright a byte hnote
      have hne : p ≠ phead := by
        rintro rfl
        exact hout ⟨hle, hlt⟩
      refine ⟨(hframe a (by omega)).trans hbyte, p, ?_, hle, hlt⟩
      rw [hlive]
      exact (List.mem_erase_of_ne hne).mpr hp
  | write c value =>
    obtain rfl := Option.some.inj hone
    by_cases ha : a = c
    · subst ha
      have hvalue : value = byte := by
        simpa [note] using hnote
      subst hvalue
      exact ⟨Function.update_self _ _ _, hallowed⟩
    · rw [note, Function.update_of_ne ha] at hnote
      obtain ⟨hbyte, hblock⟩ := hright a byte hnote
      exact ⟨(Function.update_of_ne ha _ _).trans hbyte, hblock⟩

/-- What was written to a block is there until the block is given back, whatever is allocated,
given back and written elsewhere in the meantime. -/
theorem contents_kept {notes : ℕ → Option UInt8} (hsize : sizeofObj ≤ size) (hm : 1 ≤ m)
    (hfit : m * size < 2 ^ 64)
    (hrun : exec (noted size) (start m mem, fun _ => none) acts = some (s, notes)) :
    ∀ a byte, notes a = some byte → s.memory a = byte := by
  have hinv : (∃ free, Inv m size s free) ∧ Right size s notes := by
    refine exec_invariant (I := fun st => (∃ free, Inv m size st.1 free) ∧ Right size st.1 st.2)
      ?_ ⟨⟨[], inv_start⟩, fun _ _ hnote => ?_⟩ hrun
    · rintro ⟨s, notes⟩ act st' ⟨⟨free, h⟩, hright⟩ hone
      obtain ⟨s', hstep, rfl⟩ := Option.map_eq_some_iff.mp hone
      exact ⟨step_keeps hsize hm hfit ⟨free, h⟩ hstep, step_right hsize hm hfit h hright hstep⟩
    · cases hnote
  exact fun a byte hnote => (hinv.2 a byte hnote).1

/-- A block of a user, next to others that come and go -/
def keptBlock : List Act :=
  [.allocate 16, .write 17 42, .allocate 0, .deallocate 24, .allocate 0, .write 24 7,
    .deallocate 24]

theorem contents_kept_keptBlock :
    ∃ s notes, exec (noted 8) (start 5 fun _ => 0, fun _ => none) keptBlock = some (s, notes) ∧
      s.memory 17 = 42 := by
  have hnote : (exec (noted 8) (start 5 fun _ => 0, fun _ => none) keptBlock).map
      (fun st => st.2 17) = some (some 42) := by decide +kernel
  obtain ⟨⟨s, notes⟩, hrun, hbyte⟩ := Option.map_eq_some_iff.mp hnote
  exact ⟨s, notes, hrun, contents_kept (by decide) (by decide) (by decide) hrun 17 42 hbyte⟩

/-! ### The peak -/

theorem length_cells : (cells m size c).length = m := by
  rw [cells, List.length_map, List.length_range]

/-- As many blocks are handed out or free as there are cells. -/
theorem Inv.length (h : Inv m size s free) :
    s.live.length + free.length = s.chunks.length * m := by
  have hlen := h.cells.length_eq
  rw [List.length_map, List.length_append, List.length_flatMap] at hlen
  -- every chunk has the same number of cells
  have hcells : s.chunks.map (fun c => (FixedPool.cells m size c).length) =
      List.replicate s.chunks.length m := by
    rw [List.eq_replicate_iff]
    refine ⟨List.length_map _, fun k hk => ?_⟩
    obtain ⟨c, -, rfl⟩ := List.mem_map.mp hk
    exact length_cells
  rw [hlen, hcells, List.sum_replicate_nat]

/-- A chunk is added only where every cell is in use and one more is asked for. -/
theorem step_chunks {act : Act} (hsize : sizeofObj ≤ size) (hm : 1 ≤ m) (hfit : m * size < 2 ^ 64)
    (h : Inv m size s free) (hone : step size s act = some s') :
    s'.chunks.length = s.chunks.length ∨ free = [] ∧ s'.live.length = s.live.length + 1 ∧
      s'.chunks.length = s.chunks.length + 1 := by
  obtain ⟨hallowed, hone⟩ := step_eq_some hone
  cases act with
  | allocate answer =>
    obtain ⟨u, q, free', hu, -, hlive, -, hchunks⟩ := allocate_spec hsize hm hfit h hallowed
    obtain rfl := Option.some.inj (hone.symm.trans hu)
    refine hchunks.imp_right fun ⟨hfree, hgrown⟩ => ⟨hfree, ?_, hgrown⟩
    rw [hlive, List.length_cons]
  | deallocate phead =>
    obtain ⟨u, hu, -, -, hchunks, -⟩ := deallocate_spec hsize h hallowed
    obtain rfl := Option.some.inj (hone.symm.trans hu)
    exact .inl (congrArg _ hchunks)
  | write a byte =>
    obtain rfl := Option.some.inj hone
    exact .inl rfl

/-- The steps with the greatest number of blocks that have been in use at a time -/
def peaked (size : ℕ) (st : Sys × ℕ) (act : Act) : Option (Sys × ℕ) :=
  (step size st.1 act).map fun s => (s, max st.2 s.live.length)

/-- The chunks are as many as the peak needs. -/
structure Tight (m : ℕ) (s : Sys) (peak : ℕ) : Prop where
  live : s.live.length ≤ peak
  room : peak ≤ s.chunks.length * m
  need : s.chunks.length * m < peak + m

theorem tight_start (hm : 1 ≤ m) : Tight m (start m mem) 0 where
  live := le_rfl
  room := Nat.zero_le _
  need := by
    show 0 * m < 0 + m
    omega

theorem step_tight {act : Act} {peak : ℕ} (hsize : sizeofObj ≤ size) (hm : 1 ≤ m)
    (hfit : m * size < 2 ^ 64) (h : Inv m size s free) (htight : Tight m s peak)
    (hone : step size s act = some s') : Tight m s' (max peak s'.live.length) := by
  obtain ⟨free', h'⟩ := step_keeps hsize hm hfit ⟨free, h⟩ hone
  have hlen := h.length
  have hlen' := h'.length
  obtain ⟨hlive, hroom, hneed⟩ := htight
  rcases step_chunks hsize hm hfit h hone with hsame | ⟨rfl, hmore, hgrown⟩
  · -- blocks that are handed out are cells, and no chunk is given back
    rw [hsame] at hlen'
    refine ⟨le_max_right _ _, ?_, ?_⟩
    · rw [hsame]
      omega
    · rw [hsame]
      omega
  · -- every cell was in use, so that the peak goes up with the chunks
    rw [List.length_nil] at hlen
    refine ⟨le_max_right _ _, ?_, ?_⟩
    · rw [hgrown, Nat.add_mul, Nat.one_mul]
      omega
    · rw [hgrown, Nat.add_mul, Nat.one_mul]
      omega

/-- The number of chunks is the peak over the number of cells, rounded up. -/
theorem Tight.chunks_eq {peak : ℕ} (hm : 1 ≤ m) (h : Tight m s peak) :
    s.chunks.length = (peak + m - 1) / m := by
  have hroom := h.room
  have hneed := h.need
  symm
  apply Nat.div_eq_of_lt_le
  · omega
  · rw [Nat.add_mul, Nat.one_mul]
    omega

theorem peaked_tight {peak : ℕ} (hsize : sizeofObj ≤ size) (hm : 1 ≤ m)
    (hfit : m * size < 2 ^ 64)
    (hrun : exec (peaked size) (start m mem, 0) acts = some (s, peak)) : Tight m s peak := by
  have hinv : (∃ free, Inv m size s free) ∧ Tight m s peak := by
    refine exec_invariant (I := fun st => (∃ free, Inv m size st.1 free) ∧ Tight m st.1 st.2)
      ?_ ⟨⟨[], inv_start⟩, tight_start hm⟩ hrun
    rintro ⟨s, peak⟩ act st' ⟨⟨free, h⟩, htight⟩ hone
    obtain ⟨s', hstep, rfl⟩ := Option.map_eq_some_iff.mp hone
    exact ⟨step_keeps hsize hm hfit ⟨free, h⟩ hstep, step_tight hsize hm hfit h htight hstep⟩
  exact hinv.2

/-- The allocator asks `malloc` for as many chunks as the peak needs, in whatever order blocks are
allocated and given back. -/
theorem chunks_eq_peak {peak : ℕ} (hsize : sizeofObj ≤ size) (hm : 1 ≤ m)
    (hfit : m * size < 2 ^ 64)
    (hrun : exec (peaked size) (start m mem, 0) acts = some (s, peak)) :
    s.chunks.length = (peak + m - 1) / m :=
  (peaked_tight hsize hm hfit hrun).chunks_eq hm

/-- Three blocks, two of which are given back before two others are allocated -/
def fourBlocks : List Act :=
  [.allocate 16, .allocate 0, .allocate 48, .deallocate 24, .deallocate 16, .allocate 0,
    .allocate 0]

theorem chunks_eq_peak_fourBlocks :
    ∃ s peak, exec (peaked 8) (start 2 fun _ => 0, 0) fourBlocks = some (s, peak) ∧
      s.chunks.length = (peak + 2 - 1) / 2 := by
  have hsome : (exec (peaked 8) (start 2 fun _ => 0, 0) fourBlocks).isSome = true := by
    decide +kernel
  obtain ⟨⟨s, peak⟩, hrun⟩ := Option.isSome_iff_exists.mp hsome
  exact ⟨s, peak, hrun, chunks_eq_peak (by decide) (by decide) (by decide) hrun⟩

end MmorpgServer.FixedPool
