import MmorpgServer.FixedPool.Model
import MmorpgServer.Lib.Chain
import MmorpgServer.Lib.Machine
import Mathlib.Data.List.Range
import Mathlib.Data.List.Perm.Basic

/-!
# The cells of the block allocator

Each chunk of the allocator is cut into cells. A cell is handed out or on the free list, never
both, and no two cells share a byte, if the number of bytes of a chunk is a `size_t`. Otherwise
`malloc` is asked for fewer bytes than the cells need, and `allocate` links cells that lie in no
memory of `malloc`.

## Main definitions

* `FreeList` — the blocks on the free list
* `cells` — the cells of a chunk
* `Sound` — what is expected of the cells
* `Inv` — the invariant

## Main results

* `linkCells_path` — the loop of `allocate` links the cells of a chunk
* `allocate_spec`, `deallocate_spec` — the functions do not fault, and what they change
* `step_inv` — a step keeps the invariant
* `cells_sound_iff` — no run faults and the cells are sound, exactly if the size of a chunk does
  not overflow
-/

namespace MmorpgServer.FixedPool

open Bump ByteMemory Chain Machine

variable {m n size a b p q : ℕ} {mem mem' : Memory} {s s' : Sys} {free live : List ℕ}
  {chunks : List Interval} {c : Interval}

/-! ### The property -/

/-- A pointer that is perhaps `NULL` -/
def pointer (p : ℕ) : Option ℕ := if p = 0 then none else some p

/-- The memory as one of linked cells -/
def link (mem : Memory) (p : ℕ) : Option (Option ℕ) := some (pointer (load mem sizeofObj p))

/-- The list from `m_FreePosi` on is finite, and these are its blocks. -/
def FreeList (s : Sys) (free : List ℕ) : Prop :=
  Path (link s.memory) (pointer s.pool.freePosi) free

/-- The bytes of a block -/
def block (size p : ℕ) : Interval := ⟨p, size⟩

/-- The `m` cells of a chunk, one behind the other -/
def cells (m size : ℕ) (c : Interval) : List Interval :=
  (List.range m).map fun k => block size (c.lo + k * size)

/-- The blocks that are handed out and those on the free list are the cells of the chunks. Each is
there once, and cells have no byte in common. Only with an empty free list there is a new chunk. -/
structure Sound (size : ℕ) (s : Sys) (free : List ℕ) : Prop where
  list : FreeList s free
  once : (s.live ++ free).Nodup
  cells : ((s.live ++ free).map (block size)).Perm
    (s.chunks.flatMap (cells s.pool.trunkCount size))
  apart : (s.chunks.flatMap (FixedPool.cells s.pool.trunkCount size)).Pairwise Apart
  refill : ∀ answer s', allocate s size answer = some s' → s'.chunks ≠ s.chunks → free = []

/-! ### Links -/

theorem pointer_of_pos (h : 0 < p) : pointer p = some p := if_neg h.ne'

theorem pointer_eq_some (h : pointer p = some q) : 0 < p ∧ p = q := by
  unfold pointer at h
  split at h
  · cases h
  next hne => exact ⟨Nat.pos_of_ne_zero hne, Option.some.inj h⟩

theorem load_link (hq : q < 2 ^ 64) : load (store mem sizeofObj p q) sizeofObj p = q :=
  load_store.trans (Nat.mod_eq_of_lt hq)

theorem link_store (hq : q < 2 ^ 64) :
    link (store mem sizeofObj p q) p = some (pointer q) := by
  rw [link, load_link hq]

/-- Only the bytes of the pointer matter. -/
theorem link_congr (h : ∀ c, b ≤ c → c < b + sizeofObj → mem' c = mem c) :
    link mem' b = link mem b := by
  unfold link
  rw [load_congr h]

theorem next_of_mapped (h : Mapped s.chunks p) :
    next s p = some (load s.memory sizeofObj p) := if_pos h

theorem setNext_of_mapped (h : Mapped s.chunks p) :
    setNext s p q = some { s with memory := store s.memory sizeofObj p q } := if_pos h

/-- The first bytes of a cell of a chunk -/
theorem mapped_of_cell (hsize : sizeofObj ≤ size) (hc : c ∈ chunks) (hlo : c.lo ≤ p)
    (hhi : p + size ≤ c.lo + c.len) : Mapped chunks p :=
  ⟨c, hc, hlo, by omega⟩

/-! ### Cells -/

theorem mem_cells {i : Interval} (hi : i ∈ cells m size c) :
    c.lo ≤ i.lo ∧ i.lo + size ≤ c.lo + m * size ∧ i.len = size := by
  obtain ⟨k, hk, rfl⟩ := List.mem_map.mp hi
  have hmul : (k + 1) * size ≤ m * size := Nat.mul_le_mul_right size (List.mem_range.mp hk)
  rw [Nat.add_mul, Nat.one_mul] at hmul
  refine ⟨Nat.le_add_right _ _, ?_, rfl⟩
  unfold block
  dsimp only
  omega

theorem cells_apart : (cells m size c).Pairwise Apart := by
  unfold cells
  rw [List.pairwise_map]
  refine List.pairwise_lt_range.imp fun {j k} hlt => Or.inl ?_
  have hmul : (j + 1) * size ≤ k * size := Nat.mul_le_mul_right size hlt
  rw [Nat.add_mul, Nat.one_mul] at hmul
  unfold block
  dsimp only
  omega

/-- The cells of chunks that are apart are apart, if they fit into the chunks. -/
theorem flatMap_cells_apart (hlen : ∀ c ∈ chunks, c.len = m * size)
    (hapart : chunks.Pairwise Apart) : (chunks.flatMap (cells m size)).Pairwise Apart := by
  rw [List.pairwise_flatMap]
  refine ⟨fun c _ => cells_apart, hapart.imp_of_mem fun {c d} hc hd hcd i hi j hj => ?_⟩
  have hclen := hlen c hc
  have hdlen := hlen d hd
  obtain ⟨hilo, hihi, hi⟩ := mem_cells hi
  obtain ⟨hjlo, hjhi, hj⟩ := mem_cells hj
  unfold Apart at hcd ⊢
  omega

/-- The addresses of the cells behind `a` -/
def addresses (size a n : ℕ) : List ℕ := (List.range n).map fun k => a + k * size

theorem addresses_succ : addresses size a (n + 1) = a :: addresses size (a + size) n := by
  unfold addresses
  rw [List.range_succ_eq_map, List.map_cons, List.map_map, Nat.zero_mul, Nat.add_zero]
  congr 2
  funext k
  rw [Function.comp_apply, Nat.succ_mul]
  omega

theorem map_addresses : (addresses size c.lo m).map (block size) = cells m size c := by
  unfold addresses cells
  rw [List.map_map]
  rfl

/-- The loop of `allocate` and the assignment behind it link the cells from `tmplink` on, and write
nothing but them. -/
theorem linkCells_path (hsize : sizeofObj ≤ size) (hpos : 0 < a)
    (hfit : a + (n + 1) * size ≤ 2 ^ 64) (hc : c ∈ s.chunks) (hlo : c.lo ≤ a)
    (hhi : a + (n + 1) * size ≤ c.lo + c.len) :
    ∃ s₁ last mem', linkCells size n s a = some (s₁, last) ∧
      setNext s₁ last 0 = some { s with memory := mem' } ∧
      Path (link mem') (some a) (addresses size a (n + 1)) ∧
      ∀ b, b < a ∨ a + (n + 1) * size ≤ b → mem' b = s.memory b := by
  have hobj : 0 < sizeofObj := by decide
  induction n generalizing s a with
  | zero =>
    have hmapped : Mapped s.chunks a := mapped_of_cell hsize hc hlo (by omega)
    refine ⟨s, a, _, rfl, setNext_of_mapped hmapped, ?_, fun b hb => store_outside (by omega)⟩
    rw [addresses_succ]
    exact ⟨rfl, none, link_store (Nat.two_pow_pos 64), rfl⟩
  | succ n ih =>
    rw [Nat.add_mul, Nat.one_mul] at hfit hhi
    have hle : (n + 1) * size = n * size + size := by rw [Nat.add_mul, Nat.one_mul]
    have hlt : a + size < 2 ^ 64 := by omega
    have hsizeT : sizeT (a + size) = a + size := Nat.mod_eq_of_lt hlt
    have hmapped : Mapped s.chunks a := mapped_of_cell hsize hc hlo (by omega)
    obtain ⟨s₁, last, mem', hloop, hend, hpath, hframe⟩ :=
      @ih (a + size) { s with memory := store s.memory sizeofObj a (a + size) } (by omega)
        (by omega) hc (by omega) (by omega)
    refine ⟨s₁, last, mem', ?_, hend, ?_, ?_⟩
    · have hmapped' : Mapped { s with memory := store s.memory sizeofObj a (a + size) }.chunks a :=
        hmapped
      rw [linkCells, hsizeT, setNext_of_mapped hmapped, Option.bind_eq_bind, Option.bind_some,
        next_of_mapped hmapped', Option.bind_eq_bind, Option.bind_some, load_link hlt]
      exact hloop
    · -- the rest of the loop writes behind the cell, so its link stays
      rw [addresses_succ]
      refine ⟨rfl, some (a + size), ?_, hpath⟩
      have hkept : link mem' a = link (store s.memory sizeofObj a (a + size)) a :=
        link_congr fun c hle hlt => hframe c (Or.inl (by omega))
      rw [hkept, link_store hlt, pointer_of_pos (by omega)]
    · intro b hb
      rw [Nat.add_mul, Nat.one_mul] at hb
      rw [hframe b (by omega)]
      exact store_outside (by omega)

/-! ### The invariant -/

/-- The chunks are apart and as long as their cells, which are handed out or free. -/
structure Inv (m size : ℕ) (s : Sys) (free : List ℕ) : Prop where
  count : s.pool.trunkCount = m
  list : FreeList s free
  cells : ((s.live ++ free).map (block size)).Perm (s.chunks.flatMap (cells m size))
  bounds : ∀ c ∈ s.chunks, 0 < c.lo ∧ c.lo + c.len ≤ 2 ^ 64 ∧ c.len = m * size
  apart : s.chunks.Pairwise Apart

theorem inv_start : Inv m size (start m mem) [] where
  count := rfl
  list := rfl
  cells := List.Perm.refl _
  bounds _ hc := absurd hc List.not_mem_nil
  apart := List.Pairwise.nil

theorem Inv.flatMap_apart (h : Inv m size s free) :
    (s.chunks.flatMap (FixedPool.cells m size)).Pairwise Apart :=
  flatMap_cells_apart (fun c hc => (h.bounds c hc).2.2) h.apart

/-- Blocks have no byte in common. -/
theorem Inv.blocks_apart (h : Inv m size s free) :
    (s.live ++ free).Pairwise fun p q => Apart (block size p) (block size q) := by
  have hpairwise := h.cells.symm.pairwise h.flatMap_apart Apart.symm
  exact List.pairwise_map.mp hpairwise

theorem Inv.once (hsize : sizeofObj ≤ size) (h : Inv m size s free) :
    (s.live ++ free).Nodup := by
  refine h.blocks_apart.imp fun hapart heq => ?_
  subst heq
  have hobj : 0 < sizeofObj := by decide
  unfold Apart block at hapart
  dsimp only at hapart
  omega

/-- Blocks are not `NULL`, and their addresses fit into a pointer. -/
theorem Inv.block_bounds (h : Inv m size s free) (hp : p ∈ s.live ++ free) :
    0 < p ∧ p + size ≤ 2 ^ 64 := by
  have hblock := h.cells.mem_iff.mp (List.mem_map_of_mem hp)
  obtain ⟨c, hc, hmem⟩ := List.mem_flatMap.mp hblock
  obtain ⟨hlo, hhi, -⟩ := mem_cells hmem
  obtain ⟨hpos, hfit, hlen⟩ := h.bounds c hc
  unfold block at hlo hhi
  dsimp only at hlo hhi
  omega

/-- A block that is handed out and a free one -/
theorem Inv.live_apart (h : Inv m size s free) (hp : p ∈ s.live) (hq : q ∈ free) :
    Apart (block size p) (block size q) :=
  (List.pairwise_append.mp h.blocks_apart).2.2 p hp q hq

/-- Where a block is -/
theorem Inv.mem_chunk (h : Inv m size s free) (hp : p ∈ s.live ++ free) :
    ∃ c ∈ s.chunks, c.lo ≤ p ∧ p + size ≤ c.lo + c.len := by
  have hblock := h.cells.mem_iff.mp (List.mem_map_of_mem hp)
  obtain ⟨c, hc, hmem⟩ := List.mem_flatMap.mp hblock
  obtain ⟨hlo, hhi, -⟩ := mem_cells hmem
  refine ⟨c, hc, hlo, ?_⟩
  rw [(h.bounds c hc).2.2]
  exact hhi

/-- The link of a block can be read and written. -/
theorem Inv.mapped (hsize : sizeofObj ≤ size) (h : Inv m size s free) (hp : p ∈ s.live ++ free) :
    Mapped s.chunks p := by
  obtain ⟨c, hc, hlo, hhi⟩ := h.mem_chunk hp
  exact mapped_of_cell hsize hc hlo hhi

/-- What is written to blocks that are handed out does not change the free list. -/
theorem Inv.list_congr (hsize : sizeofObj ≤ size) (h : Inv m size s free) (hp : p ∈ s.live)
    (hframe : ∀ b, b < p ∨ p + size ≤ b → mem' b = s.memory b) :
    Path (link mem') (pointer s.pool.freePosi) free := by
  refine Path.congr h.list fun q hq => link_congr fun b hle hlt => hframe b ?_
  have hapart := h.live_apart hp hq
  unfold Apart block at hapart
  dsimp only at hapart
  omega

/-! ### The functions -/

/-- A block from the free list is handed out. -/
theorem Inv.take (hsize : sizeofObj ≤ size) (h : Inv m size s (p :: free)) :
    s.pool.freePosi = p ∧ ∃ q, next s p = some q ∧
      Inv m size { s with pool.freePosi := q, live := p :: s.live } free := by
  obtain ⟨hhead, q, hlink, hrest⟩ := h.list
  have hmapped := h.mapped hsize (List.mem_append_right s.live List.mem_cons_self)
  refine ⟨(pointer_eq_some hhead).2, _, next_of_mapped hmapped, { h with list := ?_, cells := ?_ }⟩
  · show Path (link s.memory) (pointer (load s.memory sizeofObj p)) free
    obtain rfl := Option.some.inj hlink
    exact hrest
  · refine List.Perm.trans ?_ h.cells
    exact (List.perm_middle.symm).map _

/-- A new chunk, all of whose cells are free; no other chunk is written. -/
theorem Inv.refill {answer : ℕ} (hsize : sizeofObj ≤ size) (hfit : (n + 1) * size < 2 ^ 64)
    (h : Inv (n + 1) size s [])
    (hfresh : Fresh s.chunks (sizeT (s.pool.trunkCount * size)) answer) :
    ∃ s', refill s size answer = some s' ∧
      Inv (n + 1) size s' (answer :: addresses size (answer + size) n) ∧ s'.live = s.live ∧
      (∀ c ∈ s.chunks, ∀ b, c.lo ≤ b → b < c.lo + c.len → s'.memory b = s.memory b) ∧
      s'.chunks.length = s.chunks.length + 1 := by
  have hobj : 0 < sizeofObj := by decide
  have hreal : sizeT (s.pool.trunkCount * size) = (n + 1) * size := by
    rw [h.count]
    exact Nat.mod_eq_of_lt hfit
  have hbytes : Nat.max ((n + 1) * size) 1 = (n + 1) * size := by
    refine Nat.max_eq_left (Nat.mul_pos (Nat.succ_pos n) ?_)
    omega
  rw [hreal] at hfresh
  obtain ⟨hpos, hend, hapart⟩ := hfresh
  rw [hbytes] at hend hapart
  obtain ⟨s₁, last, mem', hloop, hlast, hpath, hframe⟩ :=
    @linkCells_path n size answer { s with
      pool.freePosi := answer
      chunks := ⟨answer, (n + 1) * size⟩ :: s.chunks } ⟨answer, (n + 1) * size⟩
      hsize hpos hend List.mem_cons_self le_rfl le_rfl
  refine ⟨{ s with
    pool.freePosi := answer
    memory := mem'
    chunks := ⟨answer, (n + 1) * size⟩ :: s.chunks }, ?_,
    ⟨h.count, ?_, ?_, ?_, List.pairwise_cons.mpr ⟨?_, h.apart⟩⟩, rfl, ?_, rfl⟩
  · have hcount : s.pool.trunkCount - 1 = n := by
      rw [h.count]
      exact Nat.add_sub_cancel n 1
    unfold FixedPool.refill
    dsimp only
    rw [hreal, hbytes, hcount, hloop]
    exact hlast
  · rw [addresses_succ] at hpath
    show Path _ (pointer answer) _
    rwa [pointer_of_pos hpos]
  · have hcells := h.cells
    rw [List.append_nil] at hcells
    rw [List.map_append, List.flatMap_cons, ← addresses_succ]
    dsimp only
    refine (hcells.append_right _).trans (List.perm_append_comm.trans ?_)
    rw [← map_addresses]
  · exact List.forall_mem_cons.mpr ⟨⟨hpos, hend, rfl⟩, h.bounds⟩
  · exact fun r hr => (hapart r hr).symm
  · intro c hc b hle hlt
    apply hframe
    have hout := hapart c hc
    unfold Apart at hout
    dsimp only at hout
    omega

/-- `allocate` does not fault. It hands out one more block, writes to none that is in use, and asks
for memory only when no block is free. -/
theorem allocate_spec {answer : ℕ} (hsize : sizeofObj ≤ size) (hm : 1 ≤ m)
    (hfit : m * size < 2 ^ 64) (h : Inv m size s free)
    (hfresh : Allowed size s (.allocate answer)) :
    ∃ s' p free', allocate s size answer = some s' ∧ Inv m size s' free' ∧
      s'.live = p :: s.live ∧
      (∀ c ∈ s.chunks, ∀ b, c.lo ≤ b → b < c.lo + c.len → s'.memory b = s.memory b) ∧
      (s'.chunks.length = s.chunks.length ∨
        free = [] ∧ s'.chunks.length = s.chunks.length + 1) := by
  unfold allocate
  cases free with
  | nil =>
    obtain ⟨n, rfl⟩ := Nat.exists_eq_add_of_le' hm
    have hnull : s.pool.freePosi = 0 := by
      by_contra hne
      have hlist : pointer s.pool.freePosi = none := h.list
      rw [pointer_of_pos (Nat.pos_of_ne_zero hne)] at hlist
      cases hlist
    obtain ⟨s₁, hrefill, h₁, hlive, hframe, hgrown⟩ := h.refill hsize hfit (hfresh hnull)
    obtain ⟨hhead, q, hnext, hinv⟩ := h₁.take hsize
    rw [if_pos hnull, hrefill, Option.bind_eq_bind, Option.bind_some]
    dsimp only
    rw [hhead, hnext]
    exact ⟨_, answer, _, rfl, hinv, congrArg _ hlive, hframe, .inr ⟨rfl, hgrown⟩⟩
  | cons p rest =>
    have hpos := (pointer_eq_some h.list.1).1
    obtain ⟨hhead, q, hnext, hinv⟩ := h.take hsize
    rw [if_neg hpos.ne', Option.bind_eq_bind, Option.bind_some]
    dsimp only
    rw [hhead, hnext]
    exact ⟨_, p, rest, rfl, hinv, rfl, fun _ _ _ _ _ => rfl, .inl rfl⟩

/-- `deallocate` does not fault, and writes only to the block that is given back. -/
theorem deallocate_spec (hsize : sizeofObj ≤ size) (h : Inv m size s free) (hp : p ∈ s.live) :
    ∃ s', deallocate s p = some s' ∧ Inv m size s' (p :: free) ∧ s'.live = s.live.erase p ∧
      s'.chunks = s.chunks ∧ ∀ b, b < p ∨ p + size ≤ b → s'.memory b = s.memory b := by
  have hpos := (h.block_bounds (List.mem_append_left free hp)).1
  -- the old head is a free block, or `NULL`
  have hhead : s.pool.freePosi < 2 ^ 64 := by
    rcases Nat.eq_zero_or_pos s.pool.freePosi with hzero | hpos
    · rw [hzero]
      exact Nat.two_pow_pos 64
    · have hlist := h.list
      unfold FreeList at hlist
      rw [pointer_of_pos hpos] at hlist
      cases free with
      | nil => cases hlist
      | cons q rest =>
        have hq := Option.some.inj hlist.1
        have hbounds := (h.block_bounds (List.mem_append_right s.live List.mem_cons_self)).2
        have hobj : 0 < sizeofObj := by decide
        omega
  have hframe : ∀ b, b < p ∨ p + size ≤ b →
      store s.memory sizeofObj p s.pool.freePosi b = s.memory b :=
    fun b hb => store_outside (by omega)
  unfold deallocate
  rw [setNext_of_mapped (h.mapped hsize (List.mem_append_left free hp))]
  refine ⟨_, rfl, { h with list := ?_, cells := ?_ }, rfl, rfl, hframe⟩
  · refine ⟨pointer_of_pos hpos, pointer s.pool.freePosi, link_store hhead, ?_⟩
    exact h.list_congr hsize hp hframe
  · refine List.Perm.trans (List.Perm.map _ ?_) h.cells
    exact List.perm_middle.trans ((List.perm_cons_erase hp).symm.append_right free)

/-! ### The steps -/

/-- What is allowed does not fault, and keeps the invariant. -/
theorem step_inv {act : Act} (hsize : sizeofObj ≤ size) (hm : 1 ≤ m) (hfit : m * size < 2 ^ 64)
    (hallowed : Allowed size s act) (h : ∃ free, Inv m size s free) :
    ∃ s', step size s act = some s' ∧ ∃ free, Inv m size s' free := by
  obtain ⟨free, h⟩ := h
  rw [step, if_pos hallowed]
  cases act with
  | allocate answer =>
    obtain ⟨s', p, free', hone, hinv, -⟩ := allocate_spec hsize hm hfit h hallowed
    exact ⟨s', hone, free', hinv⟩
  | deallocate phead =>
    obtain ⟨s', hone, hinv, -⟩ := deallocate_spec hsize h hallowed
    exact ⟨s', hone, _, hinv⟩
  | write a byte =>
    obtain ⟨p, hp, hle, hlt⟩ := hallowed
    have hframe : ∀ b, b < p ∨ p + size ≤ b → Function.update s.memory a byte b = s.memory b :=
      fun b hb => Function.update_of_ne (by omega) _ _
    have hlist := h.list_congr hsize hp hframe
    exact ⟨_, rfl, free, { h with list := hlist }⟩

/-- A step is allowed. -/
theorem step_eq_some {act : Act} (hone : step size s act = some s') :
    Allowed size s act ∧ perform size s act = some s' := by
  unfold step at hone
  split at hone
  next hallowed => exact ⟨hallowed, hone⟩
  · cases hone

/-- A step keeps the invariant. -/
theorem step_keeps {act : Act} (hsize : sizeofObj ≤ size) (hm : 1 ≤ m) (hfit : m * size < 2 ^ 64)
    (h : ∃ free, Inv m size s free) (hone : step size s act = some s') :
    ∃ free, Inv m size s' free := by
  obtain ⟨u, hu, hinv⟩ := step_inv hsize hm hfit (step_eq_some hone).1 h
  obtain rfl := Option.some.inj (hone.symm.trans hu)
  exact hinv

/-! ### Every run -/

theorem Inv.sound (hsize : sizeofObj ≤ size) (h : Inv m size s free) : Sound size s free where
  list := h.list
  once := h.once hsize
  cells := by
    rw [h.count]
    exact h.cells
  apart := by
    rw [h.count]
    exact h.flatMap_apart
  refill answer s' hone hne := by
    cases free with
    | nil => rfl
    | cons p rest =>
      have hpos := (pointer_eq_some h.list.1).1
      obtain ⟨hhead, q, hnext, -⟩ := h.take hsize
      unfold allocate at hone
      rw [if_neg hpos.ne', Option.bind_eq_bind, Option.bind_some] at hone
      dsimp only at hone
      rw [hhead, hnext] at hone
      obtain rfl := Option.some.inj hone
      exact absurd rfl hne

theorem load_link_lt : load mem sizeofObj p < 2 ^ 64 := load_lt

/-- The blocks of a free list have addresses that fit into a pointer. -/
theorem path_lt (hp : p < 2 ^ 64) (h : Path (link mem) (pointer p) free) :
    ∀ q ∈ free, q < 2 ^ 64 := by
  induction free generalizing p with
  | nil => simp
  | cons b free ih =>
    obtain ⟨hhead, r, hlink, hrest⟩ := h
    obtain rfl := (pointer_eq_some hhead).2
    obtain rfl := Option.some.inj hlink
    exact List.forall_mem_cons.mpr ⟨hp, ih load_link_lt hrest⟩

/-- Only the memory changes with a link. -/
theorem setNext_eq_some (hone : setNext s p q = some s') :
    ∃ mem', s' = { s with memory := mem' } := by
  unfold setNext at hone
  split at hone <;> cases hone
  exact ⟨_, rfl⟩

theorem linkCells_eq_some {last : ℕ} (hloop : linkCells size n s a = some (s', last)) :
    ∃ mem', s' = { s with memory := mem' } := by
  induction n generalizing s a with
  | zero =>
    cases hloop
    exact ⟨_, rfl⟩
  | succ n ih =>
    obtain ⟨s₁, hset, hrest⟩ := Option.bind_eq_some_iff.mp hloop
    obtain ⟨p, -, hrest⟩ := Option.bind_eq_some_iff.mp hrest
    obtain ⟨mem₁, rfl⟩ := setNext_eq_some hset
    obtain ⟨mem₂, rfl⟩ := ih hrest
    exact ⟨mem₂, rfl⟩

/-- The first chunk, and the first block of it -/
theorem allocate_start {answer : ℕ} (hone : allocate (start m mem) size answer = some s) :
    s.pool.trunkCount = m ∧ s.chunks = [⟨answer, Nat.max (sizeT (m * size)) 1⟩] ∧
      s.live = [answer] ∧ s.pool.freePosi < 2 ^ 64 := by
  have hnull : (start m mem).pool.freePosi = 0 := rfl
  unfold allocate at hone
  rw [if_pos hnull] at hone
  obtain ⟨s₁, hrefill, hrest⟩ := Option.bind_eq_some_iff.mp hone
  obtain ⟨q, hnext, hrest⟩ := Option.bind_eq_some_iff.mp hrest
  obtain ⟨⟨s₀, last⟩, hloop, hset⟩ := Option.bind_eq_some_iff.mp hrefill
  obtain ⟨mem₀, rfl⟩ := linkCells_eq_some hloop
  obtain ⟨mem₁, rfl⟩ := setNext_eq_some hset
  obtain rfl := Option.some.inj hrest
  unfold next at hnext
  split at hnext <;> cases hnext
  exact ⟨rfl, rfl, rfl, load_link_lt⟩

/-- When the size of a chunk overflows, a chunk may lie where the address of its last cell does not
fit into a pointer. -/
theorem not_sound_of_overflow (mem : Memory) (hword : size < 2 ^ 64) (hm : 1 ≤ m)
    (hfit : ¬ m * size < 2 ^ 64) :
    ∃ answer, Fresh [] (sizeT (m * size)) answer ∧
      ∀ s, allocate (start m mem) size answer = some s → ∀ free, ¬ Sound size s free := by
  obtain ⟨n, rfl⟩ := Nat.exists_eq_add_of_le' hm
  obtain ⟨len, hlen⟩ : ∃ len, len = Nat.max (sizeT ((n + 1) * size)) 1 := ⟨_, rfl⟩
  have hchoice : len = sizeT ((n + 1) * size) ∨ len = 1 := by
    rw [hlen]
    exact max_choice _ _
  have hpos : 1 ≤ len := by
    rw [hlen]
    exact Nat.le_max_right _ _
  have hreal : sizeT ((n + 1) * size) = (n * size + size) % 2 ^ 64 := by
    rw [Nat.add_mul, Nat.one_mul]
    rfl
  rw [Nat.add_mul, Nat.one_mul] at hfit
  -- the chunk ends where the memory ends
  have hfresh : Fresh [] (sizeT ((n + 1) * size)) (2 ^ 64 - len) := by
    refine ⟨by omega, ?_, by simp⟩
    rw [← hlen]
    omega
  refine ⟨2 ^ 64 - len, hfresh, fun s hone free hsound => ?_⟩
  obtain ⟨hcount, hchunks, hlive, hhead⟩ := allocate_start hone
  have hcells := hsound.cells
  rw [hcount, hchunks, hlive] at hcells
  have hlast : block size (2 ^ 64 - len + n * size) ∈
      cells (n + 1) size ⟨2 ^ 64 - len, Nat.max (sizeT ((n + 1) * size)) 1⟩ :=
    List.mem_map.mpr ⟨n, by simp, rfl⟩
  have hmem := hcells.mem_iff.mpr (List.mem_flatMap.mpr ⟨_, List.mem_cons_self, hlast⟩)
  obtain ⟨p, hp, heq⟩ := List.mem_map.mp hmem
  obtain rfl : p = 2 ^ 64 - len + n * size := congrArg Interval.lo heq
  rcases List.mem_append.mp hp with hfirst | hfree
  · -- the only block that is handed out is the first cell
    have hfirst := List.mem_singleton.mp hfirst
    omega
  · have hlt := path_lt hhead hsound.list _ hfree
    omega

/-- For every size of the blocks and every count, no run faults and the cells are sound behind it,
whatever the users write to their blocks, exactly if the size of a chunk is a `size_t`. -/
theorem cells_sound_iff {size m : ℕ} (hsize : sizeofObj ≤ size) (hword : size < 2 ^ 64)
    (hm : 1 ≤ m) :
    (∀ mem acts, Guarded (step size) (Allowed size) (start m mem) acts →
      ∃ s, exec (step size) (start m mem) acts = some s ∧ ∃ free, Sound size s free) ↔
      m * size < 2 ^ 64 := by
  constructor
  · intro hall
    by_contra hfit
    obtain ⟨answer, hfresh, hnot⟩ := not_sound_of_overflow (fun _ => 0) hword hm hfit
    have hallowed : Allowed size (start m fun _ => 0) (.allocate answer) := fun _ => hfresh
    obtain ⟨s, hrun, free, hsound⟩ := hall _ [.allocate answer] ⟨hallowed, fun _ _ => trivial⟩
    obtain ⟨s', hone, hend⟩ := exec_cons_eq_some.mp hrun
    obtain rfl := Option.some.inj hend
    exact hnot s' (step_eq_some hone).2 free hsound
  · intro hfit mem acts hguard
    obtain ⟨s, hrun, free, h⟩ := exec_progress_of_guarded
      (fun s a hallowed h => step_inv hsize hm hfit hallowed h) hguard ⟨[], inv_start⟩
    exact ⟨s, hrun, free, h.sound hsize⟩

/-- Five cells of the class `A`, whose objects are eight bytes long -/
theorem cells_sound_iff_five :
    (∀ mem acts, Guarded (step 8) (Allowed 8) (start 5 mem) acts →
      ∃ s, exec (step 8) (start 5 mem) acts = some s ∧ ∃ free, Sound 8 s free) ↔
      5 * 8 < 2 ^ 64 :=
  cells_sound_iff (by decide) (by decide) (by decide)

/-- A size whose fivefold is `24` as a `size_t` -/
def hugeSize : ℕ := 3689348814741910328

/-- With that size the first chunk has `24` bytes. The link of its first cell fits into it. The
second cell lies in no memory of `malloc`, and the first `allocate` faults there. -/
theorem cells_not_sound :
    Guarded (step hugeSize) (Allowed hugeSize) (start 5 fun _ => 0) [.allocate 16] ∧
      ¬ ∃ s, exec (step hugeSize) (start 5 fun _ => 0) [.allocate 16] = some s ∧
        ∃ free, Sound hugeSize s free := by
  have hguard : Guarded (step hugeSize) (Allowed hugeSize) (start 5 fun _ => 0) [.allocate 16] := by
    decide +kernel
  have hfault : (exec (step hugeSize) (start 5 fun _ => 0) [.allocate 16]).isNone = true := by
    decide +kernel
  refine ⟨hguard, ?_⟩
  rintro ⟨s, hrun, -⟩
  rw [hrun] at hfault
  cases hfault

end MmorpgServer.FixedPool
