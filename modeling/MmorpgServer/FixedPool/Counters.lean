import MmorpgServer.FixedPool.Usage

/-!
# The class `A` of `test_malloc.h`

The class has a pool of its own, which works as that of `CAllocator`. It counts the allocations and
the calls of `malloc`, to show how few there are.

## Main definitions

* `A` — the static members of the class
* `A.operatorNew`, `A.operatorDelete` — its operators

## Main results

* `A.step_eq` — the pool works as that of `CAllocator`
* `counts_exact` — what the counters show
-/

namespace MmorpgServer.FixedPool

open ByteMemory Machine

variable {a : ℕ} {mem : Memory} {free : List ℕ} {acts : List Act}

/-! ### The class -/

/-- A number as an `int` -/
def int (n : ℤ) : ℤ := n.bmod (2 ^ 32)

/-- `sizeof(A)`: there is one pointer in an object. -/
def sizeofA : ℕ := 8

/-- The static members of the class `A`, with its objects. The pool is `m_FreePosi` and
`m_sTrunkCount`. -/
structure A extends Sys where
  iCount : ℤ
  iMallocCount : ℤ

/-- The static members in the beginning -/
def A.start (memory : Memory) : A := ⟨FixedPool.start 500 memory, 0, 0⟩

/-- The loop of `operator new` with `n` rounds to go, and where `tmplink` is behind it -/
def A.linkLoop : (n : ℕ) → Sys → (tmplink : ℕ) → Option (Sys × ℕ)
  | 0, s, tmplink => some (s, tmplink)
  | n + 1, s, tmplink => do
    let s ← setNext s tmplink (sizeT (tmplink + sizeofA))
    A.linkLoop n s (sizeT (tmplink + sizeofA))

/-- `operator new` with an empty free list -/
def A.refill (s : A) (size answer : ℕ) : Option A := do
  let realsize := sizeT (s.pool.trunkCount * size)
  let pool := { s.toSys with
    pool.freePosi := answer
    chunks := ⟨answer, Nat.max realsize 1⟩ :: s.chunks }
  let (pool, tmplink) ← A.linkLoop (s.pool.trunkCount - 1) pool answer
  let pool ← setNext pool tmplink 0
  some { s with toSys := pool, iMallocCount := int (s.iMallocCount + 1) }

/-- `operator new`; `answer` is what `malloc` returns if it is called. -/
def A.operatorNew (s : A) (size answer : ℕ) : Option A := do
  let s ← (if s.pool.freePosi = 0 then s.refill size answer else some s)
  let tmplink := s.pool.freePosi
  let q ← next s.toSys tmplink
  some { s with
    pool.freePosi := q
    live := tmplink :: s.live
    iCount := int (s.iCount + 1) }

/-- `operator delete` -/
def A.operatorDelete (s : A) (phead : ℕ) : Option A := do
  let pool ← setNext s.toSys phead s.pool.freePosi
  some { s with toSys := { pool with pool.freePosi := phead, live := pool.live.erase phead } }

/-- What an act does with the objects of the class -/
def A.perform (s : A) : Act → Option A
  | .allocate answer => s.operatorNew sizeofA answer
  | .deallocate phead => s.operatorDelete phead
  | .write a byte => some { s with memory := Function.update s.memory a byte }

/-- What the users of the class do; they give back and write to their own objects. -/
def A.step (s : A) (act : Act) : Option A :=
  if Allowed sizeofA s.toSys act then s.perform act else none

/-! ### The pool -/

/-- To go on from object to object, or along the links that were just set -/
theorem linkLoop_eq {s : Sys} (n : ℕ) : A.linkLoop n s a = linkCells sizeofA n s a := by
  induction n generalizing s a with
  | zero => rfl
  | succ n ih =>
    unfold A.linkLoop linkCells
    refine Option.bind_congr fun s₁ hset => ?_
    -- the link that `CAllocator` reads back is where the class goes on
    have hlt : sizeT (a + sizeofA) < 2 ^ 64 := Nat.mod_lt _ (Nat.two_pow_pos 64)
    have hnext : next s₁ a = some (sizeT (a + sizeofA)) := by
      unfold setNext at hset
      split at hset <;> cases hset
      next hmapped =>
        exact (if_pos hmapped).trans (congrArg some (load_link hlt))
    rw [hnext]
    exact ih

/-- An allocation -/
def Act.allocates : Act → Bool
  | .allocate _ => true
  | _ => false

/-- A new chunk is linked as by `CAllocator`, and counted. -/
theorem A.refill_eq {s s' : A} {answer : ℕ} (hone : s.refill sizeofA answer = some s') :
    FixedPool.refill s.toSys sizeofA answer = some s'.toSys ∧ s'.iCount = s.iCount ∧
      s'.iMallocCount = int (s.iMallocCount + 1) ∧
      s'.chunks.length = s.chunks.length + 1 := by
  unfold A.refill at hone
  obtain ⟨⟨s₁, last⟩, hloop, hrest⟩ := Option.bind_eq_some_iff.mp hone
  obtain ⟨s₂, hset, hend⟩ := Option.bind_eq_some_iff.mp hrest
  obtain rfl := Option.some.inj hend
  rw [linkLoop_eq] at hloop
  refine ⟨?_, rfl, rfl, ?_⟩
  · exact Option.bind_eq_some_iff.mpr ⟨(s₁, last), hloop, hset⟩
  · obtain ⟨mem₁, rfl⟩ := linkCells_eq_some hloop
    obtain ⟨mem₂, rfl⟩ := setNext_eq_some hset
    rfl

/-- The pool of the class works as that of `CAllocator`, and the counters count. -/
theorem A.step_eq {s : A} {act : Act} {s' : A} (hone : s.step act = some s') :
    FixedPool.step sizeofA s.toSys act = some s'.toSys ∧
      s'.iCount = (if act.allocates then int (s.iCount + 1) else s.iCount) ∧
      s'.iMallocCount = (if s'.chunks.length = s.chunks.length then s.iMallocCount
        else int (s.iMallocCount + 1)) := by
  unfold A.step at hone
  split at hone
  next hallowed =>
    rw [FixedPool.step, if_pos hallowed]
    cases act with
    | allocate answer =>
      obtain ⟨s₁, hs₁, hrest⟩ := Option.bind_eq_some_iff.mp hone
      obtain ⟨q, hnext, hend⟩ := Option.bind_eq_some_iff.mp hrest
      obtain rfl := Option.some.inj hend
      unfold FixedPool.perform allocate
      dsimp only
      split at hs₁
      next hnull =>
        obtain ⟨hrefill, hcount, hmalloc, hgrown⟩ := A.refill_eq hs₁
        have hmore : s₁.chunks.length ≠ s.chunks.length := by omega
        rw [if_pos hnull, hrefill, Option.bind_eq_bind, Option.bind_some, hnext, hcount, hmalloc]
        exact ⟨rfl, rfl, (if_neg hmore).symm⟩
      next hnull =>
        obtain rfl := Option.some.inj hs₁
        rw [if_neg hnull, Option.bind_eq_bind, Option.bind_some, hnext]
        exact ⟨rfl, rfl, (if_pos rfl).symm⟩
    | deallocate phead =>
      obtain ⟨s₁, hset, hend⟩ := Option.bind_eq_some_iff.mp hone
      obtain rfl := Option.some.inj hend
      refine ⟨Option.bind_eq_some_iff.mpr ⟨s₁, hset, rfl⟩, rfl, ?_⟩
      obtain ⟨mem', rfl⟩ := setNext_eq_some hset
      exact (if_pos rfl).symm
    | write a byte =>
      obtain rfl := Option.some.inj hone
      exact ⟨rfl, rfl, (if_pos rfl).symm⟩
  · cases hone

/-! ### The counters -/

/-- The steps with the greatest number of objects that have been in use at a time, and with the
number of allocations -/
def A.counted (st : A × ℕ × ℕ) (act : Act) : Option (A × ℕ × ℕ) :=
  (st.1.step act).map fun s =>
    (s, max st.2.1 s.live.length, if act.allocates then st.2.2 + 1 else st.2.2)

theorem int_zero : int ((0 : ℕ) : ℤ) = 0 := by decide

theorem int_succ (n : ℕ) : int (int n + 1) = int ((n + 1 : ℕ) : ℤ) := by
  unfold int
  rw [Int.bmod_add_bmod, Nat.cast_succ]

/-- The counters, the peak and the number of allocations belong together. -/
theorem A.step_counts {s : A} {act : Act} {s' : A} {peak news : ℕ}
    (h : Inv 500 sizeofA s.toSys free) (htight : Tight 500 s.toSys peak)
    (hcount : s.iCount = int news) (hmalloc : s.iMallocCount = int s.chunks.length)
    (hone : s.step act = some s') :
    (∃ free', Inv 500 sizeofA s'.toSys free') ∧ Tight 500 s'.toSys (max peak s'.live.length) ∧
      s'.iCount = int ((if act.allocates then news + 1 else news : ℕ) : ℤ) ∧
      s'.iMallocCount = int s'.chunks.length := by
  obtain ⟨hstep, hcount', hmalloc'⟩ := A.step_eq hone
  -- the pool is a `CAllocator` of five hundred cells to a chunk
  refine ⟨step_keeps (by decide) (by decide) (by decide) ⟨free, h⟩ hstep,
    step_tight (by decide) (by decide) (by decide) h htight hstep, ?_, ?_⟩
  · rw [hcount', hcount]
    split
    · exact int_succ news
    · rfl
  · rw [hmalloc']
    split
    next heq => rw [heq, hmalloc]
    next hne =>
      have hchunks := step_chunks (by decide) (by decide) (by decide) h hstep
      rw [hmalloc, int_succ, (hchunks.resolve_left hne).2.2]

/-- What the counters of the class show: `m_iCount` is the number of allocations, and
`m_iMallocCount` is that of the chunks of five hundred objects that the peak needs. -/
theorem counts_exact {s : A} {peak news : ℕ}
    (hrun : exec A.counted (.start mem, 0, 0) acts = some (s, peak, news)) :
    s.iCount = int news ∧ s.iMallocCount = int ((peak + 499) / 500 : ℕ) := by
  have hinv : (∃ free, Inv 500 sizeofA s.toSys free) ∧ Tight 500 s.toSys peak ∧
      s.iCount = int news ∧ s.iMallocCount = int s.chunks.length := by
    refine exec_invariant (I := fun st => (∃ free, Inv 500 sizeofA st.1.toSys free) ∧
      Tight 500 st.1.toSys st.2.1 ∧ st.1.iCount = int st.2.2 ∧
        st.1.iMallocCount = int st.1.chunks.length) ?_
      ⟨⟨[], inv_start⟩, tight_start (by omega), ?_, ?_⟩ hrun
    · rintro ⟨s, peak, news⟩ act st' ⟨⟨free, h⟩, htight, hcount, hmalloc⟩ hone
      obtain ⟨s', hstep, rfl⟩ := Option.map_eq_some_iff.mp hone
      exact A.step_counts h htight hcount hmalloc hstep
    · exact int_zero.symm
    · exact int_zero.symm
  obtain ⟨-, htight, hcount, hmalloc⟩ := hinv
  have hround : peak + 500 - 1 = peak + 499 := by omega
  rw [htight.chunks_eq (by omega), hround] at hmalloc
  exact ⟨hcount, hmalloc⟩

/-- Two objects, one after the other -/
def twoObjects : List Act := [.allocate 16, .deallocate 16, .allocate 0]

theorem counts_exact_twoObjects :
    ∃ s peak news, exec A.counted (.start fun _ => 0, 0, 0) twoObjects = some (s, peak, news) ∧
      s.iCount = int news ∧ s.iMallocCount = int ((peak + 499) / 500 : ℕ) := by
  have hsome : (exec A.counted (.start fun _ => 0, 0, 0) twoObjects).isSome = true := by
    decide +kernel
  obtain ⟨⟨s, peak, news⟩, hrun⟩ := Option.isSome_iff_exists.mp hsome
  exact ⟨s, peak, news, hrun, counts_exact hrun⟩

end MmorpgServer.FixedPool
