import MmorpgServer.Lib.X86

/-!
# The switch of stacks

The two assembler files of the pool: `jump_fcontext` leaves what its caller expects to find again
on the stack of the caller, goes to the stack of another context and takes from it what was left
there; `make_fcontext` prepares a new stack in such a way that the first jump to it enters a
function. The code is that of the files without `BOOST_USE_TSX` and `_ILP32`.

## Main definitions

* `Symbol`, `jumpFcontext`, `makeFcontext`, `trampoline`, `finish` — the code
* `ContextData`, `contextData` — what lies on the stack of a context that does not run

## Main results

* `jumpFcontext_run`, `makeFcontext_run`, `trampoline_run` — what the code does
-/

namespace MmorpgServer.Coroutine

open ByteMemory X86

/-! ### The code -/

/-- The labels of the code, `_exit`, and the `hlt` behind its call -/
inductive Symbol where
  | jumpFcontext | makeFcontext | trampoline | finish | exit | hlt
  deriving DecidableEq

def jumpFcontext : Block Symbol where
  body :=
    [.leaq (-0x38) .rsp .rsp,
      .stmxcsr 0x0 .rsp,
      .fnstcw 0x4 .rsp,
      .movqTo .r12 0x8 .rsp,
      .movqTo .r13 0x10 .rsp,
      .movqTo .r14 0x18 .rsp,
      .movqTo .r15 0x20 .rsp,
      .movqTo .rbx 0x28 .rsp,
      .movqTo .rbp 0x30 .rsp,
      .movq .rsp .rax,
      .movq .rdi .rsp,
      .movqFrom 0x38 .rsp .r8,
      .ldmxcsr 0x0 .rsp,
      .fldcw 0x4 .rsp,
      .movqFrom 0x8 .rsp .r12,
      .movqFrom 0x10 .rsp .r13,
      .movqFrom 0x18 .rsp .r14,
      .movqFrom 0x20 .rsp .r15,
      .movqFrom 0x28 .rsp .rbx,
      .movqFrom 0x30 .rsp .rbp,
      .leaq 0x40 .rsp .rsp,
      .movq .rsi .rdx,
      .movq .rax .rdi]
  exit := .jmp .r8

def makeFcontext : Block Symbol where
  body :=
    [.movq .rdi .rax,
      .andq (-16) .rax,
      .leaq (-0x40) .rax .rax,
      .movqTo .rdx 0x28 .rax,
      .stmxcsr 0x0 .rax,
      .fnstcw 0x4 .rax,
      .leaqSymbol .trampoline .rcx,
      .movqTo .rcx 0x38 .rax,
      .leaqSymbol .finish .rcx,
      .movqTo .rcx 0x30 .rax]
  exit := .ret

def trampoline : Block Symbol where
  body := [.push .rbp]
  exit := .jmp .rbx

def finish : Block Symbol where
  body := [.xorq .rdi .rdi]
  exit := .call .exit .hlt

/-- Where the linker has put the code -/
structure Layout where
  addr : Symbol → BitVec 64
  injective : Function.Injective addr

variable (L : Layout)

/-- The block at an address -/
def Layout.code (a : BitVec 64) : Option (Block Symbol) :=
  if a = L.addr .jumpFcontext then some jumpFcontext
  else if a = L.addr .makeFcontext then some makeFcontext
  else if a = L.addr .trampoline then some trampoline
  else if a = L.addr .finish then some finish
  else none

/-! ### Contexts that do not run -/

/-- The context data, as the files draw it -/
@[ext]
structure ContextData where
  mxcsr : BitVec 32
  x87 : BitVec 16
  r12 : BitVec 64
  r13 : BitVec 64
  r14 : BitVec 64
  r15 : BitVec 64
  rbx : BitVec 64
  rbp : BitVec 64
  rip : BitVec 64

/-- The context data at an address -/
def contextData (mem : Memory) (a : ℕ) : ContextData where
  mxcsr := BitVec.ofNat 32 (load mem 4 a)
  x87 := BitVec.ofNat 16 (load mem 2 (a + 0x4))
  r12 := BitVec.ofNat 64 (load mem 8 (a + 0x8))
  r13 := BitVec.ofNat 64 (load mem 8 (a + 0x10))
  r14 := BitVec.ofNat 64 (load mem 8 (a + 0x18))
  r15 := BitVec.ofNat 64 (load mem 8 (a + 0x20))
  rbx := BitVec.ofNat 64 (load mem 8 (a + 0x28))
  rbp := BitVec.ofNat 64 (load mem 8 (a + 0x30))
  rip := BitVec.ofNat 64 (load mem 8 (a + 0x38))

variable {mem mem' : Memory} {a h : ℕ} {c : Cpu}

theorem contextData_congr (h : ∀ b, a ≤ b → b < a + 0x40 → mem' b = mem b) :
    contextData mem' a = contextData mem a := by
  have hload : ∀ n k, k + n ≤ 0x40 → load mem' n (a + k) = load mem n (a + k) := by
    intro n k hle
    apply load_congr
    intro b hlow hhigh
    exact h b (by omega) (by omega)
  have hfirst := hload 4 0 (by omega)
  rw [Nat.add_zero] at hfirst
  unfold contextData
  rw [hfirst, hload 2 0x4 (by omega), hload 8 0x8 (by omega), hload 8 0x10 (by omega),
    hload 8 0x18 (by omega), hload 8 0x20 (by omega), hload 8 0x28 (by omega),
    hload 8 0x30 (by omega), hload 8 0x38 (by omega)]

/-- What `jump_fcontext` is to leave for a caller -/
def saves (c : Cpu) (ret : BitVec 64) : ContextData where
  mxcsr := c.mxcsr
  x87 := c.x87
  r12 := c.reg .r12
  r13 := c.reg .r13
  r14 := c.reg .r14
  r15 := c.reg .r15
  rbx := c.reg .rbx
  rbp := c.reg .rbp
  rip := ret

/-! ### What the code does -/

theorem ofNat_load_store {n w : ℕ} (hw : 256 ^ n = 2 ^ w) (x : BitVec w) :
    BitVec.ofNat w (load (store mem n a x.toNat) n a) = x := by
  rw [load_store, hw, Nat.mod_eq_of_lt x.isLt, BitVec.ofNat_toNat, BitVec.setWidth_eq]

/-- The part of `jump_fcontext` on the stack of its caller -/
def jumpSave : List (Instr Symbol) := jumpFcontext.body.take 10

/-- The part of `jump_fcontext` on the other stack -/
def jumpRestore : List (Instr Symbol) := jumpFcontext.body.drop 10

variable (addr : Symbol → BitVec 64)

theorem jumpSave_mem {sp : BitVec 64} (hsp : c.reg .rsp + (-0x38#64) = sp)
    (hlt : sp.toNat + 0x38 < 2 ^ 64) :
    (∀ b, b < sp.toNat ∨ sp.toNat + 0x38 ≤ b → (execAll addr jumpSave c).mem b = c.mem b) ∧
      contextData (execAll addr jumpSave c).mem sp.toNat =
        saves c (BitVec.ofNat 64 (load c.mem 8 (sp.toNat + 0x38))) := by
  have hmem : (execAll addr jumpSave c).mem =
      store (store (store (store (store (store (store (store c.mem
        4 (sp + 0x0).toNat c.mxcsr.toNat) 2 (sp + 0x4).toNat c.x87.toNat)
        8 (sp + 0x8).toNat (c.reg .r12).toNat) 8 (sp + 0x10).toNat (c.reg .r13).toNat)
        8 (sp + 0x18).toNat (c.reg .r14).toNat) 8 (sp + 0x20).toNat (c.reg .r15).toNat)
        8 (sp + 0x28).toNat (c.reg .rbx).toNat) 8 (sp + 0x30).toNat (c.reg .rbp).toNat := by
    subst hsp
    rfl
  have haddr : ∀ k ≤ 0x30, (sp + BitVec.ofNat 64 k).toNat = sp.toNat + k := fun k hk =>
    toNat_add_of_lt (by omega)
  rw [hmem]
  simp only [BitVec.ofNat_eq_ofNat, haddr, Nat.reduceLeDiff]
  constructor
  · intro b hb
    simp (disch := omega) only [store_outside]
  · -- a field is read behind the stores of the others, which do not touch it
    ext1 <;> simp (disch := omega) only [contextData, saves, load_store_of_disjoint]
    all_goals exact ofNat_load_store (by norm_num) _

/-- The registers behind `jump_fcontext`, where the context data at `rdi` is `d` -/
def jumpRegs (c : Cpu) (sp : BitVec 64) (d : ContextData) : Reg → BitVec 64
  | .rsp => c.reg .rdi + 0x40
  | .rax | .rdi => sp
  | .rdx => c.reg .rsi
  | .r8 => d.rip
  | .r12 => d.r12
  | .r13 => d.r13
  | .r14 => d.r14
  | .r15 => d.r15
  | .rbx => d.rbx
  | .rbp => d.rbp
  | r => c.reg r

theorem jumpRestore_exec (hlt : (c.reg .rdi).toNat + 0x38 < 2 ^ 64) :
    jumpFcontext.exit.exec addr (execAll addr jumpRestore c) =
      { reg := jumpRegs c (c.reg .rax) (contextData c.mem (c.reg .rdi).toNat)
        rip := (contextData c.mem (c.reg .rdi).toNat).rip
        mxcsr := (contextData c.mem (c.reg .rdi).toNat).mxcsr
        x87 := (contextData c.mem (c.reg .rdi).toNat).x87
        mem := c.mem } := by
  have haddr : ∀ k ≤ 0x38, (c.reg .rdi + BitVec.ofNat 64 k).toNat = (c.reg .rdi).toNat + k :=
    fun k hk => toNat_add_of_lt (by omega)
  -- what the loads read
  have hdata : contextData c.mem (c.reg .rdi).toNat =
      { mxcsr := BitVec.ofNat 32 (load c.mem 4 (c.reg .rdi + 0x0).toNat)
        x87 := BitVec.ofNat 16 (load c.mem 2 (c.reg .rdi + 0x4).toNat)
        r12 := BitVec.ofNat 64 (load c.mem 8 (c.reg .rdi + 0x8).toNat)
        r13 := BitVec.ofNat 64 (load c.mem 8 (c.reg .rdi + 0x10).toNat)
        r14 := BitVec.ofNat 64 (load c.mem 8 (c.reg .rdi + 0x18).toNat)
        r15 := BitVec.ofNat 64 (load c.mem 8 (c.reg .rdi + 0x20).toNat)
        rbx := BitVec.ofNat 64 (load c.mem 8 (c.reg .rdi + 0x28).toNat)
        rbp := BitVec.ofNat 64 (load c.mem 8 (c.reg .rdi + 0x30).toNat)
        rip := BitVec.ofNat 64 (load c.mem 8 (c.reg .rdi + 0x38).toNat) } := by
    simp only [contextData, BitVec.ofNat_eq_ofNat, haddr, Nat.reduceLeDiff, Nat.add_zero]
  rw [hdata]
  apply Cpu.ext
  · funext r
    cases r <;> rfl
  all_goals rfl

/-- What `jump_fcontext` does: the context data is left below the return address, and nothing else
is written; the processor goes on with the context data that `rdi` points to. -/
theorem jumpFcontext_run {sp fctx : ℕ} (hsp : (c.reg .rsp).toNat = sp + 0x38)
    (hlt : sp + 0x38 < 2 ^ 64) (hfctx : (c.reg .rdi).toNat = fctx) (hfctxlt : fctx + 0x38 < 2 ^ 64)
    (hdisj : fctx + 0x40 ≤ sp ∨ sp + 0x38 ≤ fctx) :
    ∃ mem, jumpFcontext.run addr c =
        { reg := jumpRegs c (BitVec.ofNat 64 sp) (contextData c.mem fctx)
          rip := (contextData c.mem fctx).rip
          mxcsr := (contextData c.mem fctx).mxcsr
          x87 := (contextData c.mem fctx).x87
          mem } ∧
      (∀ b, b < sp ∨ sp + 0x38 ≤ b → mem b = c.mem b) ∧
      contextData mem sp = saves c (BitVec.ofNat 64 (load c.mem 8 (sp + 0x38))) := by
  have hnat : (c.reg .rsp + (-0x38#64)).toNat = sp := by
    rw [← BitVec.sub_eq_add_neg, toNat_sub_of_le (by omega)]
    omega
  obtain ⟨hmem, hdata⟩ := jumpSave_mem (c := c) addr rfl (by rw [hnat]; exact hlt)
  rw [hnat] at hmem hdata
  have hreg : BitVec.ofNat 64 sp = c.reg .rsp + (-0x38#64) := by
    rw [← hnat, BitVec.ofNat_toNat, BitVec.setWidth_eq]
  -- the other context data is not touched
  have hother : contextData (execAll addr jumpSave c).mem fctx = contextData c.mem fctx := by
    apply contextData_congr
    intro b hlow hhigh
    exact hmem b (by omega)
  refine ⟨(execAll addr jumpSave c).mem, ?_, hmem, hdata⟩
  have hrun : jumpFcontext.run addr c =
      jumpFcontext.exit.exec addr (execAll addr jumpRestore (execAll addr jumpSave c)) := by
    have hbody : jumpFcontext.body = jumpSave ++ jumpRestore := rfl
    unfold Block.run
    rw [hbody, execAll_append]
  have hrdi : (execAll addr jumpSave c).reg .rdi = c.reg .rdi := rfl
  rw [hrun, jumpRestore_exec addr (by rw [hrdi, hfctx]; exact hfctxlt), hrdi, hfctx, hother, hreg]
  apply Cpu.ext
  · funext r
    cases r <;> rfl
  all_goals rfl

/-- The registers behind `make_fcontext` -/
def makeRegs (c : Cpu) (fctx : BitVec 64) : Reg → BitVec 64
  | .rsp => c.reg .rsp + 8
  | .rax => fctx
  | .rcx => addr .finish
  | r => c.reg r

theorem makeBody_mem {fctx : BitVec 64} (hfctx : (c.reg .rdi &&& (-16#64)) + (-0x40#64) = fctx)
    (hlt : fctx.toNat + 0x40 < 2 ^ 64) :
    (∀ b, b < fctx.toNat ∨ fctx.toNat + 0x40 ≤ b →
        (execAll addr makeFcontext.body c).mem b = c.mem b) ∧
      contextData (execAll addr makeFcontext.body c).mem fctx.toNat =
        { contextData c.mem fctx.toNat with
          mxcsr := c.mxcsr
          x87 := c.x87
          rbx := c.reg .rdx
          rbp := addr .finish
          rip := addr .trampoline } := by
  have hmem : (execAll addr makeFcontext.body c).mem =
      store (store (store (store (store c.mem 8 (fctx + 0x28).toNat (c.reg .rdx).toNat)
        4 (fctx + 0x0).toNat c.mxcsr.toNat) 2 (fctx + 0x4).toNat c.x87.toNat)
        8 (fctx + 0x38).toNat (addr .trampoline).toNat)
        8 (fctx + 0x30).toNat (addr .finish).toNat := by
    subst hfctx
    rfl
  have haddr : ∀ k ≤ 0x38, (fctx + BitVec.ofNat 64 k).toNat = fctx.toNat + k := fun k hk =>
    toNat_add_of_lt (by omega)
  rw [hmem]
  simp only [BitVec.ofNat_eq_ofNat, haddr, Nat.reduceLeDiff]
  constructor
  · intro b hb
    simp (disch := omega) only [store_outside]
  · ext1 <;> simp (disch := omega) only [contextData, load_store_of_disjoint]
    all_goals exact ofNat_load_store (by norm_num) _

/-- What `make_fcontext` does: the context data is put below the top of the new stack, cut off to
sixteen bytes; its caller gets the address of the data. -/
theorem makeFcontext_run {fctx : ℕ}
    (hfctx : (c.reg .rdi).toNat = fctx + 0x40 + (c.reg .rdi).toNat % 16)
    (hdisj : (c.reg .rsp).toNat + 8 ≤ fctx ∨ fctx + 0x40 ≤ (c.reg .rsp).toNat) :
    ∃ mem, makeFcontext.run addr c =
        { reg := makeRegs addr c (BitVec.ofNat 64 fctx)
          rip := BitVec.ofNat 64 (load c.mem 8 (c.reg .rsp).toNat)
          mxcsr := c.mxcsr
          x87 := c.x87
          mem } ∧
      (∀ b, b < fctx ∨ fctx + 0x40 ≤ b → mem b = c.mem b) ∧
      contextData mem fctx =
        { contextData c.mem fctx with
          mxcsr := c.mxcsr
          x87 := c.x87
          rbx := c.reg .rdx
          rbp := addr .finish
          rip := addr .trampoline } := by
  have htop := (c.reg .rdi).isLt
  have hnat : ((c.reg .rdi &&& (-16#64)) + (-0x40#64)).toNat = fctx := by
    have hround := toNat_and_neg_sixteen (c.reg .rdi)
    rw [← BitVec.sub_eq_add_neg, toNat_sub_of_le (by omega)]
    omega
  obtain ⟨hmem, hdata⟩ := makeBody_mem (c := c) addr rfl (by rw [hnat]; omega)
  rw [hnat] at hmem hdata
  have hreg : BitVec.ofNat 64 fctx = (c.reg .rdi &&& (-16#64)) + (-0x40#64) := by
    rw [← hnat, BitVec.ofNat_toNat, BitVec.setWidth_eq]
  refine ⟨(execAll addr makeFcontext.body c).mem, ?_, hmem, hdata⟩
  -- the return address is not touched
  have hret : load c.mem 8 (c.reg .rsp).toNat =
      load (execAll addr makeFcontext.body c).mem 8 (c.reg .rsp).toNat := by
    symm
    apply load_congr
    intro b hlow hhigh
    exact hmem b (by omega)
  rw [hret, hreg]
  apply Cpu.ext
  · funext r
    cases r <;> rfl
  all_goals rfl

/-- What `trampoline` does: a return address is put on the stack, and a function is entered. -/
theorem trampoline_run :
    trampoline.run addr c = { c.push (c.reg .rbp) with rip := c.reg .rbx } := rfl

/-- `finish` gives the status `0` to `_exit`. -/
theorem finish_run : (finish.run addr c).rip = addr .exit ∧ (finish.run addr c).reg .rdi = 0 :=
  ⟨rfl, BitVec.xor_self⟩

end MmorpgServer.Coroutine
