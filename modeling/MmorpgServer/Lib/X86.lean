import MmorpgServer.Lib.ByteMemory
import Mathlib.Data.BitVec

/-!
# A few instructions of x86-64

The instructions with which stacks are switched: moves between registers and memory, the two control
words of floating point, and jumps to an address in a register. Code is cut into blocks, which are
left by a jump, a return or a call. The symbols of a program are a parameter, with their addresses.
The flags are left out, for none of the instructions reads them.

## Main definitions

* `Cpu`, `Instr`, `Block` — the state of the processor, instructions, and straight code
* `Block.run`, `runCode` — run a block, and run code until it is left
* `Cpu.call` — the instruction `call`

## Main results

* `load_store_of_disjoint` — a number is read as before where others are written
* `toNat_and_neg_sixteen` — the bound of sixteen bytes below an address
-/

namespace MmorpgServer

namespace ByteMemory

variable {mem mem' : Memory} {m n a b v : ℕ}

/-- Numbers that do not overlap do not touch each other. -/
theorem load_store_of_disjoint (h : b + m ≤ a ∨ a + n ≤ b) :
    load (store mem n a v) m b = load mem m b := by
  apply load_congr
  intro i hle hlt
  apply store_outside
  omega

end ByteMemory

namespace X86

open ByteMemory

inductive Reg where
  | rax | rbx | rcx | rdx | rsi | rdi | rbp | rsp
  | r8 | r9 | r10 | r11 | r12 | r13 | r14 | r15
  deriving DecidableEq

/-- The processor and its memory -/
@[ext]
structure Cpu where
  reg : Reg → BitVec 64
  rip : BitVec 64
  /-- control and status of SSE -/
  mxcsr : BitVec 32
  /-- control word of x87 -/
  x87 : BitVec 16
  mem : Memory

namespace Cpu

def set (c : Cpu) (r : Reg) (v : BitVec 64) : Cpu := { c with reg := Function.update c.reg r v }

/-- The `n` bytes from the address on -/
def read (c : Cpu) (n : ℕ) (addr : BitVec 64) : ℕ := load c.mem n addr.toNat

def write (c : Cpu) (n : ℕ) (addr : BitVec 64) (v : ℕ) : Cpu :=
  { c with mem := store c.mem n addr.toNat v }

def push (c : Cpu) (v : BitVec 64) : Cpu :=
  (c.set .rsp (c.reg .rsp - 8#64)).write 8 (c.reg .rsp - 8#64) v.toNat

/-- `call`, with the address of the instruction behind it -/
def call (c : Cpu) (target next : BitVec 64) : Cpu := { c.push next with rip := target }

end Cpu

/-! ### Instructions -/

/-- An instruction, with its source in front of its destination; `disp` is added to `base`. -/
inductive Instr (σ : Type*) where
  | leaq (disp : BitVec 64) (base dst : Reg)
  /-- `leaq symbol(%rip), dst` -/
  | leaqSymbol (symbol : σ) (dst : Reg)
  | movq (src dst : Reg)
  /-- `movq disp(base), dst` -/
  | movqFrom (disp : BitVec 64) (base dst : Reg)
  /-- `movq src, disp(base)` -/
  | movqTo (src : Reg) (disp : BitVec 64) (base : Reg)
  | andq (imm : BitVec 64) (dst : Reg)
  | xorq (src dst : Reg)
  | push (src : Reg)
  | stmxcsr (disp : BitVec 64) (base : Reg)
  | fnstcw (disp : BitVec 64) (base : Reg)
  | ldmxcsr (disp : BitVec 64) (base : Reg)
  | fldcw (disp : BitVec 64) (base : Reg)

variable {σ : Type*} (addr : σ → BitVec 64)

def Instr.exec : Instr σ → Cpu → Cpu
  | .leaq disp base dst, c => c.set dst (c.reg base + disp)
  | .leaqSymbol symbol dst, c => c.set dst (addr symbol)
  | .movq src dst, c => c.set dst (c.reg src)
  | .movqFrom disp base dst, c => c.set dst (BitVec.ofNat 64 (c.read 8 (c.reg base + disp)))
  | .movqTo src disp base, c => c.write 8 (c.reg base + disp) (c.reg src).toNat
  | .andq imm dst, c => c.set dst (c.reg dst &&& imm)
  | .xorq src dst, c => c.set dst (c.reg dst ^^^ c.reg src)
  | .push src, c => c.push (c.reg src)
  | .stmxcsr disp base, c => c.write 4 (c.reg base + disp) c.mxcsr.toNat
  | .fnstcw disp base, c => c.write 2 (c.reg base + disp) c.x87.toNat
  | .ldmxcsr disp base, c =>
    { c with mxcsr := BitVec.ofNat 32 (c.read 4 (c.reg base + disp)) }
  | .fldcw disp base, c => { c with x87 := BitVec.ofNat 16 (c.read 2 (c.reg base + disp)) }

/-- Straight code -/
def execAll (body : List (Instr σ)) (c : Cpu) : Cpu := body.foldl (fun c i => i.exec addr c) c

@[simp] theorem execAll_nil (c : Cpu) : execAll addr [] c = c := rfl

@[simp] theorem execAll_cons (i : Instr σ) (body : List (Instr σ)) (c : Cpu) :
    execAll addr (i :: body) c = execAll addr body (i.exec addr c) := rfl

theorem execAll_append (body body' : List (Instr σ)) (c : Cpu) :
    execAll addr (body ++ body') c = execAll addr body' (execAll addr body c) :=
  List.foldl_append

/-! ### Blocks -/

/-- How a block is left -/
inductive Exit (σ : Type*) where
  /-- `jmp *target` -/
  | jmp (target : Reg)
  | ret
  /-- `call symbol`, with the symbol of the instruction behind it -/
  | call (symbol next : σ)

structure Block (σ : Type*) where
  body : List (Instr σ)
  exit : Exit σ

def Exit.exec : Exit σ → Cpu → Cpu
  | .jmp target, c => { c with rip := c.reg target }
  | .ret, c =>
    { c.set .rsp (c.reg .rsp + 8#64) with rip := BitVec.ofNat 64 (c.read 8 (c.reg .rsp)) }
  | .call symbol next, c => c.call (addr symbol) (addr next)

def Block.run (b : Block σ) (c : Cpu) : Cpu := b.exit.exec addr (execAll addr b.body c)

/-- Run code, of at most `fuel` blocks, until it is left; `code` has the block at an address. -/
def runCode (code : BitVec 64 → Option (Block σ)) : (fuel : ℕ) → Cpu → Cpu
  | 0, c => c
  | fuel + 1, c =>
    match code c.rip with
    | none => c
    | some b => runCode code fuel (b.run addr c)

theorem runCode_of_left {code : BitVec 64 → Option (Block σ)} {c : Cpu} (h : code c.rip = none)
    (fuel : ℕ) : runCode addr code fuel c = c := by
  cases fuel with
  | zero => rfl
  | succ fuel => rw [runCode, h]

theorem runCode_of_block {code : BitVec 64 → Option (Block σ)} {c : Cpu} {b : Block σ}
    (h : code c.rip = some b) (fuel : ℕ) :
    runCode addr code (fuel + 1) c = runCode addr code fuel (b.run addr c) := by
  rw [runCode, h]

/-! ### Addresses -/

theorem toNat_add_of_lt {x : BitVec 64} {k : ℕ} (h : x.toNat + k < 2 ^ 64) :
    (x + BitVec.ofNat 64 k).toNat = x.toNat + k := by
  rw [BitVec.toNat_add, BitVec.toNat_ofNat, Nat.mod_eq_of_lt (by omega : k < 2 ^ 64),
    Nat.mod_eq_of_lt h]

theorem toNat_sub_of_le {x : BitVec 64} {k : ℕ} (h : k ≤ x.toNat) :
    (x - BitVec.ofNat 64 k).toNat = x.toNat - k := by
  have hx := x.isLt
  rw [BitVec.toNat_sub, BitVec.toNat_ofNat, Nat.mod_eq_of_lt (by omega : k < 2 ^ 64)]
  omega

/-- The last four bits of an address are cut off. -/
theorem toNat_and_neg_sixteen (x : BitVec 64) :
    (x &&& (-16#64)).toNat = x.toNat - x.toNat % 16 := by
  have hmask : ∀ i, i < 64 → (-16#64).getLsbD i = decide (4 ≤ i) := by decide
  have hshift : x &&& (-16#64) = (x >>> 4) <<< 4 := by
    ext i hi
    have hbit := hmask i hi
    rw [BitVec.getLsbD_eq_getElem hi] at hbit
    rw [BitVec.getElem_and, hbit, BitVec.getElem_shiftLeft]
    by_cases hlow : i < 4
    · simp [hlow]
    · have heq : 4 + (i - 4) = i := by omega
      simp [hlow, heq, Nat.le_of_not_lt hlow, BitVec.getElem_ushiftRight,
        BitVec.getLsbD_eq_getElem hi]
  have hx := x.isLt
  rw [hshift, BitVec.toNat_shiftLeft, BitVec.toNat_ushiftRight, Nat.shiftRight_eq_div_pow,
    Nat.shiftLeft_eq]
  omega

end X86

end MmorpgServer
