import MmorpgServer.Coroutine.Fcontext

/-!
# Runs with many contexts

A thread runs one context, and others wait, each with a stack of its own. The context that runs does
what it wants with its registers, its stack and the memory that is no stack. It makes new contexts,
jumps to one that waits, and its function may return. A handle is given away with every jump, and
is used once.

## Main definitions

* `System`, `System.step` — the processor, the contexts, and what the one that runs does
* `Allowed` — what a program has to keep to
* `Resumed`, `Entered` — what a context finds that is gone on with, and a function that is entered

## Main results

* `jumpCpu_spec` — what the processor does in a jump
* `make_spec` — what it does when a context is made
-/

namespace MmorpgServer.Coroutine

open ByteMemory X86

/-! ### Contexts -/

/-- The addresses of a stack, from `lo` up to `hi` -/
structure Stack where
  lo : ℕ
  hi : ℕ
  lt : hi < 2 ^ 64

def Stack.Apart (s t : Stack) : Prop := s.hi ≤ t.lo ∨ t.hi ≤ s.lo

instance : DecidableRel Stack.Apart := fun _ _ => inferInstanceAs (Decidable (_ ∨ _))

/-- The stack has the same bytes in both memories. -/
def Stack.Kept (s : Stack) (mem mem' : Memory) : Prop :=
  ∀ b, b < s.hi → s.lo ≤ b → mem' b = mem b

instance (s : Stack) (mem mem' : Memory) : Decidable (s.Kept mem mem') :=
  inferInstanceAs (Decidable (∀ b, b < s.hi → _))

/-- Why a context waits -/
inductive Origin where
  /-- In the state `c` it has called `jump_fcontext`, which is to return to `ret`. -/
  | jumped (c : Cpu) (ret : BitVec 64)
  /-- In the state `c` another context has called `make_fcontext` for it. -/
  | made (c : Cpu) (fn : BitVec 64)

/-- A context that waits, with the state in which its function was entered -/
structure Context where
  stack : Stack
  fctx : BitVec 64
  origin : Origin
  entry : Option Cpu

structure System where
  cpu : Cpu
  /-- the stack of the context that runs -/
  stack : Stack
  entry : Option Cpu
  waiting : List Context
  /-- the status with which the process has ended -/
  status : Option (BitVec 64)

inductive Label where
  /-- The context that runs does something. -/
  | work (c : Cpu)
  /-- `make_fcontext(stack.hi, size, fn)` -/
  | make (stack : Stack) (size fn ret : BitVec 64)
  /-- `jump_fcontext(fctx, data)` -/
  | jump (fctx data ret : BitVec 64)
  /-- The function of the context that runs returns. -/
  | ret

variable (L : Layout)

namespace System

def start (cpu : Cpu) (stack : Stack) : System := ⟨cpu, stack, none, [], none⟩

def make (s : System) (stack : Stack) (size fn ret : BitVec 64) : System :=
  let args := ((s.cpu.set .rdi (BitVec.ofNat 64 stack.hi)).set .rsi size).set .rdx fn
  let cpu := runCode L.addr L.code 1 (args.call (L.addr .makeFcontext) ret)
  { s with
    cpu
    waiting := ⟨stack, cpu.reg .rax, .made s.cpu fn, none⟩ :: s.waiting }

/-- The code of `jump_fcontext`, behind which that of `trampoline` may follow -/
def jumpCpu (s : System) (fctx data ret : BitVec 64) : Cpu :=
  runCode L.addr L.code 2
    (((s.cpu.set .rdi fctx).set .rsi data).call (L.addr .jumpFcontext) ret)

def jump (s : System) (fctx data ret : BitVec 64) (target : Context) : System :=
  let cpu := s.jumpCpu L fctx data ret
  { s with
    cpu
    stack := target.stack
    entry := match target.origin with
      | .jumped _ _ => target.entry
      | .made _ _ => some cpu
    waiting := ⟨s.stack, cpu.reg .rax, .jumped s.cpu ret, s.entry⟩ ::
      s.waiting.eraseP fun w => w.fctx = fctx }

/-- `ret`, and the code that follows -/
def ret (s : System) : System :=
  let cpu := runCode L.addr L.code 1 (Exit.ret.exec L.addr s.cpu)
  { s with cpu, status := if cpu.rip = L.addr .exit then some (cpu.reg .rdi) else none }

def step (s : System) (label : Label) : Option System :=
  if s.status ≠ none then none
  else
    match label with
    | .work c => some { s with cpu := c }
    | .make stack size fn ret => some (s.make L stack size fn ret)
    | .jump fctx data ret =>
      (s.waiting.find? fun w => w.fctx = fctx).map fun target =>
        s.jump L fctx data ret target
    | .ret => some (s.ret L)

/-- `n` bytes are free below the stack pointer. -/
def Room (s : System) (n : ℕ) : Prop :=
  s.stack.lo + n ≤ (s.cpu.reg .rsp).toNat ∧ (s.cpu.reg .rsp).toNat ≤ s.stack.hi

end System

/-- The stack pointer and the return address are those with which a function was entered. -/
def AtEntry (c : Cpu) : (entry : Option Cpu) → Prop
  | none => False
  | some e => c.reg .rsp = e.reg .rsp ∧
      ∀ i < 8, c.mem ((e.reg .rsp).toNat + i) = e.mem ((e.reg .rsp).toNat + i)

/-- What a program keeps to. It does not write to the stacks of others. A new stack is apart from
the others and has room for the context data. A jump goes to a context that waits, and there is room
for what it leaves. -/
def Allowed (s : System) : Label → Prop
  | .work c => ∀ w ∈ s.waiting, w.stack.Kept s.cpu.mem c.mem
  | .make stack _ fn ret =>
    stack.lo + 0x4f ≤ stack.hi ∧ s.stack.Apart stack ∧ (∀ w ∈ s.waiting, w.stack.Apart stack) ∧
      s.Room 8 ∧ L.code fn = none ∧ L.code ret = none
  | .jump fctx _ ret => (∃ w ∈ s.waiting, w.fctx = fctx) ∧ s.Room 0x40 ∧ L.code ret = none
  | .ret => AtEntry s.cpu s.entry

/-! ### What a context finds -/

/-- What a called function must not change -/
def calleeSaved : List Reg := [.rbx, .rbp, .rsp, .r12, .r13, .r14, .r15]

/-- The call of `jump_fcontext` in the state `c` has returned to `ret`, with a handle and data. -/
structure Resumed (stack : Stack) (c : Cpu) (ret fctx data : BitVec 64) (c' : Cpu) : Prop where
  rip : c'.rip = ret
  regs : ∀ r ∈ calleeSaved, c'.reg r = c.reg r
  mxcsr : c'.mxcsr = c.mxcsr
  x87 : c'.x87 = c.x87
  mem : ∀ b, b < stack.hi → (c.reg .rsp).toNat ≤ b → c'.mem b = c.mem b
  rax : c'.reg .rax = fctx
  rdx : c'.reg .rdx = data

/-- The function `fn` was entered, with a handle and data as arguments, on a stack that is aligned
as behind a call. It returns to `finish`. -/
structure Entered (stack : Stack) (c : Cpu) (fn fctx data : BitVec 64) (c' : Cpu) : Prop where
  rip : c'.rip = fn
  rdi : c'.reg .rdi = fctx
  rsi : c'.reg .rsi = data
  mxcsr : c'.mxcsr = c.mxcsr
  x87 : c'.x87 = c.x87
  lo : stack.lo ≤ (c'.reg .rsp).toNat
  hi : (c'.reg .rsp).toNat + 8 ≤ stack.hi
  aligned : ((c'.reg .rsp).toNat + 8) % 16 = 0
  ret : load c'.mem 8 (c'.reg .rsp).toNat = (L.addr .finish).toNat

/-- What a context finds, by what it has waited for -/
def Found (w : Context) (fctx data : BitVec 64) (c' : Cpu) : Prop :=
  match w.origin with
  | .jumped c ret => Resumed w.stack c ret fctx data c'
  | .made c fn => Entered L w.stack c fn fctx data c'

/-! ### The contexts that wait -/

variable {L} {s s' : System} {w : Context} {mem mem' : Memory} {fctx data ret fn size : BitVec 64}

/-- The context data of a context, and what its owner expects to find -/
structure Saved (L : Layout) (mem : Memory) (w : Context) : Prop where
  lo : w.stack.lo ≤ w.fctx.toNat
  hi : w.fctx.toNat + 0x40 ≤ w.stack.hi
  data : match w.origin with
    | .jumped c ret => (c.reg .rsp).toNat = w.fctx.toNat + 0x40 ∧
        contextData mem w.fctx.toNat = saves c ret ∧
        (∀ b, b < w.stack.hi → (c.reg .rsp).toNat ≤ b → mem b = c.mem b) ∧ L.code ret = none
    | .made c fn => w.stack.hi = w.fctx.toNat + 0x40 + w.stack.hi % 16 ∧
        contextData mem w.fctx.toNat = { contextData mem w.fctx.toNat with
          mxcsr := c.mxcsr
          x87 := c.x87
          rbx := fn
          rbp := L.addr .finish
          rip := L.addr .trampoline } ∧ L.code fn = none

/-- What is saved for the caller of `jump_fcontext` -/
theorem Saved.jumped {c : Cpu} {stack : Stack} {entry : Option Cpu}
    (hsp : (c.reg .rsp).toNat = fctx.toNat + 0x40) (hlo : stack.lo + 0x40 ≤ (c.reg .rsp).toNat)
    (hhi : (c.reg .rsp).toNat ≤ stack.hi) (hdata : contextData mem fctx.toNat = saves c ret)
    (hmem : ∀ b, b < stack.hi → (c.reg .rsp).toNat ≤ b → mem b = c.mem b)
    (hret : L.code ret = none) : Saved L mem ⟨stack, fctx, .jumped c ret, entry⟩ := by
  have hlow : stack.lo ≤ fctx.toNat := by omega
  have hhigh : fctx.toNat + 0x40 ≤ stack.hi := by omega
  exact ⟨hlow, hhigh, hsp, hdata, hmem, hret⟩

/-- Only the stack of the context matters. -/
theorem Saved.congr (h : Saved L mem w) (hkept : w.stack.Kept mem mem') : Saved L mem' w := by
  have hlo := h.lo
  have hhi := h.hi
  have hdata : contextData mem' w.fctx.toNat = contextData mem w.fctx.toNat := by
    apply contextData_congr
    intro b hlow hhigh
    exact hkept b (by omega) (by omega)
  refine ⟨hlo, hhi, ?_⟩
  have hfound := h.data
  cases horigin : w.origin with
  | jumped c ret =>
    rw [horigin] at hfound
    obtain ⟨hrsp, hsaves, hmem, hret⟩ := hfound
    refine ⟨hrsp, hdata.trans hsaves, ?_, hret⟩
    intro b hlt hle
    rw [hkept b hlt (by omega), hmem b hlt hle]
  | made c fn =>
    rw [horigin] at hfound
    dsimp only
    rw [hdata]
    exact hfound

/-! ### The code that is run -/

@[simp] theorem code_jumpFcontext : L.code (L.addr .jumpFcontext) = some jumpFcontext := if_pos rfl

@[simp] theorem code_makeFcontext : L.code (L.addr .makeFcontext) = some makeFcontext := by
  simp [Layout.code, L.injective.eq_iff]

@[simp] theorem code_trampoline : L.code (L.addr .trampoline) = some trampoline := by
  simp [Layout.code, L.injective.eq_iff]

@[simp] theorem code_finish : L.code (L.addr .finish) = some finish := by
  simp [Layout.code, L.injective.eq_iff]

/-- The return address is put below the stack pointer. -/
theorem call_mem {c : Cpu} {target next : BitVec 64} {sp : ℕ}
    (hsp : (c.reg .rsp).toNat = sp + 8) :
    ((c.call target next).reg .rsp).toNat = sp ∧
      (∀ b, b < sp ∨ sp + 8 ≤ b → (c.call target next).mem b = c.mem b) ∧
      BitVec.ofNat 64 (load (c.call target next).mem 8 sp) = next := by
  have hnat : (c.reg .rsp - 8#64).toNat = sp := by
    rw [toNat_sub_of_le (by omega)]
    omega
  have hmem : (c.call target next).mem = store c.mem 8 sp next.toNat := by
    rw [← hnat]
    rfl
  rw [hmem]
  refine ⟨hnat, fun b hb => store_outside hb, ofNat_load_store (by norm_num) _⟩

/-- What `trampoline` does on a new stack -/
theorem trampoline_enters {c c' : Cpu} {top : ℕ} (hc' : runCode L.addr L.code 1 c = c')
    (hrip : c.rip = L.addr .trampoline) (htop : (c.reg .rsp).toNat = top + 8) :
    c'.rip = c.reg .rbx ∧ (c'.reg .rsp).toNat = top ∧ (∀ r, r ≠ .rsp → c'.reg r = c.reg r) ∧
      c'.mxcsr = c.mxcsr ∧ c'.x87 = c.x87 ∧
      (∀ b, b < top ∨ top + 8 ≤ b → c'.mem b = c.mem b) ∧
      load c'.mem 8 top = (c.reg .rbp).toNat := by
  obtain ⟨hrsp, hmem, hload⟩ := @call_mem c 0 (c.reg .rbp) top htop
  have hrun : c' = { c.push (c.reg .rbp) with rip := c.reg .rbx } := by
    rw [← hc', runCode_of_block L.addr (hrip ▸ code_trampoline)]
    rfl
  subst hrun
  refine ⟨rfl, hrsp, fun r hr => Function.update_of_ne hr _ _, rfl, rfl, hmem, ?_⟩
  have hlt : load (c.call 0 (c.reg .rbp)).mem 8 top < 256 ^ 8 := load_lt
  have hnat := congrArg BitVec.toNat hload
  rw [BitVec.toNat_ofNat, Nat.mod_eq_of_lt (by norm_num at hlt ⊢; exact hlt)] at hnat
  exact hnat

/-- The registers with which `jump_fcontext` is entered -/
def System.jumpArgs (L : Layout) (s : System) (fctx data ret : BitVec 64) : Cpu :=
  ((s.cpu.set .rdi fctx).set .rsi data).call (L.addr .jumpFcontext) ret

/-- What `jump_fcontext` does with the context data of another stack -/
theorem jumpArgs_run {sp : ℕ} (hsp : (s.cpu.reg .rsp).toNat = sp + 0x40) (hroom : s.Room 0x40)
    (hapart : s.stack.Apart w.stack) (hw : Saved L s.cpu.mem w) :
    ∃ mem, jumpFcontext.run L.addr (s.jumpArgs L w.fctx data ret) =
        { reg := jumpRegs (s.jumpArgs L w.fctx data ret) (BitVec.ofNat 64 sp)
            (contextData s.cpu.mem w.fctx.toNat)
          rip := (contextData s.cpu.mem w.fctx.toNat).rip
          mxcsr := (contextData s.cpu.mem w.fctx.toNat).mxcsr
          x87 := (contextData s.cpu.mem w.fctx.toNat).x87
          mem } ∧
      (∀ b, b < sp ∨ sp + 0x40 ≤ b → mem b = s.cpu.mem b) ∧
      contextData mem sp = saves s.cpu ret := by
  have hlt := (s.cpu.reg .rsp).isLt
  have hhi := w.stack.lt
  have hwlo := hw.lo
  have hwhi := hw.hi
  obtain ⟨hlow, hhigh⟩ := hroom
  have hout : w.fctx.toNat + 0x40 ≤ sp ∨ sp + 0x40 ≤ w.fctx.toNat := by
    rcases hapart with hle | hle
    · exact .inr (by omega)
    · exact .inl (by omega)
  obtain ⟨hrsp, hcall, hret⟩ := @call_mem ((s.cpu.set .rdi w.fctx).set .rsi data)
    (L.addr .jumpFcontext) ret (sp + 0x38) (by rw [← hsp]; rfl)
  obtain ⟨mem, hrun, hmem, hdata⟩ := @jumpFcontext_run (s.jumpArgs L w.fctx data ret) L.addr sp
    w.fctx.toNat hrsp (by omega) rfl (by omega) (by omega)
  have hother : contextData (s.jumpArgs L w.fctx data ret).mem w.fctx.toNat =
      contextData s.cpu.mem w.fctx.toNat := by
    apply contextData_congr
    intro b hle hlt
    exact hcall b (by omega)
  refine ⟨mem, ?_, ?_, ?_⟩
  · rw [hrun, hother]
  · intro b hb
    rw [hmem b (by omega)]
    exact hcall b (by omega)
  · rw [hdata, System.jumpArgs, hret]
    rfl

/-- What the processor does in a jump: the context data of the caller is left below its stack
pointer, and the other context finds what it waits for. Where its function is entered, a return
address is put on its stack. -/
theorem jumpCpu_spec {sp : ℕ} (hsp : (s.cpu.reg .rsp).toNat = sp + 0x40) (hroom : s.Room 0x40)
    (hapart : s.stack.Apart w.stack) (hw : Saved L s.cpu.mem w) :
    Found L w (BitVec.ofNat 64 sp) data (s.jumpCpu L w.fctx data ret) ∧
      (s.jumpCpu L w.fctx data ret).reg .rax = BitVec.ofNat 64 sp ∧
      (∀ b, b < sp ∨ sp + 0x40 ≤ b → b < w.stack.lo ∨ w.stack.hi ≤ b →
        (s.jumpCpu L w.fctx data ret).mem b = s.cpu.mem b) ∧
      contextData (s.jumpCpu L w.fctx data ret).mem sp = saves s.cpu ret := by
  obtain ⟨mem, hrun, hmem, hdata⟩ := @jumpArgs_run L s w data ret sp hsp hroom hapart hw
  have hjump : s.jumpCpu L w.fctx data ret =
      runCode L.addr L.code 1 (jumpFcontext.run L.addr (s.jumpArgs L w.fctx data ret)) :=
    runCode_of_block L.addr code_jumpFcontext 1
  have hwlo := hw.lo
  have hwhi := hw.hi
  have hlt := w.stack.lt
  obtain ⟨hlow, hhigh⟩ := hroom
  have hout : w.stack.hi ≤ sp ∨ sp + 0x40 ≤ w.stack.lo := by
    rcases hapart with hle | hle
    · exact .inr (by omega)
    · exact .inl (by omega)
  have hfound := hw.data
  unfold Found
  rw [hjump, hrun]
  cases horigin : w.origin with
  | jumped c ret' =>
    rw [horigin] at hfound
    obtain ⟨hrsp, hsaves, hsame, hcode⟩ := hfound
    -- the caller's code goes on
    rw [hsaves, runCode_of_left L.addr hcode]
    refine ⟨{ rip := rfl, regs := ?_, mxcsr := rfl, x87 := rfl, mem := ?_, rax := rfl, rdx := rfl },
      rfl, fun b hb _ => hmem b hb, hdata⟩
    · have hback : c.reg .rsp = w.fctx + 0x40#64 := by
        apply BitVec.eq_of_toNat_eq
        rw [hrsp, toNat_add_of_lt (by omega)]
      simp only [calleeSaved, List.mem_cons, List.not_mem_nil, or_false]
      rintro r (rfl | rfl | rfl | rfl | rfl | rfl | rfl)
      · rfl
      · rfl
      · exact hback.symm
      all_goals rfl
    · intro b hb hle
      exact (hmem b (by omega)).trans (hsame b hb hle)
  | made c fn =>
    rw [horigin] at hfound
    obtain ⟨htop, hprepared, -⟩ := hfound
    rw [hprepared]
    -- the function is entered through `trampoline`
    have hback : (w.fctx + 0x40#64).toNat = w.fctx.toNat + 0x38 + 8 := toNat_add_of_lt (by omega)
    generalize hc' : runCode _ _ _ _ = c'
    obtain ⟨hrip, hrsp, hregs, hmxcsr, hx87, hframe, hfinish⟩ :=
      @trampoline_enters L _ c' (w.fctx.toNat + 0x38) hc' rfl hback
    refine ⟨{ rip := hrip, rdi := hregs .rdi (by decide), rsi := hregs .rsi (by decide),
              mxcsr := hmxcsr, x87 := hx87, lo := by omega, hi := by omega, aligned := by omega,
              ret := by rw [hrsp]; exact hfinish }, hregs .rax (by decide), ?_, ?_⟩
    · intro b hb hw
      exact (hframe b (by omega)).trans (hmem b hb)
    · rw [← hdata]
      apply contextData_congr
      intro b hle hlt
      exact hframe b (by omega)

/-- What the processor does in `make_fcontext`: the context data is prepared on the new stack, and
to its caller it is a call that returns. -/
theorem make_spec {stack : Stack} {sp : ℕ} (hsp : (s.cpu.reg .rsp).toNat = sp + 8)
    (hroom : s.Room 8) (hfits : stack.lo + 0x4f ≤ stack.hi) (hapart : s.stack.Apart stack)
    (hfn : L.code fn = none) :
    ∃ fctx, Saved L (s.make L stack size fn ret).cpu.mem ⟨stack, fctx, .made s.cpu fn, none⟩ ∧
      (s.make L stack size fn ret).cpu.reg .rax = fctx ∧
      (s.make L stack size fn ret).cpu.rip = ret ∧
      (∀ r ∈ calleeSaved, (s.make L stack size fn ret).cpu.reg r = s.cpu.reg r) ∧
      (s.make L stack size fn ret).cpu.mxcsr = s.cpu.mxcsr ∧
      (s.make L stack size fn ret).cpu.x87 = s.cpu.x87 ∧
      (∀ b, b < sp ∨ sp + 8 ≤ b → b < stack.lo ∨ stack.hi ≤ b →
        (s.make L stack size fn ret).cpu.mem b = s.cpu.mem b) := by
  have hhi := stack.lt
  obtain ⟨hlow, hhigh⟩ := hroom
  -- where the context data is put
  obtain ⟨a, ha⟩ : ∃ a, stack.hi = a + 0x40 + stack.hi % 16 :=
    ⟨stack.hi - stack.hi % 16 - 0x40, by omega⟩
  have hanat : (BitVec.ofNat 64 a).toNat = a := by
    rw [BitVec.toNat_ofNat, Nat.mod_eq_of_lt (by omega)]
  have htop : (BitVec.ofNat 64 stack.hi).toNat = stack.hi := by
    rw [BitVec.toNat_ofNat, Nat.mod_eq_of_lt hhi]
  generalize hargs : ((s.cpu.set .rdi (BitVec.ofNat 64 stack.hi)).set .rsi size).set .rdx fn = args
  obtain ⟨hrsp, hcall, hret⟩ := @call_mem args (L.addr .makeFcontext) ret sp (by
    rw [← hargs, ← hsp]
    rfl)
  have hout : sp + 8 ≤ a ∨ a + 0x40 ≤ sp := by
    rcases hapart with hle | hle
    · exact .inl (by omega)
    · exact .inr (by omega)
  obtain ⟨mem, hrun, hmem, hdata⟩ :=
    @makeFcontext_run (args.call (L.addr .makeFcontext) ret) L.addr a (by
      have hrdi : (args.call (L.addr .makeFcontext) ret).reg .rdi = BitVec.ofNat 64 stack.hi := by
        rw [← hargs]
        rfl
      rw [hrdi, htop]
      exact ha) (by rw [hrsp]; exact hout)
  have hcpu : (s.make L stack size fn ret).cpu =
      makeFcontext.run L.addr (args.call (L.addr .makeFcontext) ret) := by
    rw [← hargs]
    exact runCode_of_block L.addr code_makeFcontext 0
  rw [hcpu, hrun, hrsp, hret]
  refine ⟨BitVec.ofNat 64 a, ⟨?_, ?_, ?_⟩, rfl, rfl, ?_, ?_, ?_, ?_⟩
  · show stack.lo ≤ (BitVec.ofNat 64 a).toNat
    omega
  · show (BitVec.ofNat 64 a).toNat + 0x40 ≤ stack.hi
    omega
  · dsimp only
    rw [hanat]
    refine ⟨ha, ?_, hfn⟩
    rw [hdata, ← hargs]
    rfl
  · have hback : s.cpu.reg .rsp = (args.call (L.addr .makeFcontext) ret).reg .rsp + 8#64 := by
      apply BitVec.eq_of_toNat_eq
      rw [hsp, toNat_add_of_lt (by omega), hrsp]
    subst hargs
    simp only [calleeSaved, List.mem_cons, List.not_mem_nil, or_false]
    rintro r (rfl | rfl | rfl | rfl | rfl | rfl | rfl)
    · rfl
    · rfl
    · exact hback.symm
    all_goals rfl
  · subst hargs
    rfl
  · subst hargs
    rfl
  · intro b hb hstack
    subst hargs
    exact (hmem b (by omega)).trans (hcall b hb)

end MmorpgServer.Coroutine
