import MmorpgServer.Coroutine.Switch
import MmorpgServer.Lib.Machine
import Mathlib.Data.List.Pairwise

/-!
# The contexts of a thread

The stacks of the contexts are apart, and on every stack but the one in use there is what its owner
needs to go on. So, whatever contexts are made and in whatever order they run, a context sees its
calls of `jump_fcontext` as calls that return.

## Main definitions

* `Sound` — what holds between the steps of a run

## Main results

* `sound_of_exec` — it holds in every run
* `jump_exact` — to its caller, `jump_fcontext` is a call that returns
* `make_exact` — so is `make_fcontext`, and the handles of the contexts stay different
* `returns_exits` — when the function of a context returns, the process ends with the status `0`
-/

namespace MmorpgServer.Coroutine

open ByteMemory X86 Machine

variable {L : Layout} {s s' : System} {w : Context} {acts : List Label} {label : Label} {cpu : Cpu}
  {stack : Stack} {fctx data ret fn size : BitVec 64}

/-- The function of a context was entered with a return address to `finish`. -/
def Returnable (L : Layout) (entry : Option Cpu) : Prop :=
  ∀ e, entry = some e → load e.mem 8 (e.reg .rsp).toNat = (L.addr .finish).toNat

structure Sound (L : Layout) (s : System) : Prop where
  apart : (s.stack :: s.waiting.map Context.stack).Pairwise Stack.Apart
  saved : ∀ w ∈ s.waiting, Saved L s.cpu.mem w
  entry : Returnable L s.entry
  entries : ∀ w ∈ s.waiting, Returnable L w.entry

instance : Std.Symm Stack.Apart := ⟨fun _ _ => Or.symm⟩

namespace Sound

theorem apart_stack (h : Sound L s) (hw : w ∈ s.waiting) : s.stack.Apart w.stack :=
  (List.pairwise_cons.mp h.apart).1 _ (List.mem_map_of_mem hw)

theorem apart_waiting (h : Sound L s) {u : Context} (hu : u ∈ s.waiting) (hw : w ∈ s.waiting)
    (hne : u ≠ w) : u.stack.Apart w.stack := by
  have hpair := List.pairwise_map.mp (List.pairwise_cons.mp h.apart).2
  have hsymm : Std.Symm fun u w : Context => u.stack.Apart w.stack := ⟨fun _ _ => Or.symm⟩
  exact hpair.forall hu hw hne

/-- A handle stands for one context. -/
theorem eq_of_fctx (h : Sound L s) {u : Context} (hu : u ∈ s.waiting) (hw : w ∈ s.waiting)
    (heq : u.fctx = w.fctx) : u = w := by
  by_contra hne
  have hapart := h.apart_waiting hu hw hne
  have hulo := (h.saved u hu).lo
  have huhi := (h.saved u hu).hi
  have hwlo := (h.saved w hw).lo
  have hwhi := (h.saved w hw).hi
  rw [heq] at hulo huhi
  rcases hapart with hle | hle <;> omega

/-! ### One step -/

theorem work (h : Sound L s) (hkept : ∀ w ∈ s.waiting, w.stack.Kept s.cpu.mem cpu.mem) :
    Sound L { s with cpu } :=
  { h with saved := fun w hw => (h.saved w hw).congr (hkept w hw) }

theorem make (h : Sound L s) (hfits : stack.lo + 0x4f ≤ stack.hi) (hapart : s.stack.Apart stack)
    (hothers : ∀ w ∈ s.waiting, w.stack.Apart stack) (hroom : s.Room 8) (hfn : L.code fn = none) :
    Sound L (s.make L stack size fn ret) := by
  obtain ⟨sp, hsp⟩ := Nat.exists_eq_add_of_le' (le_trans (Nat.le_add_left 8 _) hroom.1)
  obtain ⟨_, hsaved, rfl, -, -, -, -, hmem⟩ :=
    @make_spec L s ret fn size stack sp hsp hroom hfits hapart hfn
  have hlow := hroom.1
  have hhigh := hroom.2
  refine { apart := ?_, saved := ?_, entry := h.entry, entries := ?_ }
  · show (s.stack :: stack :: s.waiting.map Context.stack).Pairwise Stack.Apart
    refine List.pairwise_cons.mpr ⟨?_, List.pairwise_cons.mpr
      ⟨?_, (List.pairwise_cons.mp h.apart).2⟩⟩
    · rintro t (_ | ⟨_, ht⟩)
      · exact hapart
      · exact (List.pairwise_cons.mp h.apart).1 t ht
    · intro t ht
      obtain ⟨u, hu, rfl⟩ := List.mem_map.mp ht
      exact Or.symm (hothers u hu)
  · rintro u (_ | ⟨_, hu⟩)
    · exact hsaved
    · -- the stacks of the others are not touched
      apply (h.saved u hu).congr
      intro b hlt hle
      have hstack := h.apart_stack hu
      have hnew := hothers u hu
      apply hmem
      · rcases hstack with hst | hst <;> omega
      · rcases hnew with hst | hst <;> omega
  · rintro u (_ | ⟨_, hu⟩)
    · exact fun e heq => absurd heq (by simp)
    · exact h.entries u hu

/-- The context that is gone on with is taken out, and the caller waits. -/
theorem jump (h : Sound L s) (hroom : s.Room 0x40) (hret : L.code ret = none)
    (hfind : s.waiting.find? (fun u => u.fctx = w.fctx) = some w) :
    Sound L (s.jump L w.fctx data ret w) := by
  have hw := List.mem_of_find?_eq_some hfind
  obtain ⟨sp, hsp⟩ := Nat.exists_eq_add_of_le' (le_trans (Nat.le_add_left 0x40 _) hroom.1)
  obtain ⟨hfound, hrax, hmem, hdata⟩ :=
    @jumpCpu_spec L s w data ret sp hsp hroom (h.apart_stack hw) (h.saved w hw)
  have hlow := hroom.1
  have hhigh := hroom.2
  have hlt := s.stack.lt
  have hnat : (BitVec.ofNat 64 sp).toNat = sp := by
    rw [BitVec.toNat_ofNat, Nat.mod_eq_of_lt (by omega)]
  -- the contexts are the same ones
  have hperm : (s.stack :: s.waiting.map Context.stack).Perm
      (w.stack :: s.stack :: (s.waiting.eraseP fun u => u.fctx = w.fctx).map Context.stack) := by
    obtain ⟨-, pre, post, heq, hpre⟩ := List.find?_eq_some_iff_append.mp hfind
    rw [heq, List.eraseP_append_right _ (by simpa using hpre), List.eraseP_cons_of_pos (by simp),
      List.map_append, List.map_append, List.map_cons]
    exact (List.perm_middle.cons _).trans (List.Perm.swap _ _ _)
  have hapart := (hperm.pairwise_iff Or.symm).mp h.apart
  obtain ⟨htarget, hrest⟩ := List.pairwise_cons.mp hapart
  obtain ⟨hcaller, -⟩ := List.pairwise_cons.mp hrest
  refine { apart := hapart, saved := ?_, entry := ?_, entries := ?_ }
  · rintro u (_ | ⟨_, hu⟩)
    · have hfctx : ((s.jumpCpu L w.fctx data ret).reg .rax).toNat = sp := by rw [hrax, hnat]
      refine Saved.jumped (by rw [hfctx]; exact hsp) hlow hhigh (by rw [hfctx]; exact hdata) ?_ hret
      intro b hlt hle
      have hout := h.apart_stack hw
      apply hmem b (.inr (by omega))
      rcases hout with hst | hst <;> omega
    · -- a third context is not touched
      apply (h.saved u (List.mem_of_mem_eraseP hu)).congr
      intro b hlt hle
      have hfirst := hcaller _ (List.mem_map_of_mem hu)
      have hsecond := htarget _ (List.mem_cons_of_mem _ (List.mem_map_of_mem hu))
      apply hmem
      · rcases hfirst with hst | hst <;> omega
      · rcases hsecond with hst | hst <;> omega
  · unfold System.jump
    unfold Found at hfound
    dsimp only
    cases horigin : w.origin with
    | jumped c ret' => exact h.entries w hw
    | made c fn =>
      rw [horigin] at hfound
      intro e he
      obtain rfl := Option.some.inj he
      exact hfound.ret
  · rintro u (_ | ⟨_, hu⟩)
    · exact h.entry
    · exact h.entries u (List.mem_of_mem_eraseP hu)

/-- The function of the context that runs returns to `finish`. -/
theorem status_ret (h : Sound L s) (hentry : AtEntry s.cpu s.entry) :
    (s.ret L).status = some 0 := by
  cases hcpu : s.entry with
  | none =>
    rw [hcpu] at hentry
    exact absurd hentry id
  | some e =>
    rw [hcpu] at hentry
    obtain ⟨hrsp, hmem⟩ := hentry
    -- the return address is still that of the entry
    have hload : load s.cpu.mem 8 (s.cpu.reg .rsp).toNat = (L.addr .finish).toNat := by
      rw [← h.entry e hcpu, hrsp]
      apply load_congr
      intro b hle hlt
      obtain ⟨i, rfl⟩ := Nat.exists_eq_add_of_le hle
      exact hmem i (by omega)
    have hrip : (Exit.ret.exec L.addr s.cpu).rip = L.addr .finish := by
      show BitVec.ofNat 64 (load s.cpu.mem 8 (s.cpu.reg .rsp).toNat) = _
      rw [hload, BitVec.ofNat_toNat, BitVec.setWidth_eq]
    have hrun : runCode L.addr L.code 1 (Exit.ret.exec L.addr s.cpu) =
        finish.run L.addr (Exit.ret.exec L.addr s.cpu) :=
      runCode_of_block L.addr (hrip ▸ code_finish) 0
    obtain ⟨hexit, hrdi⟩ := @finish_run (Exit.ret.exec L.addr s.cpu) L.addr
    unfold System.ret
    dsimp only
    rw [hrun, hexit, if_pos rfl, hrdi]

/-- One step -/
theorem step (h : Sound L s) (hstatus : s.status = none) (hallowed : Allowed L s label)
    (hstep : s.step L label = some s') : s'.status = none → Sound L s' := by
  unfold System.step at hstep
  rw [if_neg (by simp [hstatus])] at hstep
  cases label with
  | work c =>
    obtain rfl := Option.some.inj hstep
    exact fun _ => h.work hallowed
  | make stack size fn ret =>
    obtain rfl := Option.some.inj hstep
    obtain ⟨hfits, hapart, hothers, hroom, hfn, -⟩ := hallowed
    exact fun _ => h.make hfits hapart hothers hroom hfn
  | jump fctx data ret =>
    obtain ⟨w, hfind, rfl⟩ := Option.map_eq_some_iff.mp hstep
    obtain ⟨-, hroom, hret⟩ := hallowed
    have hfctx : w.fctx = fctx := by simpa using List.find?_some hfind
    subst hfctx
    exact fun _ => h.jump hroom hret hfind
  | ret =>
    obtain rfl := Option.some.inj hstep
    intro hnone
    rw [h.status_ret hallowed] at hnone
    exact absurd hnone (by simp)

end Sound

/-! ### Every run -/

theorem sound_of_exec (hallowed : Guarded (System.step L) (Allowed L) (.start cpu stack) acts)
    (hrun : exec (System.step L) (.start cpu stack) acts = some s) :
    s.status = none → Sound L s := by
  refine exec_invariant_of_guarded (I := fun s => s.status = none → Sound L s)
    (fun s label s' hallowed hI hstep => ?_) hallowed ?_ hrun
  · have hstatus : s.status = none := by
      by_contra hne
      unfold System.step at hstep
      rw [if_pos hne] at hstep
      exact absurd hstep (by simp)
    exact (hI hstatus).step hstatus hallowed hstep
  · intro _
    refine ⟨List.pairwise_singleton _ _, ?_, ?_, ?_⟩
    · exact fun w hw => absurd hw List.not_mem_nil
    · exact fun e he => absurd he (by simp [System.start])
    · exact fun w hw => absurd hw List.not_mem_nil

/-- Whatever contexts were made, and in whatever order they have run: a handle belongs to one
context, and this context goes on in the state in which it has called `jump_fcontext`, or its
function is entered. It gets the handle of the caller, which now waits for its own return. Besides
the stack of the context that goes on only what is below the stack pointer of the caller is
written. -/
theorem jump_exact (hallowed : Guarded (System.step L) (Allowed L) (.start cpu stack) acts)
    (hrun : exec (System.step L) (.start cpu stack) acts = some s) (hstatus : s.status = none)
    (hjump : Allowed L s (.jump fctx data ret)) :
    ∃ w ∈ s.waiting, w.fctx = fctx ∧ (∀ u ∈ s.waiting, u.fctx = fctx → u = w) ∧
      ∃ s' caller rest, s.step L (.jump fctx data ret) = some s' ∧ s'.stack = w.stack ∧
        Found L w caller.fctx data s'.cpu ∧
        s'.waiting = caller :: rest ∧ s.waiting.Perm (w :: rest) ∧
        caller.stack = s.stack ∧ caller.origin = .jumped s.cpu ret ∧
        ∀ b, b + 0x40 < (s.cpu.reg .rsp).toNat ∨ (s.cpu.reg .rsp).toNat ≤ b →
          b < w.stack.lo ∨ w.stack.hi ≤ b → s'.cpu.mem b = s.cpu.mem b := by
  have h := sound_of_exec hallowed hrun hstatus
  obtain ⟨⟨w, hw, rfl⟩, hroom, hret⟩ := hjump
  obtain ⟨sp, hsp⟩ := Nat.exists_eq_add_of_le' (le_trans (Nat.le_add_left 0x40 _) hroom.1)
  obtain ⟨hfound, hrax, hmem, -⟩ :=
    @jumpCpu_spec L s w data ret sp hsp hroom (h.apart_stack hw) (h.saved w hw)
  have hfind : s.waiting.find? (fun u => u.fctx = w.fctx) = some w := by
    obtain ⟨u, hu⟩ : ∃ u, s.waiting.find? (fun u => u.fctx = w.fctx) = some u := by
      apply Option.isSome_iff_exists.mp
      rw [List.find?_isSome]
      exact ⟨w, hw, by simp⟩
    have heq : u.fctx = w.fctx := by simpa using List.find?_some hu
    rw [hu, h.eq_of_fctx (List.mem_of_find?_eq_some hu) hw heq]
  refine ⟨w, hw, rfl, fun u hu heq => h.eq_of_fctx hu hw heq, s.jump L w.fctx data ret w,
    ⟨s.stack, BitVec.ofNat 64 sp, .jumped s.cpu ret, s.entry⟩,
    s.waiting.eraseP fun u => u.fctx = w.fctx, ?_, rfl, hfound, ?_, ?_, rfl, rfl, ?_⟩
  · unfold System.step
    rw [if_neg (by simp [hstatus])]
    dsimp only
    rw [hfind, Option.map_some]
  · rw [← hrax]
    rfl
  · obtain ⟨-, pre, post, heq, hpre⟩ := List.find?_eq_some_iff_append.mp hfind
    rw [heq, List.eraseP_append_right _ (by simpa using hpre), List.eraseP_cons_of_pos (by simp)]
    exact List.perm_middle
  · intro b hb hstack
    exact hmem b (by omega) hstack

/-- To its caller `make_fcontext` is a call that returns. The handle that it gives is that of no
other context and lies within the new stack, and the new context waits for its function to be
entered. -/
theorem make_exact {stack' : Stack}
    (hallowed : Guarded (System.step L) (Allowed L) (.start cpu stack) acts)
    (hrun : exec (System.step L) (.start cpu stack) acts = some s) (hstatus : s.status = none)
    (hmake : Allowed L s (.make stack' size fn ret)) :
    ∃ s' w, s.step L (.make stack' size fn ret) = some s' ∧ s'.waiting = w :: s.waiting ∧
      w.stack = stack' ∧ w.origin = .made s.cpu fn ∧ (∀ u ∈ s.waiting, u.fctx ≠ w.fctx) ∧
      stack'.lo ≤ w.fctx.toNat ∧ w.fctx.toNat + 0x40 ≤ stack'.hi ∧
      s'.stack = s.stack ∧ s'.cpu.reg .rax = w.fctx ∧ s'.cpu.rip = ret ∧
      (∀ r ∈ calleeSaved, s'.cpu.reg r = s.cpu.reg r) ∧
      s'.cpu.mxcsr = s.cpu.mxcsr ∧ s'.cpu.x87 = s.cpu.x87 ∧
      ∀ b, b + 8 < (s.cpu.reg .rsp).toNat ∨ (s.cpu.reg .rsp).toNat ≤ b →
        b < stack'.lo ∨ stack'.hi ≤ b → s'.cpu.mem b = s.cpu.mem b := by
  have h := sound_of_exec hallowed hrun hstatus
  obtain ⟨hfits, hapart, hothers, hroom, hfn, hret⟩ := hmake
  obtain ⟨sp, hsp⟩ := Nat.exists_eq_add_of_le' (le_trans (Nat.le_add_left 8 _) hroom.1)
  obtain ⟨fctx, hsaved, hrax, hrip, hregs, hmxcsr, hx87, hmem⟩ :=
    @make_spec L s ret fn size stack' sp hsp hroom hfits hapart hfn
  refine ⟨s.make L stack' size fn ret, ⟨stack', fctx, .made s.cpu fn, none⟩, ?_, ?_, rfl, rfl, ?_,
    hsaved.lo, hsaved.hi, rfl, hrax, hrip, hregs, hmxcsr, hx87, ?_⟩
  · unfold System.step
    rw [if_neg (by simp [hstatus])]
  · rw [← hrax]
    rfl
  · -- their data is on different stacks
    intro u hu (heq : u.fctx = fctx)
    have hulo := (h.saved u hu).lo
    have huhi := (h.saved u hu).hi
    have hlo : stack'.lo ≤ fctx.toNat := hsaved.lo
    have hhi : fctx.toNat + 0x40 ≤ stack'.hi := hsaved.hi
    rw [heq] at hulo huhi
    rcases hothers u hu with hle | hle <;> omega
  · intro b hb hstack
    exact hmem b (by omega) hstack

/-- When the function of a context returns, the process ends with the status `0`. -/
theorem returns_exits (hallowed : Guarded (System.step L) (Allowed L) (.start cpu stack) acts)
    (hrun : exec (System.step L) (.start cpu stack) acts = some s) (hstatus : s.status = none)
    (hret : Allowed L s .ret) : ∃ s', s.step L .ret = some s' ∧ s'.status = some 0 := by
  have h := sound_of_exec hallowed hrun hstatus
  refine ⟨s.ret L, ?_, h.status_ret hret⟩
  unfold System.step
  rw [if_neg (by simp [hstatus])]

/-! ### A run -/

instance AtEntry.decidable (c : Cpu) : ∀ entry, Decidable (AtEntry c entry)
  | none => isFalse id
  | some _ => inferInstanceAs (Decidable (_ ∧ _))

instance (s : System) (n : ℕ) : Decidable (s.Room n) := inferInstanceAs (Decidable (_ ∧ _))

instance Allowed.decidable (L : Layout) (s : System) : ∀ label, Decidable (Allowed L s label)
  | .work _ => inferInstanceAs (Decidable (∀ w ∈ s.waiting, _))
  | .make _ _ _ _ => inferInstanceAs (Decidable (_ ∧ _))
  | .jump _ _ _ => inferInstanceAs (Decidable (_ ∧ _))
  | .ret => AtEntry.decidable s.cpu s.entry

/-- A layout of the code -/
def sixBlocks : Layout where
  addr
    | .jumpFcontext => 0x1000
    | .makeFcontext => 0x2000
    | .trampoline => 0x2080
    | .finish => 0x2090
    | .exit => 0x3000
    | .hlt => 0x20a0
  injective := by
    intro a b h
    cases a <;> cases b <;> first | rfl | exact absurd h (by decide)

/-- A thread that has just begun -/
def firstCpu : Cpu where
  reg r := if r = .rsp then 0x200 else 7
  rip := 0x500
  mxcsr := 0x1f80
  x87 := 0x37f
  mem _ := 0

/-- A context is made, runs, jumps back, and is gone on with. -/
def thereAndBack : List Label :=
  [.make ⟨0x200, 0x300, by decide⟩ 0x100 0x600 0x508, .jump 0x2c0 1 0x510, .jump 0x1c0 2 0x610]

theorem jump_exact_thereAndBack : ∃ (s : System) (w : Context) (s' : System),
    exec (System.step sixBlocks) (.start firstCpu ⟨0x100, 0x200, by decide⟩) thereAndBack = some s ∧
      s.step sixBlocks (.jump 0x2b8 3 0x518) = some s' ∧ w.fctx = 0x2b8 ∧ s'.stack = w.stack := by
  have hshape : (exec (System.step sixBlocks) (.start firstCpu ⟨0x100, 0x200, by decide⟩)
      thereAndBack).map (fun s => (s.status, decide (Allowed sixBlocks s (.jump 0x2b8 3 0x518)))) =
        some (none, true) := by decide +kernel
  obtain ⟨s, hrun, heq⟩ := Option.map_eq_some_iff.mp hshape
  obtain ⟨hstatus, hallowed⟩ := Prod.mk.inj heq
  obtain ⟨w, -, hw, -, s', -, -, hstep, hstack, -⟩ :=
    jump_exact (by decide +kernel) hrun hstatus (of_decide_eq_true hallowed)
  exact ⟨s, w, s', hrun, hstep, hw, hstack⟩

theorem make_exact_thereAndBack : ∃ (s s' : System),
    exec (System.step sixBlocks) (.start firstCpu ⟨0x100, 0x200, by decide⟩) thereAndBack = some s ∧
      s.step sixBlocks (.make ⟨0x300, 0x401, by decide⟩ 0x101 0x600 0x520) = some s' ∧
      s'.waiting.length = s.waiting.length + 1 ∧ s'.cpu.rip = 0x520 := by
  have hshape : (exec (System.step sixBlocks) (.start firstCpu ⟨0x100, 0x200, by decide⟩)
      thereAndBack).map (fun s => (s.status, decide (Allowed sixBlocks s
        (.make ⟨0x300, 0x401, by decide⟩ 0x101 0x600 0x520)))) = some (none, true) := by
    decide +kernel
  obtain ⟨s, hrun, heq⟩ := Option.map_eq_some_iff.mp hshape
  obtain ⟨hstatus, hallowed⟩ := Prod.mk.inj heq
  obtain ⟨s', w, hstep, hwaiting, -, -, -, -, -, -, -, hrip, -⟩ :=
    make_exact (by decide +kernel) hrun hstatus (of_decide_eq_true hallowed)
  exact ⟨s, s', hrun, hstep, by rw [hwaiting, List.length_cons], hrip⟩

end MmorpgServer.Coroutine
