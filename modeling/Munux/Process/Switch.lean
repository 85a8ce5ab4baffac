import Munux.Lib.X86

/-!
# The context switch

`switch_to_process` of `kernel/process/switch.asm`, instruction by instruction, and what a process
finds when it is switched back to.

The save half stores the registers of the caller in its `cpu_context_t`, the restore half loads
those of the other process and jumps to the saved `eip`. Two things go wrong for every input:

* the saved `esp` still has the return address of the call on top, and leaving by `jmp` instead of
  `ret` never takes it off, so the process resumes with `esp` four too low;
* `ebx` is loaded and then used to compare `cr3`, so it holds the page directory.

`switch_never_round_trips` states this together with what the switch does restore.
-/

namespace Munux.Process

open X86
open Cpu (run)

/-! ## The code -/

/-- The first half of `switch_to_process`: the context at `[esp + 4]` is filled in. -/
def saveHalf : List Instr :=
  [ .load .eax .esp 4,
    .load .edx .esp 8,
    .storeImm .eax 0 0,
    .store .eax 4 .ebx,
    .store .eax 8 .ecx,
    .storeImm .eax 12 0,
    .store .eax 16 .esi,
    .store .eax 20 .edi,
    .store .eax 24 .ebp,
    .store .eax 28 .esp,
    -- The return address.
    .load .ebx .esp 0,
    .store .eax 32 .ebx,
    .pushfd,
    .pop .ebx,
    .store .eax 36 .ebx,
    .readCr3 .ebx,
    .store .eax 40 .ebx ]

/-- The second half: the context at `edx` is loaded. -/
def restoreHalf : List Instr :=
  [ .load .ebx .edx 4,
    .load .ecx .edx 8,
    .load .esi .edx 16,
    .load .edi .edx 20,
    .load .ebp .edx 24,
    .load .esp .edx 28,
    -- The page directory is changed only if it differs.
    .load .eax .edx 40,
    .readCr3 .ebx,
    .cmp .eax .ebx,
    .je 1,
    .writeCr3 .eax,
    .pushMem .edx 36,
    .popfd,
    .load .eax .edx 0,
    .jmpMem .edx 32 ]

/-- `switch_to_process`, called in the state `c`: `[esp]` holds the return address, the two
pointers are above it. -/
def switchToProcess (c : Cpu) : Cpu := run restoreHalf 0 (run saveHalf 0 c)

/-! ## Where things are -/

/-- The context at `ctx` lies inside the address space. -/
def Fits (ctx : UInt32) : Prop := ctx.toNat + 44 ≤ 2 ^ 32

/-- The contexts at `a` and `b` do not overlap. -/
def Separate (a b : UInt32) : Prop := a.toNat + 44 ≤ b.toNat ∨ b.toNat + 44 ≤ a.toNat

/-- The words a switch uses on the stack at `esp`: one below it, three from it on. -/
def OnStack (esp : UInt32) : Prop := 4 ≤ esp.toNat ∧ esp.toNat + 12 ≤ 2 ^ 32

/-- The context at `ctx` does not overlap those words. -/
def OffStack (ctx esp : UInt32) : Prop :=
  ctx.toNat + 44 ≤ esp.toNat - 4 ∨ esp.toNat + 12 ≤ ctx.toNat

instance (ctx : UInt32) : Decidable (Fits ctx) := inferInstanceAs (Decidable (_ ≤ _))

instance (a b : UInt32) : Decidable (Separate a b) := inferInstanceAs (Decidable (_ ∨ _))

instance (esp : UInt32) : Decidable (OnStack esp) := inferInstanceAs (Decidable (_ ∧ _))

instance (ctx esp : UInt32) : Decidable (OffStack ctx esp) := inferInstanceAs (Decidable (_ ∨ _))

/-- `m'` has the context at `ctx` as `m` has it. -/
def SameContext (ctx : UInt32) (m m' : ByteMem) : Prop := m.Agree m' ctx.toNat (ctx.toNat + 44)

/-- In `c`, one process calls `switch_to_process(old, new)`: the contexts of the two processes and
their stacks are different places. -/
structure Call (c : Cpu) (old new : UInt32) : Prop where
  oldArg : word c.mem (c.reg .esp + 4) = old
  newArg : word c.mem (c.reg .esp + 8) = new
  stack : OnStack (c.reg .esp)
  oldFits : Fits old
  newFits : Fits new
  separate : Separate old new
  oldOff : OffStack old (c.reg .esp)
  newOff : OffStack new (c.reg .esp)
  newStack : OnStack (word c.mem (new + 28))
  newOwn : OffStack new (word c.mem (new + 28))

/-- The context at `p` has nothing to do with the stacks of the two processes of a call. -/
structure Aside (c : Cpu) (old new p : UInt32) : Prop where
  separate : Separate old p
  offOld : OffStack p (c.reg .esp)
  offNew : OffStack p (word c.mem (new + 28))

/-! ## The two halves -/

/-- The context at `p` describes the caller in state `c`. -/
structure Saved (c : Cpu) (m : ByteMem) (p : UInt32) : Prop where
  ebx : word m (p + 4) = c.reg .ebx
  esi : word m (p + 16) = c.reg .esi
  edi : word m (p + 20) = c.reg .edi
  ebp : word m (p + 24) = c.reg .ebp
  esp : word m (p + 28) = c.reg .esp
  eip : word m (p + 32) = word c.mem (c.reg .esp)
  eflags : word m (p + 36) = flagsImage c.eflags
  cr3 : word m (p + 40) = c.cr3

/-- The registers come from the context at `p`, apart from `ebx`. -/
structure Loaded (c c' : Cpu) (p : UInt32) : Prop where
  ebx : c'.reg .ebx = c.cr3
  esi : c'.reg .esi = word c.mem (p + 16)
  edi : c'.reg .edi = word c.mem (p + 20)
  ebp : c'.reg .ebp = word c.mem (p + 24)
  esp : c'.reg .esp = word c.mem (p + 28)
  eip : c'.eip = word c.mem (p + 32)
  eflags : c'.eflags = word c.mem (p + 36)
  cr3 : c'.cr3 = word c.mem (p + 40)

section Halves

variable {c : Cpu} {old new p : UInt32} {m m' : ByteMem}

/-- A word of a context is kept when the context is. -/
theorem SameContext.word (h : SameContext p m m') (hp : Fits p) {off : UInt32}
    (hoff : off.toNat + 4 ≤ 44) : X86.word m' (p + off) = X86.word m (p + off) := by
  unfold X86.word
  have hadd : (p + off).toNat = p.toNat + off.toNat := by
    rw [UInt32.toNat_add]
    unfold Fits at hp
    omega
  rw [hadd, ByteMem.load32_congr (h.mono (by omega) (by omega))]

theorem save_saved (h : Call c old new) : Saved c (run saveHalf 0 c).mem old := by
  obtain ⟨hold, hnew, ⟨hlow, hhigh⟩, hfits, -, -, hoff, -, -, -⟩ := h
  unfold Fits at hfits
  unfold OffStack at hoff
  constructor
  all_goals
    simp only [saveHalf, run, Cpu.step, Cpu.setReg, Cpu.push, Function.update, reduceCtorEq,
      ↓reduceDIte, hold]
    simp (disch := (simp only [Apart, UInt32.toNat_add, UInt32.toNat_sub, UInt32.reduceToNat]
                    omega)) only
      [word_setWord_self, word_setWord_of_apart]
  case eip => rw [UInt32.add_zero]

theorem save_rest (h : Call c old new) :
    (run saveHalf 0 c).reg .edx = new ∧ (run saveHalf 0 c).cr3 = c.cr3 := by
  simp [saveHalf, run, Cpu.step, Cpu.setReg, Cpu.push, Function.update, h.newArg]

/-- Saving writes only the context of the caller and one word of its stack. -/
theorem save_frame (h : Call c old new) (hsep : Separate old p) (hoff : OffStack p (c.reg .esp)) :
    SameContext p c.mem (run saveHalf 0 c).mem := by
  obtain ⟨hold, -, ⟨hlow, hhigh⟩, hfits, -, -, -, -, -, -⟩ := h
  unfold Fits at hfits
  unfold Separate at hsep
  unfold OffStack at hoff
  intro i hi hi'
  simp only [saveHalf, run, Cpu.step, Cpu.setReg, Cpu.push, Function.update, reduceCtorEq,
    ↓reduceDIte, hold]
  simp (disch := (simp only [UInt32.toNat_add, UInt32.toNat_sub, UInt32.reduceToNat]; omega)) only
    [setWord_of_outside]

/-- The state when the restore half has loaded the context at `p`, whose stack is at `esp`. -/
def restored (c : Cpu) (p esp : UInt32) : Cpu :=
  let mem := setWord c.mem (esp - 4) (word c.mem (p + 36))
  { reg := fun
      | .eax => word mem (p + 0)
      | .ebx => c.cr3
      | .ecx => word c.mem (p + 8)
      | .edx => p
      | .esi => word c.mem (p + 16)
      | .edi => word c.mem (p + 20)
      | .ebp => word c.mem (p + 24)
      | .esp => esp - 4 + 4
    eip := word mem (p + 32)
    eflags := word mem (esp - 4)
    cr3 := word c.mem (p + 40)
    mem := mem }

/-- Skipping the write of `cr3` makes no difference: it is skipped when the value is there. -/
theorem restore_eq (hedx : c.reg .edx = p) :
    run restoreHalf 0 c = restored c p (word c.mem (p + 28)) := by
  by_cases hcr3 : word c.mem (p + 40) = c.cr3
  · simp only [restoreHalf, run, Cpu.step, Cpu.setReg, Cpu.push, Function.update, reduceCtorEq,
      ↓reduceDIte, hedx, zero_cmpFlags, hcr3, beq_self_eq_true, if_true, restored, Cpu.mk.injEq,
      and_true]
    funext r
    cases r <;> simp [hedx]
  · simp only [restoreHalf, run, Cpu.step, Cpu.setReg, Cpu.push, Function.update, reduceCtorEq,
      ↓reduceDIte, hedx, zero_cmpFlags, beq_eq_false_iff_ne.2 hcr3, Bool.false_eq_true, if_false,
      restored, Cpu.mk.injEq, and_true]
    funext r
    cases r <;> simp [hedx]

theorem restore_loaded (hedx : c.reg .edx = p) (hp : Fits p)
    (hstack : OnStack (word c.mem (p + 28))) (hoff : OffStack p (word c.mem (p + 28))) :
    Loaded c (run restoreHalf 0 c) p := by
  rw [restore_eq hedx]
  set esp := word c.mem (p + 28) with hesp
  obtain ⟨hlow, hhigh⟩ := hstack
  unfold Fits at hp
  unfold OffStack at hoff
  have heip : Apart (esp - 4) (p + 32) := by
    simp only [Apart, UInt32.toNat_add, UInt32.toNat_sub, UInt32.reduceToNat]
    omega
  refine ⟨rfl, rfl, rfl, rfl, ?_, word_setWord_of_apart _ _ heip, word_setWord_self _ _ _, rfl⟩
  exact UInt32.sub_add_cancel esp 4

/-- Restoring writes one word of the stack of the process that goes on. -/
theorem restore_frame (hedx : c.reg .edx = new) (hstack : OnStack (word c.mem (new + 28)))
    (hoff : OffStack p (word c.mem (new + 28))) :
    SameContext p c.mem (run restoreHalf 0 c).mem := by
  rw [restore_eq hedx]
  obtain ⟨hlow, hhigh⟩ := hstack
  unfold OffStack at hoff
  intro i hi hi'
  refine setWord_of_outside _ _ ?_
  simp only [UInt32.toNat_sub, UInt32.reduceToNat]
  omega

end Halves

/-! ## Round trips -/

section RoundTrip

variable {c c₀ c₁ c₂ : Cpu} {old new p q r : UInt32}

theorem Saved.congr {m m' : ByteMem} (h : Saved c m p) (hsame : SameContext p m m') (hp : Fits p) :
    Saved c m' p := by
  have hword : ∀ off : UInt32, off.toNat + 4 ≤ 44 → word m' (p + off) = word m (p + off) :=
    fun off hoff => hsame.word hp hoff
  exact
    { ebx := (hword 4 (by decide)).trans h.ebx
      esi := (hword 16 (by decide)).trans h.esi
      edi := (hword 20 (by decide)).trans h.edi
      ebp := (hword 24 (by decide)).trans h.ebp
      esp := (hword 28 (by decide)).trans h.esp
      eip := (hword 32 (by decide)).trans h.eip
      eflags := (hword 36 (by decide)).trans h.eflags
      cr3 := (hword 40 (by decide)).trans h.cr3 }

/-- After the save half the stack of the other process is still where its context says. -/
theorem save_newStack (h : Call c old new) :
    word (run saveHalf 0 c).mem (new + 28) = word c.mem (new + 28) :=
  (save_frame h h.separate h.newOff).word h.newFits (by decide)

/-- A call writes nothing in the context of a process it has nothing to do with. -/
theorem switch_frame (h : Call c old new) (hp : Aside c old new p) :
    SameContext p c.mem (switchToProcess c).mem := by
  refine (save_frame h hp.separate hp.offOld).trans (restore_frame (save_rest h).1 ?_ ?_)
  · rw [save_newStack h]
    exact h.newStack
  · rw [save_newStack h]
    exact hp.offNew

/-- **Switching away.** The caller leaves its registers in its context. -/
theorem switch_saved (h : Call c p new) (hp : OffStack p (word c.mem (new + 28))) :
    Saved c (switchToProcess c).mem p := by
  refine (save_saved h).congr (restore_frame (save_rest h).1 ?_ ?_) h.oldFits
  · rw [save_newStack h]
    exact h.newStack
  · rw [save_newStack h]
    exact hp

/-- **Switching back.** The registers come out of the context as it was before the call. -/
theorem switch_loaded (h : Call c old p) : Loaded c (switchToProcess c) p := by
  have hsame := save_frame h h.separate h.newOff
  obtain ⟨hedx, hcr3⟩ := save_rest h
  have hword : ∀ off : UInt32, off.toNat + 4 ≤ 44 →
      word (run saveHalf 0 c).mem (p + off) = word c.mem (p + off) :=
    fun off hoff => hsame.word h.newFits hoff
  have hload : Loaded (run saveHalf 0 c) (switchToProcess c) p := by
    refine restore_loaded hedx h.newFits ?_ ?_
    · rw [save_newStack h]
      exact h.newStack
    · rw [save_newStack h]
      exact h.newOwn
  exact
    { ebx := hload.ebx.trans hcr3
      esi := hload.esi.trans (hword 16 (by decide))
      edi := hload.edi.trans (hword 20 (by decide))
      ebp := hload.ebp.trans (hword 24 (by decide))
      esp := hload.esp.trans (hword 28 (by decide))
      eip := hload.eip.trans (hword 32 (by decide))
      eflags := hload.eflags.trans (hword 36 (by decide))
      cr3 := hload.cr3.trans (hword 40 (by decide)) }

/-- What happens while the process with the context at `p` does not run: other code that leaves the
context alone, and switches between other processes. -/
inductive Between (p : UInt32) (c : Cpu) : Cpu → Prop
  | start : Between p c c
  | code {d e : Cpu} : Between p c d → SameContext p d.mem e.mem → Between p c e
  | switch {d : Cpu} (old new : UInt32) :
      Between p c d → Call d old new → Aside d old new p → Between p c (switchToProcess d)

theorem Between.sameContext (h : Between p c c₁) : SameContext p c.mem c₁.mem := by
  induction h with
  | start => exact ByteMem.Agree.refl _ _ _
  | code _ hsame ih => exact ih.trans hsame
  | switch old new _ hcall haside ih => exact ih.trans (switch_frame hcall haside)

/-- What a process that called in state `c` should find in the state `c'` in which it goes on: it is
back from the call. -/
structure RoundTrip (c c' : Cpu) : Prop where
  eip : c'.eip = word c.mem (c.reg .esp)
  esp : c'.reg .esp = c.reg .esp + 4
  ebx : c'.reg .ebx = c.reg .ebx
  esi : c'.reg .esi = c.reg .esi
  edi : c'.reg .edi = c.reg .edi
  ebp : c'.reg .ebp = c.reg .ebp
  eflags : c'.eflags = c.eflags
  cr3 : c'.cr3 = c.cr3

/-- What it does find, when the process that switched back to it ran with the directory `cr3`. -/
structure Resumed (c c' : Cpu) (cr3 : UInt32) : Prop where
  eip : c'.eip = word c.mem (c.reg .esp)
  esp : c'.reg .esp = c.reg .esp
  ebx : c'.reg .ebx = cr3
  esi : c'.reg .esi = c.reg .esi
  edi : c'.reg .edi = c.reg .edi
  ebp : c'.reg .ebp = c.reg .ebp
  eflags : c'.eflags = flagsImage c.eflags
  cr3 : c'.cr3 = c.cr3

/-- The return address is still on the stack, so the process is not back from its call. -/
theorem Resumed.not_roundTrip {c' : Cpu} {cr3 : UInt32} (h : Resumed c c' cr3) :
    ¬ RoundTrip c c' := by
  intro htrip
  have hesp : c.reg .esp + 4 = c.reg .esp := htrip.esp.symm.trans h.esp
  simp at hesp

/-- **A context switch never makes the round trip.** Whatever the registers, the stacks and the
contexts are, and however many switches lie in between: the process resumes at its return address
with `esi`, `edi`, `ebp`, the flags and `cr3` restored, but with `esp` at its saved value instead of
four above it, and with a page directory in `ebx`. -/
theorem switch_never_round_trips (hout : Call c₀ p q) (hoff : OffStack p (word c₀.mem (q + 28)))
    (hbetween : Between p (switchToProcess c₀) c₂) (hback : Call c₂ r p) :
    ¬ RoundTrip c₀ (switchToProcess c₂) ∧ Resumed c₀ (switchToProcess c₂) c₂.cr3 := by
  have hsaved := (switch_saved hout hoff).congr hbetween.sameContext hout.oldFits
  have hload := switch_loaded hback
  have hresumed : Resumed c₀ (switchToProcess c₂) c₂.cr3 :=
    { eip := hload.eip.trans hsaved.eip
      esp := hload.esp.trans hsaved.esp
      ebx := hload.ebx
      esi := hload.esi.trans hsaved.esi
      edi := hload.edi.trans hsaved.edi
      ebp := hload.ebp.trans hsaved.ebp
      eflags := hload.eflags.trans hsaved.eflags
      cr3 := hload.cr3.trans hsaved.cr3 }
  exact ⟨hresumed.not_roundTrip, hresumed⟩

end RoundTrip

/-- A process with its context at `0x1000` and its stack at `0x8000` calls
`switch_to_process(0x1000, 0x2000)`; the other process has its stack at `0x9000`. -/
def callOut : Cpu where
  reg := fun
    | .ebx => 7
    | .esp => 0x8000
    | _ => 0
  eip := 0
  eflags := 0x202
  cr3 := 0x5000
  mem :=
    let args := setWord (setWord (setWord (fun _ => 0) 0x8000 0x100500) 0x8004 0x1000) 0x8008 0x2000
    setWord (setWord args 0x201C 0x9000) 0x2028 0x5000

/-- The other process calls `switch_to_process(0x2000, 0x1000)`. -/
def callBack : Cpu :=
  let c := switchToProcess callOut
  { c.setReg .esp 0x8F00 with
    mem := setWord (setWord (setWord c.mem 0x8F00 0x100600) 0x8F04 0x2000) 0x8F08 0x1000 }

theorem call_callOut : Call callOut 0x1000 0x2000 := by
  constructor <;> decide +kernel

theorem call_callBack : Call callBack 0x2000 0x1000 := by
  constructor <;> decide +kernel

theorem between_callBack : Between 0x1000 (switchToProcess callOut) callBack := by
  refine .code .start ?_
  intro i hi hi'
  have hlow : i < 0x8F00 := Nat.lt_of_lt_of_le hi' (by decide)
  simp only [callBack]
  simp (disch := (simp only [UInt32.reduceToNat]; omega)) only [setWord_of_outside]

/-- **The process is not back from its call**: its stack pointer is four too low. -/
theorem switch_leaves_return_address :
    ∃ c₀ c₂ p q r, Call c₀ p q ∧ OffStack p (word c₀.mem (q + 28)) ∧
      Between p (switchToProcess c₀) c₂ ∧ Call c₂ r p ∧ ¬ RoundTrip c₀ (switchToProcess c₂) := by
  refine ⟨callOut, callBack, 0x1000, 0x2000, 0x2000, call_callOut, by decide +kernel,
    between_callBack, call_callBack, ?_⟩
  intro h
  have hesp : (switchToProcess callBack).reg .esp ≠ callOut.reg .esp + 4 := by decide +kernel
  exact hesp h.esp

theorem switch_never_round_trips_two_processes :
    ¬ RoundTrip callOut (switchToProcess callBack) ∧
      Resumed callOut (switchToProcess callBack) 0x5000 := by
  have hcr3 : callBack.cr3 = 0x5000 := by decide +kernel
  rw [← hcr3]
  exact switch_never_round_trips call_callOut (by decide +kernel) between_callBack call_callBack

end Munux.Process
