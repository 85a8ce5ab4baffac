import Munux.Lib.Traps

/-!
# Interrupt stubs

`kernel/interrupts/interrupt.asm`: every vector has a stub that pushes what the processor did not
push, all stubs of a kind continue in a common one, and the common stub hands the C handler a
pointer to the registers of the interrupted code, `registers_t`.

* `registers_t` is what the stack holds when the handler is called (`entry_spec`). Its field `esp`
  is the value in the middle of the entry, 20 below the stack of the interrupted code, and the high
  half of `ds` is the high half of `eax`.
* What the handler leaves there is what the interrupted code continues with (`exit_spec`), apart
  from `esp`, which `popa` ignores, and from `es`, `fs` and `gs`, which are loaded with `ds`.

So an interrupt whose handler leaves `registers_t` alone is invisible to code with one data segment
(`interrupt_transparent`), and a system call changes `eax` and nothing else (`syscall_returns`).
-/

namespace Munux.Interrupts

open X86

/-! ## The code -/

/-- The macro `ISR_NOERRCODE`. -/
def isrNoErrCode (n : UInt8) : List Trap := [.cli, .pushByte 0, .pushByte n]

/-- The macro `ISR_ERRCODE`: the processor has pushed the error code. -/
def isrErrCode (n : UInt8) : List Trap := [.cli, .pushByte n]

/-- The macro `IRQ`. -/
def irqStub (n : UInt8) : List Trap := [.cli, .pushByte 0, .pushByte n]

/-- `isr128`: `push byte` would extend the sign of `0x80`. -/
def isr128 : List Trap := [.cli, .pushDword 0, .pushDword 0x80]

/-- The vectors whose stubs are made by `ISR_ERRCODE`. -/
def errCodes : List UInt8 := [8, 10, 11, 12, 13, 14, 17, 30]

/-- The stub of vector `n`, up to the jump to the common part. -/
def stub (n : UInt8) : List Trap :=
  if n = 0x80 then isr128
  else if 32 ≤ n then irqStub n
  else if n ∈ errCodes then isrErrCode n
  else isrNoErrCode n

/-- The common stubs up to the call. -/
def commonEntry : List Trap :=
  [ .pusha,
    .movAxSeg .ds,
    .pushReg .eax,
    .movAxImm 0x10,
    .movSegAx .ds,
    .movSegAx .es,
    .movSegAx .fs,
    .movSegAx .gs,
    .pushReg .esp ]

/-- The common stubs after the call. -/
def commonExit : List Trap :=
  [ .addEsp 4,
    .popReg .eax,
    .movSegAx .ds,
    .movSegAx .es,
    .movSegAx .fs,
    .movSegAx .gs,
    .popa,
    .addEsp 8,
    .sti,
    .iret ]

/-- `registers_t`, without the two words that the processor pushes only when the privilege
changes. -/
structure Registers where
  ds : UInt32
  edi : UInt32
  esi : UInt32
  ebp : UInt32
  esp : UInt32
  ebx : UInt32
  edx : UInt32
  ecx : UInt32
  eax : UInt32
  intNo : UInt32
  errCode : UInt32
  eip : UInt32
  cs : UInt32
  eflags : UInt32
  deriving DecidableEq, Repr

/-- The words of `registers_t` in memory, from its address up. -/
def Registers.words (r : Registers) : List UInt32 :=
  [r.ds, r.edi, r.esi, r.ebp, r.esp, r.ebx, r.edx, r.ecx, r.eax, r.intNo, r.errCode, r.eip, r.cs,
    r.eflags]

/-- The registers of the code that vector `n` interrupts. -/
def registersOf (c : Core) (n : UInt8) (error : UInt32) : Registers where
  ds := withLow (c.reg .eax) (c.seg .ds)
  edi := c.reg .edi
  esi := c.reg .esi
  ebp := c.reg .ebp
  esp := c.reg .esp - 20
  ebx := c.reg .ebx
  edx := c.reg .edx
  ecx := c.reg .ecx
  eax := c.reg .eax
  intNo := n.toUInt32
  errCode := error
  eip := c.eip
  cs := (c.seg .cs).toUInt32
  eflags := c.eflags

/-- The vectors that have a stub. -/
def HasStub (n : UInt8) : Prop := n < 48 ∨ n = 0x80

instance (n : UInt8) : Decidable (HasStub n) := inferInstanceAs (Decidable (_ ∨ _))

/-- The error code that the processor pushes on vector `n`. -/
def pushedError (n : UInt8) (error : UInt32) : Option UInt32 :=
  if Core.pushesErrorCode n then some error else none

/-- The state in which the handler is called: vector `n`, through a gate to `offset` in the segment
`selector`. -/
def entered (c : Core) (n : UInt8) (error offset : UInt32) (selector : UInt16) : Core :=
  (c.deliver offset selector (pushedError n error)).exec (stub n ++ commonEntry)

/-- An interrupt from its delivery to its return. -/
def interrupt (c : Core) (n : UInt8) (error offset : UInt32) (selector : UInt16)
    (handler : Core → Core) : Core :=
  (handler (entered c n error offset selector)).exec commonExit

/-! ## The way in -/

section Entry

variable {c : Core} {n : UInt8} {error offset : UInt32} {selector : UInt16} {ws : List UInt32}

theorem errCodes_lt : ∀ n ∈ errCodes, n < 32 := by
  simp [errCodes]

/-- **The macros are chosen right**: the stubs that push no error code are those of the vectors for
which the processor pushes one. -/
theorem pushesErrorCode_iff (n : UInt8) : Core.pushesErrorCode n ↔ n ∈ errCodes := by
  constructor
  · intro h
    unfold Core.pushesErrorCode at h
    split at h <;> first | decide | cases h
  · intro h
    simp only [errCodes, List.mem_cons, List.not_mem_nil, or_false] at h
    obtain rfl | rfl | rfl | rfl | rfl | rfl | rfl | rfl := h <;> rfl

/-- The number a stub pushes is its vector. -/
theorem extendByte_vector (hn : n < 0x80) : extendByte n = n.toUInt32 := if_pos hn

example : extendByte 0x80 = 0xFFFFFF80 := rfl

/-- **The stubs.** Every vector's stub pushes an error code unless the processor has, and then its
number. -/
theorem exec_stub (hn : HasStub n) (d : Core) :
    d.exec (stub n) =
      (d.step .cli).pushAll ((if n ∈ errCodes then [] else [0]) ++ [n.toUInt32]) := by
  rcases hn with hlt | rfl
  · have hne : n ≠ 0x80 := by grind
    have hext : extendByte n = n.toUInt32 := extendByte_vector (by grind)
    have hzero : extendByte 0 = 0 := rfl
    rw [stub, if_neg hne]
    split_ifs with h32 herr
    · exact absurd (errCodes_lt n herr) (by grind)
    · simp [irqStub, Core.step, Core.pushAll, hext, hzero]
    · simp [isrErrCode, Core.step, Core.pushAll, hext]
    · simp [isrNoErrCode, Core.step, Core.pushAll, hext, hzero]
  · rfl

theorem deliver_pushed (h : Holds c.mem (c.reg .esp) ws) {e : Option UInt32}
    (hroom : 16 ≤ (c.reg .esp).toNat) :
    Core.Pushed c (c.deliver offset selector e)
      (e.toList ++ [c.eip, (c.seg .cs).toUInt32, c.eflags]) ws := by
  have hpushed := (Core.Pushed.refl h).pushAll
    ([c.eflags, (c.seg .cs).toUInt32, c.eip] ++ e.toList) ?_
  · rw [List.append_nil, List.reverse_append] at hpushed
    cases e <;> exact hpushed.congr rfl rfl rfl
  · cases e <;> simp <;> omega

/-- The frame after a stub is the same for all vectors. -/
theorem stub_pushed (hn : HasStub n) (h : Holds c.mem (c.reg .esp) ws)
    (hroom : 20 ≤ (c.reg .esp).toNat) :
    Core.Pushed c ((c.deliver offset selector (pushedError n error)).exec (stub n))
      [n.toUInt32, (pushedError n error).getD 0, c.eip, (c.seg .cs).toUInt32, c.eflags] ws := by
  have hd : Core.Pushed c (c.deliver offset selector (pushedError n error)) _ ws :=
    deliver_pushed h (by omega)
  have hcli : Core.Pushed c ((c.deliver offset selector (pushedError n error)).step .cli) _ ws :=
    hd.congr rfl rfl rfl
  have hpushed := hcli.pushAll ((if n ∈ errCodes then [] else [0]) ++ [n.toUInt32]) ?_
  · rw [exec_stub hn]
    by_cases herr : n ∈ errCodes <;> simpa [pushedError, pushesErrorCode_iff, herr] using hpushed
  · by_cases herr : n ∈ errCodes <;> simp [pushedError, pushesErrorCode_iff, herr] <;> omega

/-- What a stub does not push it leaves alone. -/
theorem stub_reg (hn : HasStub n) {r : Reg} (hr : r ≠ .esp) (e : Option UInt32) :
    ((c.deliver offset selector e).exec (stub n)).reg r = c.reg r := by
  rw [exec_stub hn, Core.pushAll_reg _ hr]
  exact Core.pushAll_reg _ hr

theorem stub_seg (hn : HasStub n) (e : Option UInt32) :
    ((c.deliver offset selector e).exec (stub n)).seg = Function.update c.seg .cs selector := by
  rw [exec_stub hn, Core.pushAll_seg]
  rfl

theorem stub_masked (hn : HasStub n) (e : Option UInt32) :
    ((c.deliver offset selector e).exec (stub n)).eflags &&& interruptBit = 0 := by
  rw [exec_stub hn, Core.pushAll_eflags, Core.step, UInt32.and_assoc]
  exact UInt32.and_zero

/-- **The way in.** The handler is called with a pointer to the registers of the interrupted code,
on the kernel's data segment and with interrupts off. -/
structure Entered (c c' : Core) (r : Registers) (selector : UInt16) (ws : List UInt32) : Prop where
  pushed : Core.Pushed c c' ((c.reg .esp - 56) :: r.words) ws
  seg : c'.seg = fun | .cs => selector | _ => 0x10
  masked : c'.eflags &&& interruptBit = 0

theorem entry_spec (hn : HasStub n) (h : Holds c.mem (c.reg .esp) ws)
    (hroom : 60 ≤ (c.reg .esp).toNat) :
    Entered c (entered c n error offset selector)
      (registersOf c n ((pushedError n error).getD 0)) selector ws := by
  set d := (c.deliver offset selector (pushedError n error)).exec (stub n) with hd
  have hstub : Core.Pushed c d _ ws := stub_pushed hn h (by omega)
  have hreg : ∀ r, r ≠ .esp → d.reg r = c.reg r := fun r hr => stub_reg hn hr _
  have hseg : d.seg = Function.update c.seg .cs selector := stub_seg hn _
  have hesp : d.reg .esp = c.reg .esp - 20 := hstub.esp_eq
  have heax : (d.pushAll (Core.generalRegs.map d.reg)).reg .eax = c.reg .eax := by
    rw [Core.pushAll_reg _ (by decide), hreg _ (by decide)]
  -- The general registers, then the data segment, then the pointer to all of this.
  have hpusha := hstub.pushAll (Core.generalRegs.map d.reg) (by simp [Core.generalRegs]; omega)
  have hax : Core.Pushed c ((d.step .pusha).step (.movAxSeg .ds)) _ ws := hpusha.congr rfl rfl rfl
  have hds := hax.push (by simp [Core.generalRegs]; omega) (withLow (c.reg .eax) (c.seg .ds))
  have hentry : Core.Pushed c (d.exec commonEntry.dropLast) _ ws :=
    hds.congr (by simp [commonEntry, Core.step, heax, hseg]) rfl rfl
  have hptr := hentry.push (by simp [Core.generalRegs]; omega)
    ((d.exec commonEntry.dropLast).reg .esp)
  have heq : entered c n error offset selector = d.exec commonEntry := Core.exec_append _ _
  constructor
  · have hlist : (Core.generalRegs.map d.reg).reverse ++
        [n.toUInt32, (pushedError n error).getD 0, c.eip, (c.seg .cs).toUInt32, c.eflags] =
          (registersOf c n ((pushedError n error).getD 0)).words.tail := by
      simp [Core.generalRegs, registersOf, Registers.words, hreg, hesp]
    have hpointer : (d.exec commonEntry.dropLast).reg .esp = c.reg .esp - 56 := hds.esp_eq
    rw [hlist] at hptr
    rw [heq, ← hpointer]
    exact hptr
  · rw [heq]
    funext s
    cases s <;> simp [commonEntry, Core.step, hseg]
  · rw [heq]
    simpa [commonEntry, Core.step] using stub_masked hn _

end Entry

/-! ## The way out -/

/-- The general registers in `registers_t`. -/
def Registers.reg (r : Registers) : Reg → UInt32
  | .eax => r.eax
  | .ebx => r.ebx
  | .ecx => r.ecx
  | .edx => r.edx
  | .esi => r.esi
  | .edi => r.edi
  | .ebp => r.ebp
  | .esp => r.esp

/-- The code segment `iret` loads, and the data segment that the stubs load everywhere else. -/
def Registers.seg (r : Registers) : SegReg → UInt16
  | .cs => r.cs.toUInt16
  | _ => r.ds.toUInt16

/-- The state after the common stub: what `r` describes, with the stack at `esp`. -/
def resumed (c : Core) (r : Registers) (esp : UInt32) : Core where
  reg := Function.update r.reg .esp esp
  eip := r.eip
  eflags := r.eflags
  cr3 := c.cr3
  mem := c.mem
  seg := r.seg

section Exit

variable {c : Core} {r : Registers} {arg : UInt32} {ws : List UInt32}

/-- **The way out.** What the handler leaves in `registers_t` is what the processor continues
with. -/
theorem exit_spec (h : Holds c.mem (c.reg .esp) (arg :: r.words ++ ws)) :
    c.exec commonExit = resumed c r (c.reg .esp + 60) := by
  have hword : ∀ i, (hi : i < 14) → ∀ off : UInt32, UInt32.ofNat (4 * (i + 1)) = off →
      word c.mem (c.reg .esp + off) = r.words.get ⟨i, hi⟩ := by
    rintro i hi off rfl
    rw [h.word (i + 1) (by simp [Registers.words]; omega)]
    exact List.getElem_append_left (Nat.succ_lt_succ hi)
  have hds := hword 0 (by decide) 4 rfl
  have hedi := hword 1 (by decide) 8 rfl
  have hesi := hword 2 (by decide) 12 rfl
  have hebp := hword 3 (by decide) 16 rfl
  have hebx := hword 5 (by decide) 24 rfl
  have hedx := hword 6 (by decide) 28 rfl
  have hecx := hword 7 (by decide) 32 rfl
  have heax := hword 8 (by decide) 36 rfl
  have heip := hword 11 (by decide) 48 rfl
  have hcs := hword 12 (by decide) 52 rfl
  have heflags := hword 13 (by decide) 56 rfl
  apply Core.ext
  · funext q
    cases q <;>
      simp [commonExit, Core.step, Core.popa, Core.iret, resumed, Registers.reg, UInt32.add_assoc,
        hedi, hesi, hebp, hebx, hedx, hecx, heax, Registers.words]
  · simp [commonExit, Core.step, Core.popa, Core.iret, resumed, UInt32.add_assoc, heip,
      Registers.words]
  · simp [commonExit, Core.step, Core.popa, Core.iret, resumed, UInt32.add_assoc, heflags,
      Registers.words]
  · rfl
  · rfl
  · funext s
    cases s <;>
      simp [commonExit, Core.step, Core.popa, Core.iret, resumed, Registers.seg, UInt32.add_assoc,
        hds, hcs, Registers.words]

end Exit

/-! ## There and back -/

/-- A C handler that is called in state `c` returns in state `c'` and leaves `r` in `registers_t`,
above whatever is then in its argument. -/
structure Returns (c c' : Core) (r : Registers) (ws : List UInt32) : Prop where
  esp : c'.reg .esp = c.reg .esp
  stack : ∃ arg, Holds c'.mem (c'.reg .esp) (arg :: r.words ++ ws)

/-- The segment registers after an interrupt: the stubs save one data segment for all. -/
def resumedSeg (c : Core) : SegReg → UInt16
  | .cs => c.seg .cs
  | _ => c.seg .ds

section Return

variable {c c' : Core} {n : UInt8} {error offset v : UInt32} {selector : UInt16}
  {ws ws' : List UInt32} {handler : Core → Core} {r : Registers}

/-- The processor continues with what the handler leaves in `registers_t`, on its old stack. -/
theorem interrupt_resumed (hn : HasStub n) (h : Holds c.mem (c.reg .esp) ws)
    (hroom : 60 ≤ (c.reg .esp).toNat) (hc' : c' = handler (entered c n error offset selector))
    (hret : Returns (entered c n error offset selector) c' r ws') :
    interrupt c n error offset selector handler = resumed c' r (c.reg .esp) ∧
      Holds c'.mem (c.reg .esp) ws' := by
  obtain ⟨hesp, arg, hstack⟩ := hret
  have hentered : (entered c n error offset selector).reg .esp = c.reg .esp - 60 :=
    (entry_spec hn h hroom).pushed.esp_eq
  have hback : c'.reg .esp + 60 = c.reg .esp := by
    rw [hesp, hentered]
    exact UInt32.sub_add_cancel _ _
  constructor
  · rw [interrupt, ← hc', exit_spec hstack, hback]
  · rw [← hback]
    exact Holds.drop (arg :: r.words) hstack

theorem resumed_registersOf (c c' : Core) (n : UInt8) (error v : UInt32) :
    resumed c' { registersOf c n error with eax := v } (c.reg .esp) =
      { c.setReg .eax v with seg := resumedSeg c, mem := c'.mem, cr3 := c'.cr3 } := by
  apply Core.ext
  · funext q
    cases q <;> rfl
  · rfl
  · rfl
  · rfl
  · rfl
  · funext s
    cases s <;> simp [resumed, Registers.seg, registersOf, resumedSeg]

/-- **An interrupt is transparent.** If the handler leaves `registers_t` alone, the interrupted code
finds every general register, the flags, the code and the data segment as they were, and on its
stack what the handler left there. Its other data segment registers are loaded with `ds`. -/
theorem interrupt_transparent (hn : HasStub n) (h : Holds c.mem (c.reg .esp) ws)
    (hroom : 60 ≤ (c.reg .esp).toNat) (hc' : c' = handler (entered c n error offset selector))
    (hret : Returns (entered c n error offset selector) c'
      (registersOf c n ((pushedError n error).getD 0)) ws') :
    interrupt c n error offset selector handler =
        { c with seg := resumedSeg c, mem := c'.mem, cr3 := c'.cr3 } ∧
      Holds c'.mem (c.reg .esp) ws' := by
  obtain ⟨heq, hstack⟩ := interrupt_resumed hn h hroom hc' hret
  have hself := resumed_registersOf c c' n ((pushedError n error).getD 0) (c.reg .eax)
  rw [Core.setReg_self] at hself
  exact ⟨heq.trans hself, hstack⟩

/-- Code with a small stack and zeroed memory. -/
def sampleCore : Core where
  reg := fun | .esp => 0x1000 | .eax => 3 | _ => 7
  eip := 0x100000
  eflags := 0x202
  cr3 := 0
  mem := fun _ => 0
  seg := fun | .cs => 8 | _ => 0x10

theorem sampleCore_stack : Holds sampleCore.mem (sampleCore.reg .esp) [0] where
  fits := by decide
  load := fun i hi => by
    obtain rfl := Nat.lt_one_iff.1 hi
    rfl

theorem interrupt_transparent_timer :
    interrupt sampleCore 32 0 0x101000 8 id =
      { sampleCore with
        seg := resumedSeg sampleCore
        mem := (entered sampleCore 32 0 0x101000 8).mem
        cr3 := (entered sampleCore 32 0 0x101000 8).cr3 } ∧
      Holds (entered sampleCore 32 0 0x101000 8).mem (sampleCore.reg .esp) [0] :=
  interrupt_transparent (.inl (by decide)) sampleCore_stack (by decide)
    (show entered sampleCore 32 0 0x101000 8 = id (entered sampleCore 32 0 0x101000 8) from rfl)
    ⟨rfl, _, (entry_spec (.inl (by decide)) sampleCore_stack (by decide)).pushed.stack⟩

/-- **A system call changes `eax`** and no other register, whatever it does to memory. -/
theorem syscall_returns (handler : Core → Core) (h : Holds c.mem (c.reg .esp) ws)
    (hroom : 60 ≤ (c.reg .esp).toNat)
    (hc' : c' = handler (entered c 0x80 error offset selector))
    (hret : Returns (entered c 0x80 error offset selector) c'
      { registersOf c 0x80 0 with eax := v } ws') :
    interrupt c 0x80 error offset selector handler =
        { c.setReg .eax v with seg := resumedSeg c, mem := c'.mem, cr3 := c'.cr3 } ∧
      Holds c'.mem (c.reg .esp) ws' := by
  obtain ⟨heq, hstack⟩ := interrupt_resumed (.inr rfl) h hroom hc' hret
  exact ⟨heq.trans (resumed_registersOf c c' 0x80 0 v), hstack⟩

end Return

end Munux.Interrupts
