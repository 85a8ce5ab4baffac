import Munux.Lib.X86

/-!
# Stacks and traps

The stack of an x86 as a list of words, and the instructions that trap handlers are made of: they
move all registers to the stack and back, load the segment registers, and return with `iret`.

* `Holds m esp ws`: the words from `esp` up are `ws`. A push adds a word in front (`Holds.push`), a
  pop takes it off (`Holds.word`, `Holds.pop`), and nothing below `esp` matters.
* `Core`: the processor with its segment registers. `Core.deliver` is what it does on an interrupt:
  the flags, the code segment and the return address go to the stack, an error code after them for
  some exceptions, and interrupts are off behind the gate.
-/

namespace Munux.X86

/-! ## Stacks -/

/-- The words from `esp` up are `ws`. -/
structure Holds (m : ByteMem) (esp : UInt32) (ws : List UInt32) : Prop where
  fits : esp.toNat + 4 * ws.length ≤ 2 ^ 32
  load : ∀ i, (h : i < ws.length) → m.load32 (esp.toNat + 4 * i) = ws[i].toNat

section Stack

variable {m m' : ByteMem} {esp v : UInt32} {ws xs : List UInt32}

theorem holds_nil (m : ByteMem) (esp : UInt32) : Holds m esp [] :=
  ⟨esp.toNat_lt.le, fun _ hi => absurd hi (Nat.not_lt_zero _)⟩

theorem toNat_sub_four (h : 4 ≤ esp.toNat) : (esp - 4).toNat = esp.toNat - 4 := by
  have hlt := esp.toNat_lt
  have h4 : (4 : UInt32).toNat = 4 := rfl
  rw [UInt32.toNat_sub]
  omega

/-- A stack is where it was when its bytes are. -/
theorem Holds.congr (h : Holds m esp ws)
    (hag : m.Agree m' esp.toNat (esp.toNat + 4 * ws.length)) : Holds m' esp ws := by
  refine ⟨h.fits, fun i hi => ?_⟩
  rw [ByteMem.load32_congr (hag.mono (by omega) (by omega)), h.load i hi]

/-- The top of a stack. -/
theorem Holds.top (h : Holds m esp (xs ++ ws)) : Holds m esp xs := by
  have hfits := h.fits
  rw [List.length_append] at hfits
  refine ⟨by omega, fun i hi => ?_⟩
  rw [h.load i (by rw [List.length_append]; omega), List.getElem_append_left hi]

/-- **Push.** -/
theorem Holds.push (h : Holds m esp ws) (hroom : 4 ≤ esp.toNat) (v : UInt32) :
    Holds (setWord m (esp - 4) v) (esp - 4) (v :: ws) := by
  have hsub := toNat_sub_four hroom
  have hfits := h.fits
  constructor
  · rw [hsub, List.length_cons]
    omega
  · intro i hi
    rw [setWord, hsub]
    cases i with
    | zero => exact ByteMem.load32_store32 m _ v.toNat_lt
    | succ i =>
        rw [ByteMem.load32_store32_of_disjoint _ _ (by omega), List.getElem_cons_succ,
          ← h.load i (Nat.lt_of_succ_lt_succ hi)]
        congr 1
        omega

/-- The word in place `i`. -/
theorem Holds.word (h : Holds m esp ws) (i : Nat) (hi : i < ws.length) :
    X86.word m (esp + UInt32.ofNat (4 * i)) = ws[i] := by
  have hfits := h.fits
  have hadd : (esp + UInt32.ofNat (4 * i)).toNat = esp.toNat + 4 * i := by
    rw [UInt32.toNat_add, UInt32.toNat_ofNat']
    omega
  rw [X86.word, hadd, h.load i hi, UInt32.ofNat_toNat]

/-- **Pop,** one word or several. -/
theorem Holds.drop (xs : List UInt32) (h : Holds m esp (xs ++ ws)) :
    Holds m (esp + UInt32.ofNat (4 * xs.length)) ws := by
  have hfits := h.fits
  rw [List.length_append] at hfits
  cases ws with
  | nil => exact holds_nil _ _
  | cons w ws =>
      rw [List.length_cons] at hfits
      have hadd : (esp + UInt32.ofNat (4 * xs.length)).toNat = esp.toNat + 4 * xs.length := by
        rw [UInt32.toNat_add, UInt32.toNat_ofNat']
        omega
      constructor
      · rw [hadd, List.length_cons]
        omega
      · intro i hi
        rw [hadd, Nat.add_assoc, ← Nat.mul_add,
          h.load (xs.length + i) (by rw [List.length_append]; omega),
          List.getElem_append_right (Nat.le_add_right _ _)]
        simp only [Nat.add_sub_cancel_left]

theorem Holds.pop (h : Holds m esp (v :: ws)) : X86.word m esp = v ∧ Holds m (esp + 4) ws := by
  refine ⟨?_, Holds.drop [v] h⟩
  have hword := h.word 0 (Nat.zero_lt_succ _)
  rwa [Nat.mul_zero, show UInt32.ofNat 0 = 0 from rfl, UInt32.add_zero] at hword

/-- The stack one word further down, whatever that word is. -/
theorem Holds.below (h : Holds m (esp + 4) ws) (hfits : esp.toNat + 4 < 2 ^ 32) :
    Holds m esp (X86.word m esp :: ws) := by
  have hadd : (esp + 4).toNat = esp.toNat + 4 := by
    rw [UInt32.toNat_add, show (4 : UInt32).toNat = 4 from rfl, Nat.mod_eq_of_lt hfits]
  have hrest := h.fits
  rw [hadd] at hrest
  constructor
  · rw [List.length_cons]
    omega
  · intro i hi
    cases i with
    | zero => exact (UInt32.toNat_ofNat_of_lt' (ByteMem.load32_lt m _)).symm
    | succ i =>
        rw [List.getElem_cons_succ, ← h.load i (Nat.lt_of_succ_lt_succ hi), hadd]
        congr 1
        omega

/-- Another word in place `i`. -/
theorem Holds.set (h : Holds m esp ws) (i : Nat) (hi : i < ws.length) (v : UInt32) :
    Holds (setWord m (esp + UInt32.ofNat (4 * i)) v) esp (ws.set i v) := by
  have hfits := h.fits
  have hadd : (esp + UInt32.ofNat (4 * i)).toNat = esp.toNat + 4 * i := by
    rw [UInt32.toNat_add, UInt32.toNat_ofNat']
    omega
  refine ⟨by rwa [List.length_set], fun j hj => ?_⟩
  rw [List.length_set] at hj
  rw [setWord, hadd, List.getElem_set]
  split_ifs with hij
  · rw [← hij, ByteMem.load32_store32 _ _ v.toNat_lt]
  · rw [ByteMem.load32_store32_of_disjoint _ _ (by omega), h.load j hj]

end Stack

/-! ## The processor -/

/-- The segment registers that trap handlers name. -/
inductive SegReg where
  | cs
  | ds
  | es
  | fs
  | gs
  deriving DecidableEq, Repr

/-- The processor with its segment registers. -/
@[ext]
structure Core extends Cpu where
  seg : SegReg → UInt16

/-- The instructions of trap handlers. The registers of `push` and `pop` are 32 bits wide, and `ax`
is the low half of `eax`. -/
inductive Trap where
  | cli
  | sti
  | pushByte (v : UInt8)
  | pushDword (v : UInt32)
  | pushReg (r : Reg)
  | popReg (r : Reg)
  | pusha
  | popa
  | movAxSeg (s : SegReg)
  | movAxImm (v : UInt16)
  | movSegAx (s : SegReg)
  | addEsp (v : UInt32)
  | iret
  deriving DecidableEq, Repr

/-- The interrupt flag in a flags word. -/
def interruptBit : UInt32 := 0x200

/-- What `push byte` makes of its operand: the sign is extended. -/
def extendByte (v : UInt8) : UInt32 := if v < 0x80 then v.toUInt32 else v.toUInt32 ||| 0xFFFFFF00

/-- `eax` with another low half. -/
def withLow (eax : UInt32) (ax : UInt16) : UInt32 := eax &&& 0xFFFF0000 ||| ax.toUInt32

@[simp] theorem toUInt16_withLow (eax : UInt32) (ax : UInt16) : (withLow eax ax).toUInt16 = ax := by
  rw [← UInt16.toBitVec_inj]
  ext i hi
  simp [withLow]

/-- The flags after adding `a` and `b`: carry, parity, adjust, zero, sign, overflow. -/
def addFlags (flags a b : UInt32) : UInt32 :=
  let d := a + b
  let negative (x : UInt32) : Bool := x.toNat.testBit 31
  UInt32.ofNat (flags.toNat &&& 0xFFFFF72A |||
    (flag 0 (2 ^ 32 ≤ a.toNat + b.toNat) |||
      flag 2 (((List.range 8).countP fun i => d.toNat.testBit i) % 2 == 0) |||
      flag 4 (16 ≤ a.toNat % 16 + b.toNat % 16) |||
      flag 6 (d == 0) |||
      flag 7 (negative d) |||
      flag 11 (negative a == negative b && negative d != negative a)))

namespace Core

def push (c : Core) (v : UInt32) : Core := { c with toCpu := c.toCpu.push v }

def setReg (c : Core) (r : Reg) (v : UInt32) : Core := { c with toCpu := c.toCpu.setReg r v }

/-- Push several words, the first one first. -/
def pushAll (c : Core) (vs : List UInt32) : Core := vs.foldl push c

/-- The registers in the order in which `pusha` pushes them. -/
def generalRegs : List Reg := [.eax, .ecx, .edx, .ebx, .esp, .ebp, .esi, .edi]

/-- `popa`: `esp` is not loaded from the stack. -/
def popa (c : Core) : Core :=
  let esp := c.reg .esp
  { c with
    reg := fun
      | .edi => word c.mem esp
      | .esi => word c.mem (esp + 4)
      | .ebp => word c.mem (esp + 8)
      | .ebx => word c.mem (esp + 16)
      | .edx => word c.mem (esp + 20)
      | .ecx => word c.mem (esp + 24)
      | .eax => word c.mem (esp + 28)
      | .esp => esp + 32 }

/-- `iret`, to code of the same privilege. -/
def iret (c : Core) : Core :=
  let esp := c.reg .esp
  { c.setReg .esp (esp + 12) with
    eip := word c.mem esp
    eflags := word c.mem (esp + 8)
    seg := Function.update c.seg .cs (word c.mem (esp + 4)).toUInt16 }

/-- One instruction. -/
def step (c : Core) : Trap → Core
  | .cli => { c with eflags := c.eflags &&& ~~~interruptBit }
  | .sti => { c with eflags := c.eflags ||| interruptBit }
  | .pushByte v => c.push (extendByte v)
  | .pushDword v => c.push v
  | .pushReg r => c.push (c.reg r)
  | .popReg r => (c.setReg .esp (c.reg .esp + 4)).setReg r (word c.mem (c.reg .esp))
  | .pusha => c.pushAll (generalRegs.map c.reg)
  | .popa => c.popa
  | .movAxSeg s => c.setReg .eax (withLow (c.reg .eax) (c.seg s))
  | .movAxImm v => c.setReg .eax (withLow (c.reg .eax) v)
  | .movSegAx s => { c with seg := Function.update c.seg s (c.reg .eax).toUInt16 }
  | .addEsp v =>
      { c.setReg .esp (c.reg .esp + v) with eflags := addFlags c.eflags (c.reg .esp) v }
  | .iret => c.iret

/-- Execute `code`. -/
def exec (c : Core) (code : List Trap) : Core := code.foldl step c

/-- The exceptions with an error code, by the manuals of the processors. Vectors 21 and 29 have one
too, but only come from features that have to be switched on (`#CP`, `#VC`). -/
def pushesErrorCode (n : UInt8) : Bool :=
  match n with
  | 8 => true -- `#DF`
  | 10 | 11 | 12 | 13 | 14 => true -- `#TS`, `#NP`, `#SS`, `#GP`, `#PF`
  | 17 => true -- `#AC`
  | 30 => true -- `#SX`
  | _ => false

/-- An interrupt through an interrupt gate, without a change of privilege. Some exceptions push an
error code. Of the flags, the gate clears `IF`, `TF`, `NT`, `RF` and `VM`. -/
def deliver (c : Core) (offset : UInt32) (selector : UInt16) (error : Option UInt32) : Core :=
  let c' := c.pushAll ([c.eflags, (c.seg .cs).toUInt32, c.eip] ++ error.toList)
  { c' with
    eip := offset
    eflags := c.eflags &&& ~~~0x34300
    seg := Function.update c.seg .cs selector }

section Push

variable {c : Core} {v : UInt32} {vs ws : List UInt32} {r : Reg}

@[simp] theorem push_mem : (c.push v).mem = setWord c.mem (c.reg .esp - 4) v := rfl
@[simp] theorem push_esp : (c.push v).reg .esp = c.reg .esp - 4 := rfl
@[simp] theorem push_eip : (c.push v).eip = c.eip := rfl
@[simp] theorem push_eflags : (c.push v).eflags = c.eflags := rfl
@[simp] theorem push_cr3 : (c.push v).cr3 = c.cr3 := rfl
@[simp] theorem push_seg : (c.push v).seg = c.seg := rfl

theorem push_reg (hr : r ≠ .esp) : (c.push v).reg r = c.reg r := Function.update_of_ne hr ..

@[simp] theorem setReg_mem : (c.setReg r v).mem = c.mem := rfl
@[simp] theorem setReg_eip : (c.setReg r v).eip = c.eip := rfl
@[simp] theorem setReg_eflags : (c.setReg r v).eflags = c.eflags := rfl
@[simp] theorem setReg_cr3 : (c.setReg r v).cr3 = c.cr3 := rfl
@[simp] theorem setReg_seg : (c.setReg r v).seg = c.seg := rfl
@[simp] theorem setReg_reg_self : (c.setReg r v).reg r = v := Function.update_self ..

@[simp] theorem setReg_reg_of_ne {r' : Reg} (hr : r' ≠ r) : (c.setReg r v).reg r' = c.reg r' :=
  Function.update_of_ne hr ..

@[simp] theorem setReg_self (c : Core) (r : Reg) : c.setReg r (c.reg r) = c := by
  rw [setReg, Cpu.setReg, Function.update_eq_self]

@[simp] theorem exec_nil : c.exec [] = c := rfl

@[simp] theorem exec_cons (i : Trap) (code : List Trap) :
    c.exec (i :: code) = (c.step i).exec code := rfl

theorem exec_append (code code' : List Trap) :
    c.exec (code ++ code') = (c.exec code).exec code' :=
  List.foldl_append

theorem pushAll_cons (vs : List UInt32) : c.pushAll (v :: vs) = (c.push v).pushAll vs := rfl

theorem pushAll_reg (vs : List UInt32) (hr : r ≠ .esp) : (c.pushAll vs).reg r = c.reg r := by
  induction vs generalizing c with
  | nil => rfl
  | cons v vs ih => rw [pushAll_cons, ih, push_reg hr]

@[simp] theorem pushAll_seg (vs : List UInt32) : (c.pushAll vs).seg = c.seg := by
  induction vs generalizing c with
  | nil => rfl
  | cons v vs ih => rw [pushAll_cons, ih, push_seg]

@[simp] theorem pushAll_eflags (vs : List UInt32) : (c.pushAll vs).eflags = c.eflags := by
  induction vs generalizing c with
  | nil => rfl
  | cons v vs ih => rw [pushAll_cons, ih, push_eflags]

end Push

/-- `c'` comes from `c` by pushing `vs`, whose head is the word pushed last, on the stack `ws`. -/
structure Pushed (c c' : Core) (vs ws : List UInt32) : Prop where
  esp : (c'.reg .esp).toNat + 4 * vs.length = (c.reg .esp).toNat
  stack : Holds c'.mem (c'.reg .esp) (vs ++ ws)
  mem : c.mem.SameOutside c'.mem (c'.reg .esp).toNat (c.reg .esp).toNat
  cr3 : c'.cr3 = c.cr3

namespace Pushed

variable {c c' c'' : Core} {us vs ws : List UInt32}

theorem refl (h : Holds c.mem (c.reg .esp) ws) : Pushed c c [] ws :=
  ⟨rfl, h, fun _ _ => rfl, rfl⟩

theorem esp_eq (h : Pushed c c' vs ws) :
    c'.reg .esp = c.reg .esp - UInt32.ofNat (4 * vs.length) := by
  have hesp := h.esp
  have hlt := (c.reg .esp).toNat_lt
  rw [← UInt32.toNat_inj, UInt32.toNat_sub, UInt32.toNat_ofNat']
  omega

/-- Instructions that write neither memory nor `esp` push nothing. -/
theorem congr (h : Pushed c c' vs ws) (hmem : c''.mem = c'.mem) (hesp : c''.reg .esp = c'.reg .esp)
    (hcr3 : c''.cr3 = c'.cr3) : Pushed c c'' vs ws where
  esp := by rw [hesp, h.esp]
  stack := by rw [hmem, hesp]; exact h.stack
  mem := by rw [hmem, hesp]; exact h.mem
  cr3 := hcr3.trans h.cr3

theorem push (h : Pushed c c' vs ws) (hroom : 4 * (vs.length + 1) ≤ (c.reg .esp).toNat)
    (v : UInt32) : Pushed c (c'.push v) (v :: vs) ws := by
  have hesp := h.esp
  have hsub : (c'.reg .esp - 4).toNat = (c'.reg .esp).toNat - 4 := toNat_sub_four (by omega)
  refine ⟨?_, h.stack.push (by omega) v, ?_, h.cr3⟩
  · rw [push_esp, hsub, List.length_cons]
    omega
  · rw [push_mem, push_esp]
    refine ByteMem.SameOutside.trans (h.mem.mono (by omega) le_rfl) ?_
    exact ByteMem.store32_sameOutside _ _ _ le_rfl (by omega)

/-- **Several pushes.** -/
theorem pushAll (us : List UInt32) (h : Pushed c c' vs ws)
    (hroom : 4 * (vs.length + us.length) ≤ (c.reg .esp).toNat) :
    Pushed c (c'.pushAll us) (us.reverse ++ vs) ws := by
  induction us generalizing c' vs with
  | nil => exact h
  | cons u us ih =>
      rw [List.length_cons] at hroom
      rw [pushAll_cons, List.reverse_cons, List.append_assoc]
      refine ih (h.push (by omega) u) ?_
      rw [List.singleton_append, List.length_cons]
      omega

end Pushed

end Core

end Munux.X86
