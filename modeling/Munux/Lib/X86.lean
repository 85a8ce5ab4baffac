import Mathlib.Logic.Function.Basic
import Munux.Lib.ByteMem

/-!
# A fragment of the 32-bit x86

The instructions that straight-line kernel assembly is made of: moves between registers, memory and
the control register, the flag register on the stack, a comparison, and jumps. Registers are 32-bit
words; memory is flat, as the kernel sees it through directories that map it alike.

`run` executes a list of instructions. A short jump skips the instructions it jumps over, so code
without loops needs no program counter; `eip` is written by the jump that leaves the code.
-/

namespace Munux.X86

/-- The general-purpose registers. -/
inductive Reg where
  | eax
  | ebx
  | ecx
  | edx
  | esi
  | edi
  | ebp
  | esp
  deriving DecidableEq, Repr

/-- The state of the processor and the memory it sees. -/
structure Cpu where
  reg : Reg → UInt32
  eip : UInt32
  eflags : UInt32
  cr3 : UInt32
  mem : ByteMem

/-- The instructions; `[base + off]` is a 32-bit memory operand. -/
inductive Instr where
  | load (dst base : Reg) (off : UInt32)
  | store (base : Reg) (off : UInt32) (src : Reg)
  | storeImm (base : Reg) (off v : UInt32)
  | pushfd
  | popfd
  | pop (dst : Reg)
  | pushMem (base : Reg) (off : UInt32)
  | readCr3 (dst : Reg)
  | writeCr3 (src : Reg)
  | cmp (a b : Reg)
  | je (skip : Nat)
  | jmpMem (base : Reg) (off : UInt32)
  deriving DecidableEq, Repr

/-! ## Memory by words -/

/-- The word at `a`. -/
def word (m : ByteMem) (a : UInt32) : UInt32 := UInt32.ofNat (m.load32 a.toNat)

/-- Write the word `v` at `a`. -/
def setWord (m : ByteMem) (a v : UInt32) : ByteMem := m.store32 a.toNat v.toNat

/-- The words at `a` and `b` do not overlap. -/
def Apart (a b : UInt32) : Prop := a.toNat + 4 ≤ b.toNat ∨ b.toNat + 4 ≤ a.toNat

theorem word_setWord_self (m : ByteMem) (a v : UInt32) : word (setWord m a v) a = v := by
  rw [word, setWord, ByteMem.load32_store32 _ _ v.toNat_lt, UInt32.ofNat_toNat]

theorem word_setWord_of_apart (m : ByteMem) {a b : UInt32} (v : UInt32) (h : Apart a b) :
    word (setWord m a v) b = word m b := by
  rw [word, setWord, ByteMem.load32_store32_of_disjoint m _ h.symm, word]

theorem setWord_of_outside (m : ByteMem) {a : UInt32} (v : UInt32) {i : Nat}
    (h : i < a.toNat ∨ a.toNat + 4 ≤ i) : setWord m a v i = m i :=
  ByteMem.store32_agree m a.toNat v.toNat (by omega : i + 1 ≤ a.toNat ∨ a.toNat + 4 ≤ i) i
    (Nat.le_refl i) (Nat.lt_succ_self i)

/-! ## Flags -/

/-- The flag at position `k`. -/
def flag (k : Nat) (b : Bool) : Nat := if b then 2 ^ k else 0

/-- The flags after comparing `a` with `b`: carry, parity, adjust, zero, sign, overflow. -/
def cmpFlags (flags a b : UInt32) : UInt32 :=
  let d := a - b
  let negative (x : UInt32) : Bool := x.toNat.testBit 31
  UInt32.ofNat (flags.toNat &&& 0xFFFFF72A |||
    (flag 0 (a < b) |||
      flag 2 (((List.range 8).countP fun i => d.toNat.testBit i) % 2 == 0) |||
      flag 4 (a.toNat % 16 < b.toNat % 16) |||
      flag 6 (a == b) |||
      flag 7 (negative d) |||
      flag 11 (negative a != negative b && negative d != negative a)))

/-- The zero flag. -/
def zero (flags : UInt32) : Bool := flags.toNat.testBit 6

/-- What `pushfd` puts on the stack: the flags without `VM` and `RF`. -/
def flagsImage (flags : UInt32) : UInt32 := flags &&& 0x00FCFFFF

/-! ## Execution -/

namespace Cpu

def setReg (c : Cpu) (r : Reg) (v : UInt32) : Cpu := { c with reg := Function.update c.reg r v }

def push (c : Cpu) (v : UInt32) : Cpu :=
  { c.setReg .esp (c.reg .esp - 4) with mem := setWord c.mem (c.reg .esp - 4) v }

/-- One instruction, and how many of the following ones it jumps over. -/
def step (c : Cpu) : Instr → Cpu × Nat
  | .load dst base off => (c.setReg dst (word c.mem (c.reg base + off)), 0)
  | .store base off src => ({ c with mem := setWord c.mem (c.reg base + off) (c.reg src) }, 0)
  | .storeImm base off v => ({ c with mem := setWord c.mem (c.reg base + off) v }, 0)
  | .pushfd => (c.push (flagsImage c.eflags), 0)
  | .popfd =>
      ({ c.setReg .esp (c.reg .esp + 4) with eflags := word c.mem (c.reg .esp) }, 0)
  | .pop dst => ((c.setReg .esp (c.reg .esp + 4)).setReg dst (word c.mem (c.reg .esp)), 0)
  | .pushMem base off => (c.push (word c.mem (c.reg base + off)), 0)
  | .readCr3 dst => (c.setReg dst c.cr3, 0)
  | .writeCr3 src => ({ c with cr3 := c.reg src }, 0)
  | .cmp a b => ({ c with eflags := cmpFlags c.eflags (c.reg a) (c.reg b) }, 0)
  | .je skip => (c, if zero c.eflags then skip else 0)
  | .jmpMem base off => ({ c with eip := word c.mem (c.reg base + off) }, 0)

/-- Execute `code`, after jumping over its first `skip` instructions. -/
def run : List Instr → Nat → Cpu → Cpu
  | [], _, c => c
  | _ :: code, skip + 1, c => run code skip c
  | i :: code, 0, c => run code (c.step i).2 (c.step i).1

end Cpu

theorem testBit_flag (k j : Nat) (b : Bool) : (flag k b).testBit j = (b && decide (k = j)) := by
  cases b <;> simp [flag, Nat.testBit_two_pow]

/-- After a comparison the zero flag says whether the operands were equal. -/
theorem zero_cmpFlags (flags a b : UInt32) : zero (cmpFlags flags a b) = (a == b) := by
  have hmask : Nat.testBit 0xFFFFF72A 6 = false := by decide
  unfold zero cmpFlags
  rw [UInt32.toNat_ofNat', Nat.testBit_mod_two_pow]
  simp [Nat.testBit_or, Nat.testBit_and, testBit_flag, hmask]

end Munux.X86
