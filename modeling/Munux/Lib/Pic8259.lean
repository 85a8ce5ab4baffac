import Mathlib.Data.Fintype.Basic
import Mathlib.Data.Nat.Bitwise
import Mathlib.Logic.Function.Basic

/-!
# Two cascaded 8259 interrupt controllers

A chip has eight request lines. It raises its output for the request of highest priority (the lowest
line) that is not masked, unless one of at least that priority is in service. The acknowledgement
moves the request into the in-service register; when no request is left by then, the chip answers
with line 7 and its registers are unchanged: the interrupt is *spurious*.

The second chip sits on line 2 of the first. `Pair.acknowledge` is what the processor sees.

Only the commands of the initialisation sequence, the choice of the register to read and the
nonspecific end of interrupt are modelled; a chip ignores the others.
-/

namespace Munux.Pic8259

/-- A register with one bit for each line. -/
abbrev Lines := Fin 8 → Bool

/-- No bit is set. -/
def noLines : Lines := fun _ => false

/-- The bits of a byte. -/
def linesOf (v : UInt8) : Lines := fun i => v.toNat.testBit i

/-- The byte of a register. -/
def byteOf (s : Lines) : UInt8 := UInt8.ofNat (Nat.ofBits s)

/-- The set bit of highest priority. -/
def top (s : Lines) : Option (Fin 8) := (List.finRange 8).find? s

/-- The words of the initialisation sequence after the first. -/
inductive Icw where
  | offset
  | cascade
  | mode
  deriving DecidableEq, Repr

/-- One chip. -/
structure Chip where
  irr : Lines
  isr : Lines
  imr : Lines
  offset : UInt8
  /-- The in-service register is read at the command port, not the request register. -/
  readIsr : Bool
  autoEoi : Bool
  /-- What the chip expects at its data port. -/
  expected : List Icw

namespace Chip

/-- A byte at the command port: the start of the initialisation, the choice of a register, or the
end of an interrupt. -/
def writeCommand (c : Chip) (v : UInt8) : Chip :=
  let bit i := v.toNat.testBit i
  if bit 4 then
    { irr := noLines
      isr := noLines
      imr := noLines
      offset := c.offset
      readIsr := false
      autoEoi := false
      expected := [.offset] ++ (if bit 1 then [] else [.cascade]) ++ if bit 0 then [.mode] else [] }
  else if bit 3 then
    if bit 1 then { c with readIsr := bit 0 } else c
  else if v = 0x20 then
    match top c.isr with
    | some i => { c with isr := Function.update c.isr i false }
    | none => c
  else c

/-- A byte at the data port: the next word of the initialisation, or the mask. -/
def writeData (c : Chip) (v : UInt8) : Chip :=
  match c.expected with
  | .offset :: rest => { c with offset := v &&& 0xF8, expected := rest }
  | .cascade :: rest => { c with expected := rest }
  | .mode :: rest => { c with autoEoi := v.toNat.testBit 1, expected := rest }
  | [] => { c with imr := linesOf v }

def readCommand (c : Chip) : UInt8 := byteOf (if c.readIsr then c.isr else c.irr)

/-- The request that the chip signals. -/
def signalled (c : Chip) : Option (Fin 8) :=
  (top fun i => c.irr i && !c.imr i).filter fun i => ∀ j ≤ i, c.isr j = false

/-- The acknowledgement: the line that goes into service, if the interrupt is not spurious. -/
def acknowledge (c : Chip) : Chip × Option (Fin 8) :=
  match c.signalled with
  | some i =>
      ({ c with
          irr := Function.update c.irr i false
          isr := if c.autoEoi then c.isr else Function.update c.isr i true }, some i)
  | none => (c, none)

/-- The vector of line `i`, or of a spurious interrupt. -/
def vector (c : Chip) (i : Option (Fin 8)) : UInt8 := c.offset + UInt8.ofNat (i.getD (Fin.last 7))

end Chip

/-- The two chips. -/
structure Pair where
  master : Chip
  slave : Chip

namespace Pair

/-- A byte at a port. -/
def outb (p : Pair) (port v : UInt8) : Pair :=
  match port with
  | 0x20 => { p with master := p.master.writeCommand v }
  | 0x21 => { p with master := p.master.writeData v }
  | 0xA0 => { p with slave := p.slave.writeCommand v }
  | 0xA1 => { p with slave := p.slave.writeData v }
  | _ => p

/-- What a port reads; nothing drives the bus at ports that are not the chips'. -/
def inb (p : Pair) (port : UInt8) : UInt8 :=
  match port with
  | 0x20 => p.master.readCommand
  | 0x21 => byteOf p.master.imr
  | 0xA0 => p.slave.readCommand
  | 0xA1 => byteOf p.slave.imr
  | _ => 0xFF

/-- The processor's acknowledgement: the vector, and whether a request was there. -/
def acknowledge (p : Pair) : Pair × UInt8 × Bool :=
  let (master, i) := p.master.acknowledge
  if i.map Fin.val = some 2 then
    let (slave, k) := p.slave.acknowledge
    (⟨master, slave⟩, slave.vector k, k.isSome)
  else (⟨master, p.slave⟩, master.vector i, i.isSome)

end Pair

/-! ## Registers -/

section Registers

variable {s : Lines} {c : Chip} {i j : Fin 8}

@[simp] theorem top_noLines : top noLines = none := by decide

theorem top_eq_some (h : top s = some i) : s i = true := List.find?_some h

/-- Bit `i` of the register in its byte. -/
theorem testBit_byteOf (s : Lines) (i : Fin 8) : (byteOf s).toNat.testBit i = s i := by
  rw [byteOf, UInt8.toNat_ofNat', Nat.mod_eq_of_lt (Nat.ofBits_lt_two_pow s),
    Nat.testBit_ofBits_lt s i i.isLt]

/-- What `v & 0x80` tests. -/
theorem and_0x80 (v : UInt8) : v &&& 0x80 = 0 ↔ v.toNat.testBit 7 = false := by
  have hand : (v &&& 0x80).toNat = (v.toNat.testBit 7).toNat * 2 ^ 7 := by
    rw [UInt8.toNat_and]
    exact Nat.and_two_pow v.toNat 7
  rw [← UInt8.toNat_inj, hand]
  cases v.toNat.testBit 7 <;> decide

end Registers

/-! ## Commands -/

namespace Chip

variable {c c' : Chip} {i : Fin 8} {k : Option (Fin 8)}

/-- The nonspecific end of interrupt. -/
theorem writeCommand_eoi (c : Chip) :
    c.writeCommand 0x20 =
      match top c.isr with
      | some i => { c with isr := Function.update c.isr i false }
      | none => c := rfl

/-- The in-service bit of line 7. -/
theorem readIsr_and_0x80 (h : c.readIsr = true) : c.readCommand &&& 0x80 = 0 ↔ c.isr 7 = false := by
  rw [and_0x80, readCommand, if_pos h, ← testBit_byteOf c.isr 7]
  rfl

/-- After the initialisation the data port sets the mask. -/
theorem writeData_mask (h : c.expected = []) (v : UInt8) :
    c.writeData v = { c with imr := linesOf v } := by
  rw [writeData, h]

@[simp] theorem writeCommand_eoi_imr (c : Chip) : (c.writeCommand 0x20).imr = c.imr := by
  rw [writeCommand_eoi]
  split <;> rfl

/-- **A real request** was there and not masked, and goes into service. -/
theorem acknowledge_some (hauto : c.autoEoi = false) (h : c.acknowledge = (c', some i)) :
    c.irr i = true ∧ c.imr i = false ∧
      c' = { c with
        irr := Function.update c.irr i false
        isr := Function.update c.isr i true } := by
  unfold acknowledge at h
  split at h
  case h_2 => simp at h
  case h_1 j hj =>
    obtain ⟨rfl, hji⟩ := Prod.mk.injEq .. ▸ h
    obtain rfl := Option.some.inj hji
    have htop := top_eq_some (Option.filter_eq_some_iff.1 hj).1
    rw [Bool.and_eq_true, Bool.not_eq_true'] at htop
    refine ⟨htop.1, htop.2, ?_⟩
    rw [hauto]
    rfl

/-- A spurious interrupt changes nothing. -/
theorem acknowledge_none (h : c.acknowledge = (c', none)) : c' = c := by
  unfold acknowledge at h
  split at h
  · simp at h
  · exact (Prod.mk.inj h).1.symm

@[simp] theorem acknowledge_imr (c : Chip) : c.acknowledge.1.imr = c.imr := by
  unfold acknowledge
  split <;> rfl

end Chip

/-! ## A chip in use -/

/-- A chip that is initialised for vectors from `offset` on, with the lines of `s` in service. -/
structure Serves (c : Chip) (offset : UInt8) (s : Lines) : Prop where
  isr : c.isr = s
  offset : c.offset = offset
  autoEoi : c.autoEoi = false
  expected : c.expected = []

/-- The only line. -/
abbrev only (i : Fin 8) : Lines := Function.update noLines i true

namespace Serves

variable {c c' : Chip} {offset : UInt8} {s : Lines} {i : Fin 8}

/-- The choice of the register to read leaves the service alone. -/
theorem select (h : Serves c offset s) : Serves (c.writeCommand 0x0B) offset s :=
  ⟨h.isr, h.offset, h.autoEoi, h.expected⟩

theorem lines (h : Serves c offset s) (irr : Lines) : Serves { c with irr := irr } offset s :=
  ⟨h.isr, h.offset, h.autoEoi, h.expected⟩

theorem mask (h : Serves c offset s) (v : UInt8) : Serves (c.writeData v) offset s := by
  rw [Chip.writeData_mask h.expected]
  exact ⟨h.isr, h.offset, h.autoEoi, h.expected⟩

theorem acknowledge (h : Serves c offset s) (hack : c.acknowledge = (c', some i)) :
    Serves c' offset (Function.update s i true) := by
  obtain ⟨-, -, rfl⟩ := Chip.acknowledge_some h.autoEoi hack
  refine ⟨?_, h.offset, h.autoEoi, h.expected⟩
  rw [h.isr]

/-- What `irq_handler` reads to find out whether line 7 is in service. -/
theorem readCommand (h : Serves c offset s) :
    (c.writeCommand 0x0B).readCommand &&& 0x80 = 0 ↔ s 7 = false := by
  rw [Chip.readIsr_and_0x80 rfl, h.select.isr]

/-- or of none, -/
theorem eoi_noLines (h : Serves c offset noLines) : Serves (c.writeCommand 0x20) offset noLines := by
  rw [Chip.writeCommand_eoi, h.isr, top_noLines]
  exact h

/-- or of one of several. -/
theorem eoi (h : Serves c offset s) :
    ∃ s', Serves (c.writeCommand 0x20) offset s' ∧ ∀ i, s' i = true → s i = true := by
  rw [Chip.writeCommand_eoi, h.isr]
  cases top s with
  | none => exact ⟨s, h, fun _ hi => hi⟩
  | some j =>
      refine ⟨Function.update s j false, ⟨rfl, h.offset, h.autoEoi, h.expected⟩, fun i hi => ?_⟩
      by_cases hij : i = j
      · rw [hij, Function.update_self] at hi
        cases hi
      · rwa [Function.update_of_ne hij] at hi

end Serves

/-- **What the processor sees:** a request of one of the two chips, or a spurious interrupt from one
of them. -/
theorem Pair.acknowledge_cases (p : Pair) :
    (∃ c, p.master.acknowledge = (c, none) ∧
      p.acknowledge = (⟨c, p.slave⟩, c.offset + 7, false)) ∨
    (∃ c i, i ≠ 2 ∧ p.master.acknowledge = (c, some i) ∧
      p.acknowledge = (⟨c, p.slave⟩, c.offset + UInt8.ofNat i, true)) ∨
    (∃ c s, p.master.acknowledge = (c, some 2) ∧ p.slave.acknowledge = (s, none) ∧
      p.acknowledge = (⟨c, s⟩, s.offset + 7, false)) ∨
    ∃ c s k, p.master.acknowledge = (c, some 2) ∧ p.slave.acknowledge = (s, some k) ∧
      p.acknowledge = (⟨c, s⟩, s.offset + UInt8.ofNat k, true) := by
  unfold Pair.acknowledge
  cases hm : p.master.acknowledge with
  | mk c i =>
    cases i with
    | none => exact .inl ⟨c, rfl, rfl⟩
    | some i =>
      by_cases hi : i = 2
      · subst hi
        cases hs : p.slave.acknowledge with
        | mk s k =>
          cases k with
          | none => exact .inr (.inr (.inl ⟨c, s, rfl, rfl, rfl⟩))
          | some k => exact .inr (.inr (.inr ⟨c, s, k, rfl, rfl, rfl⟩))
      · refine .inr (.inl ⟨c, i, hi, rfl, ?_⟩)
        have hval : i.val ≠ 2 := fun h => hi (Fin.ext h)
        simp [hval, Chip.vector]

end Munux.Pic8259
