import Munux.Interrupts.Stubs

/-!
# The interrupt descriptor table

`idt_init` and `idt_set_gate` of `kernel/interrupts/idt.c`, and what the processor makes of the
table: on vector `n` it reads eight bytes at `base + 8 * n`, within the limit, and takes the gate in
them if it is present.

The offset of a gate is in two halves at its two ends. The other 207 entries are zero, so they are
not present; an `int` needs a gate whose privilege level is no lower than its own, so that code in
ring 3 can enter the kernel by `int 0x80` alone (`idt_gates`).
-/

namespace Munux.Interrupts

/-- `struct idt_entry`, packed. -/
structure IdtEntry where
  baseLow : UInt16
  selector : UInt16
  always0 : UInt8
  flags : UInt8
  baseHigh : UInt16
  deriving DecidableEq, Repr

/-- The bytes of an entry, in the order of its fields. -/
def IdtEntry.bytes (e : IdtEntry) : List UInt8 :=
  [e.baseLow.toUInt8, (e.baseLow >>> 8).toUInt8, e.selector.toUInt8, (e.selector >>> 8).toUInt8,
    e.always0, e.flags, e.baseHigh.toUInt8, (e.baseHigh >>> 8).toUInt8]

/-- `idt_entries`. -/
abbrev IdtEntries := UInt8 → IdtEntry

/-- `struct idt_ptr`. -/
structure IdtPtr where
  limit : UInt16
  base : UInt32
  deriving DecidableEq, Repr

def idtSetGate (t : IdtEntries) (num : UInt8) (base : UInt32) (sel : UInt16) (flags : UInt8) :
    IdtEntries :=
  Function.update t num
    { baseLow := (base &&& 0xFFFF).toUInt16
      selector := sel
      always0 := 0
      flags := flags
      baseHigh := ((base >>> 16) &&& 0xFFFF).toUInt16 }

/-- The table before `idt_init`: the array is initialised with zeros. -/
def noGates : IdtEntries := fun _ => ⟨0, 0, 0, 0, 0⟩

/-- The gates that `idt_init` sets: `isr` and `irq` stubs in order, then the one for system calls.
The stub of vector `n` is at `entryPoint n`. -/
def idtInit (entryPoint : UInt8 → UInt32) : IdtEntries :=
  let t := (List.range 48).foldl
    (fun t n => idtSetGate t (UInt8.ofNat n) (entryPoint (UInt8.ofNat n)) 0x08 0x8E) noGates
  idtSetGate t 0x80 (entryPoint 0x80) 0x08 0xEE

/-- The operand of `lidt`. -/
def idtPtr (base : UInt32) : IdtPtr := ⟨8 * 256 - 1, base⟩

/-! ## The processor's view -/

/-- An interrupt gate. -/
structure Gate where
  offset : UInt32
  selector : UInt16
  dpl : Nat
  deriving DecidableEq, Repr

/-- The interrupt gate in the two words `low` and `high`: its attribute byte has the type 14 for 32
bits, the privilege level in bits 5 and 6, and the present bit. -/
def decodeGate (low high : Nat) : Option Gate :=
  let attr := high / 2 ^ 8 % 2 ^ 8
  if attr.testBit 7 ∧ attr % 2 ^ 5 = 14 then
    some ⟨UInt32.ofNat (low % 2 ^ 16 + high / 2 ^ 16 * 2 ^ 16), UInt16.ofNat (low / 2 ^ 16),
      attr / 2 ^ 5 % 4⟩
  else none

/-- The gate of vector `n`, if there is one. -/
def gateOf (m : ByteMem) (ptr : IdtPtr) (n : UInt8) : Option Gate :=
  if 8 * n.toNat + 7 ≤ ptr.limit.toNat then
    decodeGate (m.load32 (ptr.base.toNat + 8 * n.toNat)) (m.load32 (ptr.base.toNat + 8 * n.toNat + 4))
  else none

/-- The gate through which code in ring `cpl` enters the kernel by `int n`. -/
def intGate (m : ByteMem) (ptr : IdtPtr) (cpl : Nat) (n : UInt8) : Option Gate :=
  (gateOf m ptr n).filter fun g => cpl ≤ g.dpl

/-- The bytes of the table are in memory from `base` on. -/
def Stored (m : ByteMem) (base : Nat) (t : IdtEntries) : Prop :=
  ∀ n : UInt8, ∀ i, (h : i < 8) → m (base + 8 * n.toNat + i) = (t n).bytes.get ⟨i, h⟩

section Gates

variable {m : ByteMem} {base : UInt32} {n : UInt8} {t : IdtEntries} {cpl : Nat}
  {entryPoint : UInt8 → UInt32}

/-- A 16-bit field is its two bytes. -/
theorem toNat_bytes (x : UInt16) :
    x.toUInt8.toNat + 2 ^ 8 * (x >>> 8).toUInt8.toNat = x.toNat := by
  have hlt := x.toNat_lt
  have h8 : (8 : UInt16).toNat % 16 = 8 := rfl
  rw [UInt16.toNat_toUInt8, UInt16.toNat_toUInt8, UInt16.toNat_shiftRight, h8,
    Nat.shiftRight_eq_div_pow]
  omega

/-- The two words of an entry. -/
theorem Stored.words (h : Stored m base.toNat t) (n : UInt8) :
    m.load32 (base.toNat + 8 * n.toNat) = (t n).baseLow.toNat + 2 ^ 16 * (t n).selector.toNat ∧
      m.load32 (base.toNat + 8 * n.toNat + 4) =
        (t n).always0.toNat + 2 ^ 8 * (t n).flags.toNat + 2 ^ 16 * (t n).baseHigh.toNat := by
  have hbyte : ∀ i, (hi : i < 8) → (m (base.toNat + 8 * n.toNat + i)).toNat =
      ((t n).bytes.get ⟨i, hi⟩).toNat := fun i hi => congrArg UInt8.toNat (h n i hi)
  have h0 := hbyte 0 (by decide)
  have h1 := hbyte 1 (by decide)
  have h2 := hbyte 2 (by decide)
  have h3 := hbyte 3 (by decide)
  have h4 := hbyte 4 (by decide)
  have h5 := hbyte 5 (by decide)
  have h6 := hbyte 6 (by decide)
  have h7 := hbyte 7 (by decide)
  simp only [IdtEntry.bytes, Nat.add_zero, List.get_eq_getElem, List.getElem_cons_zero,
    List.getElem_cons_succ] at *
  constructor
  · rw [ByteMem.load32, h0, h1, h2, h3, ← toNat_bytes (t n).baseLow, ← toNat_bytes (t n).selector]
    omega
  · rw [ByteMem.load32, h4, Nat.add_assoc _ 4 1, h5, Nat.add_assoc _ 4 2, h6, Nat.add_assoc _ 4 3,
      h7, ← toNat_bytes (t n).baseHigh]
    omega

theorem idtSetGate_self (base : UInt32) (sel : UInt16) (flags : UInt8) :
    idtSetGate t n base sel flags n = idtSetGate noGates n base sel flags n := by
  simp only [idtSetGate, Function.update_self]

theorem idtSetGate_of_ne {num : UInt8} (hn : n ≠ num) (base : UInt32) (sel : UInt16)
    (flags : UInt8) : idtSetGate t num base sel flags n = t n :=
  Function.update_of_ne hn ..

/-- The halves of an offset. -/
theorem toNat_halves (base : UInt32) :
    (base &&& 0xFFFF).toUInt16.toNat = base.toNat % 2 ^ 16 ∧
      ((base >>> 16) &&& 0xFFFF).toUInt16.toNat = base.toNat / 2 ^ 16 := by
  have hlt := base.toNat_lt
  have hmask : (0xFFFF : UInt32).toNat = 2 ^ 16 - 1 := rfl
  have h16 : (16 : UInt32).toNat % 32 = 16 := rfl
  constructor
  · rw [UInt32.toNat_toUInt16, UInt32.toNat_and, hmask, Nat.and_two_pow_sub_one_eq_mod]
    omega
  · rw [UInt32.toNat_toUInt16, UInt32.toNat_and, UInt32.toNat_shiftRight, hmask, h16,
      Nat.and_two_pow_sub_one_eq_mod, Nat.shiftRight_eq_div_pow]
    omega

/-- **Encode and decode.** The processor finds the offset and the selector that `idt_set_gate` was
given, and the privilege level of its flags. -/
theorem decodeGate_set (base : UInt32) (sel : UInt16) {flags : UInt8} {e : IdtEntry}
    (he : e = idtSetGate t n base sel flags n) (hflags : flags = 0x8E ∨ flags = 0xEE) :
    decodeGate (e.baseLow.toNat + 2 ^ 16 * e.selector.toNat)
      (e.always0.toNat + 2 ^ 8 * e.flags.toNat + 2 ^ 16 * e.baseHigh.toNat) =
        some ⟨base, sel, if flags = 0xEE then 3 else 0⟩ := by
  obtain ⟨hlow, hhigh⟩ := toNat_halves base
  have hlt := flags.toNat_lt
  have hsel : (base.toNat % 2 ^ 16 + 2 ^ 16 * sel.toNat) / 2 ^ 16 = sel.toNat := by omega
  have hoff : (base.toNat % 2 ^ 16 + 2 ^ 16 * sel.toNat) % 2 ^ 16 +
      (0 + 2 ^ 8 * flags.toNat + 2 ^ 16 * (base.toNat / 2 ^ 16)) / 2 ^ 16 * 2 ^ 16 =
        base.toNat := by
    omega
  have hattr : (0 + 2 ^ 8 * flags.toNat + 2 ^ 16 * (base.toNat / 2 ^ 16)) / 2 ^ 8 % 2 ^ 8 =
      flags.toNat := by
    omega
  rw [he, idtSetGate, Function.update_self, hlow, hhigh, UInt8.toNat_zero, decodeGate, hattr, hsel,
    hoff, UInt32.ofNat_toNat, UInt16.ofNat_toNat]
  rcases hflags with rfl | rfl <;> rfl

theorem foldl_idtSetGate (entryPoint : UInt8 → UInt32) (n : UInt8) {k : Nat} (hk : k ≤ 256) :
    (List.range k).foldl
        (fun t n => idtSetGate t (UInt8.ofNat n) (entryPoint (UInt8.ofNat n)) 0x08 0x8E) noGates n =
      if n.toNat < k then idtSetGate noGates n (entryPoint n) 0x08 0x8E n else noGates n := by
  induction k with
  | zero => rfl
  | succ k ih =>
      rw [List.range_succ, List.foldl_append, List.foldl_cons, List.foldl_nil]
      by_cases hn : n = UInt8.ofNat k
      · have hlt : n.toNat < k + 1 := by
          rw [hn, UInt8.toNat_ofNat']
          omega
        rw [if_pos hlt, ← hn, idtSetGate_self]
      · have hne : n.toNat ≠ k := fun h => hn (by rw [← h, UInt8.ofNat_toNat])
        rw [idtSetGate_of_ne hn, ih (by omega)]
        simp only [Nat.lt_succ_iff_lt_or_eq, hne, or_false]

theorem idtInit_apply (entryPoint : UInt8 → UInt32) (n : UInt8) :
    idtInit entryPoint n =
      if HasStub n then
        idtSetGate noGates n (entryPoint n) 0x08 (if n = 0x80 then 0xEE else 0x8E) n
      else noGates n := by
  by_cases hn : n = 0x80
  · rw [if_pos (.inr hn), if_pos hn, idtInit, hn, idtSetGate_self]
  · have hstub : HasStub n ↔ n.toNat < 48 := by simp [HasStub, hn, UInt8.lt_iff_toNat_lt]
    rw [idtInit, idtSetGate_of_ne hn, foldl_idtSetGate entryPoint n (by decide), if_neg hn]
    simp only [hstub]

theorem decodeGate_zero : decodeGate 0 0 = none := rfl

theorem gateOf_idt (h : Stored m base.toNat (idtInit entryPoint)) (n : UInt8) :
    gateOf m (idtPtr base) n =
      if HasStub n then some ⟨entryPoint n, 0x08, if n = 0x80 then 3 else 0⟩ else none := by
  obtain ⟨hlow, hhigh⟩ := h.words n
  have hlimit : 8 * n.toNat + 7 ≤ (idtPtr base).limit.toNat := by
    have := n.toNat_lt
    change 8 * n.toNat + 7 ≤ 2047
    omega
  rw [gateOf, if_pos hlimit]
  change decodeGate (m.load32 (base.toNat + _)) (m.load32 (base.toNat + _ + 4)) = _
  rw [hlow, hhigh, idtInit_apply]
  split_ifs with hstub hn
  · rw [decodeGate_set _ _ rfl (.inr rfl), if_pos rfl]
  · rw [decodeGate_set _ _ rfl (.inl rfl), if_neg (by decide)]
  · exact decodeGate_zero

/-- **The gates of the kernel.** With the table of `idt_init` loaded, exactly the vectors that have
a stub have a gate: to that stub, in the kernel's code segment, closed to `int` from ring 3 except
for vector `0x80`. -/
theorem idt_gates (h : Stored m base.toNat (idtInit entryPoint)) (n : UInt8) :
    gateOf m (idtPtr base) n =
        (if HasStub n then some ⟨entryPoint n, 0x08, if n = 0x80 then 3 else 0⟩ else none) ∧
      ∀ g, intGate m (idtPtr base) 3 n = some g ↔ n = 0x80 ∧ g = ⟨entryPoint 0x80, 0x08, 3⟩ := by
  refine ⟨gateOf_idt h n, fun g => ?_⟩
  rw [intGate, gateOf_idt h n]
  by_cases hn : n = 0x80
  · simp [hn, HasStub, Option.filter, eq_comm]
  · by_cases hstub : HasStub n
    · simp only [hn, hstub, if_true, if_false, false_and, iff_false]
      exact Option.some_ne_none g ∘ Eq.symm
    · simp [hn, hstub]

/-- The table in memory, from address 0 on. -/
def image (t : IdtEntries) : ByteMem := fun i =>
  (t (UInt8.ofNat (i / 8))).bytes.getD (i % 8) 0

theorem image_stored (t : IdtEntries) : Stored (image t) (0 : UInt32).toNat t := by
  intro n i hi
  have hn : (0 + 8 * n.toNat + i) / 8 = n.toNat := by omega
  have hmod : (0 + 8 * n.toNat + i) % 8 = i := by omega
  rw [UInt32.toNat_zero, image, hn, hmod, UInt8.ofNat_toNat, List.getD_eq_getElem _ _ hi]
  rfl

theorem idt_gates_image :
    gateOf (image (idtInit fun n => 0x100000 + 16 * n.toUInt32)) (idtPtr 0) 33 =
        (if HasStub 33 then some ⟨0x100210, 0x08, if (33 : UInt8) = 0x80 then 3 else 0⟩ else none) ∧
      ∀ g, intGate (image (idtInit fun n => 0x100000 + 16 * n.toUInt32)) (idtPtr 0) 3 33 = some g ↔
        (33 : UInt8) = 0x80 ∧ g = ⟨0x100800, 0x08, 3⟩ :=
  idt_gates (image_stored _) 33

end Gates

end Munux.Interrupts
