import Mathlib.Algebra.Ring.Int.Defs
import Mathlib.Data.Fin.VecNotation
import Mathlib.Data.FinEnum
import Mathlib.Data.Fintype.Prod
import Mathlib.Tactic.FinCases
import Munux.Lib.Runs

/-!
# The mouse

`mouse_handler` of `kernel/drivers/mouse.c`. Each interrupt brings one byte, and the third byte of a
packet moves the mouse. The status byte has the signs of the two deltas, and a delta is the number
of nine bits that its byte and its sign make up (`Packet.dx`, `Packet.dy`).

The handler keeps the bytes as `int8_t`. A byte from 128 on is negative already before the sign is
looked at, and a byte of 0 with a sign is not extended. The packets without such bytes are exactly
those that are decoded right (`mouse_position_iff`). The position is kept modulo 2³².
-/

namespace Munux.Drivers

/-- The state of the driver. `calls` has the arguments of all calls of the callback. -/
structure Mouse where
  x : Int32
  y : Int32
  buttons : UInt8
  cycle : Fin 3
  byte : Fin 3 → Int8
  callback : Bool
  calls : List (Int32 × Int32 × UInt8)

/-- At the start, with or without a callback. -/
def Mouse.init (callback : Bool) : Mouse := ⟨0, 0, 0, 0, fun _ => 0, callback, []⟩

/-- The delta that the handler makes of a byte and a sign. -/
def extended (byte : Int8) (negative : Bool) : Int32 :=
  let d := byte.toInt32
  if d ≠ 0 ∧ negative then d - 256 else d

/-- What `mouse_handler` does with the packet in `mouse_byte`. -/
def Mouse.update (m : Mouse) : Mouse :=
  let status := (m.byte 0).toUInt8
  let dx := extended (m.byte 1) (status &&& 16 ≠ 0)
  let dy := -extended (m.byte 2) (status &&& 32 ≠ 0)
  let buttons := status &&& 7
  { m with
    x := m.x + dx
    y := m.y + dy
    buttons
    calls := if m.callback then m.calls ++ [(dx, dy, buttons)] else m.calls }

/-- `mouse_handler`, for the byte that it reads. -/
def mouseHandler (m : Mouse) (byte : UInt8) : Mouse :=
  let m' := { m with byte := Function.update m.byte m.cycle byte.toInt8 }
  if m.cycle = 2 then { m' with cycle := 0 }.update else { m' with cycle := m.cycle + 1 }

/-! ## Packets -/

/-- A packet. -/
structure Packet where
  status : UInt8
  bx : UInt8
  byy : UInt8
  deriving DecidableEq, Repr

namespace Packet

/-- The bytes of a packet, in order. -/
def bytes (p : Packet) : List UInt8 := [p.status, p.bx, p.byy]

/-- A number of nine bits: a byte and its sign. -/
def delta (byte : UInt8) (sign : Nat) : Int := byte.toNat - 256 * sign

/-- Bit 4 of the status is the sign of X. -/
def signX (p : Packet) : Nat := p.status.toNat / 2 ^ 4 % 2

/-- Bit 5 of the status is the sign of Y. -/
def signY (p : Packet) : Nat := p.status.toNat / 2 ^ 5 % 2

def dx (p : Packet) : Int := delta p.bx p.signX

def dy (p : Packet) : Int := delta p.byy p.signY

/-- The bytes are below 128, and not 0 if there is a sign. -/
def Plain (p : Packet) : Prop :=
  p.bx < 128 ∧ (p.signX = 0 ∨ p.bx ≠ 0) ∧ p.byy < 128 ∧ (p.signY = 0 ∨ p.byy ≠ 0)

instance (p : Packet) : Decidable p.Plain := inferInstanceAs (Decidable (_ ∧ _ ∧ _ ∧ _))

end Packet

/-- After some packets, byte by byte. -/
def Mouse.after (callback : Bool) (packets : List Packet) : Mouse :=
  (packets.flatMap Packet.bytes).foldl mouseHandler (.init callback)

/-- The mouse is where the packets have moved it, and the callback knows it. -/
structure Mouse.Tracks (m : Mouse) (packets : List Packet) : Prop where
  x : m.x = Int32.ofInt (packets.map Packet.dx).sum
  y : m.y = Int32.ofInt (-(packets.map Packet.dy).sum)
  calls : m.callback = true → m.calls = packets.map fun p =>
    (Int32.ofInt p.dx, Int32.ofInt (-p.dy), p.status &&& 7)

section Packets

variable {m : Mouse} {p : Packet} {callback : Bool} {before : List Packet}

/-- **The deltas that are right:** all bytes with all signs. -/
theorem extended_eq_iff : ∀ (byte : UInt8) (negative : Bool),
    extended byte.toInt8 negative = Int32.ofInt (Packet.delta byte negative.toNat) ↔
      byte < 128 ∧ (negative.toNat = 0 ∨ byte ≠ 0) := by
  decide +kernel

theorem sign_bits : ∀ status : UInt8,
    (decide (status &&& 16 ≠ 0)).toNat = status.toNat / 2 ^ 4 % 2 ∧
      (decide (status &&& 32 ≠ 0)).toNat = status.toNat / 2 ^ 5 % 2 := by
  decide +kernel

/-- What the handler makes of the X byte. -/
def Packet.codeX (p : Packet) : Int32 := extended p.bx.toInt8 (p.status &&& 16 ≠ 0)

/-- What the handler makes of the Y byte, before it turns it around. -/
def Packet.codeY (p : Packet) : Int32 := extended p.byy.toInt8 (p.status &&& 32 ≠ 0)

theorem Packet.codeX_eq_iff :
    p.codeX = Int32.ofInt p.dx ↔ p.bx < 128 ∧ (p.signX = 0 ∨ p.bx ≠ 0) := by
  have h := extended_eq_iff p.bx (decide (p.status &&& 16 ≠ 0))
  rw [(sign_bits p.status).1] at h
  exact h

theorem Packet.codeY_eq_iff :
    p.codeY = Int32.ofInt p.dy ↔ p.byy < 128 ∧ (p.signY = 0 ∨ p.byy ≠ 0) := by
  have h := extended_eq_iff p.byy (decide (p.status &&& 32 ≠ 0))
  rw [(sign_bits p.status).2] at h
  exact h

theorem Packet.plain_iff :
    p.Plain ↔ p.codeX = Int32.ofInt p.dx ∧ p.codeY = Int32.ofInt p.dy := by
  rw [p.codeX_eq_iff, p.codeY_eq_iff, and_assoc]
  exact Iff.rfl

/-- **One packet:** between packets, three bytes make one update. -/
theorem foldl_bytes (h : m.cycle = 0) :
    p.bytes.foldl mouseHandler m =
      { m with byte := ![p.status.toInt8, p.bx.toInt8, p.byy.toInt8] }.update := by
  obtain ⟨x, y, buttons, cycle, byte, callback, calls⟩ := m
  subst h
  have hbyte : Function.update (Function.update (Function.update byte 0 p.status.toInt8) 1
      p.bx.toInt8) 2 p.byy.toInt8 = ![p.status.toInt8, p.bx.toInt8, p.byy.toInt8] := by
    funext i
    fin_cases i <;> rfl
  rw [← hbyte]
  rfl

theorem after_append :
    Mouse.after callback (before ++ [p]) =
      p.bytes.foldl mouseHandler (Mouse.after callback before) := by
  simp only [Mouse.after, List.flatMap_append, List.flatMap_singleton, List.foldl_append]

/-- Between packets, the next byte is a status byte. The callback stays. -/
theorem after_cycle (callback : Bool) : ∀ packets : List Packet,
    (Mouse.after callback packets).cycle = 0 ∧
      (Mouse.after callback packets).callback = callback := by
  intro packets
  induction packets using List.reverseRecOn with
  | nil => exact ⟨rfl, rfl⟩
  | append_singleton packets p ih =>
      rw [after_append, foldl_bytes ih.1]
      exact ih

/-- The state after one more packet. -/
theorem after_packet (callback : Bool) (before : List Packet) (p : Packet) :
    (Mouse.after callback (before ++ [p])).x = (Mouse.after callback before).x + p.codeX ∧
      (Mouse.after callback (before ++ [p])).y = (Mouse.after callback before).y + -p.codeY ∧
        (callback = true → (Mouse.after callback (before ++ [p])).calls =
          (Mouse.after callback before).calls ++ [(p.codeX, -p.codeY, p.status &&& 7)]) := by
  obtain ⟨hcycle, hcallback⟩ := after_cycle callback before
  rw [after_append, foldl_bytes hcycle]
  refine ⟨rfl, rfl, fun h => ?_⟩
  rw [h] at hcallback ⊢
  exact if_pos hcallback

/-- **One packet more** keeps the mouse right exactly if it is plain. -/
theorem tracks_append (h : (Mouse.after callback before).Tracks before) :
    (Mouse.after callback (before ++ [p])).Tracks (before ++ [p]) ↔ p.Plain := by
  obtain ⟨hx, hy, hcalls⟩ := after_packet callback before p
  have hcb := (after_cycle callback before).2
  have hcb' := (after_cycle callback (before ++ [p])).2
  have hsumX : (Mouse.after callback (before ++ [p])).x =
      Int32.ofInt ((before ++ [p]).map Packet.dx).sum ↔ p.codeX = Int32.ofInt p.dx := by
    rw [hx, h.x, List.map_append, List.sum_append, Int32.ofInt_add, List.map_singleton,
      List.sum_singleton, Int32.add_right_inj]
  have hsumY : (Mouse.after callback (before ++ [p])).y =
      Int32.ofInt (-((before ++ [p]).map Packet.dy).sum) ↔ p.codeY = Int32.ofInt p.dy := by
    rw [hy, h.y, List.map_append, List.sum_append, neg_add, Int32.ofInt_add, List.map_singleton,
      List.sum_singleton, Int32.add_right_inj, Int32.ofInt_neg, Int32.neg_inj]
  rw [p.plain_iff]
  constructor
  · intro h'
    exact ⟨hsumX.1 h'.x, hsumY.1 h'.y⟩
  · intro hp
    refine ⟨hsumX.2 hp.1, hsumY.2 hp.2, fun hcall => ?_⟩
    rw [hcb'] at hcall
    rw [hcalls hcall, h.calls (hcb.trans hcall), hp.1, hp.2, List.map_append, List.map_singleton,
      Int32.ofInt_neg]

/-- The calls of the callback, one for each packet. -/
theorem after_calls : ∀ packets : List Packet, (Mouse.after true packets).calls =
    packets.map fun p => (p.codeX, -p.codeY, p.status &&& 7) := by
  intro packets
  induction packets using List.reverseRecOn with
  | nil => rfl
  | append_singleton packets p ih =>
      rw [(after_packet true packets p).2.2 rfl, ih, List.map_append, List.map_singleton]

/-- **Whole runs:** the mouse is right all along exactly if all packets are plain. -/
theorem tracks_run_iff (callback : Bool) (packets : List Packet) :
    (∀ before, before <+: packets → (Mouse.after callback before).Tracks before) ↔
      ∀ p ∈ packets, p.Plain := by
  have hinit : (Mouse.after callback []).Tracks [] := ⟨rfl, rfl, fun _ => rfl⟩
  have hstep : ∀ before p, (Mouse.after callback before).Tracks before →
      ((Mouse.after callback (before ++ [p])).Tracks (before ++ [p]) ↔ p.Plain) :=
    fun before p h => tracks_append h
  refine (forall_prefix_iff (P := fun before => (Mouse.after callback before).Tracks before)
    hinit hstep packets).trans ?_
  constructor
  · intro h p hp
    obtain ⟨before, rest, rfl⟩ := List.append_of_mem hp
    exact h before p ⟨rest, by rw [List.append_assoc, List.singleton_append]⟩
  · intro h before p hbefore
    exact h p (hbefore.subset (List.mem_append_right before (List.mem_singleton_self p)))

/-- **The position of the mouse:** it is right all along, and the callback gets the packets, exactly
if all packets are plain. A callback sees every mistake, also where two of them make up for each
other in the position. -/
theorem mouse_position_iff (callback : Bool) (packets : List Packet) :
    ((∀ before, before <+: packets → (Mouse.after callback before).Tracks before) ↔
      ∀ p ∈ packets, p.Plain) ∧
    ((Mouse.after true packets).Tracks packets ↔ ∀ p ∈ packets, p.Plain) := by
  refine ⟨tracks_run_iff callback packets, fun h p hp => ?_, fun h => ?_⟩
  · have hcalls := h.calls (after_cycle true packets).2
    rw [after_calls, List.map_inj_left] at hcalls
    have hp' := Prod.ext_iff.1 (hcalls p hp)
    have hy : -p.codeY = Int32.ofInt (-p.dy) := (Prod.ext_iff.1 hp'.2).1
    rw [Int32.ofInt_neg, Int32.neg_inj] at hy
    exact p.plain_iff.2 ⟨hp'.1, hy⟩
  · exact (tracks_run_iff true packets).2 h packets List.prefix_rfl

/-- One step to the left: 255 with its sign. The handler takes 256 off a byte that is −1 already. -/
theorem mouse_left :
    let p : Packet := ⟨0x18, 0xFF, 0⟩
    p.dx = -1 ∧ (Mouse.after true [p]).x = -257 ∧ (Mouse.after true [p]).calls = [(-257, 0, 0)] ∧
      ¬(Mouse.after true [p]).Tracks [p] := by
  refine ⟨by decide, by decide, by decide, fun h => ?_⟩
  have hx := h.x
  revert hx
  decide

end Packets

end Munux.Drivers
