import Munux.Drivers.Disk
import Munux.Lib.Outcome
import Munux.Lib.Traces

/-!
# The serial port

`kernel/drivers/serial.c`, polled output and input over a UART, and the UART itself: it holds one
byte to be sent and one that has come in. A byte that is written while the last one is still held is
lost, and so is what is read before something has come in.

**Output** waits for the UART to be free before each byte, so a string is sent as it is, byte by
byte, whatever the timing of the UART (`serialWritestring_sends`). **Input** waits for a byte in the
same way and takes each one once (`serialGetchar_takes`). The waits have no limit: a call that
returns has seen the bit it waited for.
-/

namespace Munux.Drivers

/-- `COM1` -/
def com1 : UInt16 := 0x3F8

/-- The bits of the line status register that are looked at. -/
def transmitEmpty : UInt8 := 0x20
def dataReady : UInt8 := 0x01

/-- The port: what its registers will return from now on, and the accesses so far. -/
structure Serial where
  status : Nat → UInt8
  data : Nat → UInt8
  log : List Access

namespace Serial

/-- `inb(port + 5)` -/
def inStatus (s : Serial) (port : UInt16) : UInt8 × Serial :=
  (s.status 0, { s with
    status := fun i => s.status (i + 1)
    log := s.log ++ [.inb (port + 5) (s.status 0)] })

/-- `inb(port)` -/
def inData (s : Serial) (port : UInt16) : UInt8 × Serial :=
  (s.data 0, { s with
    data := fun i => s.data (i + 1)
    log := s.log ++ [.inb port (s.data 0)] })

def outb (s : Serial) (port : UInt16) (value : UInt8) : Serial :=
  { s with log := s.log ++ [.outb port value] }

end Serial

/-- `while (!(inb(port + 5) & mask));`, for at most `fuel` turns. -/
def waitFor (mask : UInt8) (port : UInt16) : (fuel : Nat) → Serial → Outcome Serial
  | 0, _ => .diverge
  | fuel + 1, s =>
      if (s.inStatus port).1 &&& mask ≠ 0 then .ok (s.inStatus port).2
      else waitFor mask port fuel (s.inStatus port).2

/-- `serial_putchar` -/
def serialPutchar (fuel : Nat) (port : UInt16) (s : Serial) (c : UInt8) : Outcome Serial := do
  let s ← waitFor transmitEmpty port fuel s
  return s.outb port c

/-- `serial_writestring` -/
def serialWritestring (fuel : Nat) (port : UInt16) (s : Serial) (str : List UInt8) :
    Outcome Serial :=
  str.foldlM (serialPutchar fuel port) s

/-- `serial_getchar` -/
def serialGetchar (fuel : Nat) (port : UInt16) (s : Serial) : Outcome (UInt8 × Serial) := do
  let s ← waitFor dataReady port fuel s
  return s.inData port

/-! ## The UART -/

/-- A UART: the bytes that it took to be sent, whether it can take another one, and the bytes that
have come in and were not read. -/
structure Uart where
  sent : List UInt8
  free : Bool
  waiting : List UInt8

namespace Uart

/-- The UART at `port` shows `v` as its line status. In the meantime it may have become free, and
more may have come in. -/
def StatusNext (u : Uart) (v : UInt8) (u' : Uart) : Prop :=
  u'.sent = u.sent ∧ (u.free → u'.free) ∧ (∃ more, u'.waiting = u.waiting ++ more) ∧
    (v &&& transmitEmpty ≠ 0 → u'.free) ∧ (v &&& dataReady ≠ 0 → u'.waiting ≠ [])

/-- One access. A byte that it cannot take, or that is not there, may be anything. -/
def Next (port : UInt16) (u : Uart) (a : Access) (u' : Uart) : Prop :=
  match a with
  | .inb p v =>
      if p = port + 5 then u.StatusNext v u'
      else if p = port then
        ∀ c rest, u.waiting = c :: rest →
          v = c ∧ u'.sent = u.sent ∧ (u.free → u'.free) ∧ ∃ more, u'.waiting = rest ++ more
      else True
  | .outb p c =>
      p = port → u.free → u'.sent = u.sent ++ [c] ∧ ∃ more, u'.waiting = u.waiting ++ more
  | _ => True

end Uart

/-! ## Output -/

section Output

variable {mask c : UInt8} {port : UInt16} {fuel : Nat} {s s' : Serial} {u u' : Uart}
  {str : List UInt8}

theorem port_ne (port : UInt16) : port + 5 ≠ port := by
  intro h
  simp at h

theorem waitFor_later (h : waitFor mask port fuel s = .ok s') : LaterBy Serial.log s s' := by
  induction fuel generalizing s with
  | zero => cases h
  | succ fuel ih =>
      have hstep : LaterBy Serial.log s (s.inStatus port).2 := ⟨_, rfl⟩
      rw [waitFor] at h
      split_ifs at h
      · exact Outcome.ok.inj h ▸ hstep
      · exact hstep.trans (ih h)

/-- A wait that returns has seen its bit last, and has changed nothing else. -/
theorem waitFor_served (h : waitFor mask port fuel s = .ok s')
    (hs : ServedBy (Uart.Next port) Serial.log u s u' s') :
    u'.sent = u.sent ∧ (∃ more, u'.waiting = u.waiting ++ more) ∧
      ∃ v, v &&& mask ≠ 0 ∧ (v &&& transmitEmpty ≠ 0 → u'.free) ∧
        (v &&& dataReady ≠ 0 → u'.waiting ≠ []) := by
  induction fuel generalizing s u with
  | zero => cases h
  | succ fuel ih =>
      have hstep : LaterBy Serial.log s (s.inStatus port).2 := ⟨_, rfl⟩
      rw [waitFor] at h
      split_ifs at h with hbit
      · obtain rfl := Outcome.ok.inj h
        have hnext := hs.next rfl
        simp only [Uart.Next, if_pos] at hnext
        obtain ⟨hsent, -, hwaiting, hfree, hready⟩ := hnext
        exact ⟨hsent, hwaiting, s.status 0, hbit, hfree, hready⟩
      · obtain ⟨u₁, hs₁, hs₂⟩ := hs.split hstep (waitFor_later h)
        have hnext := hs₁.next rfl
        simp only [Uart.Next, if_pos] at hnext
        obtain ⟨hsent, -, ⟨more, hwaiting⟩, -⟩ := hnext
        obtain ⟨hsent', ⟨more', hwaiting'⟩, hv⟩ := ih h hs₂
        refine ⟨hsent'.trans hsent, ⟨more ++ more', ?_⟩, hv⟩
        rw [hwaiting', hwaiting, List.append_assoc]

theorem serialPutchar_later (h : serialPutchar fuel port s c = .ok s') :
    LaterBy Serial.log s s' := by
  obtain ⟨s₁, hwait, hout⟩ := Outcome.bind_eq_ok.1 h
  obtain rfl := Outcome.ok.inj hout
  exact (waitFor_later hwait).trans ⟨_, rfl⟩

theorem serialPutchar_sends (h : serialPutchar fuel port s c = .ok s')
    (hs : ServedBy (Uart.Next port) Serial.log u s u' s') :
    u'.sent = u.sent ++ [c] ∧ ∃ more, u'.waiting = u.waiting ++ more := by
  obtain ⟨s₁, hwait, hout⟩ := Outcome.bind_eq_ok.1 h
  obtain rfl := Outcome.ok.inj hout
  obtain ⟨u₁, hs₁, hs₂⟩ := hs.split (waitFor_later hwait) ⟨_, rfl⟩
  obtain ⟨hsent, ⟨more, hwaiting⟩, v, hv, hfree, -⟩ := waitFor_served hwait hs₁
  obtain ⟨hsent', more', hwaiting'⟩ := hs₂.next rfl rfl (hfree hv)
  refine ⟨by rw [hsent', hsent], more ++ more', ?_⟩
  rw [hwaiting', hwaiting, List.append_assoc]

theorem serialWritestring_later (h : serialWritestring fuel port s str = .ok s') :
    LaterBy Serial.log s s' := by
  induction str generalizing s with
  | nil =>
      obtain rfl := Outcome.ok.inj h
      exact LaterBy.refl _ s
  | cons c str ih =>
      obtain ⟨s₁, hput, hrest⟩ := Outcome.bind_eq_ok.1 h
      exact (serialPutchar_later hput).trans (ih hrest)

/-- **Output.** On every UART, a call of `serial_writestring` that returns has sent the whole string
and nothing else, and no byte was lost; what comes in meanwhile is kept. -/
theorem serialWritestring_sends (h : serialWritestring fuel port s str = .ok s')
    (hs : ServedBy (Uart.Next port) Serial.log u s u' s') :
    u'.sent = u.sent ++ str ∧ ∃ more, u'.waiting = u.waiting ++ more := by
  induction str generalizing s u with
  | nil =>
      obtain rfl := Outcome.ok.inj h
      obtain rfl := hs.same
      exact ⟨(List.append_nil _).symm, [], (List.append_nil _).symm⟩
  | cons c str ih =>
      obtain ⟨s₁, hput, hrest⟩ := Outcome.bind_eq_ok.1 h
      obtain ⟨u₁, hs₁, hs₂⟩ := hs.split (serialPutchar_later hput) (serialWritestring_later hrest)
      obtain ⟨hsent, more, hwaiting⟩ := serialPutchar_sends hput hs₁
      obtain ⟨hsent', more', hwaiting'⟩ := ih hrest hs₂
      refine ⟨by rw [hsent', hsent, List.append_assoc, List.singleton_append], more ++ more', ?_⟩
      rw [hwaiting', hwaiting, List.append_assoc]

/-- A port that is always ready, and an idle UART. -/
def readyPort : Serial := ⟨fun _ => transmitEmpty, fun _ => 0, []⟩

def idleUart : Uart := ⟨[], true, []⟩

/-- Two characters. -/
theorem serialWritestring_sends_ok :
    ∃ s' u', serialWritestring 1 com1 readyPort [111, 107] = .ok s' ∧
      ServedBy (Uart.Next com1) Serial.log idleUart readyPort u' s' ∧ u'.sent = [111, 107] := by
  have hserved : ServedBy (Uart.Next com1) Serial.log idleUart readyPort ⟨[111, 107], true, []⟩
      ((((readyPort.inStatus com1).2.outb com1 111).inStatus com1).2.outb com1 107) := by
    have hbit : transmitEmpty &&& dataReady = 0 := rfl
    refine ⟨[.inb (com1 + 5) transmitEmpty, .outb com1 111, .inb (com1 + 5) transmitEmpty,
      .outb com1 107], rfl, Trace.cons_iff.2 ⟨⟨[], true, []⟩, ?_, Trace.cons_iff.2
        ⟨⟨[111], true, []⟩, ?_, Trace.cons_iff.2 ⟨⟨[111], true, []⟩, ?_, .cons ?_ (.nil _)⟩⟩⟩⟩
    all_goals simp [Uart.Next, Uart.StatusNext, idleUart, hbit]
  have hcall : serialWritestring 1 com1 readyPort [111, 107] =
      .ok ((((readyPort.inStatus com1).2.outb com1 111).inStatus com1).2.outb com1 107) := rfl
  exact ⟨_, _, hcall, hserved, (serialWritestring_sends hcall hserved).1⟩

end Output

/-! ## Input -/

section Input

variable {c : UInt8} {port : UInt16} {fuel : Nat} {s s' : Serial} {u u' : Uart}

/-- **Input.** On every UART, a call of `serial_getchar` that returns takes the first byte of those
that were waiting or have come in meanwhile, and the others wait on. -/
theorem serialGetchar_takes (h : serialGetchar fuel port s = .ok (c, s'))
    (hs : ServedBy (Uart.Next port) Serial.log u s u' s') :
    u'.sent = u.sent ∧ ∃ arrived, u.waiting ++ arrived = c :: u'.waiting := by
  obtain ⟨s₁, hwait, hin⟩ := Outcome.bind_eq_ok.1 h
  obtain ⟨rfl, rfl⟩ := Prod.mk.inj (Outcome.ok.inj hin)
  obtain ⟨u₁, hs₁, hs₂⟩ := hs.split (waitFor_later hwait) ⟨_, rfl⟩
  obtain ⟨hsent, ⟨more, hwaiting⟩, v, hv, -, hready⟩ := waitFor_served hwait hs₁
  obtain ⟨c, rest, hcons⟩ := List.exists_cons_of_ne_nil (hready hv)
  have hnext := hs₂.next rfl
  simp only [Uart.Next, if_neg (port_ne port).symm, if_pos] at hnext
  obtain ⟨hc, hsent', -, more', hwaiting'⟩ := hnext c rest hcons
  refine ⟨hsent'.trans hsent, more ++ more', ?_⟩
  rw [← List.append_assoc, ← hwaiting, hcons, hwaiting', List.cons_append, ← hc]

end Input

end Munux.Drivers
