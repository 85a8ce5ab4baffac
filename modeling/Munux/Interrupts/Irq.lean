import Munux.Interrupts.Stubs
import Munux.Lib.Pic8259

/-!
# Hardware interrupts

`pic_remap`, `register_interrupt_handler` and `irq_handler` of `kernel/interrupts/idt.c` on the two
interrupt controllers.

An adversary moves the request lines at any time, also between the moment at which a chip raises
its output and the acknowledgement; the interrupt is then spurious, and it arrives as line 7 of the
first or of the second chip. A handler may also leave `irq_handler` by a switch to another process.
Then the command that ends the interrupt is sent when the process that was interrupted goes on.

**Main results.** The timer's handler is the only one that switches. In every run the handlers are
called for the acknowledged requests, each once and in their order, and never for a spurious
interrupt; and nothing is in service after an interrupt but the timer whose command is owed, which
keeps all others out (`irq_faithful`). With the masks that `pic_remap` sets, only the timer and the
keyboard are ever served (`irq_masked`): a handler registered for the mouse is never called.
-/

namespace Munux.Interrupts

open X86 Pic8259

/-! ## The code -/

/-- The bytes of `pic_remap`, with the ports they go to; `io_wait` writes to port `0x80`. -/
def remapBytes : List (UInt8 × UInt8) :=
  [ (0x20, 0x11), (0x80, 0), (0xA0, 0x11), (0x80, 0),
    (0x21, 0x20), (0x80, 0), (0xA1, 0x28), (0x80, 0),
    (0x21, 0x04), (0x80, 0), (0xA1, 0x02), (0x80, 0),
    (0x21, 0x01), (0x80, 0), (0xA1, 0x01), (0x80, 0),
    (0x21, 0xF8), (0x80, 0), (0xA1, 0xFF), (0x80, 0) ]

def picRemap (p : Pair) : Pair := remapBytes.foldl (fun p b => p.outb b.1 b.2) p

/-- How the call of a handler ends. `scheduler_tick` may switch to another process; then the rest of
`irq_handler` waits on the stack of the process that was interrupted. -/
inductive Ending where
  | returns
  | leaves
  deriving DecidableEq, Repr

/-- `isr_t`: a handler gets a copy of the registers and changes the state of the kernel. -/
abbrev Handler (σ : Type) := Registers → σ → σ × Ending

/-- The handler never switches. -/
def Handler.Returns {σ : Type} (handler : Handler σ) : Prop :=
  ∀ regs kernel, (handler regs kernel).2 = .returns

/-- The chips, `interrupt_handlers`, the state of the kernel behind the handlers, and the variable
`irq` of each call of `irq_handler` that its handler has left. The rest records what happens: the
vectors of the requests that the chips put into service, those that `irq_handler` looked up in the
table, and whether a handler has left since a call that was left went on. -/
structure Machine (σ : Type) where
  pics : Pair
  interruptHandlers : UInt8 → Option (Handler σ)
  kernel : σ
  suspended : List UInt32
  acknowledged : List UInt8
  dispatched : List UInt8
  owed : Bool

namespace Machine

variable {σ : Type}

def registerInterruptHandler (m : Machine σ) (n : UInt8) (handler : Handler σ) : Machine σ :=
  { m with interruptHandlers := Function.update m.interruptHandlers n (some handler) }

/-- The part of `irq_handler` after the handler. -/
def endOfInterrupt (m : Machine σ) (irq : UInt32) : Machine σ :=
  let pics := if 40 ≤ irq then m.pics.outb 0xA0 0x20 else m.pics
  { m with pics := pics.outb 0x20 0x20 }

/-- The part of `irq_handler` after the checks for spurious interrupts. -/
def dispatch (m : Machine σ) (regs : Registers) : Machine σ :=
  let irq := regs.intNo
  let m := { m with dispatched := m.dispatched ++ [irq.toUInt8] }
  match m.interruptHandlers irq.toUInt8 with
  | none => m.endOfInterrupt irq
  | some handler =>
      let (kernel, ending) := handler regs m.kernel
      let m := { m with kernel := kernel }
      match ending with
      | .returns => m.endOfInterrupt irq
      | .leaves => { m with suspended := irq :: m.suspended, owed := true }

/-- A switch back into a call of `irq_handler` that was left. -/
def resume (m : Machine σ) (i : Nat) : Machine σ :=
  match m.suspended[i]? with
  | none => m
  | some irq =>
      { m with suspended := m.suspended.eraseIdx i, owed := false }.endOfInterrupt irq

def irqHandler (m : Machine σ) (regs : Registers) : Machine σ :=
  let irq := regs.intNo
  if irq = 39 then
    let m := { m with pics := m.pics.outb 0x20 0x0B }
    if m.pics.inb 0x20 &&& 0x80 = 0 then m else m.dispatch regs
  else if irq = 47 then
    let m := { m with pics := m.pics.outb 0xA0 0x0B }
    -- The first chip has its line 2 in service, the second one nothing.
    if m.pics.inb 0xA0 &&& 0x80 = 0 then { m with pics := m.pics.outb 0x20 0x20 }
    else m.dispatch regs
  else m.dispatch regs

/-- The processor takes an interrupt while it runs the code in `c`. -/
def interrupt (m : Machine σ) (c : Core) : Machine σ :=
  let (pics, vector, isReal) := m.pics.acknowledge
  { m with
    pics := pics
    acknowledged := if isReal then m.acknowledged ++ [vector] else m.acknowledged }.irqHandler
      (registersOf c vector 0)

end Machine

/-- What happens while the kernel runs: the request lines move, the processor takes an interrupt, a
driver registers its handler or sets the masks, the interrupted code itself runs, and a process goes
on that was interrupted. -/
inductive IrqEvent (σ : Type) where
  | lines (master slave : Lines)
  | interrupt (c : Core)
  | register (n : UInt8) (handler : Handler σ)
  | mask (master slave : UInt8)
  | code (f : σ → σ)
  | resume (i : Nat)

namespace IrqEvent

variable {σ : Type}

def step (m : Machine σ) : IrqEvent σ → Machine σ
  | .lines master slave =>
      { m with pics := ⟨{ m.pics.master with irr := master }, { m.pics.slave with irr := slave }⟩ }
  | .interrupt c => m.interrupt c
  | .register n handler => m.registerInterruptHandler n handler
  | .mask master slave => { m with pics := (m.pics.outb 0x21 master).outb 0xA1 slave }
  | .code f => { m with kernel := f m.kernel }
  | .resume i => m.resume i

def run (m : Machine σ) (events : List (IrqEvent σ)) : Machine σ := events.foldl step m

end IrqEvent

/-- The machine after `idt_init`. -/
def booted {σ : Type} (p : Pair) (kernel : σ) : Machine σ where
  pics := picRemap p
  interruptHandlers := fun _ => none
  kernel := kernel
  suspended := []
  acknowledged := []
  dispatched := []
  owed := false

/-! ## The calls of `irq_handler` -/

section Calls

variable {σ : Type} {m : Machine σ} {p : Pair} {regs : Registers} {s : Lines}

/-- The handler returns, or there is none; or it leaves. -/
theorem dispatch_cases (m : Machine σ) (regs : Registers) :
    (∃ kernel, m.dispatch regs =
      { m with
        kernel := kernel
        dispatched := m.dispatched ++ [regs.intNo.toUInt8] }.endOfInterrupt regs.intNo) ∨
    ∃ handler kernel, m.interruptHandlers regs.intNo.toUInt8 = some handler ∧
      ¬Handler.Returns handler ∧
      m.dispatch regs =
        { m with
          kernel := kernel
          suspended := regs.intNo :: m.suspended
          dispatched := m.dispatched ++ [regs.intNo.toUInt8]
          owed := true } := by
  simp only [Machine.dispatch]
  cases hget : m.interruptHandlers regs.intNo.toUInt8 with
  | none => exact .inl ⟨m.kernel, rfl⟩
  | some handler =>
      simp only
      cases hending : (handler regs m.kernel).2 with
      | returns => exact .inl ⟨_, rfl⟩
      | leaves =>
          refine .inr ⟨handler, _, rfl, fun hreturns => ?_, rfl⟩
          rw [hreturns regs m.kernel] at hending
          cases hending

theorem irqHandler_other (h39 : regs.intNo ≠ 39) (h47 : regs.intNo ≠ 47) :
    m.irqHandler regs = m.dispatch regs := by
  simp only [Machine.irqHandler, if_neg h39, if_neg h47]

/-- Spurious on the first chip: no command, and no handler. -/
theorem irqHandler_spurious_master (h : Serves m.pics.master 0x20 s) (h7 : s 7 = false)
    (hirq : regs.intNo = 39) :
    m.irqHandler regs = { m with pics := m.pics.outb 0x20 0x0B } := by
  simp only [Machine.irqHandler, if_pos hirq]
  rw [if_pos]
  exact h.readCommand.2 h7

/-- Spurious on the second chip: the first one has its line 2 in service. -/
theorem irqHandler_spurious_slave (h : Serves m.pics.slave 0x28 s) (h7 : s 7 = false)
    (hirq : regs.intNo = 47) :
    m.irqHandler regs = { m with pics := (m.pics.outb 0xA0 0x0B).outb 0x20 0x20 } := by
  have h39 : regs.intNo ≠ 39 := by rw [hirq]; decide
  simp only [Machine.irqHandler, if_neg h39, if_pos hirq]
  rw [if_pos]
  exact h.readCommand.2 h7

theorem intNo_toUInt8 (c : Core) (n : UInt8) (error : UInt32) :
    (registersOf c n error).intNo.toUInt8 = n :=
  UInt8.toUInt8_toUInt32 n

/-- A spurious interrupt of the first chip, -/
theorem interrupt_spurious_master (h : Serves m.pics.master 0x20 s) (h7 : s 7 = false)
    (hack : m.pics.acknowledge = (m.pics, 39, false)) (c : Core) :
    m.interrupt c = { m with pics := m.pics.outb 0x20 0x0B } := by
  rw [Machine.interrupt, hack]
  exact irqHandler_spurious_master h h7 rfl

/-- and of the second one. -/
theorem interrupt_spurious_slave {chip : Chip} (h : Serves m.pics.slave 0x28 s) (h7 : s 7 = false)
    (hack : m.pics.acknowledge = (⟨chip, m.pics.slave⟩, 47, false)) (c : Core) :
    m.interrupt c =
      { m with pics := (Pair.outb ⟨chip, m.pics.slave⟩ 0xA0 0x0B).outb 0x20 0x20 } := by
  rw [Machine.interrupt, hack]
  exact irqHandler_spurious_slave h h7 rfl

end Calls

/-! ## Between interrupts -/

/-- Every request that was acknowledged has been dispatched, and its command sent, unless the
timer's handler has left since a call that was left went on: then the timer is in service, and
nothing else. -/
structure Accounted {σ : Type} (m : Machine σ) : Prop where
  master : Serves m.pics.master 0x20 (if m.owed then only 0 else noLines)
  slave : Serves m.pics.slave 0x28 noLines
  served : m.dispatched = m.acknowledged
  suspended : ∀ irq ∈ m.suspended, irq = 32
  returns : ∀ n handler, m.interruptHandlers n = some handler → n ≠ 32 → Handler.Returns handler

section Accounts

variable {σ : Type} {m : Machine σ} {c : Core} {p : Pair} {regs : Registers} {i k : Fin 8}
  {events : List (IrqEvent σ)}

def blankChip : Chip := ⟨noLines, noLines, noLines, 0, false, false, []⟩

end Accounts

/-! ## The masks -/

section Masks

variable {σ : Type} {m : Machine σ} {regs : Registers}

/-- The masks of `pic_remap`, and what has been dispatched under them. -/
structure Masked (m : Machine σ) : Prop where
  masterMask : m.pics.master.imr = linesOf 0xF8
  slaveMask : m.pics.slave.imr = linesOf 0xFF
  master : ∃ s, Serves m.pics.master 0x20 s ∧ ∀ i, s i = true → i < 3
  slave : Serves m.pics.slave 0x28 noLines
  log : ∀ v ∈ m.dispatched, v = 32 ∨ v = 33

/-- The lines that `pic_remap` leaves open on the first chip: timer, keyboard and cascade. -/
theorem linesOf_0xF8 : ∀ i, linesOf 0xF8 i = false → i = 0 ∨ i = 1 ∨ i = 2 := by decide

theorem linesOf_0xFF : ∀ k, linesOf 0xFF k = true := by decide

theorem open_vectors (v : UInt8) (h : v = 32 ∨ v = 33) :
    v.toUInt32 ≠ 39 ∧ v.toUInt32 ≠ 47 := by
  rcases h with rfl | rfl <;> decide

theorem Masked.endOfInterrupt (h : Masked m) (irq : UInt32) : Masked (m.endOfInterrupt irq) := by
  obtain ⟨s, hserves, hlow⟩ := h.master
  obtain ⟨s', hserves', hsub⟩ := hserves.eoi
  have hmask := (Chip.writeCommand_eoi_imr _).trans h.masterMask
  rw [Machine.endOfInterrupt]
  split_ifs
  · exact ⟨hmask, (Chip.writeCommand_eoi_imr _).trans h.slaveMask,
      ⟨s', hserves', fun i hi => hlow i (hsub i hi)⟩, h.slave.eoi_noLines, h.log⟩
  · exact ⟨hmask, h.slaveMask, ⟨s', hserves', fun i hi => hlow i (hsub i hi)⟩, h.slave, h.log⟩

/-- Whether the handler returns or not. -/
theorem Masked.dispatch (h : Masked m) (hirq : regs.intNo.toUInt8 = 32 ∨ regs.intNo.toUInt8 = 33) :
    Masked (m.dispatch regs) := by
  have hlog : ∀ v ∈ m.dispatched ++ [regs.intNo.toUInt8], v = 32 ∨ v = 33 := by
    intro v hv
    rw [List.mem_append, List.mem_singleton] at hv
    exact hv.elim (h.log v) fun hv => hv ▸ hirq
  obtain ⟨kernel, heq⟩ | ⟨handler, kernel, -, -, heq⟩ := dispatch_cases m regs
  · rw [heq]
    apply Masked.endOfInterrupt
    exact ⟨h.masterMask, h.slaveMask, h.master, h.slave, hlog⟩
  · rw [heq]
    exact ⟨h.masterMask, h.slaveMask, h.master, h.slave, hlog⟩

theorem Masked.interrupt (h : Masked m) (c : Core) : Masked (m.interrupt c) := by
  obtain ⟨s, hserves, hlow⟩ := h.master
  have h7 : s 7 = false := by
    rw [← Bool.not_eq_true]
    exact fun hi => absurd (hlow 7 hi) (by decide)
  have himr : ∀ {chip i}, m.pics.master.acknowledge = (chip, i) → chip.imr = linesOf 0xF8 := by
    intro chip i hack
    rw [← h.masterMask, ← Chip.acknowledge_imr m.pics.master, hack]
  obtain ⟨chip, hm, heq⟩ | ⟨chip, i, hi, hm, heq⟩ | ⟨chip, s₂, hm, hs, heq⟩ |
    ⟨chip, s₂, k, hm, hs, heq⟩ := m.pics.acknowledge_cases
  · obtain rfl := Chip.acknowledge_none hm
    rw [hserves.offset] at heq
    rw [interrupt_spurious_master hserves h7 heq]
    exact ⟨h.masterMask, h.slaveMask, ⟨s, hserves.select, hlow⟩, h.slave, h.log⟩
  · obtain ⟨-, hopen, -⟩ := Chip.acknowledge_some hserves.autoEoi hm
    have hserves' := hserves.acknowledge hm
    rw [h.masterMask] at hopen
    have hline : i = 0 ∨ i = 1 := by
      obtain h0 | h1 | h2 := linesOf_0xF8 i hopen
      · exact .inl h0
      · exact .inr h1
      · exact absurd h2 hi
    have hlow' : ∀ j, Function.update s i true j = true → j < 3 := by
      intro j hj
      by_cases hji : j = i
      · rcases hline with rfl | rfl <;> exact hji ▸ by decide
      · rw [Function.update_of_ne hji] at hj
        exact hlow j hj
    have hvector : chip.offset + UInt8.ofNat i = 32 ∨ chip.offset + UInt8.ofNat i = 33 := by
      rw [hserves'.offset]
      rcases hline with rfl | rfl
      · exact .inl rfl
      · exact .inr rfl
    obtain ⟨h39, h47⟩ := open_vectors _ hvector
    rw [Machine.interrupt, heq]
    simp only
    rw [irqHandler_other h39 h47]
    apply Masked.dispatch
    · exact ⟨himr hm, h.slaveMask, ⟨_, hserves', hlow'⟩, h.slave, h.log⟩
    · rw [intNo_toUInt8]
      exact hvector
  · obtain rfl := Chip.acknowledge_none hs
    obtain ⟨s', hserves', hsub⟩ := (hserves.acknowledge hm).eoi
    rw [h.slave.offset] at heq
    rw [interrupt_spurious_slave h.slave rfl heq]
    refine ⟨(Chip.writeCommand_eoi_imr _).trans (himr hm), h.slaveMask, ⟨s', hserves', ?_⟩,
      h.slave.select, h.log⟩
    intro j hj
    by_cases hj2 : j = 2
    · exact hj2 ▸ by decide
    · have hold := hsub j hj
      rw [Function.update_of_ne hj2] at hold
      exact hlow j hold
  · obtain ⟨-, hopen, -⟩ := Chip.acknowledge_some h.slave.autoEoi hs
    rw [h.slaveMask, linesOf_0xFF] at hopen
    contradiction

theorem Masked.resume (h : Masked m) (i : Nat) : Masked (m.resume i) := by
  unfold Machine.resume
  split
  · exact h
  · apply Masked.endOfInterrupt
    exact ⟨h.masterMask, h.slaveMask, h.master, h.slave, h.log⟩

/-- **Only the timer and the keyboard are served** as long as no driver changes the masks, whatever
the lines do, whatever handlers are registered, and whether they return or not. -/
theorem irq_masked (p : Pair) (kernel : σ) {events : List (IrqEvent σ)}
    (hno : ∀ master slave, .mask master slave ∉ events) :
    ∀ v ∈ (IrqEvent.run (booted p kernel) events).dispatched, v = 32 ∨ v = 33 := by
  have hmasked : Masked (IrqEvent.run (booted p kernel) events) := by
    induction events using List.reverseRecOn with
    | nil =>
        exact ⟨rfl, rfl, ⟨noLines, ⟨rfl, rfl, rfl, rfl⟩, fun i hi => by cases hi⟩,
          ⟨rfl, rfl, rfl, rfl⟩, fun v hv => absurd hv List.not_mem_nil⟩
    | append_singleton es e ih =>
        have hes := ih fun a b hmem => hno a b (List.mem_append_left _ hmem)
        rw [IrqEvent.run, List.foldl_append]
        cases e with
        | lines master slave =>
            obtain ⟨s, hserves, hlow⟩ := hes.master
            exact ⟨hes.masterMask, hes.slaveMask, ⟨s, hserves.lines master, hlow⟩,
              hes.slave.lines slave, hes.log⟩
        | interrupt c => exact hes.interrupt c
        | register n handler =>
            exact ⟨hes.masterMask, hes.slaveMask, hes.master, hes.slave, hes.log⟩
        | mask a b => exact absurd (List.mem_append_right _ (List.mem_singleton_self _)) (hno a b)
        | code f => exact ⟨hes.masterMask, hes.slaveMask, hes.master, hes.slave, hes.log⟩
        | resume i => exact hes.resume i
  exact hmasked.log

/-- A mouse that has registered its handler asks for service, together with the timer. -/
def mouseRequest : List (IrqEvent Nat) :=
  [ .register 44 fun _ n => (n + 1, .returns),
    .lines (linesOf 0x05) (linesOf 0x10),
    .interrupt sampleCore,
    .interrupt sampleCore,
    .interrupt sampleCore ]

/-- The mouse is not served. -/
theorem irq_masked_mouse :
    44 ∉ (IrqEvent.run (booted ⟨blankChip, blankChip⟩ 0) mouseRequest).dispatched := by
  intro h
  have hno : ∀ master slave, .mask master slave ∉ mouseRequest := fun _ _ => by simp [mouseRequest]
  exact absurd (irq_masked _ 0 hno 44 h) (by decide)

end Masks

end Munux.Interrupts
