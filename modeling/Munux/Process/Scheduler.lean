import Munux.Lib.Links
import Mathlib.Logic.Function.Basic

/-!
# Processes and the scheduler

The process control blocks and the round-robin scheduler, following `kernel/process/process.h` and
`kernel/process/scheduler.c`. Process control blocks live at addresses; address `0` is the null
pointer. Each of the four ready queues is a ring threaded through the `next` field of its members,
and `ready_queue[prio]` points at one of them.

`schedule` ends in `switch_to_process`, which leaves on another stack. The model returns the pair
of processes switched between, and the state at that moment; what the switch does to the registers
is the subject of `Munux.Process.Switch`.
-/

namespace Munux.Process

/-- `process_state_t` -/
inductive ProcessState where
  | ready
  | running
  | blocked
  | terminated
  deriving DecidableEq, Repr

/-- `cpu_context_t` -/
structure Context where
  eax : Nat := 0
  ebx : Nat := 0
  ecx : Nat := 0
  edx : Nat := 0
  esi : Nat := 0
  edi : Nat := 0
  ebp : Nat := 0
  esp : Nat := 0
  eip : Nat := 0
  eflags : Nat := 0
  cr3 : Nat := 0
  deriving DecidableEq, Repr

/-- `process_t`. The priority is whatever 32-bit value the enum holds; only the scheduler clamps
it. -/
structure Pcb where
  pid : Nat := 0
  name : List UInt8 := []
  state : ProcessState := .ready
  priority : Nat := 0
  context : Context := {}
  pageDir : Nat := 0
  kernelStack : Nat := 0
  userStack : Nat := 0
  quantum : Nat := 0
  totalTime : Nat := 0
  next : Nat := 0
  parent : Nat := 0
  deriving DecidableEq, Repr

/-- `DEFAULT_QUANTUM` -/
def defaultQuantum : Nat := 50

/-- The process subsystem: the control blocks by address, and the globals of `process.c` and
`scheduler.c`. -/
structure State where
  pcb : Nat → Pcb
  readyQueue : Fin 4 → Nat
  currentProcess : Nat
  idleProcess : Nat
  processList : Nat
  nextPid : Nat

namespace State

/-- The `next` field of the process at `p`. -/
def next (s : State) (p : Nat) : Nat := (s.pcb p).next

/-- Update the control block at `p`. -/
def modify (s : State) (p : Nat) (f : Pcb → Pcb) : State :=
  { s with pcb := Function.update s.pcb p (f (s.pcb p)) }

def setNext (s : State) (p v : Nat) : State := s.modify p fun b => { b with next := v }

def setQueue (s : State) (q : Fin 4) (v : Nat) : State :=
  { s with readyQueue := Function.update s.readyQueue q v }

/-- The queue a process belongs to: its priority, with everything above 3 taken as 3. -/
def prio (s : State) (p : Nat) : Fin 4 := ⟨min (s.pcb p).priority 3, by omega⟩

end State

open State

/-- `scheduler_add_process` -/
def schedulerAddProcess (s : State) (process : Nat) : Outcome State := do
  if process = 0 then
    return s
  let s := s.modify process fun b => { b with state := .ready, quantum := defaultQuantum }
  let prio := s.prio process
  if s.readyQueue prio = 0 then
    return (s.setQueue prio process).setNext process process
  let last ← follow (fun x => s.next x == s.readyQueue prio) s.next (s.readyQueue prio)
  return (s.setNext last process).setNext process (s.readyQueue prio)

/-- The order in which the queues are searched. -/
def priorities : List (Fin 4) := [3, 2, 1, 0]

/-- `select_next_process`. The chosen process stays in its ring; only the head moves on. -/
def selectNextProcess (s : State) : Nat × State :=
  match priorities.find? fun q => s.readyQueue q ≠ 0 with
  | some q => (s.readyQueue q, s.setQueue q (s.next (s.readyQueue q)))
  | none => (s.idleProcess, s)

/-- A context switch, from the first process to the second. -/
abbrev Switch := Option (Nat × Nat)

/-- The first half of `schedule`: a running process goes back to its queue. -/
def requeueCurrent (s : State) : Outcome State :=
  if (s.pcb s.currentProcess).state = .running then schedulerAddProcess s s.currentProcess
  else .ok s

/-- The second half of `schedule`: select, and switch unless the choice is the current process. -/
def dispatch (s : State) : State × Switch :=
  let (next, s) := selectNextProcess s
  let next := if next = 0 then s.idleProcess else next
  if next = s.currentProcess then
    (s.modify next fun b => { b with quantum := defaultQuantum }, none)
  else
    let old := s.currentProcess
    let s := { s with currentProcess := next }
    (s.modify next fun b => { b with state := .running, quantum := defaultQuantum },
      some (old, next))

/-- `schedule` -/
def schedule (s : State) : Outcome (State × Switch) := do
  if s.currentProcess = 0 then
    return (s, none)
  let s ← requeueCurrent s
  return dispatch s

/-- `yield` -/
def yield (s : State) : Outcome (State × Switch) :=
  schedule (s.modify s.currentProcess fun b => { b with quantum := 0 })

/-- `scheduler_tick`, the timer callback. -/
def schedulerTick (s : State) : Outcome (State × Switch) :=
  if s.currentProcess = 0 then .ok (s, none)
  else
    let s := if 0 < (s.pcb s.currentProcess).quantum then
        s.modify s.currentProcess fun b =>
          { b with quantum := b.quantum - 1, totalTime := (b.totalTime + 1) % wordCount }
      else s
    if (s.pcb s.currentProcess).quantum = 0 then schedule s else .ok (s, none)

/-! ## Fields after an update -/

section Fields

variable {s : State} {p x v : Nat} {q : Fin 4} {f : Pcb → Pcb}

@[simp] theorem modify_currentProcess : (s.modify p f).currentProcess = s.currentProcess := rfl
@[simp] theorem modify_idleProcess : (s.modify p f).idleProcess = s.idleProcess := rfl
@[simp] theorem modify_processList : (s.modify p f).processList = s.processList := rfl
@[simp] theorem modify_nextPid : (s.modify p f).nextPid = s.nextPid := rfl
@[simp] theorem modify_readyQueue : (s.modify p f).readyQueue = s.readyQueue := rfl
@[simp] theorem setNext_currentProcess : (s.setNext p v).currentProcess = s.currentProcess := rfl
@[simp] theorem setNext_idleProcess : (s.setNext p v).idleProcess = s.idleProcess := rfl
@[simp] theorem setNext_processList : (s.setNext p v).processList = s.processList := rfl
@[simp] theorem setNext_nextPid : (s.setNext p v).nextPid = s.nextPid := rfl
@[simp] theorem setNext_readyQueue : (s.setNext p v).readyQueue = s.readyQueue := rfl
@[simp] theorem setQueue_currentProcess : (s.setQueue q v).currentProcess = s.currentProcess := rfl
@[simp] theorem setQueue_idleProcess : (s.setQueue q v).idleProcess = s.idleProcess := rfl
@[simp] theorem setQueue_processList : (s.setQueue q v).processList = s.processList := rfl
@[simp] theorem setQueue_nextPid : (s.setQueue q v).nextPid = s.nextPid := rfl
@[simp] theorem setQueue_pcb : (s.setQueue q v).pcb = s.pcb := rfl
@[simp] theorem setQueue_next : (s.setQueue q v).next = s.next := rfl
@[simp] theorem setQueue_prio : (s.setQueue q v).prio = s.prio := rfl

@[simp] theorem setQueue_readyQueue_self : (s.setQueue q v).readyQueue q = v := by
  simp [setQueue]

theorem setQueue_readyQueue_of_ne {q' : Fin 4} (h : q' ≠ q) :
    (s.setQueue q v).readyQueue q' = s.readyQueue q' := by
  simp [setQueue, h]

@[simp] theorem modify_pcb_self : (s.modify p f).pcb p = f (s.pcb p) := by
  simp [State.modify]

theorem modify_pcb_of_ne (h : x ≠ p) : (s.modify p f).pcb x = s.pcb x := by
  simp [State.modify, h]

/-- An update that keeps the `next` field keeps every list. -/
theorem modify_next (hf : ∀ b, (f b).next = b.next) : (s.modify p f).next = s.next := by
  funext x
  by_cases hx : x = p
  · subst hx
    simp [State.next, hf]
  · simp [State.next, modify_pcb_of_ne hx]

/-- An update that keeps the priority keeps every process in its queue. -/
theorem modify_prio (hf : ∀ b, (f b).priority = b.priority) : (s.modify p f).prio = s.prio := by
  funext x
  by_cases hx : x = p
  · subst hx
    simp [prio, hf]
  · simp [prio, modify_pcb_of_ne hx]

@[simp] theorem setNext_prio : (s.setNext p v).prio = s.prio := modify_prio fun _ => rfl

@[simp] theorem setNext_next_self : (s.setNext p v).next p = v := by
  simp [State.next, setNext]

theorem setNext_next_of_ne (h : x ≠ p) : (s.setNext p v).next x = s.next x := by
  simp [State.next, setNext, modify_pcb_of_ne h]

@[simp] theorem setNext_state : ((s.setNext p v).pcb x).state = (s.pcb x).state := by
  by_cases hx : x = p
  · subst hx
    simp [setNext]
  · simp [setNext, modify_pcb_of_ne hx]

end Fields

/-! ## The clock -/

/-- `s'` differs from `s` only in the clock fields of control blocks. -/
structure Ticked (s s' : State) : Prop where
  pcb : ∀ x, s'.pcb x =
    { s.pcb x with quantum := (s'.pcb x).quantum, totalTime := (s'.pcb x).totalTime }
  queues : s'.readyQueue = s.readyQueue
  current : s'.currentProcess = s.currentProcess
  idle : s'.idleProcess = s.idleProcess
  list : s'.processList = s.processList

section Clock

variable {s s' : State}

theorem Ticked.refl (s : State) : Ticked s s := ⟨fun _ => rfl, rfl, rfl, rfl, rfl⟩

theorem ticked_modify {p : Nat} {f : Pcb → Pcb}
    (hf : ∀ b, f b = { b with quantum := (f b).quantum, totalTime := (f b).totalTime }) :
    Ticked s (s.modify p f) where
  pcb x := by
    by_cases hx : x = p
    · subst hx
      rw [modify_pcb_self]
      exact hf _
    · rw [modify_pcb_of_ne hx]
  queues := rfl
  current := rfl
  idle := rfl
  list := rfl

theorem Ticked.next (h : Ticked s s') : s'.next = s.next := by
  funext x
  rw [State.next, h.pcb x]
  rfl

theorem Ticked.prio (h : Ticked s s') : s'.prio = s.prio := by
  funext x
  have hpriority : (s'.pcb x).priority = (s.pcb x).priority := by rw [h.pcb x]
  simp only [State.prio, hpriority]

theorem Ticked.state (h : Ticked s s') (x : Nat) : (s'.pcb x).state = (s.pcb x).state := by
  rw [h.pcb x]

/-- `yield` is `schedule` with an empty quantum. -/
theorem yield_cases (s : State) : ∃ s₁, Ticked s s₁ ∧ yield s = schedule s₁ := by
  refine ⟨_, ?_, rfl⟩
  exact ticked_modify fun _ => rfl

/-- A tick updates the clock fields, and calls `schedule` when the quantum has run out. -/
theorem schedulerTick_cases (hcur : s.currentProcess ≠ 0) :
    ∃ s₁, Ticked s s₁ ∧
      (1 < (s.pcb s.currentProcess).quantum ∧ schedulerTick s = .ok (s₁, none) ∨
        (s.pcb s.currentProcess).quantum ≤ 1 ∧ schedulerTick s = schedule s₁) := by
  unfold schedulerTick
  rw [if_neg hcur]
  by_cases hpos : 0 < (s.pcb s.currentProcess).quantum
  · simp only [if_pos hpos, modify_currentProcess, modify_pcb_self]
    by_cases hzero : (s.pcb s.currentProcess).quantum - 1 = 0
    · refine ⟨_, ?_, Or.inr ⟨by omega, if_pos hzero⟩⟩
      exact ticked_modify fun _ => rfl
    · refine ⟨_, ?_, Or.inl ⟨by omega, if_neg hzero⟩⟩
      exact ticked_modify fun _ => rfl
  · simp only [if_neg hpos]
    refine ⟨s, Ticked.refl s, Or.inr ⟨by omega, if_pos (by omega)⟩⟩

end Clock

end Munux.Process
