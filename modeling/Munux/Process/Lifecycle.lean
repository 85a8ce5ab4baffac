import Munux.Process.Scheduler

/-!
# Creation and termination of processes

`process_init`, `process_create`, `process_terminate` and `process_find_by_pid` of
`kernel/process/process.c`. All processes are on one null-terminated list, `process_list`, which is
threaded through the same `next` field as the ready queues.

The kernel heap appears as an `Allocator`: what `kmalloc` and `kfree` do to a heap state of any
type. A control block that has been freed keeps its contents until its address is handed out again.
-/

namespace Munux.Process

open State

/-- The heap as `process.c` sees it. -/
structure Allocator (M : Type) where
  kmalloc : Nat → M → Outcome (Nat × M)
  kfree : Nat → M → Outcome M

/-- `sizeof(process_t)` -/
def pcbSize : Nat := 116

/-- The size of each of the two stacks of a process. -/
def stackSize : Nat := 8192

/-- The top of a stack whose memory starts at `base`. -/
def stackTop (base : Nat) : Nat := (base + stackSize) % wordCount

/-- The memory of the stack whose top is `top`. -/
def stackBase (top : Nat) : Nat := (top + wordCount - stackSize) % wordCount

/-- The copy loop stops at the terminating zero, or after 31 characters. -/
def copyName (name : List UInt8) : List UInt8 := (name.take 31).takeWhile (· ≠ 0)

/-- The flags a new process starts with: interrupts are enabled. -/
def initialEflags : Nat := 0x202

/-- The control block that `process_create` fills in. -/
def initialPcb (s : State) (name : List UInt8) (entryPoint priority pageDir kernel user : Nat) :
    Pcb where
  pid := s.nextPid
  name := copyName name
  state := .ready
  priority := priority
  context :=
    { esp := stackTop user
      ebp := stackTop user
      eip := entryPoint
      eflags := initialEflags
      cr3 := pageDir }
  pageDir := pageDir
  kernelStack := stackTop kernel
  userStack := stackTop user
  quantum := defaultQuantum
  totalTime := 0
  next := 0
  parent := s.currentProcess

/-- A filled-in control block at `process`; the process number is used up. -/
def State.withNew (s : State) (process : Nat) (b : Pcb) : State :=
  { s with
    pcb := Function.update s.pcb process b
    nextPid := (s.nextPid + 1) % wordCount }

/-- The end of `process_create`: walk to the last process of the list and hang the new one there. -/
def appendProcess (s : State) (process : Nat) : Outcome State := do
  if s.processList = 0 then
    return { s with processList := process }
  let p ← follow (fun x => s.next x == 0) s.next s.processList
  return s.setNext p process

/-- `process_create`. Only the allocation of the control block is checked; `dir` is what
`vmm_get_current_directory` returns. -/
def processCreate {M : Type} (A : Allocator M) (dir : Nat) (s : State) (m : M) (name : List UInt8)
    (entryPoint priority : Nat) : Outcome (Nat × State × M) := do
  let (process, m) ← A.kmalloc pcbSize m
  if process = 0 then
    return (0, s, m)
  let (kernel, m) ← A.kmalloc stackSize m
  let (user, m) ← A.kmalloc stackSize m
  let b := initialPcb s name entryPoint priority dir kernel user
  let s ← appendProcess (s.withNew process b) process
  return (process, s, m)

/-- `process_init`. The name is `"idle"`. -/
def processInit {M : Type} (A : Allocator M) (dir : Nat) (s : State) (m : M) (idleTask : Nat) :
    Outcome (Nat × State × M) := do
  let (process, s, m) ← processCreate A dir s m [105, 100, 108, 101] idleTask 0
  return (process, { s with idleProcess := process, currentProcess := process }, m)

/-- The middle of `process_terminate`: take the process off the list. -/
def unlinkProcess (s : State) (process : Nat) : Outcome State := do
  if s.processList = process then
    return { s with processList := s.next process }
  let p ← follow (fun x => x == 0 || s.next x == process) s.next s.processList
  if p = 0 then
    return s
  return s.setNext p (s.next process)

/-- `process_terminate` -/
def processTerminate {M : Type} (A : Allocator M) (s : State) (m : M) (process : Nat) :
    Outcome (State × M × Switch) := do
  if process = 0 then
    return (s, m, none)
  let s := s.modify process fun b => { b with state := .terminated }
  let s ← unlinkProcess s process
  let m ← A.kfree (stackBase (s.pcb process).kernelStack) m
  let m ← A.kfree (stackBase (s.pcb process).userStack) m
  let m ← A.kfree process m
  if s.currentProcess = process then
    let (s, sw) ← schedule s
    return (s, m, sw)
  return (s, m, none)

/-- `process_find_by_pid`: the walk stops at the process, or at the null pointer. -/
def processFindByPid (s : State) (pid : Nat) : Outcome Nat :=
  follow (fun x => x == 0 || (s.pcb x).pid == pid) s.next s.processList

/-- The three allocations of `process_create` from the heap state `m`, all of them successful. -/
def Succeeds {M : Type} (A : Allocator M) (m : M) : Prop :=
  ∃ process m₁ kernel m₂ user m₃, A.kmalloc pcbSize m = .ok (process, m₁) ∧ process ≠ 0 ∧
    A.kmalloc stackSize m₁ = .ok (kernel, m₂) ∧ kernel ≠ 0 ∧
    A.kmalloc stackSize m₂ = .ok (user, m₃) ∧ user ≠ 0

/-- What `process.c` relies on: the heap hands out only addresses it does not already own to a
caller, and takes back those it is given. `owned m` are the addresses handed out in state `m`. -/
structure Sound {M : Type} (A : Allocator M) (owned : M → Nat → Prop) : Prop where
  kmalloc : ∀ {size m p m'}, A.kmalloc size m = .ok (p, m') → p ≠ 0 →
    p < wordCount ∧ ¬ owned m p ∧ ∀ x, owned m' x ↔ x = p ∨ owned m x
  kfree : ∀ {p m m'}, A.kfree p m = .ok m' → owned m p → ∀ x, owned m' x ↔ x ≠ p ∧ owned m x

theorem stackBase_stackTop {base : Nat} (h : base < wordCount) :
    stackBase (stackTop base) = base := by
  simp only [stackBase, stackTop, stackSize, wordCount] at *
  omega

end Munux.Process
