import Munux.Process.Lifecycle
import Munux.Process.ReadyQueue

/-!
# The timer interrupt and the context switch

`irq_handler` of `kernel/interrupts/idt.c` sends the end-of-interrupt command after the registered
handler has returned. The timer's handler is `scheduler_tick`, which may leave through a context
switch instead. Whether the command is then ever sent depends on how the process that goes on was
suspended: one that was itself switched away from inside `irq_handler` returns there and sends it,
one that has never run or that gave up the processor by `yield` does not.

The machine keeps the in-service bit of IRQ0, the interrupt flag, and the last suspension of each
process. Control is always in the code of the current process between two events.
-/

namespace Munux.Process

open State

/-! ## The machine -/

/-- How a process was last switched away from; `inYield` keeps the interrupt flag it had. -/
inductive Suspension where
  | fresh
  | inHandler
  | inYield (iflag : Bool)
  deriving DecidableEq, Repr

/-- The scheduler, the in-service bit of IRQ0, the interrupt flag, and how each process was
suspended. -/
structure Machine where
  sched : State
  inService : Bool
  iflag : Bool
  suspension : Nat → Suspension

/-- The interrupt flag in a flags word. -/
def interruptFlag (eflags : Nat) : Bool := eflags.testBit 9

namespace Machine

/-- The end-of-interrupt command. -/
def eoi (m : Machine) : Machine := { m with inService := false }

/-- The end of `irq_handler` and of its stub: the command, then `sti` and `iret`. The interrupted
code had interrupts enabled. -/
def irqReturn (m : Machine) : Machine := { m.eoi with iflag := true }

/-- A process goes on from where it was suspended. -/
def resume (m : Machine) : Suspension → Machine
  | .fresh => { m with iflag := interruptFlag initialEflags }
  | .inHandler => m.irqReturn
  | .inYield iflag => { m with iflag := iflag }

/-- `switch_to_process`: the old process is suspended, the next one goes on. -/
def switch (m : Machine) (how : Suspension) (old next : Nat) : Machine :=
  let suspension := Function.update m.suspension old how
  { m with suspension := suspension }.resume (suspension next)

/-- The end of a call that may have switched: `back` is what happens if it has not. -/
def leave (m : Machine) (how : Suspension) (back : Machine → Machine) : Switch → Machine
  | none => back m
  | some (old, next) => m.switch how old next

/-- `irq_handler` for IRQ0, vector 32; `scheduler_tick` is the handler registered for it. -/
def irqHandler (m : Machine) : Outcome Machine := do
  let (sched, sw) ← schedulerTick m.sched
  return { m with sched := sched }.leave .inHandler irqReturn sw

end Machine

/-- What can happen while a process runs. -/
inductive Event where
  | timer
  | yield
  | add (p : Nat)
  | setIf (iflag : Bool)
  deriving DecidableEq, Repr

/-- Delivery needs the interrupt flag, and the bit clear; it sets the bit and clears the flag. -/
def Event.enabled (m : Machine) : Event → Prop
  | .timer => m.iflag = true ∧ m.inService = false
  | _ => True

instance (m : Machine) (e : Event) : Decidable (e.enabled m) :=
  match e with
  | .timer => inferInstanceAs (Decidable (_ ∧ _))
  | .yield => isTrue trivial
  | .add _ => isTrue trivial
  | .setIf _ => isTrue trivial

def Event.step (m : Machine) : Event → Outcome Machine
  | .timer => { m with inService := true, iflag := false }.irqHandler
  | .yield => do
      let (sched, sw) ← Process.yield m.sched
      return { m with sched := sched }.leave (.inYield m.iflag) id sw
  | .add p => schedulerAddProcess m.sched p >>= fun sched => .ok { m with sched := sched }
  | .setIf iflag => .ok { m with iflag := iflag }

/-- A run of events that satisfy `ok`. -/
inductive Event.Run (ok : Machine → Event → Prop) (m₀ : Machine) : Machine → Prop
  | start : Run ok m₀ m₀
  | next {m m' : Machine} (e : Event) :
      Run ok m₀ m → e.enabled m → ok m e → e.step m = .ok m' → Run ok m₀ m'

/-! ## Which process goes on -/

/-- The queue that `schedule` is about to put the running process back into. -/
def GoesBack (s : State) (q : Fin 4) : Prop :=
  (s.pcb s.currentProcess).state = .running ∧ q = s.prio s.currentProcess

instance (s : State) (q : Fin 4) : Decidable (GoesBack s q) := inferInstanceAs (Decidable (_ ∧ _))

/-- The process that `schedule` would run: the head of the highest queue in use, where a running
process counts for the queue it goes back into. -/
def candidate (s : State) : Nat :=
  match priorities.find? fun q => s.readyQueue q ≠ 0 ∨ GoesBack s q with
  | some q => if s.readyQueue q = 0 then s.currentProcess else s.readyQueue q
  | none => s.idleProcess

section Candidate

variable {s s' : State} {old next : Nat}

/-- `scheduler_add_process` starts an empty queue, and leaves every other head. -/
theorem schedulerAddProcess_heads {p : Nat} (hp : p ≠ 0) (h : schedulerAddProcess s p = .ok s') :
    (∀ q, s'.readyQueue q =
      if q = s.prio p ∧ s.readyQueue q = 0 then p else s.readyQueue q) ∧
      s'.currentProcess = s.currentProcess ∧ s'.idleProcess = s.idleProcess := by
  unfold schedulerAddProcess at h
  rw [if_neg hp] at h
  have hprio : (s.modify p fun b => { b with state := .ready, quantum := defaultQuantum }).prio =
      s.prio := modify_prio fun _ => rfl
  simp only [hprio, modify_readyQueue] at h
  split_ifs at h with hempty
  · obtain rfl := Outcome.ok.inj h
    refine ⟨?_, rfl, rfl⟩
    intro q
    by_cases hq : q = s.prio p
    · subst hq
      simp [hempty]
    · rw [if_neg fun hc => hq hc.1]
      exact setQueue_readyQueue_of_ne hq
  · obtain ⟨last, -, h⟩ := Outcome.bind_eq_ok.1 h
    obtain rfl := Outcome.ok.inj h
    refine ⟨?_, rfl, rfl⟩
    intro q
    rw [if_neg]
    · rfl
    · rintro ⟨rfl, hc⟩
      exact hempty hc

/-- Once the running process is back in its queue, the selection is the candidate. -/
theorem select_candidate {s₁ : State} (hcur : s.currentProcess ≠ 0)
    (hidle : s₁.idleProcess = s.idleProcess)
    (hheads : ∀ q, s₁.readyQueue q =
      if GoesBack s q ∧ s.readyQueue q = 0 then s.currentProcess else s.readyQueue q) :
    (if (selectNextProcess s₁).1 = 0 then s₁.idleProcess else (selectNextProcess s₁).1) =
      candidate s := by
  have hused : (fun q => decide (s₁.readyQueue q ≠ 0)) =
      fun q => decide (s.readyQueue q ≠ 0 ∨ GoesBack s q) := by
    funext q
    rw [decide_eq_decide, hheads q]
    split_ifs with hback
    · exact iff_of_true hcur (Or.inr hback.1)
    · refine ⟨Or.inl, ?_⟩
      intro hor
      by_contra hzero
      exact hback ⟨hor.resolve_left (not_not_intro hzero), hzero⟩
  unfold selectNextProcess candidate
  rw [hused]
  cases hfind : priorities.find?
      fun q => decide (s.readyQueue q ≠ 0 ∨ GoesBack s q) with
  | none => simp only [hidle, ite_self]
  | some q =>
      have hq : s.readyQueue q ≠ 0 ∨ GoesBack s q := by simpa using List.find?_some hfind
      have hhead : s₁.readyQueue q = if s.readyQueue q = 0 then s.currentProcess
          else s.readyQueue q := by
        rw [hheads q]
        by_cases hzero : s.readyQueue q = 0
        · rw [if_pos ⟨hq.resolve_left (not_not_intro hzero), hzero⟩, if_pos hzero]
        · rw [if_neg fun hc => hzero hc.2, if_neg hzero]
      have hne : s₁.readyQueue q ≠ 0 := by
        rw [hhead]
        split_ifs with hzero
        · exact hcur
        · exact hzero
      exact (if_neg hne).trans hhead

/-- **The candidate is what runs.** -/
theorem schedule_choice {sw : Switch} (hcur : s.currentProcess ≠ 0)
    (h : schedule s = .ok (s', sw)) : s'.currentProcess = candidate s ∧
      sw = if candidate s = s.currentProcess then none
        else some (s.currentProcess, candidate s) := by
  unfold schedule at h
  rw [if_neg hcur] at h
  obtain ⟨s₁, hback, h⟩ := Outcome.bind_eq_ok.1 h
  have hkept : s₁.currentProcess = s.currentProcess ∧
      (if (selectNextProcess s₁).1 = 0 then s₁.idleProcess else (selectNextProcess s₁).1) =
        candidate s := by
    unfold requeueCurrent at hback
    by_cases hrun : (s.pcb s.currentProcess).state = .running
    · rw [if_pos hrun] at hback
      obtain ⟨hheads, hcur₁, hidle₁⟩ := schedulerAddProcess_heads hcur hback
      exact ⟨hcur₁, select_candidate hcur hidle₁ fun q => by simp [hheads q, GoesBack, hrun]⟩
    · rw [if_neg hrun] at hback
      obtain rfl := Outcome.ok.inj hback
      exact ⟨rfl, select_candidate hcur rfl fun q => by simp [GoesBack, hrun]⟩
  -- `select_next_process` moves a head; the two globals stay.
  have hglobals : (selectNextProcess s₁).2.idleProcess = s₁.idleProcess ∧
      (selectNextProcess s₁).2.currentProcess = s₁.currentProcess := by
    unfold selectNextProcess
    cases priorities.find? fun q => decide (s₁.readyQueue q ≠ 0) <;>
      exact ⟨rfl, rfl⟩
  simp only [Outcome.pure_eq, Outcome.ok.injEq, dispatch, hglobals, hkept] at h
  split_ifs at h ⊢ with hsame
  · simp only [Prod.mk.injEq] at h
    obtain ⟨rfl, rfl⟩ := h
    exact ⟨hglobals.2.trans (hkept.1.trans hsame.symm), rfl⟩
  · simp only [Prod.mk.injEq] at h
    obtain ⟨rfl, rfl⟩ := h
    exact ⟨rfl, rfl⟩

/-- **A switch goes to the candidate.** -/
theorem schedule_switch (h : schedule s = .ok (s', some (old, next))) :
    next = candidate s ∧ next ≠ s.currentProcess := by
  by_cases hcur : s.currentProcess = 0
  · simp [schedule, hcur] at h
  · obtain ⟨-, hsw⟩ := schedule_choice hcur h
    split_ifs at hsw with hsame
    obtain ⟨-, rfl⟩ := Prod.mk.inj (Option.some.inj hsw)
    exact ⟨rfl, hsame⟩

/-- The clock fields do not matter for the choice. -/
theorem Ticked.candidate (h : Ticked s s') : Process.candidate s' = Process.candidate s := by
  have hused : (fun q => decide (s'.readyQueue q ≠ 0 ∨ GoesBack s' q)) =
      fun q => decide (s.readyQueue q ≠ 0 ∨ GoesBack s q) := by
    funext q
    rw [decide_eq_decide, GoesBack, GoesBack, h.queues, h.current, h.state, h.prio]
  unfold Process.candidate
  rw [hused, h.queues, h.current, h.idle]

/-- A tick that switches has found the quantum used up. -/
theorem tick_switch (h : schedulerTick s = .ok (s', some (old, next))) :
    (s.pcb s.currentProcess).quantum ≤ 1 ∧ next = candidate s ∧ next ≠ s.currentProcess := by
  by_cases hcur : s.currentProcess = 0
  · simp [schedulerTick, hcur] at h
  · obtain ⟨s₁, htick, ⟨-, hnone⟩ | ⟨hquantum, hsched⟩⟩ := schedulerTick_cases hcur
    · simp [hnone] at h
    · rw [hsched] at h
      obtain ⟨hnext, hne⟩ := schedule_switch h
      rw [htick.candidate] at hnext
      rw [htick.current] at hne
      exact ⟨hquantum, hnext, hne⟩

end Candidate

/-! ## Runs -/

/-- A timer interrupt either leaves the running process where it is, or goes to one that was
suspended inside `irq_handler`. -/
def Acknowledged (m : Machine) : Event → Prop
  | .timer => 2 ≤ (m.sched.pcb m.sched.currentProcess).quantum ∨
      candidate m.sched = m.sched.currentProcess ∨ m.suspension (candidate m.sched) = .inHandler
  | _ => True

section Runs

variable {m m' m₀ : Machine} {e : Event}

theorem leave_inService {how : Suspension} {back : Machine → Machine} {sw : Switch}
    (h : m.inService = false) (hback : (back m).inService = false) :
    (m.leave how back sw).inService = false := by
  cases sw with
  | none => exact hback
  | some pair =>
      simp only [Machine.leave, Machine.switch]
      cases Function.update m.suspension pair.1 how pair.2 with
      | fresh => exact h
      | inHandler => rfl
      | inYield iflag => exact h

/-- An event that satisfies the condition leaves the bit clear. -/
theorem step_inService (h : m.inService = false) (hok : Acknowledged m e)
    (hstep : e.step m = .ok m') : m'.inService = false := by
  cases e with
  | timer =>
      obtain ⟨⟨s, sw⟩, htick, hm⟩ := Outcome.bind_eq_ok.1 hstep
      obtain rfl := Outcome.ok.inj hm
      cases sw with
      | none => rfl
      | some pair =>
          obtain ⟨old, next⟩ := pair
          obtain ⟨hquantum, hnext, hne⟩ := tick_switch htick
          simp only at hquantum hnext hne
          have hsusp : m.suspension next = .inHandler := by
            rcases hok with hlong | hsame | hin
            · omega
            · exact absurd (hnext.trans hsame) hne
            · rwa [hnext]
          -- Suspended in the handler before, or just now: it goes on there and sends the command.
          have hupd : Function.update m.suspension old .inHandler next = .inHandler := by
            by_cases ho : next = old
            · rw [ho, Function.update_self]
            · rw [Function.update_of_ne ho, hsusp]
          simp only [Machine.leave, Machine.switch, hupd]
          rfl
  | yield =>
      obtain ⟨⟨s, sw⟩, -, hm⟩ := Outcome.bind_eq_ok.1 hstep
      obtain rfl := Outcome.ok.inj hm
      exact leave_inService h h
  | add p =>
      obtain ⟨s, -, hm⟩ := Outcome.bind_eq_ok.1 hstep
      obtain rfl := Outcome.ok.inj hm
      exact h
  | setIf iflag =>
      obtain rfl := Outcome.ok.inj hstep
      exact h

/-- **No process runs with the timer interrupt unacknowledged**, in every run in which no timer
interrupt leaves `irq_handler` through a switch to a process that was not suspended there. -/
theorem timer_acknowledged (hstart : m₀.inService = false) (hrun : Event.Run Acknowledged m₀ m) :
    m.iflag = true → m.inService = false := by
  have hclear : m.inService = false := by
    induction hrun with
    | start => exact hstart
    | next e _ _ hok hstep ih => exact step_inService ih hok hstep
  exact fun _ => hclear

end Runs

/-- The idle process has one tick left, and a second process has just been created. -/
def oneTickLeft : Machine where
  sched := idleOnly.modify 16 fun b => { b with quantum := 1 }
  inService := false
  iflag := true
  suspension _ := .fresh

/-- The machine after an event that returns. -/
@[irreducible] def Event.after (m : Machine) (e : Event) : Machine := (e.step m).getD m

theorem Event.Run.after {ok : Machine → Event → Prop} {m₀ m : Machine} (h : Event.Run ok m₀ m)
    (e : Event) (hen : e.enabled m) (hok : ok m e) (hret : (e.step m).isOk = true) :
    Event.Run ok m₀ (e.after m) := by
  unfold Event.after
  exact .next e h hen hok (Outcome.eq_ok_getD hret m)

/-- **A new process runs with the timer interrupt in service.** It was made ready, and the timer
interrupt that ends the quantum of the idle process switches to it. -/
theorem fresh_process_unacknowledged :
    ∃ m, oneTickLeft.inService = false ∧ Event.Run (fun _ _ => True) oneTickLeft m ∧
      ¬ (m.iflag = true → m.inService = false) := by
  let m₁ := Event.after oneTickLeft (.add 32)
  let m₂ := Event.after m₁ .timer
  have h₀ : Event.Run (fun _ _ => True) oneTickLeft oneTickLeft := .start
  have h₁ := h₀.after (.add 32) trivial trivial (by decide +kernel)
  have h₂ := h₁.after .timer (by decide +kernel) trivial (by decide +kernel)
  have hflag : m₂.iflag = true := by decide +kernel
  have hbit : m₂.inService = true := by decide +kernel
  refine ⟨m₂, rfl, h₂, ?_⟩
  intro h
  rw [h hflag] at hbit
  cases hbit

/-- The idle process yields to a new process, and the timer interrupts that one. -/
theorem timer_acknowledged_after_yield :
    ∃ m, Event.Run Acknowledged oneTickLeft m ∧ m.sched.currentProcess = 32 ∧ m.iflag = true ∧
      (m.iflag = true → m.inService = false) := by
  let m₁ := Event.after oneTickLeft (.add 32)
  let m₂ := Event.after m₁ .yield
  let m₃ := Event.after m₂ .timer
  have h₀ : Event.Run Acknowledged oneTickLeft oneTickLeft := .start
  have h₁ := h₀.after (.add 32) trivial trivial (by decide +kernel)
  have h₂ := h₁.after .yield trivial trivial (by decide +kernel)
  have h₃ := h₂.after .timer (by decide +kernel) (Or.inl (by decide +kernel)) (by decide +kernel)
  exact ⟨m₃, h₃, by decide +kernel, by decide +kernel, timer_acknowledged rfl h₃⟩

end Munux.Process
