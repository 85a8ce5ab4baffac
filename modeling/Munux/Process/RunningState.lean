import Munux.Process.Preemption
import Munux.Process.RoundRobin

/-!
# Who is `PROCESS_RUNNING`

`schedule` marks a running process ready when it puts it back into its queue, and marks the process
that it switches to as running. When it selects the current process again it switches to nobody, and
the mark is not put back.

`FirstInLine` says when that happens, and `running_iff` that nothing else goes wrong: at every other
call of `schedule` the current process is running afterwards, and no other is.
-/

namespace Munux.Process

open State

/-- The current process heads the highest queue in use, or is about to be put back into an empty one
above those; or no queue is in use, and it is the idle process. -/
def FirstInLine (s : State) : Prop :=
  (∃ q, (s.readyQueue q = s.currentProcess ∨ s.readyQueue q = 0 ∧ GoesBack s q) ∧
    ∀ q', q < q' → s.readyQueue q' = 0 ∧ ¬GoesBack s q') ∨
  ((∀ q, s.readyQueue q = 0 ∧ ¬GoesBack s q) ∧ s.currentProcess = s.idleProcess)

/-- Of the processes `procs`, no other than the current one is running. -/
def AtMostCurrent (procs : Set Nat) (s : State) : Prop :=
  ∀ x ∈ procs, (s.pcb x).state = .running → x = s.currentProcess

/-- The current process is running, and no other. -/
structure OnlyCurrent (procs : Set Nat) (s : State) : Prop where
  current : (s.pcb s.currentProcess).state = .running
  others : AtMostCurrent procs s

/-- A call that was made. -/
structure Made where
  before : State
  op : Op
  after : State

/-- The calls of a run, the latest first. -/
inductive Calls (s₀ : State) : List Made → State → Prop
  | start : Calls s₀ [] s₀
  | call {cs : List Made} {s s' : State} (op : Op) (hrun : Calls s₀ cs s) (hallow : Allowed s op)
      (hcall : step s op = .ok s') : Calls s₀ (⟨s, op, s'⟩ :: cs) s'

/-- The invariant of a run. -/
structure Marked (procs : Set Nat) (s : State) (r : Fin 4 → List Nat) : Prop where
  rings : Rings s r
  current : s.currentProcess ≠ 0 ∧ s.currentProcess < wordCount
  idle : s.idleProcess ≠ 0 ∧ s.idleProcess < wordCount
  marked : AtMostCurrent procs s

section Choice

variable {s s' : State} {procs : Set Nat} {r r' : Fin 4 → List Nat} {sw : Switch} {p : Nat}

/-- The candidate is the current process when it is first in line. -/
theorem candidate_eq_iff (hcur : s.currentProcess ≠ 0) :
    candidate s = s.currentProcess ↔ FirstInLine s := by
  unfold candidate FirstInLine
  cases hfind : priorities.find? fun q => decide (s.readyQueue q ≠ 0 ∨ GoesBack s q) with
  | none =>
      have hnone : ∀ q, s.readyQueue q = 0 ∧ ¬GoesBack s q := by
        intro q
        have hq := List.find?_eq_none.1 hfind q (mem_priorities q)
        simpa only [decide_eq_true_eq, not_or, ne_eq, not_not] using hq
      constructor
      · exact fun heq => .inr ⟨hnone, heq.symm⟩
      · intro hline
        rcases hline with ⟨q, hq, -⟩ | ⟨-, heq⟩
        · rcases hq with hq | hq
          · exact absurd (hq.symm.trans (hnone q).1) hcur
          · exact absurd hq.2 (hnone q).2
        · exact heq.symm
  | some q =>
      obtain ⟨hq, habove⟩ := find_priorities hfind
      have hq : s.readyQueue q ≠ 0 ∨ GoesBack s q := of_decide_eq_true hq
      have habove : ∀ q', q < q' → s.readyQueue q' = 0 ∧ ¬GoesBack s q' := by
        intro q' hlt
        simpa only [decide_eq_false_iff_not, not_or, ne_eq, not_not] using habove q' hlt
      have hself : (if s.readyQueue q = 0 then s.currentProcess else s.readyQueue q) =
          s.currentProcess ↔ s.readyQueue q = s.currentProcess ∨
            s.readyQueue q = 0 ∧ GoesBack s q := by
        split_ifs with hzero
        · exact iff_of_true rfl (.inr ⟨hzero, hq.resolve_left (not_not_intro hzero)⟩)
        · exact ⟨.inl, fun hor => hor.resolve_right fun hand => hzero hand.1⟩
      simp only [hself]
      constructor
      · exact fun hhead => .inl ⟨q, hhead, habove⟩
      · intro hline
        rcases hline with ⟨q', hq', habove'⟩ | ⟨hnone, -⟩
        · -- Both are the highest queue in use.
          have hused : s.readyQueue q' ≠ 0 ∨ GoesBack s q' := by
            rcases hq' with heq | hand
            · exact .inl (heq ▸ hcur)
            · exact .inr hand.2
          rcases lt_trichotomy q q' with hlt | rfl | hlt
          · exact absurd hused (not_or.2 ⟨not_not_intro (habove q' hlt).1, (habove q' hlt).2⟩)
          · exact hq'
          · exact absurd hq (not_or.2 ⟨not_not_intro (habove' q hlt).1, (habove' q hlt).2⟩)
        · exact absurd hq (not_or.2 ⟨not_not_intro (hnone q).1, (hnone q).2⟩)

/-- **One call of `schedule`.** It leaves the current process running exactly when that was not
first in line, and no other running in any case. -/
theorem Marked.schedule (h : Marked procs s r) :
    ∃ s' sw r', schedule s = .ok (s', sw) ∧ Marked procs s' r' ∧
      (OnlyCurrent procs s' ↔ ¬FirstInLine s) := by
  obtain ⟨s', sw, r', hcall, hsched⟩ := schedule_spec h.rings h.current.1 h.current.2
  obtain ⟨hchoice, -⟩ := schedule_choice h.current.1 hcall
  have hmarked : AtMostCurrent procs s' := by
    intro x hx hrun
    by_contra hne
    rw [hsched.state, if_neg fun hand => hne hand.1] at hrun
    split_ifs at hrun with hold
    exact hold ⟨h.marked x hx hrun, hrun⟩
  have hcur : s'.currentProcess ≠ 0 ∧ s'.currentProcess < wordCount := by
    rcases hsched.current with hidle | ⟨q, hmem⟩
    · rw [hidle]
      exact h.idle
    · exact hsched.rings.addr q _ hmem
  refine ⟨s', sw, r', hcall, ⟨hsched.rings, hcur, hsched.idle ▸ h.idle, hmarked⟩, ?_⟩
  rw [← candidate_eq_iff h.current.1, ← hchoice]
  constructor
  · intro honly hsame
    have hrun := honly.current
    rw [hsched.state, if_neg fun hand => hand.2 hsame] at hrun
    split_ifs at hrun with hold
    exact hold ⟨hsame, hrun⟩
  · intro hne
    refine ⟨?_, hmarked⟩
    rw [hsched.state, if_pos ⟨rfl, hne⟩]

/-- Adding another process does not touch the mark of the current one. -/
theorem Marked.add (h : Marked procs s r) (hp : p ≠ 0) (hlt : p < wordCount) :
    ∃ s' r', schedulerAddProcess s p = .ok s' ∧ Marked procs s' r' := by
  obtain ⟨s', hcall, hadd, hrings⟩ := schedulerAddProcess_spec h.rings hp hlt
  refine ⟨s', _, hcall, hrings, hadd.current ▸ h.current, hadd.idle ▸ h.idle, ?_⟩
  intro x hx hrun
  rw [hadd.state] at hrun
  split_ifs at hrun
  rw [hadd.current]
  exact h.marked x hx hrun

theorem Ticked.marked (h : Ticked s s') (hmark : Marked procs s r) : Marked procs s' r where
  rings := h.rings hmark.rings
  current := h.current ▸ hmark.current
  idle := h.idle ▸ hmark.idle
  marked := by
    intro x hx hrun
    rw [h.state] at hrun
    rw [h.current]
    exact hmark.marked x hx hrun

theorem Ticked.firstInLine (h : Ticked s s') : FirstInLine s' ↔ FirstInLine s := by
  unfold FirstInLine GoesBack
  rw [h.queues, h.current, h.idle, h.state, h.prio]

/-- **One call.** It returns and keeps the invariant; if it decides, the current process is running
afterwards, and no other, exactly when it was not first in line. -/
theorem Marked.step (h : Marked procs s r) {op : Op} (hallow : Allowed s op) :
    ∃ s' r', step s op = .ok s' ∧ Marked procs s' r' ∧
      (decides s op = true → (OnlyCurrent procs s' ↔ ¬FirstInLine s)) := by
  by_cases hop : ∀ p, op ≠ .add p
  · obtain ⟨s₁, htick, ⟨hno, hstep⟩ | ⟨-, hstep⟩⟩ := step_cases hop h.current.1
    · refine ⟨s₁, r, hstep, htick.marked h, ?_⟩
      intro hyes
      rw [hno] at hyes
      cases hyes
    · obtain ⟨s', sw, r', hcall, hmark, hiff⟩ := (htick.marked h).schedule
      rw [htick.firstInLine] at hiff
      refine ⟨s', r', ?_, hmark, fun _ => hiff⟩
      rw [hstep, hcall, Outcome.ok_bind]
  · simp only [ne_eq, not_forall, not_not] at hop
    obtain ⟨p, rfl⟩ := hop
    obtain ⟨s', r', hcall, hmark⟩ := h.add hallow.1 hallow.2.1
    exact ⟨s', r', hcall, hmark, nofun⟩

end Choice

section Runs

variable {s₀ s : State} {procs : Set Nat} {cs : List Made}

/-- Nobody runs right after boot. -/
theorem marked_booted (hboot : Booted s₀) (hnobody : ∀ x ∈ procs, (s₀.pcb x).state ≠ .running) :
    Marked procs s₀ fun _ => [] where
  rings := (inv_booted hboot).rings
  current := hboot.current ▸ hboot.idle
  idle := hboot.idle
  marked x hx hrun := absurd hrun (hnobody x hx)

/-- **What every run preserves.** -/
theorem marked_calls (hboot : Booted s₀) (hnobody : ∀ x ∈ procs, (s₀.pcb x).state ≠ .running)
    (hrun : Calls s₀ cs s) : (∃ r, Marked procs s r) ∧ ∀ c ∈ cs, decides c.before c.op = true →
      (OnlyCurrent procs c.after ↔ ¬FirstInLine c.before) := by
  induction hrun with
  | start => exact ⟨⟨_, marked_booted hboot hnobody⟩, fun c hc => absurd hc List.not_mem_nil⟩
  | call op _ hallow hcall ih =>
      obtain ⟨⟨r, hmark⟩, hall⟩ := ih
      obtain ⟨s', r', hcall', hmark', hiff⟩ := hmark.step hallow
      obtain rfl := Outcome.ok.inj (hcall'.symm.trans hcall)
      refine ⟨⟨r', hmark'⟩, ?_⟩
      intro c hc
      rcases List.mem_cons.1 hc with rfl | hc
      · exact hiff
      · exact hall c hc

/-- **Exactly the current process is running** after every call of `schedule` in a run, if and only
if no such call finds the current process first in line. -/
theorem running_iff (hboot : Booted s₀) (hnobody : ∀ x ∈ procs, (s₀.pcb x).state ≠ .running)
    (hrun : Calls s₀ cs s) :
    (∀ c ∈ cs, decides c.before c.op = true → OnlyCurrent procs c.after) ↔
      ∀ c ∈ cs, decides c.before c.op = true → ¬FirstInLine c.before := by
  obtain ⟨-, hall⟩ := marked_calls hboot hnobody hrun
  constructor
  · intro honly c hc hdec
    exact (hall c hc hdec).1 (honly c hc hdec)
  · intro hline c hc hdec
    exact (hall c hc hdec).2 (hline c hc hdec)

theorem Calls.after {op : Op} (h : Calls s₀ cs s) (hallow : Allowed s op)
    (hret : (step s op).isOk = true) :
    Calls s₀ (⟨s, op, Process.after s op⟩ :: cs) (Process.after s op) :=
  .call op h hallow (Outcome.eq_ok_getD hret s)

/-- **The current process is not running.** With no other process, the first `schedule` after boot
selects the idle process again. -/
theorem current_not_running :
    ∃ s, Booted idleOnly ∧ (∀ x, (idleOnly.pcb x).state ≠ .running) ∧
      Calls idleOnly [⟨idleOnly, .schedule, s⟩] s ∧
      (s.pcb s.currentProcess).state = .ready := by
  have hret : (step idleOnly .schedule).isOk = true := by decide +kernel
  refine ⟨_, booted_idleOnly, nofun, Calls.start.after trivial hret, ?_⟩
  decide +kernel

/-- A process that is added gets the processor from the idle process, and is running. -/
theorem running_iff_one_process :
    ∃ s, s.currentProcess = 32 ∧ OnlyCurrent Set.univ s := by
  let s₁ := after idleOnly (.add 32)
  let s₂ := after s₁ .schedule
  have h₁ : Calls idleOnly [⟨idleOnly, .add 32, s₁⟩] s₁ := by
    refine Calls.start.after ⟨by decide, by decide, by decide, ?_⟩ (by decide +kernel)
    exact not_inQueue_of_closed [0] (by decide +kernel) (by decide +kernel) (by decide)
  have h₂ : Calls idleOnly [⟨s₁, .schedule, s₂⟩, ⟨idleOnly, .add 32, s₁⟩] s₂ :=
    h₁.after trivial (by decide +kernel)
  have hline : ¬FirstInLine s₁ := by
    rw [← candidate_eq_iff (by decide +kernel)]
    decide +kernel
  refine ⟨s₂, by decide +kernel, ?_⟩
  have hnobody : ∀ x ∈ Set.univ, (idleOnly.pcb x).state ≠ .running := nofun
  refine (running_iff booted_idleOnly hnobody h₂).2 ?_ _ List.mem_cons_self rfl
  intro c hc hdec
  rcases List.mem_pair.1 hc with rfl | rfl
  · exact hline
  · cases hdec

end Runs

end Munux.Process
