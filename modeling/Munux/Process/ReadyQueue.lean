import Munux.Process.Scheduler
import Mathlib.Data.List.TakeWhile
import Mathlib.Order.Basic

/-!
# The ready queues as rings

What the scheduler's calls do to the four rings, and when no process is lost.

`select_next_process` leaves the chosen process in its ring and only moves the head past it, so a
running process normally sits in the last place of its own ring. `schedule` then adds it again.
Adding a process that is already a member is not an append: everything behind it is cut off
(`enqueue`). That is harmless while the running process is in the last place, and drops every
process that was added to the ring since, otherwise.

* `Rings s r`: the four queues of `s` are the rings `r`.
* `schedulerAddProcess_spec`, `selectNextProcess_spec`, `schedule_spec`: the calls, on rings.
* `InPlace`: the running process, if it is queued, is in the last place.
* `queues_intact`: runs that keep `InPlace` before each `schedule` lose nothing.
-/

namespace Munux.Process

open State

/-! ## Rings -/

/-- The queues of `s` are the rings `r`, each process in the ring of its priority. -/
structure Rings (s : State) (r : Fin 4 → List Nat) : Prop where
  empty : ∀ q, r q = [] → s.readyQueue q = 0
  ring : ∀ q, r q ≠ [] → Ring s.next (s.readyQueue q) (r q)
  prio : ∀ q, ∀ p ∈ r q, s.prio p = q
  addr : ∀ q, ∀ p ∈ r q, p ≠ 0 ∧ p < wordCount

/-- The ring after `scheduler_add_process p`: up to `p`, then `p` in the last place. A process that
was not a member is appended; one that was loses everything behind it. -/
def enqueue (xs : List Nat) (p : Nat) : List Nat := xs.takeWhile (· ≠ p) ++ [p]

theorem enqueue_of_not_mem {xs : List Nat} {p : Nat} (h : p ∉ xs) : enqueue xs p = xs ++ [p] := by
  have hne : ∀ x ∈ xs, decide (x ≠ p) = true := by
    intro x hx
    simp only [ne_eq, decide_not, Bool.not_eq_true', decide_eq_false_iff_not]
    rintro rfl
    exact h hx
  rw [enqueue, List.takeWhile_eq_self_iff.2 hne]

theorem enqueue_of_mem {pre post : List Nat} {p : Nat} (h : p ∉ pre) :
    enqueue (pre ++ p :: post) p = pre ++ [p] := by
  have hne : ∀ x ∈ pre, decide (x ≠ p) = true := by
    intro x hx
    simp only [ne_eq, decide_not, Bool.not_eq_true', decide_eq_false_iff_not]
    rintro rfl
    exact h hx
  rw [enqueue, List.takeWhile_append_of_pos hne]
  simp

theorem enqueue_ne_nil (xs : List Nat) (p : Nat) : enqueue xs p ≠ [] := by simp [enqueue]

theorem mem_of_mem_enqueue {xs : List Nat} {p x : Nat} (h : x ∈ enqueue xs p) : x ∈ xs ∨ x = p := by
  rcases List.mem_append.1 h with h | h
  · exact Or.inl ((List.takeWhile_prefix _).subset h)
  · exact Or.inr (List.mem_singleton.1 h)

section Spec

variable {s s' : State} {r : Fin 4 → List Nat} {p : Nat} {q : Fin 4}

theorem Rings.queue_eq_zero (h : Rings s r) : s.readyQueue q = 0 ↔ r q = [] := by
  refine ⟨?_, h.empty q⟩
  intro hz
  by_contra hne
  exact (h.addr q _ (h.ring q hne).head_mem).1 hz

/-- A state with the same queues, links and priorities has the same rings. -/
theorem Rings.congr (h : Rings s r) (hq : s'.readyQueue = s.readyQueue)
    (hn : ∀ q, ∀ p ∈ r q, s'.next p = s.next p) (hp : s'.prio = s.prio) : Rings s' r where
  empty q hr := by rw [hq]; exact h.empty q hr
  ring q hr := by rw [hq]; exact (h.ring q hr).congr (hn q)
  prio q p hm := by rw [hp]; exact h.prio q p hm
  addr := h.addr

theorem Rings.modify (h : Rings s r) {f : Pcb → Pcb} (hn : ∀ b, (f b).next = b.next)
    (hp : ∀ b, (f b).priority = b.priority) : Rings (s.modify p f) r :=
  h.congr rfl (fun _ _ _ => by rw [modify_next hn]) (modify_prio hp)

/-- Two rings share no process: they have different priorities. -/
theorem Rings.not_mem_of_ne (h : Rings s r) {q' : Fin 4} (hne : q' ≠ q) {x : Nat} (hx : x ∈ r q) :
    x ∉ r q' := fun hx' => hne ((h.prio q' x hx').symm.trans (h.prio q x hx))

/-- What `scheduler_add_process p` does apart from the rings. -/
structure Added (s s' : State) (p : Nat) : Prop where
  current : s'.currentProcess = s.currentProcess
  idle : s'.idleProcess = s.idleProcess
  list : s'.processList = s.processList
  prio : s'.prio = s.prio
  state : ∀ x, (s'.pcb x).state = if x = p then .ready else (s.pcb x).state

/-- A new head for one queue, everything else kept. -/
theorem Rings.update {xs : List Nat} (h : Rings s r) (hprio : s'.prio = s.prio)
    (hring : Ring s'.next (s'.readyQueue q) xs)
    (hxs : ∀ x ∈ xs, s.prio x = q ∧ x ≠ 0 ∧ x < wordCount)
    (hother : ∀ q', q' ≠ q → s'.readyQueue q' = s.readyQueue q' ∧
      ∀ x ∈ r q', s'.next x = s.next x) : Rings s' (Function.update r q xs) := by
  have hcases : ∀ q', (q' = q ∧ Function.update r q xs q' = xs) ∨
      (q' ≠ q ∧ Function.update r q xs q' = r q') := by
    intro q'
    by_cases hq : q' = q
    · exact Or.inl ⟨hq, by rw [hq, Function.update_self]⟩
    · exact Or.inr ⟨hq, Function.update_of_ne hq _ _⟩
  constructor <;> intro q' <;> rcases hcases q' with ⟨rfl, he⟩ | ⟨hne, he⟩ <;> rw [he]
  · exact fun hnil => absurd hnil hring.nonempty
  · rw [(hother q' hne).1]
    exact h.empty q'
  · exact fun _ => hring
  · intro hnil
    rw [(hother q' hne).1]
    exact (h.ring q' hnil).congr (hother q' hne).2
  · intro x hx
    rw [hprio]
    exact (hxs x hx).1
  · intro x hx
    rw [hprio]
    exact h.prio q' x hx
  · exact fun x hx => (hxs x hx).2
  · exact h.addr q'

/-- Unlinking the member behind another. -/
theorem Rings.unlink_behind {x : Nat} {pre post : List Nat} (h : Rings s r)
    (hr : r q = pre ++ x :: p :: post) :
    Rings (s.setNext x (s.next p)) (Function.update r q (pre ++ x :: post)) := by
  have hring := h.ring q (by simp [hr])
  have hnd := hring.nodup
  rw [hr] at hring hnd
  refine h.update setNext_prio (hring.unlink setNext_next_self ?_) ?_ ?_
  · intro y hy
    apply setNext_next_of_ne
    intro hyx
    rw [hyx] at hy
    have hmid := List.nodup_middle.1 hnd
    rw [List.nodup_cons] at hmid
    refine hmid.1 ?_
    rcases List.mem_append.1 hy with hy | hy
    · exact List.mem_append_left _ hy
    · exact List.mem_append_right _ (List.mem_cons_of_mem _ hy)
  · intro y hy
    have hyr : y ∈ r q := by
      rw [hr]
      simp only [List.mem_append, List.mem_cons] at hy ⊢
      tauto
    exact ⟨h.prio q y hyr, h.addr q y hyr⟩
  · intro q' hne
    refine ⟨rfl, fun y hy => setNext_next_of_ne ?_⟩
    intro hyx
    exact h.not_mem_of_ne hne (hr ▸ by simp : x ∈ r q) (hyx ▸ hy)

/-- Linking a process in between the last member of a ring and its head. A member is linked in
again: the ring is cut behind it. -/
theorem ring_enqueue {h : Nat} {xs pre : List Nat} {last : Nat} (hring : Ring s.next h xs)
    (hlast : xs = pre ++ [last]) :
    Ring ((s.setNext last p).setNext p h).next h (enqueue xs p) := by
  have hkeep : ∀ x, x ≠ p → x ≠ last → ((s.setNext last p).setNext p h).next x = s.next x := by
    intro x hxp hxl
    rw [setNext_next_of_ne hxp, setNext_next_of_ne hxl]
  by_cases hin : p ∈ xs
  · obtain ⟨l, t, hsplit⟩ := List.append_of_mem hin
    have hnd : (l ++ p :: t).Nodup := hsplit ▸ hring.nodup
    have hpl : p ∉ l := fun hc => List.disjoint_of_nodup_append hnd hc List.mem_cons_self
    rw [hsplit, enqueue_of_mem hpl]
    rw [hsplit] at hring hlast
    refine hring.cut setNext_next_self fun y hy => hkeep y (fun hyp => hpl (hyp ▸ hy)) ?_
    rintro rfl
    have hyt : y ∈ p :: t := by
      have hsuf : y ∈ (l ++ p :: t).getLast? := by rw [hlast]; simp
      rw [List.getLast?_append_of_ne_nil _ (by simp)] at hsuf
      exact List.mem_of_getLast? hsuf
    exact List.disjoint_of_nodup_append hnd hy hyt
  · rw [enqueue_of_not_mem hin, hlast]
    rw [hlast] at hring hin
    have hpl : last ≠ p := fun hc => hin (by simp [hc])
    refine hring.append hin ?_ setNext_next_self fun y hy => hkeep y ?_ ?_
    · rw [setNext_next_of_ne hpl, setNext_next_self]
    · rintro rfl
      exact hin (by simp [hy])
    · rintro rfl
      exact List.disjoint_of_nodup_append hring.nodup hy (by simp)

/-- **Adding a process.** The call returns, and the ring of its priority becomes `enqueue`. -/
theorem schedulerAddProcess_spec (h : Rings s r) (hp : p ≠ 0) (hlt : p < wordCount) :
    ∃ s', schedulerAddProcess s p = .ok s' ∧ Added s s' p ∧
      Rings s' (Function.update r (s.prio p) (enqueue (r (s.prio p)) p)) := by
  unfold schedulerAddProcess
  rw [if_neg hp]
  set s₁ := s.modify p fun b => { b with state := .ready, quantum := defaultQuantum } with hs₁
  have h₁ : Rings s₁ r := h.modify (fun _ => rfl) (fun _ => rfl)
  have hprio₁ : s₁.prio = s.prio := modify_prio fun _ => rfl
  have hstate₁ : ∀ x, (s₁.pcb x).state = if x = p then .ready else (s.pcb x).state := by
    intro x
    by_cases hx : x = p
    · subst hx
      simp [hs₁]
    · simp [hs₁, modify_pcb_of_ne hx, hx]
  simp only [hprio₁]
  set q := s.prio p with hq
  have hpq : ∀ q', q' ≠ q → p ∉ r q' := fun q' hne hmem => hne (h.prio q' p hmem).symm
  have hmem : ∀ x ∈ enqueue (r q) p, s₁.prio x = q ∧ x ≠ 0 ∧ x < wordCount := by
    intro x hx
    rw [hprio₁]
    rcases mem_of_mem_enqueue hx with hx | rfl
    · exact ⟨h.prio q x hx, h.addr q x hx⟩
    · exact ⟨hq.symm, hp, hlt⟩
  by_cases hempty : s₁.readyQueue q = 0
  · rw [if_pos hempty]
    have hnil : r q = [] := h₁.queue_eq_zero.1 hempty
    refine ⟨_, rfl, ⟨rfl, rfl, rfl, by simp [hprio₁], by simpa using hstate₁⟩, ?_⟩
    rw [hnil] at hmem ⊢
    refine h₁.update (by simp) ?_ hmem fun q' hne => ⟨?_, ?_⟩
    · simp only [setNext_readyQueue, setQueue_readyQueue_self, enqueue, List.takeWhile_nil,
        List.nil_append]
      exact ⟨⟨rfl, setNext_next_self⟩, List.nodup_singleton p, by simp⟩
    · simp only [setNext_readyQueue]
      exact setQueue_readyQueue_of_ne hne
    · intro x hx
      exact setNext_next_of_ne fun hxp => hpq q' hne (hxp ▸ hx)
  · rw [if_neg hempty]
    have hne : r q ≠ [] := fun hnil => hempty (h₁.queue_eq_zero.2 hnil)
    have hring := h₁.ring q hne
    obtain ⟨pre, last, hlast⟩ : ∃ pre last, r q = pre ++ [last] := by
      rcases List.eq_nil_or_concat (r q) with hnil | ⟨pre, last, heq⟩
      · exact absurd hnil hne
      · exact ⟨pre, last, by rw [heq, List.concat_eq_append]⟩
    have hfollow : follow (fun x => s₁.next x == s₁.readyQueue q) s₁.next (s₁.readyQueue q) =
        .ok last := by
      rw [hlast] at hring
      exact hring.follow_last fun y hy => (h.addr q y (hlast ▸ hy)).2
    rw [hfollow]
    refine ⟨_, rfl, ⟨rfl, rfl, rfl, by simp [hprio₁], by simpa using hstate₁⟩, ?_⟩
    have hlastmem : last ∈ r q := by simp [hlast]
    refine h₁.update (by simp) (ring_enqueue hring hlast) hmem fun q' hne' => ⟨rfl, ?_⟩
    intro x hx
    have hxp : x ≠ p := fun hxp => hpq q' hne' (hxp ▸ hx)
    have hxl : x ≠ last := fun hxl => h.not_mem_of_ne hne' hlastmem (hxl ▸ hx)
    exact (setNext_next_of_ne hxp).trans (setNext_next_of_ne hxl)

theorem mem_priorities (q : Fin 4) : q ∈ priorities := by
  revert q
  decide

theorem priorities_sorted : priorities.Pairwise (· > ·) := by decide

/-- The search stops at the highest queue that satisfies the test. -/
theorem find_priorities {P : Fin 4 → Bool} (hfind : priorities.find? P = some q) :
    P q = true ∧ ∀ q', q < q' → P q' = false := by
  obtain ⟨hq, above, below, heq, habove⟩ := List.find?_eq_some_iff_append.1 hfind
  refine ⟨hq, ?_⟩
  intro q' hlt
  have hmem := mem_priorities q'
  have hsort := priorities_sorted
  rw [heq] at hmem hsort
  rcases List.mem_append.1 hmem with hmem | hmem
  · simpa using habove q' hmem
  · have hle : q' ≤ q := by
      rcases List.mem_cons.1 hmem with rfl | hmem
      · exact Fin.le_refl _
      · exact Fin.le_of_lt (List.rel_of_pairwise_cons (List.pairwise_append.1 hsort).2.1 hmem)
    omega

/-- **Selecting.** The head of the highest non-empty ring, which is rotated; the idle process when
there is none. -/
theorem selectNextProcess_spec (h : Rings s r) :
    ((∀ q, r q = []) ∧ selectNextProcess s = (s.idleProcess, s)) ∨
    ∃ q head t, r q = head :: t ∧ (∀ q', q < q' → r q' = []) ∧
      selectNextProcess s = (head, s.setQueue q (s.next head)) ∧
      Rings (s.setQueue q (s.next head)) (Function.update r q (t ++ [head])) := by
  unfold selectNextProcess
  cases hfind : priorities.find? fun q => decide (s.readyQueue q ≠ 0) with
  | none =>
      refine Or.inl ⟨fun q => h.queue_eq_zero.1 ?_, rfl⟩
      have hall := List.find?_eq_none.1 hfind q (mem_priorities q)
      simpa using hall
  | some q =>
      obtain ⟨hq, habove⟩ := find_priorities hfind
      have hne : r q ≠ [] := fun hnil => by simp [h.empty q hnil] at hq
      have hring := h.ring q hne
      obtain ⟨t, ht⟩ := hring.eq_cons
      refine Or.inr ⟨q, s.readyQueue q, t, ht, ?_, rfl, ?_⟩
      · intro q' hlt
        refine h.queue_eq_zero.1 ?_
        simpa using habove q' hlt
      · rw [ht] at hring
        refine h.update rfl ?_ ?_ fun q' hne' => ⟨setQueue_readyQueue_of_ne hne', fun _ _ => rfl⟩
        · simp only [setQueue_readyQueue_self, setQueue_next]
          exact hring.rotate
        · intro x hx
          have hxr : x ∈ r q := by
            rw [ht]
            simpa [or_comm] using hx
          exact ⟨h.prio q x hxr, h.addr q x hxr⟩

/-- The rings once `schedule` has put the running process back. -/
def requeued (s : State) (r : Fin 4 → List Nat) : Fin 4 → List Nat :=
  if (s.pcb s.currentProcess).state = .running then
    Function.update r (s.prio s.currentProcess)
      (enqueue (r (s.prio s.currentProcess)) s.currentProcess)
  else r

/-- What `schedule` does. -/
structure Scheduled (s s' : State) (sw : Switch) (r r' : Fin 4 → List Nat) : Prop where
  rings : Rings s' r'
  idle : s'.idleProcess = s.idleProcess
  list : s'.processList = s.processList
  prio : s'.prio = s.prio
  choice : ((∀ q, requeued s r q = []) ∧ s'.currentProcess = s.idleProcess ∧ r' = requeued s r) ∨
    ∃ q head t, requeued s r q = head :: t ∧ (∀ q', q < q' → requeued s r q' = []) ∧
      s'.currentProcess = head ∧ r' = Function.update (requeued s r) q (t ++ [head])
  switch : sw = if s'.currentProcess = s.currentProcess then none
    else some (s.currentProcess, s'.currentProcess)
  state : ∀ x, (s'.pcb x).state =
    if x = s'.currentProcess ∧ s'.currentProcess ≠ s.currentProcess then .running
    else if x = s.currentProcess ∧ (s.pcb x).state = .running then .ready
    else (s.pcb x).state

theorem requeue_spec (h : Rings s r) (hcur : s.currentProcess ≠ 0)
    (hlt : s.currentProcess < wordCount) :
    ∃ s₁, requeueCurrent s = .ok s₁ ∧
      Rings s₁ (requeued s r) ∧ s₁.currentProcess = s.currentProcess ∧
      s₁.idleProcess = s.idleProcess ∧ s₁.processList = s.processList ∧ s₁.prio = s.prio ∧
      ∀ x, (s₁.pcb x).state =
        if x = s.currentProcess ∧ (s.pcb x).state = .running then .ready else (s.pcb x).state := by
  unfold requeueCurrent requeued
  by_cases hrun : (s.pcb s.currentProcess).state = .running
  · rw [if_pos hrun, if_pos hrun]
    obtain ⟨s₁, hcall, hadd, hrings⟩ := schedulerAddProcess_spec h hcur hlt
    refine ⟨s₁, hcall, hrings, hadd.current, hadd.idle, hadd.list, hadd.prio, ?_⟩
    intro x
    rw [hadd.state]
    by_cases hx : x = s.currentProcess
    · simp [hx, hrun]
    · simp [hx]
  · rw [if_neg hrun, if_neg hrun]
    refine ⟨s, rfl, h, rfl, rfl, rfl, rfl, ?_⟩
    intro x
    rw [if_neg]
    rintro ⟨rfl, hx⟩
    exact hrun hx

/-- **Scheduling.** The call returns; it puts a running process back, then rotates the highest
non-empty ring and runs the process that was at its head. -/
theorem schedule_spec (h : Rings s r) (hcur : s.currentProcess ≠ 0)
    (hlt : s.currentProcess < wordCount) :
    ∃ s' sw r', schedule s = .ok (s', sw) ∧ Scheduled s s' sw r r' := by
  unfold schedule
  rw [if_neg hcur]
  obtain ⟨s₁, hcall, hrings, hcur₁, hidle₁, hlist₁, hprio₁, hstate₁⟩ := requeue_spec h hcur hlt
  rw [hcall, Outcome.ok_bind]
  unfold dispatch
  -- Name the choice; the rest of the function only looks at the process chosen.
  obtain ⟨next, s₂, r', hsel, hrings₂, hcur₂, hidle₂, hlist₂, hprio₂, hpcb₂, hchoice⟩ :
      ∃ next s₂ r', selectNextProcess s₁ = (next, s₂) ∧ Rings s₂ r' ∧
        s₂.currentProcess = s.currentProcess ∧ s₂.idleProcess = s.idleProcess ∧
        s₂.processList = s.processList ∧ s₂.prio = s.prio ∧ s₂.pcb = s₁.pcb ∧
        (((∀ q, requeued s r q = []) ∧ (if next = 0 then s.idleProcess else next) = s.idleProcess ∧
            r' = requeued s r) ∨
          ∃ q head t, requeued s r q = head :: t ∧ (∀ q', q < q' → requeued s r q' = []) ∧
            (if next = 0 then s.idleProcess else next) = head ∧
            r' = Function.update (requeued s r) q (t ++ [head])) := by
    rcases selectNextProcess_spec hrings with ⟨hnil, hsel⟩ | ⟨q, head, t, hq, habove, hsel, hrot⟩
    · refine ⟨_, _, _, hsel, hrings, hcur₁, hidle₁, hlist₁, hprio₁, rfl, Or.inl ⟨hnil, ?_, rfl⟩⟩
      rw [hidle₁, ite_self]
    · have hhead : head ≠ 0 := (hrings.addr q head (by simp [hq])).1
      exact ⟨_, _, _, hsel, hrot, hcur₁, hidle₁, hlist₁, hprio₁, rfl,
        Or.inr ⟨q, head, t, hq, habove, if_neg hhead, rfl⟩⟩
  simp only [hsel, hidle₂, hcur₂]
  set chosen := if next = 0 then s.idleProcess else next with hchosen
  by_cases hsame : chosen = s.currentProcess
  · rw [if_pos hsame]
    refine ⟨_, _, r', rfl, hrings₂.modify (fun _ => rfl) (fun _ => rfl), hidle₂, hlist₂, ?_, ?_, ?_,
      ?_⟩
    · refine Eq.trans (modify_prio ?_) hprio₂
      exact fun _ => rfl
    · simpa only [modify_currentProcess, hcur₂, ← hsame] using hchoice
    · simp [hcur₂]
    · intro x
      have hx : ((s₂.modify chosen fun b => { b with quantum := defaultQuantum }).pcb x).state =
          (s₁.pcb x).state := by
        by_cases hxc : x = chosen
        · rw [hxc, modify_pcb_self, hpcb₂]
        · rw [modify_pcb_of_ne hxc, hpcb₂]
      rw [hx, hstate₁]
      simp [hcur₂]
  · rw [if_neg hsame]
    refine ⟨_, _, r', rfl, ?_, rfl, hlist₂, ?_, hchoice, ?_, ?_⟩
    · refine Rings.modify ?_ (fun _ => rfl) (fun _ => rfl)
      exact hrings₂.congr rfl (fun _ _ _ => rfl) rfl
    · refine Eq.trans (modify_prio ?_) hprio₂
      exact fun _ => rfl
    · simp [hsame]
    · intro x
      by_cases hxc : x = chosen
      · subst hxc
        simp [hsame]
      · rw [modify_pcb_of_ne hxc]
        simp only [modify_currentProcess, hxc, false_and, if_false]
        rw [hpcb₂, hstate₁]

end Spec

/-! ## Runs -/

/-- The calls a run is made of. -/
inductive Op where
  | add (p : Nat)
  | schedule
  | yield
  | tick
  deriving DecidableEq, Repr

/-- One call. -/
def step (s : State) : Op → Outcome State
  | .add p => schedulerAddProcess s p
  | .schedule => schedule s >>= fun r => .ok r.1
  | .yield => yield s >>= fun r => .ok r.1
  | .tick => schedulerTick s >>= fun r => .ok r.1

/-- `p` can be reached from the head of the queue of its priority. -/
def InQueue (s : State) (p : Nat) : Prop :=
  s.readyQueue (s.prio p) ≠ 0 ∧ ∃ n, s.next^[n] (s.readyQueue (s.prio p)) = p

/-- The rule for callers: only processes that exist, do not run and are not queued are added. -/
def Allowed (s : State) : Op → Prop
  | .add p => p ≠ 0 ∧ p < wordCount ∧ p ≠ s.currentProcess ∧ ¬ InQueue s p
  | _ => True

/-- A running process that is queued is in the last place of its ring. -/
def InPlace (s : State) : Prop :=
  (s.pcb s.currentProcess).state = .running → InQueue s s.currentProcess →
    s.next s.currentProcess = s.readyQueue (s.prio s.currentProcess)

/-- The call does not reach `schedule`, or finds the running process in place. -/
def Kept (s : State) : Op → Prop
  | .add _ => True
  | .schedule => InPlace s
  | .yield => InPlace s
  | .tick => (s.pcb s.currentProcess).quantum ≤ 1 → InPlace s

/-- The processes added so far, after one more call. -/
def record (added : List Nat) : Op → List Nat
  | .add p => p :: added
  | _ => added

/-- A run of calls that satisfy `ok`, with the processes added on the way. -/
inductive Run (ok : State → Op → Prop) (s₀ : State) : List Nat → State → Prop
  | start : Run ok s₀ [] s₀
  | call {added : List Nat} {s s' : State} (op : Op) :
      Run ok s₀ added s → ok s op → step s op = .ok s' → Run ok s₀ (record added op) s'

/-- Empty queues, with the idle process current. -/
structure Booted (s : State) : Prop where
  empty : ∀ q, s.readyQueue q = 0
  current : s.currentProcess = s.idleProcess
  idle : s.idleProcess ≠ 0 ∧ s.idleProcess < wordCount

/-- Every queue is a ring, and every process that was added is met exactly once in the ring of its
priority and in no other. -/
structure QueuesIntact (s : State) (added : List Nat) : Prop where
  rings : ∀ q, s.readyQueue q = 0 ∨ ∃ xs, Ring s.next (s.readyQueue q) xs
  present : ∀ p ∈ added, p = s.currentProcess ∨
    ∃ xs, Ring s.next (s.readyQueue (s.prio p)) xs ∧ xs.count p = 1
  unique : ∀ p ∈ added, ∀ q, q ≠ s.prio p → s.readyQueue q ≠ 0 →
    ∀ n, s.next^[n] (s.readyQueue q) ≠ p

/-- The invariant of a run: rings that hold every process added. -/
structure Inv (s : State) (r : Fin 4 → List Nat) (added : List Nat) : Prop where
  rings : Rings s r
  present : ∀ p ∈ added, p ∈ r (s.prio p)
  current : s.currentProcess ≠ 0 ∧ s.currentProcess < wordCount
  idle : s.idleProcess ≠ 0 ∧ s.idleProcess < wordCount

section Runs

variable {s s' s₀ : State} {r r' : Fin 4 → List Nat} {added : List Nat} {p : Nat} {sw : Switch}

theorem Rings.inQueue_iff (h : Rings s r) : InQueue s p ↔ p ∈ r (s.prio p) := by
  unfold InQueue
  by_cases hnil : r (s.prio p) = []
  · simp [h.empty _ hnil, hnil]
  · have hring := h.ring _ hnil
    rw [hring.mem_iff]
    exact and_iff_right (h.addr _ _ hring.head_mem).1

theorem Inv.intact (h : Inv s r added) : QueuesIntact s added where
  rings q := by
    by_cases hnil : r q = []
    · exact Or.inl (h.rings.empty q hnil)
    · exact Or.inr ⟨r q, h.rings.ring q hnil⟩
  present p hp := by
    have hmem := h.present p hp
    have hring := h.rings.ring (s.prio p) (List.ne_nil_of_mem hmem)
    exact Or.inr ⟨_, hring, List.count_eq_one_of_mem hring.nodup hmem⟩
  unique p hp q hq hz n hn := by
    have hne : r q ≠ [] := fun hnil => hz (h.rings.empty q hnil)
    have hmem : p ∈ r q := (h.rings.ring q hne).mem_iff.2 ⟨n, hn⟩
    exact hq (h.rings.prio q p hmem).symm

/-- With the running process in place, putting it back drops nobody. -/
theorem mem_requeued (h : Rings s r) (hplace : InPlace s) {q : Fin 4} {x : Nat} (hx : x ∈ r q) :
    x ∈ requeued s r q := by
  unfold requeued
  split_ifs with hrun
  case neg => exact hx
  by_cases hq : q = s.prio s.currentProcess
  case neg => rwa [Function.update_of_ne hq]
  subst hq
  rw [Function.update_self]
  by_cases hmem : s.currentProcess ∈ r (s.prio s.currentProcess)
  · have hlast := hplace hrun (h.inQueue_iff.2 hmem)
    have hring := h.ring _ (List.ne_nil_of_mem hmem)
    obtain ⟨pre, post, hsplit⟩ := List.append_of_mem hmem
    rw [hsplit] at hring hx ⊢
    obtain rfl := hring.next_eq_head.1 hlast
    rw [enqueue_of_mem]
    · exact hx
    · exact fun hc => List.disjoint_of_nodup_append hring.nodup hc List.mem_cons_self
  · rw [enqueue_of_not_mem hmem]
    exact List.mem_append_left _ hx

theorem Scheduled.mem (hsched : Scheduled s s' sw r r') {q : Fin 4} {x : Nat}
    (hx : x ∈ requeued s r q) : x ∈ r' q := by
  rcases hsched.choice with ⟨-, -, hr⟩ | ⟨q', head, t, hq', -, -, hr⟩
  · rwa [hr]
  · rw [hr]
    by_cases hq : q = q'
    · subst hq
      rw [Function.update_self]
      rw [hq'] at hx
      simpa [or_comm] using hx
    · rwa [Function.update_of_ne hq]

theorem Scheduled.current (hsched : Scheduled s s' sw r r') :
    s'.currentProcess = s.idleProcess ∨ ∃ q, s'.currentProcess ∈ r' q := by
  rcases hsched.choice with ⟨-, hcur, -⟩ | ⟨q, head, t, -, -, hcur, hr⟩
  · exact Or.inl hcur
  · exact Or.inr ⟨q, by simp [hr, hcur]⟩

theorem inv_schedule (h : Inv s r added) (hplace : InPlace s) :
    ∃ s' sw r', schedule s = .ok (s', sw) ∧ Inv s' r' added := by
  obtain ⟨s', sw, r', hcall, hsched⟩ := schedule_spec h.rings h.current.1 h.current.2
  refine ⟨s', sw, r', hcall, hsched.rings, ?_, ?_, hsched.idle ▸ h.idle⟩
  · intro p hp
    rw [hsched.prio]
    exact hsched.mem (mem_requeued h.rings hplace (h.present p hp))
  · rcases hsched.current with hidle | ⟨q, hmem⟩
    · rw [hidle]
      exact h.idle
    · exact hsched.rings.addr q _ hmem

/-- The clock changes no queue. -/
theorem Ticked.rings (h : Ticked s s') (hr : Rings s r) : Rings s' r :=
  hr.congr h.queues (fun _ _ _ => by rw [h.next]) h.prio

theorem Ticked.inv (h : Ticked s s') (hinv : Inv s r added) : Inv s' r added where
  rings := h.rings hinv.rings
  present := by rw [h.prio]; exact hinv.present
  current := h.current ▸ hinv.current
  idle := h.idle ▸ hinv.idle

theorem Ticked.inPlace (h : Ticked s s') (hplace : InPlace s) : InPlace s' := by
  unfold InPlace InQueue at *
  rwa [h.current, h.state, h.queues, h.prio, h.next]

/-- Every allowed call returns and keeps the invariant. -/
theorem inv_step (h : Inv s r added) {op : Op} (hallow : Allowed s op) (hkept : Kept s op) :
    ∃ s' r', step s op = .ok s' ∧ Inv s' r' (record added op) := by
  cases op with
  | add p =>
      obtain ⟨hp, hlt, hcur, hout⟩ := hallow
      obtain ⟨s', hcall, hadd, hrings⟩ := schedulerAddProcess_spec h.rings hp hlt
      refine ⟨s', _, hcall, hrings, ?_, hadd.current ▸ h.current, hadd.idle ▸ h.idle⟩
      intro x hx
      rw [hadd.prio]
      have hnot : p ∉ r (s.prio p) := fun hc => hout (h.rings.inQueue_iff.2 hc)
      rw [enqueue_of_not_mem hnot]
      rcases List.mem_cons.1 hx with rfl | hx
      · simp
      · by_cases hq : s.prio x = s.prio p
        · rw [hq, Function.update_self]
          exact List.mem_append_left _ (hq ▸ h.present x hx)
        · rw [Function.update_of_ne hq]
          exact h.present x hx
  | schedule =>
      obtain ⟨s', sw, r', hcall, hinv⟩ := inv_schedule h hkept
      exact ⟨s', r', by simp [step, hcall], hinv⟩
  | yield =>
      obtain ⟨s₁, htick, hyield⟩ := yield_cases s
      obtain ⟨s', sw, r', hcall, hinv⟩ := inv_schedule (htick.inv h) (htick.inPlace hkept)
      exact ⟨s', r', by simp [step, hyield, hcall], hinv⟩
  | tick =>
      obtain ⟨s₁, htick, ⟨-, hnone⟩ | ⟨hquantum, hsched⟩⟩ := schedulerTick_cases h.current.1
      · exact ⟨s₁, r, by simp [step, hnone], htick.inv h⟩
      · obtain ⟨s', sw, r', hcall, hinv⟩ :=
          inv_schedule (htick.inv h) (htick.inPlace (hkept hquantum))
        exact ⟨s', r', by simp [step, hsched, hcall], hinv⟩

theorem inv_booted (h : Booted s) : Inv s (fun _ => []) [] where
  rings := ⟨fun q _ => h.empty q, fun _ hne => absurd rfl hne, by simp, by simp⟩
  present := by simp
  current := h.current ▸ h.idle
  idle := h.idle

theorem inv_run (hboot : Booted s₀) (hrun : Run (fun s op => Allowed s op ∧ Kept s op) s₀ added s) :
    ∃ r, Inv s r added := by
  induction hrun with
  | start => exact ⟨_, inv_booted hboot⟩
  | call op _ hok hcall ih =>
      obtain ⟨r, hinv⟩ := ih
      obtain ⟨s', r', hcall', hinv'⟩ := inv_step hinv hok.1 hok.2
      obtain rfl := Outcome.ok.inj (hcall'.symm.trans hcall)
      exact ⟨r', hinv'⟩

/-- **No ready process is lost.** In every run in which each call that reaches `schedule` finds the
running process in the last place of its ring, every queue stays a ring, every process added is in
it exactly once, and every further such call returns. -/
theorem queues_intact (hboot : Booted s₀)
    (hrun : Run (fun s op => Allowed s op ∧ Kept s op) s₀ added s) :
    QueuesIntact s added ∧
      ∀ op, Allowed s op → Kept s op → ∃ s', step s op = .ok s' := by
  obtain ⟨r, hinv⟩ := inv_run hboot hrun
  refine ⟨hinv.intact, ?_⟩
  intro op hallow hkept
  obtain ⟨s', -, hcall, -⟩ := inv_step hinv hallow hkept
  exact ⟨s', hcall⟩

/-- A walk that starts in a set closed under `next` stays in it. -/
theorem iterate_ne_of_closed {head : Nat} {xs : List Nat} (hhead : head ∈ xs)
    (hclosed : ∀ x ∈ xs, s.next x ∈ xs) (hp : p ∉ xs) (n : Nat) : s.next^[n] head ≠ p := by
  intro hn
  apply hp
  rw [← hn]
  exact Function.Iterate.rec (· ∈ xs) hhead hclosed n

theorem not_inQueue_of_closed (xs : List Nat) (hhead : s.readyQueue (s.prio p) ∈ xs)
    (hclosed : ∀ x ∈ xs, s.next x ∈ xs) (hp : p ∉ xs) : ¬ InQueue s p := by
  rintro ⟨-, n, hn⟩
  exact iterate_ne_of_closed hhead hclosed hp n hn

theorem not_queuesIntact_of_closed (xs : List Nat) (hmem : p ∈ added) (hcur : p ≠ s.currentProcess)
    (hhead : s.readyQueue (s.prio p) ∈ xs) (hclosed : ∀ x ∈ xs, s.next x ∈ xs) (hp : p ∉ xs) :
    ¬ QueuesIntact s added := by
  intro h
  rcases h.present p hmem with hc | ⟨ys, hring, hcount⟩
  · exact hcur hc
  · have hys : p ∈ ys := List.count_pos_iff.1 (by omega)
    obtain ⟨n, hn⟩ := hring.mem_iff.1 hys
    exact iterate_ne_of_closed hhead hclosed hp n hn

/-- The state after a call that returns. -/
def after (s : State) (op : Op) : State := (step s op).getD s

theorem Run.after {ok : State → Op → Prop} (h : Run ok s₀ added s) (op : Op) (hok : ok s op)
    (hret : (step s op).isOk = true) : Run ok s₀ (record added op) (after s op) :=
  .call op h hok (Outcome.eq_ok_getD hret s)

end Runs

/-- An idle process at 16; every other control block has priority 1. -/
def idleOnly : State where
  pcb p := { priority := if p = 16 then 0 else 1 }
  readyQueue _ := 0
  currentProcess := 16
  idleProcess := 16
  processList := 0
  nextPid := 1

theorem booted_idleOnly : Booted idleOnly := ⟨fun _ => rfl, rfl, by decide⟩

/-- **A ready process is lost.** Two processes are added and the first is switched to; a third joins
the ring behind it, and the next `schedule` cuts it off. -/
theorem ready_process_lost :
    ∃ s, Booted idleOnly ∧ Run Allowed idleOnly [64, 48, 32] s ∧
      ¬ QueuesIntact s [64, 48, 32] := by
  let s₁ := after idleOnly (.add 32)
  let s₂ := after s₁ (.add 48)
  let s₃ := after s₂ .schedule
  let s₄ := after s₃ (.add 64)
  let s₅ := after s₄ .schedule
  have h₁ : Run Allowed idleOnly [32] s₁ := by
    refine Run.after .start (.add 32) ⟨by decide, by decide, by decide, ?_⟩ (by decide +kernel)
    exact not_inQueue_of_closed [0] (by decide +kernel) (by decide +kernel) (by decide)
  have h₂ : Run Allowed idleOnly [48, 32] s₂ := by
    refine h₁.after (.add 48) ⟨by decide, by decide, by decide +kernel, ?_⟩ (by decide +kernel)
    exact not_inQueue_of_closed [32] (by decide +kernel) (by decide +kernel) (by decide)
  have h₃ : Run Allowed idleOnly [48, 32] s₃ := h₂.after .schedule trivial (by decide +kernel)
  have h₄ : Run Allowed idleOnly [64, 48, 32] s₄ := by
    refine h₃.after (.add 64) ⟨by decide, by decide, by decide +kernel, ?_⟩ (by decide +kernel)
    exact not_inQueue_of_closed [32, 48] (by decide +kernel) (by decide +kernel) (by decide)
  have h₅ : Run Allowed idleOnly [64, 48, 32] s₅ := h₄.after .schedule trivial (by decide +kernel)
  refine ⟨s₅, booted_idleOnly, h₅, ?_⟩
  exact not_queuesIntact_of_closed (p := 64) [32, 48] (by decide) (by decide +kernel)
    (by decide +kernel) (by decide +kernel) (by decide)

/-- Two processes, and a switch to the first. -/
theorem queues_intact_two_processes :
    ∃ s, s.currentProcess = 32 ∧ QueuesIntact s [48, 32] ∧
      ∀ op, Allowed s op → Kept s op → ∃ s', step s op = .ok s' := by
  let s₁ := after idleOnly (.add 32)
  let s₂ := after s₁ (.add 48)
  let s₃ := after s₂ .schedule
  have h₁ : Run (fun s op => Allowed s op ∧ Kept s op) idleOnly [32] s₁ := by
    refine Run.after .start (.add 32) ⟨⟨by decide, by decide, by decide, ?_⟩, trivial⟩
      (by decide +kernel)
    exact not_inQueue_of_closed [0] (by decide +kernel) (by decide +kernel) (by decide)
  have h₂ : Run (fun s op => Allowed s op ∧ Kept s op) idleOnly [48, 32] s₂ := by
    refine h₁.after (.add 48) ⟨⟨by decide, by decide, by decide +kernel, ?_⟩, trivial⟩
      (by decide +kernel)
    exact not_inQueue_of_closed [32] (by decide +kernel) (by decide +kernel) (by decide)
  have hplace : InPlace s₂ := by
    intro hrun
    exact absurd hrun (by decide +kernel)
  have h₃ : Run (fun s op => Allowed s op ∧ Kept s op) idleOnly [48, 32] s₃ :=
    h₂.after .schedule ⟨trivial, hplace⟩ (by decide +kernel)
  exact ⟨s₃, by decide +kernel, queues_intact booted_idleOnly h₃⟩

end Munux.Process
