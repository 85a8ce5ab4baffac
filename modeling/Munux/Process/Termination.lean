import Munux.Process.ProcessList
import Munux.Process.ReadyQueue

/-!
# Terminated processes

When a process that has been terminated stays so: it is in no ready queue, is never selected and
never current again.

`process_terminate` takes the process off `process_list` and frees it, but leaves the ready queues
alone. What saves a queued process is at best the shared `next` field: when the walk along
`process_list` meets the ring of the process behind its head, unlinking it from the one unlinks it
from the other (`UnlinkedWithList`). Otherwise it has to be outside the queues already.
-/

namespace Munux.Process

open State

/-- The calls a run is made of. -/
inductive LifeOp where
  | call (op : Op)
  | terminate (p : Nat)
  deriving DecidableEq, Repr

/-- The walk of `process_terminate` reaches the process in front of `p` inside the ring of `p`, and
`p` is not the head of that ring. -/
def UnlinkedWithList (s : State) (p : Nat) : Prop :=
  s.processList ≠ p ∧ s.readyQueue (s.prio p) ≠ p ∧
    ∃ pre x, Seg s.next s.processList pre x ∧ (∀ y ∈ pre, y ≠ 0 ∧ s.next y ≠ p) ∧ x ≠ 0 ∧
      s.next x = p ∧ ∃ n, s.next^[n] (s.readyQueue (s.prio p)) = x

namespace LifeOp

variable {M : Type}

def step (A : Allocator M) (s : State) (m : M) : LifeOp → Outcome (State × M)
  | call op => Process.step s op >>= fun s' => .ok (s', m)
  | terminate p => processTerminate A s m p >>= fun r => .ok (r.1, r.2.1)

/-- Nobody adds a process that is gone, and `process_terminate` is given a process that no queue
holds, or one that it unlinks from its queue together with the list. The idle process goes only
when there are others. -/
def LeavesQueues (s : State) (gone : List Nat) : LifeOp → Prop
  | call (.add p) => p ≠ 0 → p < wordCount ∧ p ∉ gone
  | call _ => True
  | terminate p => p ≠ 0 → (¬ InQueue s p ∨ UnlinkedWithList s p) ∧
      (p = s.idleProcess → ∃ q, s.readyQueue q ≠ 0)

/-- The processes terminated so far, after one more call. -/
def record (gone : List Nat) : LifeOp → List Nat
  | terminate p => if p = 0 then gone else p :: gone
  | _ => gone

/-- A run of calls that satisfy `ok`, with the processes terminated on the way. -/
inductive Run (A : Allocator M) (ok : State → List Nat → LifeOp → Prop) (s₀ : State) (m₀ : M) :
    List Nat → State → M → Prop
  | start : Run A ok s₀ m₀ [] s₀ m₀
  | call {gone : List Nat} {s s' : State} {m m' : M} (op : LifeOp) :
      Run A ok s₀ m₀ gone s m → ok s gone op → op.step A s m = .ok (s', m') →
      Run A ok s₀ m₀ (op.record gone) s' m'

end LifeOp

/-- `p` does not run again from `s` on: no queue holds it, it is not current and would not be
selected, and its state is still `PROCESS_TERMINATED`. -/
structure Stopped (s : State) (p : Nat) : Prop where
  unqueued : ∀ q, s.readyQueue q ≠ 0 → ∀ n, s.next^[n] (s.readyQueue q) ≠ p
  unselected : (selectNextProcess s).1 ≠ p
  notCurrent : s.currentProcess ≠ p
  state : (s.pcb p).state = .terminated

/-- `p` is terminated and outside the rings; if it is the idle process, some ring is in use, so it
will not be fallen back on. -/
structure Dead (s : State) (r : Fin 4 → List Nat) (p : Nat) : Prop where
  outside : ∀ q, p ∉ r q
  state : (s.pcb p).state = .terminated
  idle : p = s.idleProcess → ∃ q, r q ≠ []

/-- The invariant of a run. -/
structure LifeInv (s : State) (r : Fin 4 → List Nat) (gone : List Nat) : Prop where
  rings : Rings s r
  current : s.currentProcess ≠ 0 ∧ s.currentProcess < wordCount
  idle : s.idleProcess ≠ 0 ∧ s.idleProcess < wordCount
  dead : ∀ p ∈ gone, Dead s r p
  notCurrent : ∀ p ∈ gone, s.currentProcess ≠ p

section Steps

variable {M : Type} {A : Allocator M} {s s' s₀ : State} {m m' m₀ : M} {r r' : Fin 4 → List Nat}
  {gone : List Nat} {p : Nat} {q : Fin 4} {sw : Switch}

theorem Ticked.dead (h : Ticked s s') (hp : Dead s r p) : Dead s' r p :=
  ⟨hp.outside, by rw [h.state]; exact hp.state, by rw [h.idle]; exact hp.idle⟩

theorem mem_of_mem_requeued {x : Nat} (h : x ∈ requeued s r q) :
    x ∈ r q ∨ x = s.currentProcess ∧ (s.pcb x).state = .running := by
  unfold requeued at h
  split_ifs at h with hrun
  case neg => exact Or.inl h
  by_cases hq : q = s.prio s.currentProcess
  · subst hq
    rw [Function.update_self] at h
    exact (mem_of_mem_enqueue h).imp_right fun hx => ⟨hx, hx ▸ hrun⟩
  · rw [Function.update_of_ne hq] at h
    exact Or.inl h

theorem requeued_ne_nil (h : r q ≠ []) : requeued s r q ≠ [] := by
  unfold requeued
  split_ifs
  case neg => exact h
  by_cases hq : q = s.prio s.currentProcess
  · subst hq
    rw [Function.update_self]
    exact enqueue_ne_nil _ _
  · rwa [Function.update_of_ne hq]

/-- A process outside the rings that is not running is not put back into them. -/
theorem Dead.not_mem_requeued (h : Dead s r p) (q : Fin 4) : p ∉ requeued s r q := by
  intro hp
  rcases mem_of_mem_requeued hp with hp | ⟨-, hrun⟩
  · exact h.outside q hp
  · rw [h.state] at hrun
    cases hrun

/-- `schedule` neither selects a dead process nor wakes it, even if it was current. -/
theorem Scheduled.dead (hsched : Scheduled s s' sw r r') (hp : Dead s r p) :
    Dead s' r' p ∧ s'.currentProcess ≠ p := by
  have hcur : s'.currentProcess ≠ p := by
    rcases hsched.choice with ⟨hnil, hcur, -⟩ | ⟨q, head, t, hq, -, hcur, -⟩
    · rw [hcur]
      rintro rfl
      obtain ⟨q, hq⟩ := hp.idle rfl
      exact requeued_ne_nil hq (hnil q)
    · rw [hcur]
      rintro rfl
      exact hp.not_mem_requeued q (by simp [hq])
  refine ⟨⟨?_, ?_, ?_⟩, hcur⟩
  · intro q hq
    rcases hsched.choice with ⟨-, -, hr⟩ | ⟨q', head, t, hq', -, -, hr⟩
    · rw [hr] at hq
      exact hp.not_mem_requeued q hq
    · rw [hr] at hq
      by_cases hqq : q = q'
      · subst hqq
        rw [Function.update_self] at hq
        refine hp.not_mem_requeued q ?_
        rw [hq']
        simpa [or_comm] using hq
      · rw [Function.update_of_ne hqq] at hq
        exact hp.not_mem_requeued q hq
  · rw [hsched.state, if_neg fun hc => hcur hc.1.symm, if_neg]
    · exact hp.state
    · rw [hp.state]
      rintro ⟨-, ⟨⟩⟩
  · intro hidle
    rw [hsched.idle] at hidle
    obtain ⟨q, hq⟩ := hp.idle hidle
    obtain ⟨x, hx⟩ := List.exists_mem_of_ne_nil _ (requeued_ne_nil (s := s) hq)
    exact ⟨q, List.ne_nil_of_mem (hsched.mem hx)⟩

/-- What `process_terminate` does to the rings when it takes `p` off the list. -/
structure Unqueued (s s' : State) (r r' : Fin 4 → List Nat) (p : Nat) : Prop where
  relinked : Relinked s s'
  rings : Rings s' r'
  outside : ∀ q, p ∉ r' q
  subset : ∀ q, r' q ⊆ r q
  nonempty : ∀ q, r q ≠ [] → r' q ≠ []

theorem Rings.not_mem_of_not_inQueue (h : Rings s r) (hp : ¬ InQueue s p) (q : Fin 4) :
    p ∉ r q := by
  intro hmem
  obtain rfl := h.prio q p hmem
  exact hp (h.inQueue_iff.2 hmem)

theorem Relinked.prio (h : Relinked s s') : s'.prio = s.prio := by
  funext x
  have hpriority : (s'.pcb x).priority = (s.pcb x).priority := by rw [h.pcb x]
  simp only [State.prio, hpriority]

/-- Redirecting a process outside the rings changes no ring. -/
theorem Rings.setNext_of_not_mem (h : Rings s r) {x v : Nat} (hx : ∀ q, x ∉ r q) :
    Rings (s.setNext x v) r := by
  refine h.congr rfl (fun q y hy => setNext_next_of_ne ?_) setNext_prio
  rintro rfl
  exact hx q hy

/-- Redirecting the process in front of `p` takes `p` out of its ring, unless it is the head. -/
theorem Rings.unlink (h : Rings s r) {x : Nat} (hx : x ∈ r (s.prio p)) (hxp : s.next x = p)
    (hhead : s.readyQueue (s.prio p) ≠ p) :
    ∃ r', Unqueued s (s.setNext x (s.next p)) r r' p := by
  have hne := List.ne_nil_of_mem hx
  have hring := h.ring _ hne
  obtain ⟨pre, post, hsplit⟩ := List.append_of_mem hx
  rw [hsplit] at hring
  -- The process behind `x` is `p`, since `p` is not the head.
  obtain ⟨post, rfl⟩ : ∃ post', post = p :: post' := by
    cases post with
    | nil => exact absurd (hring.seg.next_last.symm.trans hxp) hhead
    | cons y post => exact ⟨post, by rw [← (seg_split.1 hring.seg).2.1, hxp]⟩
  have hnd := hring.nodup
  have hsub : List.Sublist (pre ++ x :: post) (r (s.prio p)) := by
    rw [hsplit]
    exact ((List.sublist_cons_self p post).cons_cons x).append_left pre
  have hout : p ∉ pre ++ x :: post := by
    have hperm : (pre ++ x :: p :: post).Perm (p :: (pre ++ x :: post)) :=
      ((List.Perm.swap p x post).append_left pre).trans List.perm_middle
    exact (List.nodup_cons.1 (hperm.nodup_iff.1 hnd)).1
  refine ⟨_, relinked_setNext s x _, h.unlink_behind hsplit, ?_, ?_, ?_⟩
  · intro q
    by_cases hq : q = s.prio p
    · rwa [hq, Function.update_self]
    · rw [Function.update_of_ne hq]
      exact fun hc => hq (h.prio q p hc).symm
  · intro q
    by_cases hq : q = s.prio p
    · rw [hq, Function.update_self]
      exact hsub.subset
    · rw [Function.update_of_ne hq]
      exact fun _ => id
  · intro q hq
    by_cases hq : q = s.prio p
    · rw [hq, Function.update_self]
      simp
    · rwa [Function.update_of_ne hq]

/-- **Taking a process off the list.** Outside the queues it leaves every ring as it is; otherwise
the condition makes the list unlink it from its ring as well. -/
theorem unlinkProcess_unqueued (h : Rings s r)
    (hcond : ¬ InQueue s p ∨ UnlinkedWithList s p) (hcall : unlinkProcess s p = .ok s') :
    ∃ r', Unqueued s s' r r' p := by
  unfold unlinkProcess at hcall
  by_cases hhead : s.processList = p
  · rw [if_pos hhead] at hcall
    obtain rfl := Outcome.ok.inj hcall
    have hout := h.not_mem_of_not_inQueue (hcond.resolve_right fun hc => hc.1 hhead)
    refine ⟨r, relinked_processList s _, ?_, hout, fun _ _ => id, fun _ => id⟩
    exact h.congr rfl (fun _ _ _ => rfl) rfl
  · rw [if_neg hhead, Outcome.bind_eq_ok] at hcall
    obtain ⟨x, hwalk, hcall⟩ := hcall
    obtain ⟨pre, hseg, hpre, hstop⟩ := followFuel_eq_ok hwalk
    by_cases hin : InQueue s p
    case neg =>
      have hout := h.not_mem_of_not_inQueue hin
      by_cases hx : x = 0
      · rw [if_pos hx] at hcall
        obtain rfl := Outcome.ok.inj hcall
        exact ⟨r, relinked_processList s _, h, hout, fun _ _ => id, fun _ => id⟩
      · rw [if_neg hx] at hcall
        obtain rfl := Outcome.ok.inj hcall
        have hxp : s.next x = p := by simpa [hx] using hstop
        -- `x` points at `p`, so a ring with `x` would hold `p`.
        have hxout : ∀ q, x ∉ r q := fun q hq =>
          hout q (hxp ▸ (h.ring q (List.ne_nil_of_mem hq)).next_mem hq)
        exact ⟨r, relinked_setNext s x _, h.setNext_of_not_mem hxout, hout, fun _ _ => id,
          fun _ => id⟩
    case pos =>
      obtain ⟨-, hnhead, pre', x', hseg', hpre', hx0, hxp, n, hn⟩ :=
        hcond.resolve_left (not_not_intro hin)
      obtain rfl : x = x' := by
        refine hseg.first_unique hpre hstop hseg' ?_ (by simp [hxp])
        intro y hy
        simpa using hpre' y hy
      rw [if_neg hx0] at hcall
      obtain rfl := Outcome.ok.inj hcall
      have hring := h.ring _ (List.ne_nil_of_mem (h.inQueue_iff.1 hin))
      exact h.unlink (hring.mem_iff.2 ⟨n, hn⟩) hxp hnhead

/-- A dead process stays dead when another one leaves its queue. -/
theorem Unqueued.dead {x : Nat} (h : Unqueued s s' r r' p) (hx : Dead s r x) : Dead s' r' x := by
  refine ⟨fun q hq => hx.outside q (h.subset q hq), ?_, ?_⟩
  · rw [h.relinked.state]
    exact hx.state
  · intro hidle
    rw [h.relinked.idle] at hidle
    obtain ⟨q, hq⟩ := hx.idle hidle
    exact ⟨q, h.nonempty q hq⟩

/-- Marking a process as terminated leaves the dead ones as they are. -/
theorem Dead.mark {x : Nat} (h : Dead s r x) :
    Dead (s.modify p fun b => { b with state := .terminated }) r x := by
  refine ⟨h.outside, ?_, h.idle⟩
  by_cases hx : x = p
  · rw [hx, modify_pcb_self]
  · rw [modify_pcb_of_ne hx]
    exact h.state

theorem life_schedule (hrings : Rings s r)
    (hcur : s.currentProcess ≠ 0 ∧ s.currentProcess < wordCount)
    (hidle : s.idleProcess ≠ 0 ∧ s.idleProcess < wordCount) (hdead : ∀ x ∈ gone, Dead s r x)
    (hcall : schedule s = .ok (s', sw)) : ∃ r', LifeInv s' r' gone := by
  obtain ⟨s₁, sw₁, r', hsched, hspec⟩ := schedule_spec hrings hcur.1 hcur.2
  obtain ⟨rfl, rfl⟩ : s₁ = s' ∧ sw₁ = sw := by simpa using hsched.symm.trans hcall
  refine ⟨r', hspec.rings, ?_, hspec.idle ▸ hidle, fun x hx => (hspec.dead (hdead x hx)).1,
    fun x hx => (hspec.dead (hdead x hx)).2⟩
  rcases hspec.current with hc | ⟨q, hmem⟩
  · exact hc ▸ hidle
  · exact hspec.rings.addr q _ hmem

/-- **Terminating.** The process joins the dead ones, whatever the heap does with its memory. -/
theorem life_terminate (h : LifeInv s r gone) (hp : p ≠ 0)
    (hcond : ¬ InQueue s p ∨ UnlinkedWithList s p)
    (hidle : p = s.idleProcess → ∃ q, s.readyQueue q ≠ 0)
    (hcall : processTerminate A s m p = .ok (s', m', sw)) : ∃ r', LifeInv s' r' (p :: gone) := by
  simp only [processTerminate, if_neg hp, Outcome.bind_eq_ok] at hcall
  set s₁ := s.modify p fun b => { b with state := .terminated } with hs₁
  obtain ⟨s₂, hunlink, m₁, -, m₂, -, m₃, -, hcall⟩ := hcall
  have hrings₁ : Rings s₁ r := h.rings.modify (fun _ => rfl) (fun _ => rfl)
  have hnext₁ : s₁.next = s.next := by
    rw [hs₁]
    exact modify_next fun _ => rfl
  have hprio₁ : s₁.prio = s.prio := by
    rw [hs₁]
    exact modify_prio fun _ => rfl
  have hcond₁ : ¬ InQueue s₁ p ∨ UnlinkedWithList s₁ p := by
    simp only [InQueue, UnlinkedWithList, hnext₁, hprio₁] at hcond ⊢
    exact hcond
  obtain ⟨r₂, hunq⟩ := unlinkProcess_unqueued hrings₁ hcond₁ hunlink
  have hdead : ∀ x ∈ p :: gone, Dead s₂ r₂ x := by
    intro x hx
    rcases List.mem_cons.1 hx with rfl | hx
    · refine ⟨hunq.outside, ?_, ?_⟩
      · rw [hunq.relinked.state, hs₁, modify_pcb_self]
      · intro hx
        rw [hunq.relinked.idle] at hx
        obtain ⟨q, hq⟩ := hidle hx
        exact ⟨q, hunq.nonempty q fun hnil => hq (h.rings.empty q hnil)⟩
    · exact hunq.dead (h.dead x hx).mark
  have hcur₂ : s₂.currentProcess = s.currentProcess := hunq.relinked.current
  have hidle₂ : s₂.idleProcess = s.idleProcess := hunq.relinked.idle
  by_cases hself : s₂.currentProcess = p
  · rw [if_pos hself, Outcome.bind_eq_ok] at hcall
    obtain ⟨⟨s₃, sw₃⟩, hsched, hcall⟩ := hcall
    simp only [Outcome.pure_eq, Outcome.ok.injEq, Prod.mk.injEq] at hcall
    obtain ⟨rfl, -⟩ := hcall
    exact life_schedule hunq.rings (hcur₂ ▸ h.current) (hidle₂ ▸ h.idle) hdead hsched
  · rw [if_neg hself] at hcall
    simp only [Outcome.pure_eq, Outcome.ok.injEq, Prod.mk.injEq] at hcall
    obtain ⟨rfl, -⟩ := hcall
    refine ⟨r₂, hunq.rings, hcur₂ ▸ h.current, hidle₂ ▸ h.idle, hdead, ?_⟩
    intro x hx
    rcases List.mem_cons.1 hx with rfl | hx
    · exact hself
    · exact hcur₂ ▸ h.notCurrent x hx

theorem life_add (h : LifeInv s r gone) (hp : p ≠ 0 → p < wordCount ∧ p ∉ gone)
    (hcall : schedulerAddProcess s p = .ok s') : ∃ r', LifeInv s' r' gone := by
  by_cases hp0 : p = 0
  · rw [schedulerAddProcess, if_pos hp0] at hcall
    obtain rfl := Outcome.ok.inj hcall
    exact ⟨r, h⟩
  · obtain ⟨hlt, hgone⟩ := hp hp0
    obtain ⟨s₁, hadd, hspec, hrings⟩ := schedulerAddProcess_spec h.rings hp0 hlt
    obtain rfl := Outcome.ok.inj (hadd.symm.trans hcall)
    refine ⟨_, hrings, hspec.current ▸ h.current, hspec.idle ▸ h.idle, ?_,
      fun x hx => hspec.current ▸ h.notCurrent x hx⟩
    intro x hx
    have hxp : x ≠ p := fun hc => hgone (hc ▸ hx)
    have hdead := h.dead x hx
    refine ⟨?_, ?_, ?_⟩
    · intro q
      by_cases hq : q = s.prio p
      · rw [hq, Function.update_self]
        intro hmem
        rcases mem_of_mem_enqueue hmem with hmem | hmem
        · exact hdead.outside _ hmem
        · exact hxp hmem
      · rw [Function.update_of_ne hq]
        exact hdead.outside q
    · rw [hspec.state, if_neg hxp]
      exact hdead.state
    · intro hidle
      exact ⟨s.prio p, by rw [Function.update_self]; exact enqueue_ne_nil _ _⟩

/-- Every call that satisfies the condition keeps the invariant. -/
theorem life_step (h : LifeInv s r gone) {op : LifeOp} (hok : op.LeavesQueues s gone)
    (hcall : op.step A s m = .ok (s', m')) : ∃ r', LifeInv s' r' (op.record gone) := by
  have hticked : ∀ {s₁ s₂ sw}, Ticked s s₁ → schedule s₁ = .ok (s₂, sw) →
      ∃ r', LifeInv s₂ r' gone := by
    intro s₁ s₂ sw htick hsched
    exact life_schedule (htick.rings h.rings) (htick.current ▸ h.current) (htick.idle ▸ h.idle)
      (fun x hx => htick.dead (h.dead x hx)) hsched
  cases op with
  | terminate p =>
      simp only [LifeOp.step, Outcome.bind_eq_ok, Outcome.ok.injEq, Prod.mk.injEq] at hcall
      obtain ⟨⟨s₁, m₁, sw⟩, hterm, rfl, rfl⟩ := hcall
      by_cases hp : p = 0
      · simp only [processTerminate, if_pos hp, Outcome.pure_eq, Outcome.ok.injEq,
          Prod.mk.injEq] at hterm
        obtain ⟨rfl, -⟩ := hterm
        exact ⟨r, by rwa [LifeOp.record, if_pos hp]⟩
      · rw [LifeOp.record, if_neg hp]
        exact life_terminate h hp (hok hp).1 (hok hp).2 hterm
  | call op =>
      simp only [LifeOp.step, Outcome.bind_eq_ok, Outcome.ok.injEq, Prod.mk.injEq] at hcall
      obtain ⟨s₁, hcall, rfl, rfl⟩ := hcall
      cases op with
      | add p => exact life_add h hok hcall
      | schedule =>
          obtain ⟨⟨s₂, sw⟩, hsched, hs⟩ := Outcome.bind_eq_ok.1 hcall
          obtain rfl := Outcome.ok.inj hs
          exact hticked (Ticked.refl s) hsched
      | yield =>
          obtain ⟨⟨s₂, sw⟩, hyield, hs⟩ := Outcome.bind_eq_ok.1 hcall
          obtain rfl := Outcome.ok.inj hs
          obtain ⟨s₃, htick, heq⟩ := yield_cases s
          exact hticked htick (heq.symm.trans hyield)
      | tick =>
          obtain ⟨⟨s₂, sw⟩, htick, hs⟩ := Outcome.bind_eq_ok.1 hcall
          obtain rfl := Outcome.ok.inj hs
          obtain ⟨s₃, hclock, ⟨-, hnone⟩ | ⟨-, hsched⟩⟩ := schedulerTick_cases h.current.1
          · obtain ⟨rfl, -⟩ : s₃ = s₂ ∧ none = sw := by simpa using hnone.symm.trans htick
            exact ⟨r, hclock.rings h.rings, hclock.current ▸ h.current, hclock.idle ▸ h.idle,
              fun x hx => hclock.dead (h.dead x hx), hclock.current ▸ h.notCurrent⟩
          · exact hticked hclock (hsched.symm.trans htick)

theorem life_run (hboot : Booted s₀)
    (hrun : LifeOp.Run A (fun s gone op => op.LeavesQueues s gone) s₀ m₀ gone s m) :
    ∃ r, LifeInv s r gone := by
  induction hrun with
  | start =>
      have hinv := inv_booted hboot
      exact ⟨_, hinv.rings, hinv.current, hinv.idle, by simp, by simp⟩
  | call op _ hok hcall ih =>
      obtain ⟨r, hinv⟩ := ih
      exact life_step hinv hok hcall

theorem LifeInv.stopped (h : LifeInv s r gone) (hp : p ∈ gone) : Stopped s p where
  unqueued q hq n hn := by
    have hne : r q ≠ [] := fun hnil => hq (h.rings.empty q hnil)
    exact (h.dead p hp).outside q ((h.rings.ring q hne).mem_iff.2 ⟨n, hn⟩)
  unselected := by
    rcases selectNextProcess_spec h.rings with ⟨hnil, hsel⟩ | ⟨q, head, t, hq, -, hsel, -⟩
    · rw [hsel]
      intro hidle
      obtain ⟨q, hq⟩ := (h.dead p hp).idle hidle.symm
      exact hq (hnil q)
    · rw [hsel]
      rintro rfl
      exact (h.dead head hp).outside q (by simp [hq])
  notCurrent := h.notCurrent p hp
  state := (h.dead p hp).state

/-- **A terminated process never runs again**, in every run in which `process_terminate` is only
given processes that the queues do not hold, or that it takes out of them with the list. -/
theorem terminated_never_runs (hboot : Booted s₀)
    (hrun : LifeOp.Run A (fun s gone op => op.LeavesQueues s gone) s₀ m₀ gone s m) :
    ∀ p ∈ gone, Stopped s p := by
  intro p hp
  obtain ⟨r, hinv⟩ := life_run hboot hrun
  exact hinv.stopped hp

end Steps

/-- The idle process at 16, current, and two processes of priority 1 at 32 and 48, all three on the
process list and none in a queue. -/
def threeListed : State where
  pcb p :=
    { priority := if p = 16 then 0 else 1
      next := if p = 16 then 32 else if p = 32 then 48 else 0 }
  readyQueue _ := 0
  currentProcess := 16
  idleProcess := 16
  processList := 16
  nextPid := 4

theorem booted_threeListed : Booted threeListed := ⟨fun _ => rfl, rfl, by decide⟩

namespace LifeOp

/-- The state after a call that returns. -/
@[irreducible] def after (s : State) (m : Fresh) (op : LifeOp) : State × Fresh :=
  (op.step freshHeap s m).getD (s, m)

theorem Run.next {ok : State → List Nat → LifeOp → Prop} {s₀ s : State} {m₀ m : Fresh}
    {gone : List Nat} (h : Run freshHeap ok s₀ m₀ gone s m) (op : LifeOp) (hok : ok s gone op)
    (hret : (op.step freshHeap s m).isOk = true) :
    Run freshHeap ok s₀ m₀ (op.record gone) (op.after s m).1 (op.after s m).2 := by
  unfold after
  exact .call op h hok (Outcome.eq_ok_getD hret (s, m))

end LifeOp

/-- **A terminated process runs.** The second process is made ready and terminated; the next
`schedule` selects it and marks it as running. -/
theorem terminated_runs_again :
    ∃ s m, Booted threeListed ∧
      LifeOp.Run freshHeap (fun _ gone op => ∀ p, op = .call (.add p) → p ∉ gone) threeListed
        bootHeap [32] s m ∧
      s.currentProcess = 32 ∧ (s.pcb 32).state = .running ∧ ¬ Stopped s 32 := by
  let x₁ := LifeOp.after threeListed bootHeap (.call (.add 32))
  let x₂ := LifeOp.after x₁.1 x₁.2 (.terminate 32)
  let x₃ := LifeOp.after x₂.1 x₂.2 (.call .schedule)
  have h₀ : LifeOp.Run freshHeap (fun _ gone op => ∀ p, op = .call (.add p) → p ∉ gone) threeListed
      bootHeap [] threeListed bootHeap := .start
  have h₁ := h₀.next (.call (.add 32)) (by simp) (by decide +kernel)
  have h₂ := h₁.next (.terminate 32) (by simp) (by decide +kernel)
  have h₃ := h₂.next (.call .schedule) (by simp) (by decide +kernel)
  have hcur : x₃.1.currentProcess = 32 := by decide +kernel
  exact ⟨x₃.1, x₃.2, booted_threeListed, h₃, hcur, by decide +kernel, fun h => h.notCurrent hcur⟩

/-- Two processes are made ready and the one behind the head is terminated. -/
theorem terminated_never_runs_second :
    ∃ s m, LifeOp.Run freshHeap (fun s gone op => op.LeavesQueues s gone) threeListed bootHeap [48]
      s m ∧ s.currentProcess = 32 ∧ ∀ p ∈ [48], Stopped s p := by
  let x₁ := LifeOp.after threeListed bootHeap (.call (.add 32))
  let x₂ := LifeOp.after x₁.1 x₁.2 (.call (.add 48))
  let x₃ := LifeOp.after x₂.1 x₂.2 (.terminate 48)
  let x₄ := LifeOp.after x₃.1 x₃.2 (.call .schedule)
  have hunlinked : UnlinkedWithList x₂.1 48 :=
    ⟨by decide +kernel, by decide +kernel, [16], 32, by decide +kernel, by decide +kernel,
      by decide, by decide +kernel, 0, by decide +kernel⟩
  have h₀ : LifeOp.Run freshHeap (fun s gone op => op.LeavesQueues s gone) threeListed bootHeap []
      threeListed bootHeap := .start
  have h₁ := h₀.next (.call (.add 32)) (fun _ => ⟨by decide, by simp⟩) (by decide +kernel)
  have h₂ := h₁.next (.call (.add 48)) (fun _ => ⟨by decide, by simp [LifeOp.record]⟩)
    (by decide +kernel)
  have h₃ := h₂.next (.terminate 48) (fun _ => ⟨Or.inr hunlinked, by decide +kernel⟩)
    (by decide +kernel)
  have h₄ := h₃.next (.call .schedule) trivial (by decide +kernel)
  exact ⟨x₄.1, x₄.2, h₄, by decide +kernel, terminated_never_runs booted_threeListed h₄⟩

end Munux.Process
