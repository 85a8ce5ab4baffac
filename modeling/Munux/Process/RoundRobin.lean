import Munux.Process.ProcessList
import Munux.Process.ReadyQueue
import Mathlib.Data.List.Rotate

/-!
# Strict round robin

What the scheduler does with a fixed set of processes. They are added before the first `schedule`;
after that only `schedule`, `yield` and the timer run. Every decision rotates the highest non-empty
ring by one place, and the running process is in the last place of that ring, so putting it back
changes nothing. After `m` decisions the ring is the original one rotated `m` times (`Turning`).
-/

namespace Munux.Process

open State

/-- `scheduler_init`, without registering the timer callback. -/
def schedulerInit (s : State) : State := { s with readyQueue := fun _ => 0 }

/-- Add the processes one after the other. -/
def addAll (s : State) (ps : List Nat) : Outcome State := ps.foldlM schedulerAddProcess s

/-- The call makes a scheduling decision. -/
def decides (s : State) : Op → Bool
  | .add _ => false
  | .schedule => true
  | .yield => true
  | .tick => decide ((s.pcb s.currentProcess).quantum ≤ 1)

/-- A sequence of calls, with the processes selected on the way. -/
def decisions (s : State) : List Op → Outcome (List Nat × State)
  | [] => .ok ([], s)
  | op :: ops => do
      let s' ← step s op
      let (ds, s'') ← decisions s' ops
      return (if decides s op then s'.currentProcess :: ds else ds, s'')

/-- What `process_init` and `scheduler_init` leave behind. -/
structure Initialised (s : State) : Prop extends Booted s where
  ready : (s.pcb s.idleProcess).state = .ready

/-- The processes of one priority, in the order in which they were added. -/
def members (s : State) (ps : List Nat) (q : Fin 4) : List Nat := ps.filter fun p => s.prio p = q

/-- `q` is the highest priority with a process. -/
def Top (s : State) (ps : List Nat) (q : Fin 4) : Prop :=
  members s ps q ≠ [] ∧ ∀ q', q < q' → members s ps q' = []

section Init

variable {s s' s₀ : State} {p : Nat} {ps : List Nat} {r : Fin 4 → List Nat}

theorem initialised_init {M : Type} {A : Allocator M} {m m' : M} {dir idle idleTask : Nat}
    (hcall : processInit A dir s m idleTask = .ok (idle, s', m'))
    (hidle : idle ≠ 0 ∧ idle < wordCount) : Initialised (schedulerInit s') ∧
      s'.idleProcess = idle := by
  unfold processInit at hcall
  simp only [Outcome.bind_eq_ok, Outcome.pure_eq, Outcome.ok.injEq, Prod.mk.injEq] at hcall
  obtain ⟨⟨process, s₁, m₁⟩, hcreate, rfl, rfl, -⟩ := hcall
  unfold processCreate at hcreate
  simp only [Outcome.bind_eq_ok] at hcreate
  obtain ⟨⟨p, m₂⟩, halloc, hcreate⟩ := hcreate
  by_cases hp : p = 0
  · simp only [if_pos hp, Outcome.pure_eq, Outcome.ok.injEq, Prod.mk.injEq] at hcreate
    exact absurd hcreate.1.symm hidle.1
  simp only [if_neg hp, Outcome.bind_eq_ok, Outcome.pure_eq, Outcome.ok.injEq,
    Prod.mk.injEq] at hcreate
  obtain ⟨_, -, _, -, s₂, happend, rfl, rfl, -⟩ := hcreate
  refine ⟨⟨⟨fun _ => rfl, rfl, hidle⟩, ?_⟩, rfl⟩
  change (s₂.pcb p).state = .ready
  unfold appendProcess at happend
  split_ifs at happend
  · obtain rfl := Outcome.ok.inj happend
    simp [State.withNew, initialPcb]
  · simp only [Outcome.bind_eq_ok, Outcome.pure_eq, Outcome.ok.injEq] at happend
    obtain ⟨last, -, rfl⟩ := happend
    rw [setNext_state]
    simp [State.withNew, initialPcb]

/-- Adding processes that are not queued yet appends each of them to the ring of its priority. -/
theorem addAll_spec (h : Rings s r) (hnd : ps.Nodup)
    (hps : ∀ p ∈ ps, p ≠ 0 ∧ p < wordCount ∧ p ∉ r (s.prio p)) :
    ∃ s', addAll s ps = .ok s' ∧ Rings s' (fun q => r q ++ members s ps q) ∧ s'.prio = s.prio ∧
      s'.currentProcess = s.currentProcess ∧ s'.idleProcess = s.idleProcess ∧
      ∀ x, x ∉ ps → (s'.pcb x).state = (s.pcb x).state := by
  induction ps generalizing s r with
  | nil => exact ⟨s, rfl, by simpa [members] using h, rfl, rfl, rfl, fun _ _ => rfl⟩
  | cons p ps ih =>
      obtain ⟨hp, hlt, hout⟩ := hps p List.mem_cons_self
      obtain ⟨hpps, hnd⟩ := List.nodup_cons.1 hnd
      obtain ⟨s₁, hcall, hadd, hrings⟩ := schedulerAddProcess_spec h hp hlt
      rw [enqueue_of_not_mem hout] at hrings
      obtain ⟨s', hrest, hrings', hprio, hcur, hidle, hstate⟩ := ih hrings hnd fun x hx => by
        obtain ⟨hx0, hxlt, hxout⟩ := hps x (List.mem_cons_of_mem _ hx)
        refine ⟨hx0, hxlt, ?_⟩
        rw [hadd.prio]
        by_cases hq : s.prio x = s.prio p
        · rw [hq, Function.update_self]
          rw [hq] at hxout
          have hne : x ≠ p := fun heq => hpps (heq ▸ hx)
          simp [hxout, hne]
        · rwa [Function.update_of_ne hq]
      refine ⟨s', ?_, ?_, hprio.trans hadd.prio, hcur.trans hadd.current, hidle.trans hadd.idle,
        ?_⟩
      · rw [addAll, List.foldlM_cons, hcall]
        exact hrest
      · convert hrings' using 1
        funext q
        unfold members
        rw [hadd.prio]
        by_cases hq : s.prio p = q
        · subst hq
          rw [Function.update_self, List.filter_cons_of_pos (by simp), List.append_assoc]
          rfl
        · rw [Function.update_of_ne (Ne.symm hq), List.filter_cons_of_neg (by simpa using hq)]
      · intro x hx
        have hxp : x ≠ p := fun heq => hx (heq ▸ List.mem_cons_self)
        rw [hstate x fun hmem => hx (List.mem_cons_of_mem _ hmem), hadd.state, if_neg hxp]

end Init

/-! ## One decision -/

/-- The rings `ms` after `m` decisions: the highest one has turned `m` places, and a process that
runs is the last of it. -/
structure Turning (s : State) (ms : Fin 4 → List Nat) (q : Fin 4) (m : Nat) : Prop where
  rings : Rings s (Function.update ms q ((ms q).rotate m))
  nonempty : ms q ≠ []
  above : ∀ q', q < q' → ms q' = []
  current : s.currentProcess ≠ 0 ∧ s.currentProcess < wordCount
  place : (s.pcb s.currentProcess).state = .running →
    ∃ pre, (ms q).rotate m = pre ++ [s.currentProcess]

/-- No process at all: the idle process is current, and does not count as running. -/
structure Idling (s : State) : Prop where
  rings : Rings s fun _ => []
  current : s.currentProcess = s.idleProcess
  idle : s.idleProcess ≠ 0 ∧ s.idleProcess < wordCount
  ready : (s.pcb s.idleProcess).state = .ready

section Decision

variable {s s' : State} {ms : Fin 4 → List Nat} {q : Fin 4} {m : Nat}

/-- Putting the running process back leaves its ring as it is. -/
theorem Turning.requeued (h : Turning s ms q m) :
    requeued s (Function.update ms q ((ms q).rotate m)) =
      Function.update ms q ((ms q).rotate m) := by
  unfold Process.requeued
  split_ifs with hrun
  case neg => rfl
  obtain ⟨pre, hpre⟩ := h.place hrun
  have hmem : s.currentProcess ∈ Function.update ms q ((ms q).rotate m) q := by
    rw [Function.update_self, hpre]
    simp
  have hnd := (h.rings.ring q (List.ne_nil_of_mem hmem)).nodup
  rw [h.rings.prio q _ hmem, Function.update_self]
  rw [Function.update_self, hpre] at hnd
  rw [hpre, enqueue_of_mem fun hc => List.disjoint_of_nodup_append hnd hc List.mem_cons_self]
  exact Function.update_idem ..

theorem rotate_succ_of_rotate {xs t : List Nat} {head : Nat} (h : xs.rotate m = head :: t) :
    xs.rotate (m + 1) = t ++ [head] := by
  rw [← List.rotate_rotate, h, List.rotate_cons_succ, List.rotate_zero]

/-- **A decision** selects the next process of the ring. -/
theorem Turning.schedule (h : Turning s ms q m) :
    ∃ s' sw, schedule s = .ok (s', sw) ∧ Turning s' ms q (m + 1) ∧
      some s'.currentProcess = (ms q)[m % (ms q).length]? := by
  obtain ⟨s', sw, r', hcall, hsched⟩ := schedule_spec h.rings h.current.1 h.current.2
  have hturn : (ms q).rotate m ≠ [] := fun hnil => h.nonempty (List.rotate_eq_nil_iff.1 hnil)
  have hchoice := hsched.choice
  rw [h.requeued] at hchoice
  rcases hchoice with ⟨hempty, -, -⟩ | ⟨q', head, t, hq', habove, hcur, hr'⟩
  · have hq := hempty q
    rw [Function.update_self] at hq
    exact absurd hq hturn
  -- The ring that turns is the highest one.
  obtain rfl : q' = q := by
    by_contra hne
    rcases lt_or_gt_of_ne hne with hlt | hlt
    · have hq := habove q hlt
      rw [Function.update_self] at hq
      exact hturn hq
    · rw [Function.update_of_ne hne, h.above q' hlt] at hq'
      cases hq'
  rw [Function.update_self] at hq'
  have hnext := rotate_succ_of_rotate hq'
  rw [Function.update_idem, ← hnext] at hr'
  refine ⟨s', sw, hcall, ⟨hr' ▸ hsched.rings, h.nonempty, h.above, ?_, ?_⟩, ?_⟩
  · have haddr := hsched.rings.addr q' s'.currentProcess
    rw [hr', Function.update_self, hnext, hcur] at haddr
    rw [hcur]
    exact haddr (by simp)
  · intro _
    rw [hnext, hcur]
    exact ⟨t, rfl⟩
  · have hlen : 0 < (ms q').length := List.length_pos_iff.2 h.nonempty
    have hhead := List.head?_rotate (l := ms q') (Nat.mod_lt m hlen)
    rw [List.rotate_mod, hq', List.head?_cons] at hhead
    rw [hcur, hhead]

theorem Idling.schedule (h : Idling s) :
    ∃ s' sw, schedule s = .ok (s', sw) ∧ Idling s' ∧ s'.currentProcess = s.idleProcess ∧
      s'.idleProcess = s.idleProcess := by
  have hcur := h.current ▸ h.idle
  obtain ⟨s', sw, r', hcall, hsched⟩ := schedule_spec h.rings hcur.1 hcur.2
  have hrequeued : Process.requeued s (fun _ => []) = fun _ => [] := by
    unfold Process.requeued
    rw [h.current, h.ready]
    exact if_neg (by decide)
  have hchoice := hsched.choice
  rw [hrequeued] at hchoice
  rcases hchoice with ⟨-, hcur', hr'⟩ | ⟨q, head, t, hq, -⟩
  · refine ⟨s', sw, hcall, ⟨hr' ▸ hsched.rings, hcur'.trans hsched.idle.symm,
      hsched.idle ▸ h.idle, ?_⟩, hcur', hsched.idle⟩
    rw [hsched.idle, hsched.state, hcur', h.current, if_neg fun hand => hand.2 rfl, h.ready]
    exact if_neg fun hand => by cases hand.2
  · cases hq

theorem Ticked.turning (h : Ticked s s') (hturn : Turning s ms q m) : Turning s' ms q m where
  rings := h.rings hturn.rings
  nonempty := hturn.nonempty
  above := hturn.above
  current := h.current ▸ hturn.current
  place := by
    rw [h.current, h.state]
    exact hturn.place

theorem Ticked.idling (h : Ticked s s') (hidle : Idling s) : Idling s' where
  rings := h.rings hidle.rings
  current := by rw [h.current, h.idle, hidle.current]
  idle := h.idle ▸ hidle.idle
  ready := by
    rw [h.idle, h.state]
    exact hidle.ready

/-- The calls other than `add`: the clock moves, and `schedule` runs if the call decides. -/
theorem step_cases {op : Op} (hop : ∀ p, op ≠ .add p) (hcur : s.currentProcess ≠ 0) :
    ∃ s₁, Ticked s s₁ ∧
      ((decides s op = false ∧ step s op = .ok s₁) ∨
        decides s op = true ∧ step s op = (Process.schedule s₁ >>= fun r => .ok r.1)) := by
  cases op with
  | add p => exact absurd rfl (hop p)
  | schedule => exact ⟨s, .refl s, .inr ⟨rfl, rfl⟩⟩
  | yield =>
      obtain ⟨s₁, htick, hyield⟩ := yield_cases s
      exact ⟨s₁, htick, .inr ⟨rfl, by rw [step, hyield]⟩⟩
  | tick =>
      obtain ⟨s₁, htick, ⟨hlong, hnone⟩ | ⟨hshort, hsched⟩⟩ := schedulerTick_cases hcur
      · refine ⟨s₁, htick, .inl ⟨decide_eq_false (by omega), ?_⟩⟩
        rw [step, hnone]
        rfl
      · exact ⟨s₁, htick, .inr ⟨decide_eq_true hshort, by rw [step, hsched]⟩⟩

/-- A call that decides turns the ring by one place and selects the process that was first; the
others leave both alone. -/
theorem Turning.step (h : Turning s ms q m) {op : Op} (hop : ∀ p, op ≠ .add p) :
    ∃ s', step s op = .ok s' ∧
      (decides s op = false ∧ Turning s' ms q m ∨
        decides s op = true ∧ Turning s' ms q (m + 1) ∧
          some s'.currentProcess = (ms q)[m % (ms q).length]?) := by
  obtain ⟨s₁, htick, ⟨hdec, hcall⟩ | ⟨hdec, hcall⟩⟩ := step_cases hop h.current.1
  · exact ⟨s₁, hcall, .inl ⟨hdec, htick.turning h⟩⟩
  · obtain ⟨s', sw, hsched, hturn, hchoice⟩ := (htick.turning h).schedule
    refine ⟨s', ?_, .inr ⟨hdec, hturn, hchoice⟩⟩
    rw [hcall, hsched]
    rfl

theorem Idling.step (h : Idling s) {op : Op} (hop : ∀ p, op ≠ .add p) :
    ∃ s', step s op = .ok s' ∧ Idling s' ∧ s'.idleProcess = s.idleProcess := by
  have hcur : s.currentProcess ≠ 0 := h.current ▸ h.idle.1
  obtain ⟨s₁, htick, ⟨-, hcall⟩ | ⟨-, hcall⟩⟩ := step_cases hop hcur
  · exact ⟨s₁, hcall, htick.idling h, htick.idle⟩
  · obtain ⟨s', sw, hsched, hidle, -, hsame⟩ := (htick.idling h).schedule
    refine ⟨s', ?_, hidle, hsame.trans htick.idle⟩
    rw [hcall, hsched]
    rfl

end Decision

/-! ## Runs of decisions -/

section Decisions

variable {s s' : State} {ms : Fin 4 → List Nat} {q : Fin 4} {m : Nat} {ops : List Op}

theorem decisions_cons {op : Op} (hstep : step s op = .ok s') {ds : List Nat} {s'' : State}
    (hrest : decisions s' ops = .ok (ds, s'')) :
    decisions s (op :: ops) =
      .ok (if decides s op then s'.currentProcess :: ds else ds, s'') := by
  rw [decisions, hstep, Outcome.ok_bind, hrest, Outcome.ok_bind]
  rfl

/-- Every run of calls without `add` returns. The `j`-th decision of a run that starts when the ring
has turned `m` places selects its member number `m + j`. -/
theorem Turning.decisions (h : Turning s ms q m) (hops : ∀ p, Op.add p ∉ ops) :
    ∃ ds s', decisions s ops = .ok (ds, s') ∧ Turning s' ms q (m + ds.length) ∧
      ∀ j < ds.length, ds[j]? = (ms q)[(m + j) % (ms q).length]? := by
  induction ops generalizing s m with
  | nil => exact ⟨[], s, rfl, h, fun j hj => absurd hj (Nat.not_lt_zero j)⟩
  | cons op ops ih =>
      have hop : ∀ p, op ≠ .add p := fun p heq => hops p (heq ▸ List.mem_cons_self)
      have hrest : ∀ p, Op.add p ∉ ops := fun p hmem => hops p (List.mem_cons_of_mem _ hmem)
      obtain ⟨s₁, hstep, ⟨hdec, hturn⟩ | ⟨hdec, hturn, hchoice⟩⟩ := h.step hop
      · obtain ⟨ds, s', hrun, hturn', hall⟩ := ih hturn hrest
        refine ⟨ds, s', ?_, hturn', hall⟩
        rw [decisions_cons hstep hrun, hdec]
        rfl
      · obtain ⟨ds, s', hrun, hturn', hall⟩ := ih hturn hrest
        refine ⟨s₁.currentProcess :: ds, s', ?_, ?_, ?_⟩
        · rw [decisions_cons hstep hrun, hdec]
          rfl
        · rw [List.length_cons, Nat.add_comm ds.length, ← Nat.add_assoc]
          exact hturn'
        · intro j hj
          cases j with
          | zero => exact hchoice
          | succ j =>
              rw [List.getElem?_cons_succ, hall j (Nat.lt_of_succ_lt_succ hj), Nat.add_assoc,
                Nat.add_comm 1]

theorem Idling.decisions (h : Idling s) (hops : ∀ p, Op.add p ∉ ops) :
    ∃ ds s', decisions s ops = .ok (ds, s') ∧ Idling s' ∧ ∀ d ∈ ds, d = s.idleProcess := by
  induction ops generalizing s with
  | nil => exact ⟨[], s, rfl, h, fun d hd => absurd hd List.not_mem_nil⟩
  | cons op ops ih =>
      have hop : ∀ p, op ≠ .add p := fun p heq => hops p (heq ▸ List.mem_cons_self)
      obtain ⟨s₁, hstep, hidle, hsame⟩ := h.step hop
      obtain ⟨ds, s', hrun, hidle', hall⟩ :=
        ih hidle fun p hmem => hops p (List.mem_cons_of_mem _ hmem)
      rw [hsame] at hall
      refine ⟨_, s', decisions_cons hstep hrun, hidle', ?_⟩
      split_ifs with hdec
      · intro d hd
        rcases List.mem_cons.1 hd with rfl | hd
        · rw [hidle.current, hsame]
        · exact hall d hd
      · exact hall

/-- The rings the queues are left with, as rotations of the original ones. -/
theorem Turning.rotated (h : Turning s ms q m) (q' : Fin 4) :
    (ms q' = [] ∧ s.readyQueue q' = 0) ∨
      ∃ xs, Ring s.next (s.readyQueue q') xs ∧ xs ~r ms q' := by
  by_cases hnil : ms q' = []
  · refine Or.inl ⟨hnil, h.rings.empty q' ?_⟩
    have hq : q' ≠ q := fun heq => h.nonempty (heq ▸ hnil)
    rw [Function.update_of_ne hq, hnil]
  · refine Or.inr ⟨Function.update ms q ((ms q).rotate m) q', h.rings.ring q' ?_, ?_⟩
    · by_cases hq : q' = q
      · subst hq
        rw [Function.update_self]
        exact fun hrot => hnil (List.rotate_eq_nil_iff.1 hrot)
      · rwa [Function.update_of_ne hq]
    · by_cases hq : q' = q
      · subst hq
        rw [Function.update_self]
        exact (List.IsRotated.forall (ms q') m)
      · rw [Function.update_of_ne hq]

end Decisions

/-- Some priority is the highest one with a process. -/
theorem exists_top (s : State) {ps : List Nat} (hps : ps ≠ []) : ∃ q, Top s ps q := by
  cases hfind : priorities.find? fun q => decide (members s ps q ≠ []) with
  | none =>
      obtain ⟨p, hp⟩ := List.exists_mem_of_ne_nil ps hps
      have hmem : p ∈ members s ps (s.prio p) := List.mem_filter.2 ⟨hp, decide_eq_true rfl⟩
      have hnone := List.find?_eq_none.1 hfind (s.prio p) (mem_priorities _)
      exact absurd (decide_eq_true (List.ne_nil_of_mem hmem)) hnone
  | some q =>
      obtain ⟨hq, habove⟩ := find_priorities hfind
      refine ⟨q, of_decide_eq_true hq, ?_⟩
      intro q' hlt
      by_contra hne
      exact of_decide_eq_false (habove q' hlt) hne

theorem Top.unique {s : State} {ps : List Nat} {q q' : Fin 4} (h : Top s ps q) (h' : Top s ps q') :
    q' = q := by
  rcases lt_trichotomy q' q with hlt | heq | hlt
  · exact absurd (h'.2 q hlt) h.1
  · exact heq
  · exact absurd (h.2 q' hlt) h'.1

section Main

variable {M : Type} {A : Allocator M} {m m' : M} {s s' s₀ : State} {dir idle idleTask : Nat}
variable {ps : List Nat} {ops : List Op}

/-- After the processes have been added, no decision has been made yet. -/
theorem Initialised.addAll (h : Initialised s₀) (hnd : ps.Nodup)
    (hps : ∀ p ∈ ps, p ≠ 0 ∧ p < wordCount ∧ p ≠ s₀.idleProcess) :
    ∃ s₁, addAll s₀ ps = .ok s₁ ∧ Rings s₁ (members s₁ ps) ∧ s₁.currentProcess = s₀.idleProcess ∧
      s₁.idleProcess = s₀.idleProcess ∧ (s₁.pcb s₀.idleProcess).state = .ready := by
  obtain ⟨s₁, hadd, hrings, hprio, hcur, hidle, hstate⟩ :=
    addAll_spec (inv_booted h.toBooted).rings hnd fun p hp =>
      ⟨(hps p hp).1, (hps p hp).2.1, List.not_mem_nil⟩
  refine ⟨s₁, hadd, ?_, hcur.trans h.current, hidle, ?_⟩
  · have hmembers : members s₁ ps = members s₀ ps := by
      funext q
      rw [members, hprio, members]
    rw [hmembers]
    exact hrings
  · rw [hstate _ fun hmem => (hps _ hmem).2.2 rfl]
    exact h.ready

/-- **Strict round robin.** The processes are added after `process_init` and `scheduler_init`, and
then only `schedule`, `yield` and the timer are called. All the calls return. The decisions select
the processes of the highest priority in turn, in the order in which they were added; without a
process they select the idle process. The rings keep their members in the same cyclic order. -/
theorem strict_round_robin (hcall : processInit A dir s m idleTask = .ok (idle, s', m'))
    (hidle : idle ≠ 0 ∧ idle < wordCount) (hnd : ps.Nodup)
    (hps : ∀ p ∈ ps, p ≠ 0 ∧ p < wordCount ∧ p ≠ idle) (hops : ∀ p, Op.add p ∉ ops) :
    ∃ s₁ ds s₂, addAll (schedulerInit s') ps = .ok s₁ ∧ decisions s₁ ops = .ok (ds, s₂) ∧
      (ps = [] → ∀ d ∈ ds, d = idle) ∧
      (∀ q, Top s₁ ps q → ∀ j < ds.length,
        ds[j]? = (members s₁ ps q)[j % (members s₁ ps q).length]?) ∧
      ∀ q, (members s₁ ps q = [] ∧ s₂.readyQueue q = 0) ∨
        ∃ xs, Ring s₂.next (s₂.readyQueue q) xs ∧ xs ~r members s₁ ps q := by
  obtain ⟨hinit, rfl⟩ := initialised_init hcall hidle
  obtain ⟨s₁, hadd, hrings, hcur, hsame, hready⟩ := hinit.addAll hnd hps
  rw [← hsame] at hready hcur
  have hidle₁ : s₁.idleProcess ≠ 0 ∧ s₁.idleProcess < wordCount := hsame ▸ hidle
  by_cases hnone : ps = []
  · subst hnone
    obtain ⟨ds, s₂, hrun, hend, hall⟩ :=
      Idling.decisions ⟨hrings, hcur, hidle₁, hready⟩ hops
    refine ⟨s₁, ds, s₂, hadd, hrun, fun _ => hsame ▸ hall, ?_, fun q => Or.inl ?_⟩
    · intro q htop
      exact absurd rfl htop.1
    · exact ⟨rfl, hend.rings.empty q rfl⟩
  · obtain ⟨q, htop⟩ := exists_top s₁ hnone
    have hturn : Turning s₁ (members s₁ ps) q 0 := by
      refine ⟨?_, htop.1, htop.2, hcur ▸ hidle₁, ?_⟩
      · rwa [List.rotate_zero, Function.update_eq_self]
      · intro hrun
        rw [hcur, hready] at hrun
        cases hrun
    obtain ⟨ds, s₂, hrun, hend, hall⟩ := hturn.decisions hops
    refine ⟨s₁, ds, s₂, hadd, hrun, fun hnil => absurd hnil hnone, ?_,
      hend.rotated⟩
    intro q' htop' j hj
    obtain rfl := htop'.unique htop
    rw [hall j hj, Nat.zero_add]

end Main

/-- Before `process_init`, with one control block of priority 1 and all others of priority 2. -/
def mixedState : State := { zeroState with pcb := fun p => { priority := if p = 64 then 1 else 2 } }

/-- What `process_init` does on a fresh heap. -/
def mixedBoot : Nat × State × Fresh :=
  (processInit freshHeap 0x1000 mixedState bootHeap 0x101000).getD (0, mixedState, bootHeap)

/-- Two processes of priority 2 take turns, and the one of priority 1 never runs. -/
theorem strict_round_robin_mixed :
    ∃ s₁ ds s₂, addAll (schedulerInit mixedBoot.2.1) [32, 64, 48] = .ok s₁ ∧
      decisions s₁ [.schedule, .yield, .tick, .schedule] = .ok (ds, s₂) ∧
      ∀ q, Top s₁ [32, 64, 48] q → ∀ j < ds.length,
        ds[j]? = (members s₁ [32, 64, 48] q)[j % (members s₁ [32, 64, 48] q).length]? := by
  have hboot : processInit freshHeap 0x1000 mixedState bootHeap 0x101000 = .ok mixedBoot :=
    Outcome.eq_ok_getD (by decide +kernel) _
  have hps : ∀ p ∈ [32, 64, 48], p ≠ 0 ∧ p < wordCount ∧ p ≠ mixedBoot.1 := by decide +kernel
  have hops : ∀ p, Op.add p ∉ [.schedule, .yield, .tick, .schedule] := by simp
  obtain ⟨s₁, ds, s₂, hadd, hrun, -, hall, -⟩ :=
    strict_round_robin hboot ⟨by decide +kernel, by decide +kernel⟩ (by decide) hps hops
  exact ⟨s₁, ds, s₂, hadd, hrun, hall⟩

example :
    ((addAll (schedulerInit mixedBoot.2.1) [32, 64, 48] >>= fun s =>
      decisions s [.schedule, .yield, .tick, .schedule]) >>= fun r => .ok r.1) =
      .ok [32, 48, 32] := by decide +kernel

end Munux.Process
