import Munux.Zos.Jes
import Mathlib.Logic.Relation

/-!
# Batches of jobs

A session is any sequence of `submit` and `run` calls on a new subsystem. Between two calls the
subsystem is idle, so each run starts with all address spaces free and all jobs queued. The proof
follows one run: every turn of its loop takes the first job of the greatest priority out of the
table, and while that job is in progress it is the only one that is not queued (`Exclusive`), in the
only address space in use.

The slots are filled from slot 0 on, in the order of the job numbers. That is why the first job of
the greatest priority is also the one with the smallest number.
-/

namespace Munux.Zos

open Scan

/-! ## The life of a job -/

/-- One step in the life of a job: what its slot holds before and after. -/
inductive Next : Option Job → Option Job → Prop
  | submit {j : Job} (h : j.state = .input) : Next none (some j)
  | activate {j : Job} (asid : Nat) (h : j.state = .input) :
      Next (some j) (some { j with state := .active, asid := asid })
  | output {j : Job} (h : j.state = .active) : Next (some j) (some { j with state := .output })
  | purge {j : Job} (h : j.state = .output) : Next (some j) (some { j with state := .purge })
  | leave {j : Job} (h : j.state = .purge) : Next (some j) none

/-- One job makes one step. -/
def Moves (s s' : Jes) : Prop :=
  ∃ i, Next (s.jobs i) (s'.jobs i) ∧ ∀ k, k ≠ i → s'.jobs k = s.jobs k

/-- The states `ts` lead from `s` to `s'`, one step of one job at a time. -/
def Path : Jes → List Jes → Jes → Prop
  | s, [], s' => s = s'
  | s, t :: ts, s' => Moves s t ∧ Path t ts s'

theorem Path.append {s s' s'' : Jes} {ts us : List Jes} (h : Path s ts s') (h' : Path s' us s'') :
    Path s (ts ++ us) s'' := by
  induction ts generalizing s with
  | nil =>
      obtain rfl : s = s' := h
      exact h'
  | cons t ts ih => exact ⟨h.1, ih h.2⟩

/-- At most one job is in progress, and exactly its address space is in use. -/
structure Exclusive (s : Jes) : Prop where
  numbered : ∀ k, (s.spaces k).asid = k + 1
  single : ∀ i i' j j', s.jobs i = some j → s.jobs i' = some j' →
    j.state ≠ .input → j'.state ≠ .input → i = i'
  inUse : ∀ k, (s.spaces k).inUse = true ↔
    ∃ i j, s.jobs i = some j ∧ j.state ≠ .input ∧ j.asid = (s.spaces k).asid
  assigned : ∀ i j, s.jobs i = some j → j.state ≠ .input → j.asid ≠ 0
  queued : ∀ i j, s.jobs i = some j → j.state = .input → j.asid = 0

section Dispatch

variable {s : Jes} {idx : Fin maxJobs} {j : Job}

theorem Jes.Idle.exclusive (h : s.Idle) : Exclusive s where
  numbered k := by rw [h.spaces k]
  single i _ j _ hj _ hne := absurd (h.queued i j hj).1 hne
  inUse k := by
    rw [h.spaces k]
    refine iff_of_false Bool.false_ne_true ?_
    rintro ⟨i, j, hj, hne, -⟩
    exact hne (h.queued i j hj).1
  assigned i j hj hne := absurd (h.queued i j hj).1 hne
  queued i j hj _ := (h.queued i j hj).2

/-- Apart from the job in progress, all jobs are queued. -/
theorem busy_cases (h : s.Idle) {st : JobState} {i : Fin maxJobs} {j' : Job}
    (hj' : (s.busy idx j st).jobs i = some j') :
    (i = idx ∧ j' = { j with state := st, asid := 1 }) ∨ (j'.state = .input ∧ j'.asid = 0) := by
  by_cases hi : i = idx
  · rw [hi, Jes.busy_jobs] at hj'
    exact .inl ⟨hi, (Option.some.inj hj').symm⟩
  · have hother : (s.busy idx j st).jobs i = s.jobs i := Function.update_of_ne hi _ _
    exact .inr (h.queued i j' (hother.symm.trans hj'))

theorem exclusive_busy (h : s.Idle) {st : JobState} (hst : st ≠ .input) :
    Exclusive (s.busy idx j st) where
  numbered k := by rw [Jes.busy_spaces h]
  single i i' j₁ j₂ h₁ h₂ hne₁ hne₂ := by
    rcases busy_cases h h₁ with ⟨rfl, -⟩ | ⟨hq, -⟩
    · rcases busy_cases h h₂ with ⟨rfl, -⟩ | ⟨hq, -⟩
      · rfl
      · exact absurd hq hne₂
    · exact absurd hq hne₁
  inUse k := by
    rw [Jes.busy_spaces h]
    simp only [decide_eq_true_iff]
    constructor
    · intro hk
      exact ⟨idx, _, Jes.busy_jobs s idx j st, hst, by rw [hk]; rfl⟩
    · rintro ⟨i, j', hj', hne, hasid⟩
      rcases busy_cases h hj' with ⟨-, rfl⟩ | ⟨hq, -⟩
      · simp only at hasid
        exact Fin.ext (show k.val = 0 by omega)
      · exact absurd hq hne
  assigned i j' hj' hne := by
    rcases busy_cases h hj' with ⟨-, rfl⟩ | ⟨hq, -⟩
    · exact one_ne_zero
    · exact absurd hq hne
  queued i j' hj' hq := by
    rcases busy_cases h hj' with ⟨-, rfl⟩ | ⟨-, h0⟩
    · exact absurd hq hst
    · exact h0

theorem moves_busy {st st' : JobState}
    (hnext : Next (some { j with state := st, asid := 1 })
      (some { j with state := st', asid := 1 })) :
    Moves (s.busy idx j st) (s.busy idx j st') := by
  refine ⟨idx, ?_, ?_⟩
  · rw [Jes.busy_jobs, Jes.busy_jobs]
    exact hnext
  · intro k hk
    simp only [Jes.busy, Function.update_of_ne hk]

/-- The states that `dispatch` shows. -/
theorem path_dispatch (h : s.Idle) (hj : s.jobs idx = some j) :
    Path s [s.busy idx j .active, s.busy idx j .output, s.busy idx j .purge, s.purged idx]
      (s.purged idx) := by
  refine ⟨⟨idx, ?_, fun k hk => Function.update_of_ne hk _ _⟩, moves_busy (.output rfl),
    moves_busy (.purge rfl), ⟨idx, ?_, ?_⟩, rfl⟩
  · rw [hj, Jes.busy_jobs]
    exact .activate 1 (h.queued idx j hj).1
  · have hgone : (s.purged idx).jobs idx = none := Function.update_self ..
    rw [hgone, Jes.busy_jobs]
    exact .leave rfl
  · intro k hk
    simp only [Jes.purged, Jes.busy, Function.update_of_ne hk]

end Dispatch

/-! ## A run -/

/-- The order of a batch: decreasing priority, then increasing job number. -/
def Before (a b : Job) : Prop :=
  b.priority < a.priority ∨ (b.priority = a.priority ∧ a.id < b.id)

/-- The job numbers increase with the slots. -/
def Ordered (s : Jes) : Prop :=
  ∀ i i' j j', i < i' → s.jobs i = some j → s.jobs i' = some j' → j.id < j'.id

/-- What a run from `s` to `s'` does. -/
structure Batch (s : Jes) (ds : List Dispatch) (s' : Jes) : Prop where
  idle : s'.Idle
  empty : ∀ i, s'.jobs i = none
  nextJobNo : s'.nextJobNo = s.nextJobNo
  perm : (ds.map (·.job)).Perm s.queue
  sorted : Ordered s → (ds.map (·.job)).Pairwise Before
  path : Path s (ds.flatMap (·.seen)) s'
  exclusive : ∀ t ∈ ds.flatMap (·.seen), Exclusive t

section Run

variable {s s' : Jes} {idx : Fin maxJobs} {j : Job} {ds : List Dispatch} {fuel : Nat}

theorem purged_jobs {i : Fin maxJobs} {j' : Job} (h : (s.purged idx).jobs i = some j') :
    i ≠ idx ∧ s.jobs i = some j' := by
  by_cases hi : i = idx
  · have hgone : (s.purged idx).jobs idx = none := Function.update_self ..
    rw [hi, hgone] at h
    cases h
  · exact ⟨hi, (Function.update_of_ne hi _ _).symm.trans h⟩

theorem Ordered.purged (h : Ordered s) (idx : Fin maxJobs) : Ordered (s.purged idx) :=
  fun i i' j j' hlt hj hj' => h i i' j j' hlt (purged_jobs hj).2 (purged_jobs hj').2

theorem batch_nil (h : s.Idle) (hpick : s.pickNext = none) : Batch s [] s := by
  have hempty := fun i => Jes.pickNext_eq_none h hpick i
  refine ⟨h, hempty, rfl, ?_, fun _ => List.Pairwise.nil, rfl, fun t ht => by cases ht⟩
  have hqueue : s.queue = [] := List.filterMap_eq_nil_iff.2 fun i _ => hempty i
  rw [hqueue]
  exact List.Perm.nil

/-- One turn of the loop, and the run of the others. -/
theorem batch_cons (h : s.Idle) (hpick : s.pickNext = some idx) (hj : s.jobs idx = some j)
    {d : Dispatch} (hd : s.dispatch idx = .ok (d, s.purged idx))
    (hrest : Batch (s.purged idx) ds s') : Batch s (d :: ds) s' := by
  obtain ⟨j', hj', hmax⟩ := Jes.pickNext_eq_some h hpick
  obtain rfl : j' = j := Option.some.inj (hj'.symm.trans hj)
  obtain rfl := (Prod.mk.inj (Outcome.ok.inj ((Jes.dispatch_spec h hj).symm.trans hd))).1
  obtain ⟨xs, ys, hqueue, hqueue'⟩ := entries_clear hj
  have hperm : (ds.map (·.job)).Perm (xs ++ ys) := by
    rw [← hqueue']
    exact hrest.perm
  refine ⟨hrest.idle, hrest.empty, hrest.nextJobNo, ?_, ?_, ?_, ?_⟩
  · rw [Jes.queue, hqueue]
    exact (hperm.cons j').trans List.perm_middle.symm
  · intro hord
    refine List.pairwise_cons.2 ⟨?_, hrest.sorted (hord.purged idx)⟩
    intro b hb
    -- A job of the rest of the batch sits in another slot.
    obtain ⟨k, hk⟩ := mem_entries.1 (hrest.perm.subset hb)
    obtain ⟨hne, hk⟩ := purged_jobs hk
    obtain ⟨hle, htie⟩ := hmax k b hk
    by_cases heq : b.priority.toNat = j'.priority.toNat
    · exact .inr ⟨UInt8.toNat_inj.1 heq, hord idx k j' b (lt_of_le_of_ne (htie heq) hne.symm) hj hk⟩
    · exact .inl (UInt8.lt_iff_toNat_lt.2 (lt_of_le_of_ne hle heq))
  · exact (path_dispatch h hj).append hrest.path
  · intro t ht
    rcases List.mem_append.1 ht with ht | ht
    · simp only [List.mem_cons, List.not_mem_nil, or_false] at ht
      rcases ht with rfl | rfl | rfl | rfl
      · exact exclusive_busy h (by decide)
      · exact exclusive_busy h (by decide)
      · exact exclusive_busy h (by decide)
      · exact (h.purged idx).exclusive
    · exact hrest.exclusive t ht

/-- **A run that returns** took every queued job through its life. -/
theorem batch_of_run (h : s.Idle) (hrun : s.run fuel = .ok (ds, s')) : Batch s ds s' := by
  induction fuel generalizing s ds with
  | zero => cases hrun
  | succ fuel ih =>
      obtain ⟨hpick, rfl, rfl⟩ | ⟨idx, j, d, ds', hpick, hj, hd, hrest, rfl⟩ := Jes.run_cases h hrun
      · exact batch_nil h hpick
      · exact batch_cons h hpick hj hd (ih (h.purged idx) hrest)

/-- **A run returns.** The measure is the number of queued jobs. -/
theorem run_returns (h : s.Idle) (hfuel : s.queue.length < fuel) : ∃ r, s.run fuel = .ok r := by
  induction fuel generalizing s with
  | zero => omega
  | succ fuel ih =>
      unfold Jes.run
      cases hpick : s.pickNext with
      | none => exact ⟨_, rfl⟩
      | some idx =>
          obtain ⟨j, hj, -⟩ := Jes.pickNext_eq_some h hpick
          obtain ⟨xs, ys, hqueue, hqueue'⟩ := entries_clear hj
          have hlen : s.queue.length = (xs ++ j :: ys).length := congrArg List.length hqueue
          have hlen' : (s.purged idx).queue.length = (xs ++ ys).length :=
            congrArg List.length hqueue'
          simp only [List.length_append, List.length_cons] at hlen hlen'
          obtain ⟨⟨ds, s'⟩, hrest⟩ := ih (h.purged idx) (by omega)
          obtain ⟨d, hd⟩ : ∃ d, s.dispatch idx = .ok (d, s.purged idx) :=
            ⟨_, Jes.dispatch_spec h hj⟩
          refine ⟨(d :: ds, s'), ?_⟩
          simp only [hd, hrest, Outcome.ok_bind, Outcome.pure_eq]

theorem queue_length_le (s : Jes) : s.queue.length ≤ maxJobs := by
  have hle := List.length_filterMap_le s.jobs (List.finRange maxJobs)
  rwa [List.length_finRange] at hle

end Run

/-! ## Sessions -/

/-- The subsystem, with what its users have seen: how many jobs were submitted, which were accepted
since the last run, and the states since the start. -/
structure Session where
  jes : Jes
  submitted : Nat
  pending : List Job
  seen : List Jes

namespace Session

/-- Nothing submitted. -/
def start : Session := ⟨Jes.new, 0, [], []⟩

/-- A call of `submit`. -/
def submit (σ : Session) (name : Vector UInt8 8) (class' priority steps : UInt8) : Session :=
  let (id, s) := σ.jes.submit name class' priority steps
  let job : Job := ⟨id, name, class', priority, .input, 0, steps⟩
  { jes := s
    submitted := σ.submitted + 1
    pending := if id = 0 then σ.pending else σ.pending ++ [job]
    seen := if σ.jes.Full then σ.seen else σ.seen ++ [s] }

/-- One call. -/
inductive Step : Session → Session → Prop
  | submit (σ : Session) (name : Vector UInt8 8) (class' priority steps : UInt8) :
      Step σ (σ.submit name class' priority steps)
  | run {σ : Session} {fuel : Nat} {ds : List Dispatch} {s : Jes}
      (hrun : σ.jes.run fuel = .ok (ds, s)) :
      Step σ ⟨s, σ.submitted, [], σ.seen ++ ds.flatMap (·.seen)⟩

/-- The sessions that calls from a new subsystem can reach. -/
def Reachable (σ : Session) : Prop := Relation.ReflTransGen Step start σ

/-- The three jobs of `run_demo`: `PAYROLL`, `BACKUP` and `REPORTS`. -/
def demo : Session :=
  ((start.submit #v[0x50, 0x41, 0x59, 0x52, 0x4F, 0x4C, 0x4C, 0x20] 0x41 9 3).submit
    #v[0x42, 0x41, 0x43, 0x4B, 0x55, 0x50, 0x20, 0x20] 0x42 3 2).submit
    #v[0x52, 0x45, 0x50, 0x4F, 0x52, 0x54, 0x53, 0x20] 0x41 6 2

theorem reachable_demo : Reachable demo :=
  .tail (.tail (.single (.submit ..)) (.submit ..)) (.submit ..)

/-! ### One job at a time -/

section Invariant

variable {σ σ' : Session} {name : Vector UInt8 8} {class' priority steps : UInt8} {fuel : Nat}
  {ds : List Dispatch} {s : Jes}

/-- Between two calls. -/
structure Inv (σ : Session) : Prop where
  idle : σ.jes.Idle
  path : Path Jes.new σ.seen σ.jes
  exclusive : ∀ t ∈ Jes.new :: σ.seen, Exclusive t

theorem idle_new : Jes.new.Idle := ⟨fun _ => rfl, fun _ _ hj => by cases hj⟩

theorem inv_start : Inv start := by
  refine ⟨idle_new, rfl, ?_⟩
  intro t ht
  rw [List.mem_singleton.1 ht]
  exact idle_new.exclusive

/-- What a call of `submit` does to the slots. -/
theorem submit_spec (σ : Session) (name : Vector UInt8 8) (class' priority steps : UInt8) :
    (σ.jes.Full ∧ σ.submit name class' priority steps = { σ with submitted := σ.submitted + 1 }) ∨
      ∃ i, σ.jes.jobs i = none ∧ (∀ j < i, (σ.jes.jobs j).isSome) ∧
        (σ.submit name class' priority steps).jes = { σ.jes with
          nextJobNo := (σ.jes.nextJobNo + 1) % wordCount
          jobs := Function.update σ.jes.jobs i
            (some (σ.jes.newJob name class' priority steps)) } ∧
        (σ.submit name class' priority steps).pending =
          (if σ.jes.nextJobNo = 0 then σ.pending
          else σ.pending ++ [σ.jes.newJob name class' priority steps]) ∧
        (σ.submit name class' priority steps).seen =
          σ.seen ++ [(σ.submit name class' priority steps).jes] := by
  unfold submit
  rcases σ.jes.submit_cases name class' priority steps with ⟨hfull, heq⟩ | ⟨i, hnone, hbelow, heq⟩
  · refine .inl ⟨hfull, ?_⟩
    simp only [heq, if_pos hfull, if_true]
  · refine .inr ⟨i, hnone, hbelow, ?_⟩
    have hfull : ¬σ.jes.Full := fun h => by
      have hsome := h i
      rw [hnone] at hsome
      cases hsome
    simp only [heq, if_neg hfull, Jes.newJob]
    exact ⟨trivial, trivial, trivial⟩

theorem Inv.submit (h : Inv σ) : Inv (σ.submit name class' priority steps) := by
  rcases σ.submit_spec name class' priority steps with ⟨-, heq⟩ | ⟨i, hnone, -, hjes, -, hseen⟩
  · rw [heq]
    exact ⟨h.idle, h.path, h.exclusive⟩
  have hidle : (σ.submit name class' priority steps).jes.Idle :=
    h.idle.submit name class' priority steps
  have hmoves : Moves σ.jes (σ.submit name class' priority steps).jes := by
    refine ⟨i, ?_, ?_⟩
    · rw [hjes, hnone]
      simp only [Function.update_self]
      exact .submit rfl
    · intro k hk
      rw [hjes]
      exact Function.update_of_ne hk _ _
  refine ⟨hidle, ?_, ?_⟩
  · rw [hseen]
    exact h.path.append ⟨hmoves, rfl⟩
  · intro t ht
    rw [hseen, ← List.cons_append] at ht
    rcases List.mem_append.1 ht with ht | ht
    · exact h.exclusive t ht
    · rw [List.mem_singleton.1 ht]
      exact hidle.exclusive

/-- Enough turns for one run. -/
theorem Inv.run (h : Inv σ) (hfuel : maxJobs < fuel) :
    ∃ ds s, σ.jes.run fuel = .ok (ds, s) ∧ Batch σ.jes ds s := by
  obtain ⟨⟨ds, s⟩, hrun⟩ := run_returns h.idle ((queue_length_le _).trans_lt hfuel)
  exact ⟨ds, s, hrun, batch_of_run h.idle hrun⟩

theorem inv_step (h : Inv σ) (hstep : Step σ σ') : Inv σ' := by
  cases hstep with
  | submit name class' priority steps => exact h.submit
  | @run fuel ds s hrun =>
      have hbatch := batch_of_run h.idle hrun
      refine ⟨hbatch.idle, h.path.append hbatch.path, ?_⟩
      intro t ht
      rw [← List.cons_append] at ht
      rcases List.mem_append.1 ht with ht | ht
      · exact h.exclusive t ht
      · exact hbatch.exclusive t ht

theorem inv_reachable (h : Reachable σ) : Inv σ := by
  induction h with
  | refl => exact inv_start
  | tail _ hstep ih => exact inv_step ih hstep

/-- **One job at a time.** In every state that is seen, at most one job is in progress, and exactly
its address space is in use; from one state to the next, one job makes one step of its life; and the
next run returns. -/
theorem session_exclusive (h : Reachable σ) :
    (∀ t ∈ Jes.new :: σ.seen, Exclusive t) ∧ Path Jes.new σ.seen σ.jes ∧
      ∀ fuel, maxJobs < fuel → ∃ r, σ.jes.run fuel = .ok r := by
  have hinv := inv_reachable h
  refine ⟨hinv.exclusive, hinv.path, ?_⟩
  intro fuel hfuel
  obtain ⟨ds, s, hrun, -⟩ := hinv.run hfuel
  exact ⟨_, hrun⟩

/-- While the jobs of `run_demo` are queued. -/
theorem session_exclusive_demo :
    (∀ t ∈ Jes.new :: demo.seen, Exclusive t) ∧ Path Jes.new demo.seen demo.jes ∧
      ∃ r, demo.jes.run 17 = .ok r := by
  obtain ⟨hseen, hpath, hrun⟩ := session_exclusive reachable_demo
  exact ⟨hseen, hpath, hrun 17 (by decide)⟩

end Invariant

/-! ### The order of a batch -/

section Order

variable {σ σ' : Session} {name : Vector UInt8 8} {class' priority steps : UInt8} {fuel : Nat}
  {ds : List Dispatch} {s : Jes}

/-- The slots hold the pending jobs, from slot 0 on, in the order of their numbers. -/
structure Packed (σ : Session) : Prop where
  jobs : ∀ i : Fin maxJobs, σ.jes.jobs i = σ.pending[i.val]?
  room : σ.pending.length ≤ maxJobs
  increasing : σ.pending.Pairwise fun a b => a.id < b.id
  below : ∀ j ∈ σ.pending, j.id < σ.jes.nextJobNo
  positive : 0 < σ.jes.nextJobNo
  count : σ.jes.nextJobNo ≤ σ.submitted + 1

theorem Packed.queue (h : Packed σ) : σ.jes.queue = σ.pending := entries_packed h.room h.jobs

theorem Packed.ordered (h : Packed σ) : Ordered σ.jes := by
  intro i i' j j' hlt hj hj'
  rw [h.jobs, List.getElem?_eq_some_iff] at hj hj'
  obtain ⟨hi, rfl⟩ := hj
  obtain ⟨hi', rfl⟩ := hj'
  exact List.pairwise_iff_getElem.1 h.increasing i i' hi hi' hlt

theorem packed_start : Packed start :=
  ⟨fun _ => rfl, Nat.zero_le _, List.Pairwise.nil, fun _ hj => absurd hj List.not_mem_nil,
    Nat.one_pos, le_rfl⟩

/-- The first empty slot comes right after the pending jobs. -/
theorem Packed.slot (h : Packed σ) {i : Fin maxJobs} (hnone : σ.jes.jobs i = none)
    (hbelow : ∀ j < i, (σ.jes.jobs j).isSome) : i.val = σ.pending.length := by
  refine eq_of_first_empty (fun k => ?_) hnone hbelow
  rw [h.jobs, Option.isSome_iff_ne_none, Ne, List.getElem?_eq_none_iff, Nat.not_le]

/-- An accepted job queues up behind the others. -/
theorem Packed.submit (h : Packed σ) (hcount : σ.submitted + 1 < wordCount - 1) :
    Packed (σ.submit name class' priority steps) := by
  rcases σ.submit_spec name class' priority steps with
    ⟨-, heq⟩ | ⟨i, hnone, hbelow, hjes, hpending, -⟩
  · rw [heq]
    exact ⟨h.jobs, h.room, h.increasing, h.below, h.positive, h.count.trans (Nat.le_succ _)⟩
  have hi := h.slot hnone hbelow
  have hpos := h.positive
  have hno := h.count
  rw [if_neg (by omega)] at hpending
  have hnext : (σ.jes.nextJobNo + 1) % wordCount = σ.jes.nextJobNo + 1 :=
    Nat.mod_eq_of_lt (by omega)
  rw [hnext] at hjes
  have hsubmitted : (σ.submit name class' priority steps).submitted = σ.submitted + 1 := rfl
  refine ⟨?_, ?_, ?_, ?_, ?_, ?_⟩
  · intro k
    rw [hjes, hpending]
    by_cases hk : k = i
    · rw [hk, hi]
      simp only [Function.update_self, List.getElem?_concat_length]
    · have hval : k.val ≠ σ.pending.length := fun heq => hk (Fin.ext (heq.trans hi.symm))
      simp only [Function.update_of_ne hk, h.jobs k]
      rw [List.getElem?_append]
      split_ifs with hlt
      · rfl
      · rw [List.getElem?_eq_none_iff.2 (by omega), List.getElem?_eq_none_iff.2 (by
          rw [List.length_singleton]; omega)]
  · rw [hpending, List.length_append, List.length_singleton]
    omega
  · rw [hpending, List.pairwise_append]
    refine ⟨h.increasing, List.pairwise_singleton _ _, ?_⟩
    intro j hj j' hj'
    rw [List.mem_singleton.1 hj']
    exact h.below j hj
  · intro j hj
    rw [hjes]
    rw [hpending] at hj
    rcases List.mem_append.1 hj with hj | hj
    · exact (h.below j hj).trans (Nat.lt_succ_self _)
    · rw [List.mem_singleton.1 hj]
      exact Nat.lt_succ_self _
  · rw [hjes]
    exact Nat.succ_pos _
  · rw [hjes, hsubmitted]
    simp only
    omega

/-- A run empties the queue. -/
theorem Packed.run (h : Packed σ) (hbatch : Batch σ.jes ds s) :
    Packed ⟨s, σ.submitted, [], σ.seen ++ ds.flatMap (·.seen)⟩ := by
  refine ⟨fun i => hbatch.empty i, Nat.zero_le _, List.Pairwise.nil,
    fun _ hj => absurd hj List.not_mem_nil, ?_, ?_⟩
  · rw [hbatch.nextJobNo]
    exact h.positive
  · rw [hbatch.nextJobNo]
    exact h.count

theorem submitted_mono (hstep : Step σ σ') : σ.submitted ≤ σ'.submitted := by
  cases hstep with
  | submit => exact Nat.le_succ _
  | run => exact le_rfl

theorem packed_reachable (h : Reachable σ) (hcount : σ.submitted < wordCount - 1) : Packed σ := by
  induction h with
  | refl => exact packed_start
  | tail hrun hstep ih =>
      have hpacked := ih ((submitted_mono hstep).trans_lt hcount)
      cases hstep with
      | submit name class' priority steps => exact hpacked.submit hcount
      | run hcall => exact hpacked.run (batch_of_run (inv_reachable hrun).idle hcall)

/-- **Batch order and completeness.** With fewer than `2 ^ 32 - 1` submissions, a run returns, takes
the jobs accepted since the last one, each of them once, in the order of the batch, and leaves every
slot empty and every address space free; and the next `submit` returns 0 exactly when all slots are
occupied, and then changes nothing. -/
theorem session_order (h : Reachable σ) (hcount : σ.submitted < wordCount - 1) :
    (∀ fuel, maxJobs < fuel → ∃ ds s, σ.jes.run fuel = .ok (ds, s) ∧
      (ds.map (·.job)).Perm σ.pending ∧ (ds.map (·.job)).Pairwise Before ∧
      (∀ i, s.jobs i = none) ∧ ∀ k, (s.spaces k).inUse = false) ∧
    (σ.submitted + 1 < wordCount - 1 → ∀ name class' priority steps,
      ((σ.jes.submit name class' priority steps).1 = 0 ↔ σ.jes.Full) ∧
      (σ.jes.Full → (σ.jes.submit name class' priority steps).2 = σ.jes)) := by
  have hpacked := packed_reachable h hcount
  constructor
  · intro fuel hfuel
    obtain ⟨ds, s, hrun, hbatch⟩ := (inv_reachable h).run hfuel
    refine ⟨ds, s, hrun, hpacked.queue ▸ hbatch.perm, hbatch.sorted hpacked.ordered, hbatch.empty,
      ?_⟩
    intro k
    rw [hbatch.idle.spaces k]
  · intro _ name class' priority steps
    rcases σ.jes.submit_cases name class' priority steps with ⟨hfull, heq⟩ | ⟨i, hnone, -, heq⟩
    · rw [heq]
      exact ⟨iff_of_true rfl hfull, fun _ => rfl⟩
    · have hfull : ¬σ.jes.Full := fun hfull => by
        have hsome := hfull i
        rw [hnone] at hsome
        cases hsome
      rw [heq]
      exact ⟨iff_of_false hpacked.positive.ne' hfull, fun h => absurd h hfull⟩

/-- The batch of `run_demo`. -/
theorem session_order_demo :
    demo.pending.map (·.id) = [1, 2, 3] ∧
      ∃ ds s, demo.jes.run 17 = .ok (ds, s) ∧ (ds.map (·.job)).Perm demo.pending ∧
        (ds.map (·.job)).Pairwise Before ∧ ∀ i, s.jobs i = none := by
  obtain ⟨hrun, -⟩ := session_order reachable_demo (show 3 < wordCount - 1 by decide)
  obtain ⟨ds, s, hrun, hperm, hsorted, hempty, -⟩ := hrun 17 (by decide)
  exact ⟨by decide +kernel, ds, s, hrun, hperm, hsorted, hempty⟩

end Order

end Session

end Munux.Zos
