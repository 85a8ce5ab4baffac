import Munux.Lib.Word
import Munux.Lib.Scan

/-!
# The job entry subsystem

Batch jobs of the s390x kernel, `kernel/src/jes.rs`: sixteen job slots and eight address spaces,
without a heap. A job is submitted to the INPUT queue, and `run` takes the queued jobs one by one,
the highest priority first, through ACTIVE and OUTPUT to PURGE. The kernel is built in release mode,
so job numbers wrap around.

The console output is left out. In its place `dispatch` reports the job it ran and the state of the
subsystem after each step of the job.
-/

namespace Munux.Zos

open Scan

/-- `MAX_ASID` -/
abbrev maxAsid : Nat := 8

/-- `MAX_JOBS` -/
abbrev maxJobs : Nat := 16

inductive JobState where
  | input
  | active
  | output
  | purge
  deriving DecidableEq, Repr

structure AddressSpace where
  asid : Nat
  inUse : Bool
  deriving DecidableEq, Repr

structure Job where
  id : Nat
  name : Vector UInt8 8
  class' : UInt8
  priority : UInt8
  state : JobState
  asid : Nat
  steps : UInt8
  deriving DecidableEq, Repr

structure Jes where
  spaces : Fin maxAsid → AddressSpace
  jobs : Fin maxJobs → Option Job
  nextJobNo : Nat

/-- What `dispatch` did: the job, its slot, and the states of the subsystem after each write of the
job's state and at the end. -/
structure Dispatch where
  slot : Fin maxJobs
  job : Job
  seen : List Jes

namespace Jes

/-- `Jes::new` -/
def new : Jes where
  spaces := fun i => { asid := i + 1, inUse := false }
  jobs := fun _ => none
  nextJobNo := 1

/-- `Jes::submit` -/
def submit (s : Jes) (name : Vector UInt8 8) (class' priority steps : UInt8) : Nat × Jes :=
  match (List.finRange maxJobs).find? fun i => (s.jobs i).isNone with
  | some i =>
      let id := s.nextJobNo
      let job : Job :=
        { id, name, class', priority, state := .input, asid := 0, steps }
      (id, { s with
        nextJobNo := (s.nextJobNo + 1) % wordCount
        jobs := Function.update s.jobs i (some job) })
  | none => (0, s)

/-- `Jes::alloc_asid` -/
def allocAsid (s : Jes) : Nat × Jes :=
  match (List.finRange maxAsid).find? fun i => !(s.spaces i).inUse with
  | some i =>
      let space := { s.spaces i with inUse := true }
      (space.asid, { s with spaces := Function.update s.spaces i space })
  | none => (0, s)

/-- `Jes::free_asid` -/
def freeAsid (s : Jes) (asid : Nat) : Jes :=
  { s with spaces := fun i =>
      if (s.spaces i).asid = asid then { s.spaces i with inUse := false } else s.spaces i }

/-- The loop body of `Jes::pick_next`. -/
def pickBetter (s : Jes) (best : Option (Fin maxJobs)) (i : Fin maxJobs) : Option (Fin maxJobs) :=
  match s.jobs i with
  | none => best
  | some j =>
      if j.state ≠ .input then best
      else match best with
        | some b =>
            match s.jobs b with
            | some bj => if bj.priority < j.priority then some i else best
            | none => best
        | none => some i

/-- `Jes::pick_next` -/
def pickNext (s : Jes) : Option (Fin maxJobs) := (List.finRange maxJobs).foldl s.pickBetter none

/-- `self.jobs[idx].as_ref().unwrap()` -/
def jobAt (s : Jes) (idx : Fin maxJobs) : Outcome Job :=
  match s.jobs idx with
  | some j => .ok j
  | none => .panic

/-- An assignment through `self.jobs[idx].as_mut().unwrap()`. -/
def modifyJob (s : Jes) (idx : Fin maxJobs) (f : Job → Job) : Outcome Jes := do
  let j ← s.jobAt idx
  return { s with jobs := Function.update s.jobs idx (some (f j)) }

/-- `Jes::dispatch` -/
def dispatch (s : Jes) (idx : Fin maxJobs) : Outcome (Dispatch × Jes) := do
  let job ← s.jobAt idx
  let (asid, s) := s.allocAsid
  -- INPUT -> ACTIVE
  let s ← s.modifyJob idx fun j => { j with asid := asid }
  let active ← s.modifyJob idx fun j => { j with state := .active }
  -- ACTIVE -> OUTPUT
  let output ← active.modifyJob idx fun j => { j with state := .output }
  -- OUTPUT -> PURGE
  let purge ← output.modifyJob idx fun j => { j with state := .purge }
  let freed := purge.freeAsid asid
  let final := { freed with jobs := Function.update freed.jobs idx none }
  return ({ slot := idx, job := job, seen := [active, output, purge, final] }, final)

/-- `Jes::run`, for at most `fuel` turns of its loop. -/
def run : (fuel : Nat) → Jes → Outcome (List Dispatch × Jes)
  | 0, _ => .diverge
  | fuel + 1, s =>
      match s.pickNext with
      | none => .ok ([], s)
      | some idx => do
          let (d, s) ← s.dispatch idx
          let (ds, s) ← run fuel s
          return (d :: ds, s)

/-- The queued jobs, in slot order. -/
def queue (s : Jes) : List Job := entries s.jobs

/-! ## Submitting -/

section Submit

variable {s : Jes} {name : Vector UInt8 8} {class' priority steps : UInt8} {i : Fin maxJobs}

/-- All slots are occupied. -/
def Full (s : Jes) : Prop := ∀ i, (s.jobs i).isSome

instance (s : Jes) : Decidable s.Full := inferInstanceAs (Decidable (∀ _, _))

/-- The job that a call of `submit` queues. -/
def newJob (s : Jes) (name : Vector UInt8 8) (class' priority steps : UInt8) : Job :=
  ⟨s.nextJobNo, name, class', priority, .input, 0, steps⟩

/-- A full queue refuses the job; otherwise it goes to the first empty slot. -/
theorem submit_cases (s : Jes) (name : Vector UInt8 8) (class' priority steps : UInt8) :
    (s.Full ∧ s.submit name class' priority steps = (0, s)) ∨
      ∃ i, s.jobs i = none ∧ (∀ j < i, (s.jobs j).isSome) ∧
        s.submit name class' priority steps = (s.nextJobNo, { s with
          nextJobNo := (s.nextJobNo + 1) % wordCount
          jobs := Function.update s.jobs i (some (s.newJob name class' priority steps)) }) := by
  unfold submit
  cases hfind : (List.finRange maxJobs).find? fun i => (s.jobs i).isNone with
  | none =>
      refine .inl ⟨?_, rfl⟩
      intro i
      have hsome := List.find?_eq_none.1 hfind i (List.mem_finRange i)
      simpa [Option.isSome_iff_ne_none] using hsome
  | some i =>
      obtain ⟨hnone, before, after, hsplit, hbefore⟩ := List.find?_eq_some_iff_append.1 hfind
      refine .inr ⟨i, Option.isNone_iff_eq_none.1 hnone, ?_, rfl⟩
      intro j hj
      -- The slots below `i` are the ones before it in the scan.
      have hlt := List.pairwise_lt_finRange maxJobs
      rw [hsplit] at hlt
      obtain ⟨-, hafter, -⟩ := List.pairwise_append.1 hlt
      have hmem := List.mem_finRange j
      rw [hsplit] at hmem
      rcases List.mem_append.1 hmem with hmem | hmem
      · simpa [Option.isSome_iff_ne_none] using hbefore j hmem
      · rcases List.mem_cons.1 hmem with rfl | hmem
        · exact absurd hj (lt_irrefl _)
        · exact absurd ((List.pairwise_cons.1 hafter).1 j hmem) hj.asymm

end Submit

/-! ## Picking and dispatching -/

section Dispatch

variable {s : Jes} {idx i : Fin maxJobs} {j : Job}

/-- Between two runs: the address spaces are numbered from 1 and free, and all jobs are queued. -/
structure Idle (s : Jes) : Prop where
  spaces : ∀ i, s.spaces i = { asid := i + 1, inUse := false }
  queued : ∀ i j, s.jobs i = some j → j.state = .input ∧ j.asid = 0

/-- The priority of a queued job. -/
def key (s : Jes) (i : Fin maxJobs) : Option Nat :=
  match s.jobs i with
  | none => none
  | some j => if j.state = .input then some j.priority.toNat else none

theorem key_eq (h : s.Idle) (i : Fin maxJobs) : s.key i = (s.jobs i).map (·.priority.toNat) := by
  unfold key
  cases hj : s.jobs i with
  | none => rfl
  | some j => simp [(h.queued i j hj).1]

theorem pickBetter_eq (best : Option (Fin maxJobs)) (i : Fin maxJobs)
    (hbest : ∀ b ∈ best, (s.key b).isSome) : s.pickBetter best i = better s.key best i := by
  unfold pickBetter better
  cases hj : s.jobs i with
  | none => simp [key, hj]
  | some j =>
      by_cases hstate : j.state = .input
      · have hkey : s.key i = some j.priority.toNat := by simp [key, hj, hstate]
        cases best with
        | none => simp [hkey, hstate]
        | some b =>
            have hb := hbest b rfl
            cases hbj : s.jobs b with
            | none => simp [key, hbj] at hb
            | some bj =>
                by_cases hbstate : bj.state = .input
                · have hbkey : s.key b = some bj.priority.toNat := by simp [key, hbj, hbstate]
                  simp [hkey, hbkey, hbj, hstate, UInt8.lt_iff_toNat_lt]
                · simp [key, hbj, hbstate] at hb
      · have hkey : s.key i = none := by simp [key, hj, hstate]
        simp [hkey, hstate]

/-- **`pick_next`** finds the first job of the greatest priority. -/
theorem pickNext_spec (s : Jes) : IsFirstMax s.key (List.finRange maxJobs) s.pickNext :=
  foldl_isFirstMax pickBetter_eq (List.pairwise_lt_finRange maxJobs)

theorem pickNext_eq_none (h : s.Idle) (hpick : s.pickNext = none) (i : Fin maxJobs) :
    s.jobs i = none := by
  have hspec := s.pickNext_spec
  rw [hpick] at hspec
  have hkey := hspec i (List.mem_finRange i)
  rwa [key_eq h, Option.map_eq_none_iff] at hkey

theorem pickNext_eq_some (h : s.Idle) (hpick : s.pickNext = some idx) :
    ∃ j, s.jobs idx = some j ∧ ∀ i j', s.jobs i = some j' →
      j'.priority.toNat ≤ j.priority.toNat ∧
        (j'.priority.toNat = j.priority.toNat → idx ≤ i) := by
  have hspec := s.pickNext_spec
  rw [hpick] at hspec
  obtain ⟨-, k, hk, hmax⟩ := hspec
  rw [key_eq h, Option.map_eq_some_iff] at hk
  obtain ⟨j, hj, rfl⟩ := hk
  refine ⟨j, hj, fun i j' hj' => hmax i (List.mem_finRange i) _ ?_⟩
  rw [key_eq h, hj']
  rfl

/-- The job in slot `idx` in progress: it is `j`, in state `st`, in the first address space. -/
def busy (s : Jes) (idx : Fin maxJobs) (j : Job) (st : JobState) : Jes :=
  { s with
    spaces := Function.update s.spaces 0 { asid := 1, inUse := true }
    jobs := Function.update s.jobs idx (some { j with state := st, asid := 1 }) }

/-- The job in slot `idx` gone. -/
def purged (s : Jes) (idx : Fin maxJobs) : Jes :=
  { s with jobs := Function.update s.jobs idx none }

theorem allocAsid_idle (h : s.Idle) :
    s.allocAsid = (1, { s with
      spaces := Function.update s.spaces 0 { asid := 1, inUse := true } }) := by
  have hfind : ((List.finRange maxAsid).find? fun i => !(s.spaces i).inUse) = some 0 := by
    rw [show List.finRange maxAsid = 0 :: (List.finRange 7).map Fin.succ from List.finRange_succ]
    exact List.find?_cons_of_pos (by simp [h.spaces 0])
  unfold allocAsid
  rw [hfind]
  simp [h.spaces 0]

theorem busy_spaces (h : s.Idle) (st : JobState) (i : Fin maxAsid) :
    (s.busy idx j st).spaces i = { asid := i + 1, inUse := decide (i = 0) } := by
  unfold busy
  by_cases hi : i = 0
  · rw [hi]
    rfl
  · simp only [Function.update_of_ne hi, h.spaces i, hi, decide_false]

theorem freeAsid_busy (h : s.Idle) (st : JobState) :
    ((s.busy idx j st).freeAsid 1).spaces = s.spaces := by
  funext i
  simp only [freeAsid, busy_spaces h, h.spaces i]
  by_cases hi : i.val = 0
  · rw [if_pos (by rw [hi])]
  · have hne : i ≠ 0 := fun h => hi (congrArg Fin.val h)
    rw [if_neg (by omega), decide_eq_false hne]

theorem modifyJob_eq (hj : s.jobs idx = some j) (f : Job → Job) :
    s.modifyJob idx f = .ok { s with jobs := Function.update s.jobs idx (some (f j)) } := by
  simp only [modifyJob, jobAt, hj, Outcome.ok_bind, Outcome.pure_eq]

theorem busy_jobs (s : Jes) (idx : Fin maxJobs) (j : Job) (st : JobState) :
    (s.busy idx j st).jobs idx = some { j with state := st, asid := 1 } :=
  Function.update_self ..

/-- The next write of the job's state. -/
theorem busy_next (s : Jes) (idx : Fin maxJobs) (j : Job) (st st' : JobState) :
    (s.busy idx j st).modifyJob idx (fun j => { j with state := st' }) =
      .ok (s.busy idx j st') := by
  rw [modifyJob_eq (busy_jobs s idx j st)]
  simp only [busy, Function.update_idem]

/-- **`dispatch`** of a queued job returns, and shows the job in each of its states. -/
theorem dispatch_spec (h : s.Idle) (hj : s.jobs idx = some j) :
    s.dispatch idx = .ok ({
      slot := idx
      job := j
      seen := [s.busy idx j .active, s.busy idx j .output, s.busy idx j .purge, s.purged idx] },
      s.purged idx) := by
  have hstart : ({ s with
      spaces := Function.update s.spaces 0 { asid := 1, inUse := true } } : Jes).modifyJob idx
        (fun j => { j with asid := 1 }) = .ok (s.busy idx j .input) := by
    refine (modifyJob_eq (j := j) ?_ _).trans ?_
    · exact hj
    · rw [busy, ← (h.queued idx j hj).1]
  have hend : ({ (s.busy idx j .purge).freeAsid 1 with
      jobs := Function.update ((s.busy idx j .purge).freeAsid 1).jobs idx none } : Jes) =
      s.purged idx := by
    simp only [freeAsid_busy h, purged]
    simp only [freeAsid, busy, Function.update_idem]
  simp only [dispatch, jobAt, hj, allocAsid_idle h, Outcome.ok_bind, hstart, busy_next,
    Outcome.pure_eq, hend]

theorem Idle.submit (h : s.Idle) (name : Vector UInt8 8) (class' priority steps : UInt8) :
    (s.submit name class' priority steps).2.Idle := by
  rcases s.submit_cases name class' priority steps with ⟨-, heq⟩ | ⟨i, -, -, heq⟩
  · rw [heq]
    exact h
  · rw [heq]
    refine ⟨h.spaces, ?_⟩
    intro k j hj
    simp only at hj
    by_cases hk : k = i
    · rw [hk, Function.update_self] at hj
      obtain rfl := Option.some.inj hj
      exact ⟨rfl, rfl⟩
    · rw [Function.update_of_ne hk] at hj
      exact h.queued k j hj

theorem Idle.purged (h : s.Idle) (idx : Fin maxJobs) : (s.purged idx).Idle := by
  refine ⟨h.spaces, ?_⟩
  intro i j hj
  simp only [Jes.purged] at hj
  by_cases hi : i = idx
  · rw [hi, Function.update_self] at hj
    cases hj
  · rw [Function.update_of_ne hi] at hj
    exact h.queued i j hj

/-- **One turn of `run`:** there is no job left, or one of them is dispatched and the run goes on
without it. -/
theorem run_cases (h : s.Idle) {fuel : Nat} {ds : List Dispatch} {s' : Jes}
    (hrun : s.run (fuel + 1) = .ok (ds, s')) :
    (s.pickNext = none ∧ ds = [] ∧ s' = s) ∨
      ∃ idx j d ds', s.pickNext = some idx ∧ s.jobs idx = some j ∧
        s.dispatch idx = .ok (d, s.purged idx) ∧ (s.purged idx).run fuel = .ok (ds', s') ∧
        ds = d :: ds' := by
  unfold run at hrun
  cases hpick : s.pickNext with
  | none =>
      rw [hpick] at hrun
      obtain ⟨rfl, rfl⟩ := Prod.mk.inj (Outcome.ok.inj hrun)
      exact .inl ⟨rfl, rfl, rfl⟩
  | some idx =>
      obtain ⟨j, hj, -⟩ := pickNext_eq_some h hpick
      have hd := dispatch_spec h hj
      rw [hpick] at hrun
      simp only [hd, Outcome.ok_bind, Outcome.bind_eq_ok] at hrun
      obtain ⟨⟨ds', s''⟩, hrest, hrun⟩ := hrun
      obtain ⟨rfl, rfl⟩ := Prod.mk.inj (Outcome.ok.inj hrun)
      exact .inr ⟨idx, j, _, ds', rfl, hj, hd, hrest, rfl⟩

end Dispatch

end Jes

end Munux.Zos
