import Munux.Lib.Delimited
import Munux.Zos.Console
import Munux.Zos.JobNumbers

/-!
# The log of the job entry subsystem

`Jes::dispatch` writes what it does to the console: a prefix with the number, the name, the class
and the priority of the job at each change of its state, and one line for each step. This module has
`dispatch`, `run`, `run_demo` and `kmain` with what they write. `report` is what a job should leave
on the console.

The log is complete. Every field of a job can be found in its report, and where the report ends
(`report_delimited`), so the log of a session tells which jobs were run, and in what order, whatever
their names are.

Main results:

* `session_log`: the writing changes nothing in the work of the subsystem, never stops it, and
  leaves on the console the reports of the jobs that were run, in their order.
* `session_log_readable`: two sessions have the same log exactly if they ran the same jobs.
* `kmain_shown`: the kernel comes to its end, with the three jobs of `run_demo` on the console.
-/

namespace Munux.Zos

/-! ## The code -/

namespace Jes

/-- `Jes::print_prefix` -/
def printPrefix (job : Job) (k : Console) : Outcome Console := do
  let k ← consoleWrite (lit "JOB") k
  let k ← consoleWriteU32Pad (UInt32.ofNat job.id) 5 k
  let k ← consoleWrite (lit " ") k
  let k ← consoleWrite job.name.toList k
  let k ← consoleWrite (lit " cl ") k
  let k ← consoleWrite [job.class'] k
  let k ← consoleWrite (lit " pri ") k
  consoleWriteU32Pad job.priority.toUInt32 2 k

/-- The loop body of `dispatch`: one step of the job. -/
def printStep (steps : UInt8) (k : Console) (s : Nat) : Outcome Console := do
  let k ← consoleWrite (lit "    step ") k
  let k ← consoleWriteU32Pad (UInt32.ofNat s) 1 k
  let k ← consoleWrite (lit "/") k
  let k ← consoleWriteU32Pad steps.toUInt32 1 k
  consoleWrite (lit " ...\n") k

/-- `Jes::dispatch`, with what it writes. -/
def dispatchLogged (s : Jes) (idx : Fin maxJobs) (k : Console) :
    Outcome (Dispatch × Jes × Console) := do
  let job ← s.jobAt idx
  let (asid, s) := s.allocAsid
  -- INPUT -> ACTIVE
  let s ← s.modifyJob idx fun j => { j with asid := asid }
  let active ← s.modifyJob idx fun j => { j with state := .active }
  let steps := (← active.jobAt idx).steps
  let k ← printPrefix (← active.jobAt idx) k
  let k ← consoleWrite (lit " asid ") k
  let k ← consoleWriteU32Pad (UInt32.ofNat asid) 2 k
  let k ← consoleWrite (lit ": INPUT -> ACTIVE\n") k
  let k ← (List.range' 1 steps.toNat).foldlM (printStep steps) k
  -- ACTIVE -> OUTPUT
  let output ← active.modifyJob idx fun j => { j with state := .output }
  let k ← printPrefix (← output.jobAt idx) k
  let k ← consoleWrite (lit ": ACTIVE -> OUTPUT (SYSOUT pronto)\n") k
  -- OUTPUT -> PURGE
  let purge ← output.modifyJob idx fun j => { j with state := .purge }
  let k ← printPrefix (← purge.jobAt idx) k
  let k ← consoleWrite (lit ": OUTPUT -> PURGE (asid ") k
  let k ← consoleWriteU32Pad (UInt32.ofNat asid) 2 k
  let k ← consoleWrite (lit " liberado)\n\n") k
  let freed := purge.freeAsid asid
  let final := { freed with jobs := Function.update freed.jobs idx none }
  return ({ slot := idx, job := job, seen := [active, output, purge, final] }, final, k)

/-- `Jes::run`, with what it writes. -/
def runLogged : (fuel : Nat) → Jes → Console → Outcome (List Dispatch × Jes × Console)
  | 0, _, _ => .diverge
  | fuel + 1, s, k =>
      match s.pickNext with
      | none => .ok ([], s, k)
      | some idx => do
          let (d, s, k) ← s.dispatchLogged idx k
          let (ds, s, k) ← runLogged fuel s k
          return (d :: ds, s, k)

end Jes

/-- `run_demo`, whose jobs are those of `Session.demo`. -/
def runDemo (fuel : Nat) (k : Console) : Outcome Console := do
  let jes := Session.demo.jes
  let k ← consoleWrite (lit "\n[JES] 3 jobs submetidos (fila INPUT).\n") k
  let k ← consoleWrite (lit "[JES] Escalonamento batch por prioridade (maior primeiro):\n\n") k
  let (_, _, k) ← jes.runLogged fuel k
  consoleWrite (lit "[fase 2] address spaces + escalonamento + estados: OK\n") k

/-- `kmain` -/
def kmain (fuel : Nat) : Outcome Console := do
  let setup ← sclpSetup
  let k ← consoleWrite (lit "\n") [setup]
  let k ← consoleWrite (lit "========================================\n") k
  let k ← consoleWrite (lit "   Munux z/OS  -  s390x / z-Architecture\n") k
  let k ← consoleWrite (lit "   hello, mainframe!\n") k
  let k ← consoleWrite (lit "========================================\n") k
  let k ← consoleWrite (lit "[fase 1] boot + console SCLP: OK\n") k
  runDemo fuel k

/-! ## The report of a job -/

/-- The number, the name, the class and the priority. -/
def heading (j : Job) : List UInt8 :=
  lit "JOB" ++ (padded 5 j.id ++ (lit " " ++ (j.name.toList ++ (lit " cl " ++ ([j.class'] ++
    (lit " pri " ++ padded 2 j.priority.toNat))))))

/-- The lines of the steps. -/
def stepLine (steps s : Nat) : List UInt8 :=
  lit "    step " ++ (padded 1 s ++ (lit "/" ++ (padded 1 steps ++ lit " ...\n")))

/-- What a job that runs in address space `asid` leaves on the console. -/
def report (asid : Nat) (j : Job) : List UInt8 :=
  heading j ++ (lit " asid " ++ (padded 2 asid ++ (lit ": INPUT -> ACTIVE\n" ++
    ((List.range' 1 j.steps.toNat).flatMap (stepLine j.steps.toNat) ++
    (heading j ++ (lit ": ACTIVE -> OUTPUT (SYSOUT pronto)\n" ++
    (heading j ++ (lit ": OUTPUT -> PURGE (asid " ++ (padded 2 asid ++ lit " liberado)\n\n")))))))))

section Writing

variable {s s' : Jes} {j : Job} {idx : Fin maxJobs} {ds : List Dispatch} {fuel : Nat} {k : Console}

theorem lit_shows (s : String) (h : (lit s).length ≤ 2000 := by decide) :
    Shows (consoleWrite (lit s)) (lit s) :=
  consoleWrite_shows h

theorem printPrefix_shows (hid : j.id < wordCount) : Shows (Jes.printPrefix j) (heading j) := by
  have hno : (UInt32.ofNat j.id).toNat = j.id := UInt32.toNat_ofNat_of_lt' hid
  have hname : j.name.toList.length ≤ 2000 := by
    rw [Vector.length_toList]
    decide
  have hid' := consoleWriteU32Pad_shows (UInt32.ofNat j.id) 5 (by decide)
  have hpri := consoleWriteU32Pad_shows j.priority.toUInt32 2 (by decide)
  rw [hno] at hid'
  exact (lit_shows "JOB").comp (hid'.comp ((lit_shows " ").comp ((consoleWrite_shows hname).comp
    ((lit_shows " cl ").comp ((consoleWrite_shows (s := [j.class']) (Nat.le_add_left 1 1999)).comp
      ((lit_shows " pri ").comp hpri))))))

theorem printStep_shows (steps : UInt8) {i : Nat} (hi : i < wordCount) :
    Shows (fun k => Jes.printStep steps k i) (stepLine steps.toNat i) := by
  have hno : (UInt32.ofNat i).toNat = i := UInt32.toNat_ofNat_of_lt' hi
  have hi' := consoleWriteU32Pad_shows (UInt32.ofNat i) 1 (by decide)
  have hsteps := consoleWriteU32Pad_shows steps.toUInt32 1 (by decide)
  rw [hno] at hi'
  exact (lit_shows "    step ").comp (hi'.comp ((lit_shows "/").comp
    (hsteps.comp (lit_shows " ...\n"))))

/-- The loop over the steps. -/
theorem printSteps_shows (steps : UInt8) (l : List Nat) (hl : ∀ i ∈ l, i < wordCount) :
    Shows (fun k => l.foldlM (Jes.printStep steps) k) (l.flatMap (stepLine steps.toNat)) := by
  induction l with
  | nil => exact shows_nil
  | cons i l ih =>
      have hrest := ih fun i' hi' => hl i' (List.mem_cons_of_mem _ hi')
      have hstep := (printStep_shows steps (hl i List.mem_cons_self)).comp hrest
      simpa only [List.foldlM_cons, List.flatMap_cons] using hstep

/-- The prefix does not tell the state. -/
theorem printPrefix_state (j : Job) (st : JobState) (asid : Nat) :
    Jes.printPrefix { j with state := st, asid := asid } = Jes.printPrefix j := rfl

/-- **`dispatch`** does with its output what it does without, and leaves the report of the job. -/
theorem dispatchLogged_spec (h : s.Idle) (hj : s.jobs idx = some j) (hid : j.id < wordCount)
    (k : Console) : ∃ d k', s.dispatch idx = .ok (d, s.purged idx) ∧ d.job = j ∧
      s.dispatchLogged idx k = .ok (d, s.purged idx, k') ∧
      shown k' = shown k ++ expand (report 1 j) := by
  have hd := Jes.dispatch_spec h hj
  have hpeel := hd
  rw [Jes.dispatch, Jes.allocAsid_idle h] at hpeel
  obtain ⟨job, hjob, hpeel⟩ := Outcome.bind_eq_ok.1 hpeel
  obtain ⟨start, hstart, hpeel⟩ := Outcome.bind_eq_ok.1 hpeel
  obtain ⟨active, hactive, hpeel⟩ := Outcome.bind_eq_ok.1 hpeel
  obtain ⟨output, houtput, hpeel⟩ := Outcome.bind_eq_ok.1 hpeel
  obtain ⟨purge, hpurge, hpeel⟩ := Outcome.bind_eq_ok.1 hpeel
  simp only [Outcome.pure_eq, Outcome.ok.injEq, Prod.mk.injEq, Dispatch.mk.injEq, List.cons.injEq,
    and_true, true_and] at hpeel
  obtain ⟨⟨hjob', rfl, rfl, rfl, -⟩, hfinal⟩ := hpeel
  obtain rfl : j = job := hjob'.symm
  -- The output, without the changes of the state.
  have hheading := printPrefix_shows hid
  have hone : (UInt32.ofNat 1).toNat = 1 := rfl
  have hasid := consoleWriteU32Pad_shows (UInt32.ofNat 1) 2 (by decide)
  rw [hone] at hasid
  have hsteps := printSteps_shows j.steps (List.range' 1 j.steps.toNat) fun i hi => by
    have hlt := j.steps.toNat_lt
    obtain ⟨-, hi⟩ := List.mem_range'_1.1 hi
    exact lt_trans (by omega) (show 256 < wordCount by decide)
  obtain ⟨k', hshown, hret⟩ := Shows.ret (hheading.comp ((lit_shows " asid ").comp (hasid.comp
    ((lit_shows ": INPUT -> ACTIVE\n").comp (hsteps.comp (hheading.comp
    ((lit_shows ": ACTIVE -> OUTPUT (SYSOUT pronto)\n").comp (hheading.comp
    ((lit_shows ": OUTPUT -> PURGE (asid ").comp (hasid.comp
    (lit_shows " liberado)\n\n"))))))))))) k
  refine ⟨_, k', hd, rfl, ?_, hshown⟩
  have hactiveJob : (s.busy idx j .active).jobAt idx =
      .ok { j with state := .active, asid := 1 } := by rw [Jes.jobAt, Jes.busy_jobs]
  have houtputJob : (s.busy idx j .output).jobAt idx =
      .ok { j with state := .output, asid := 1 } := by rw [Jes.jobAt, Jes.busy_jobs]
  have hpurgeJob : (s.busy idx j .purge).jobAt idx =
      .ok { j with state := .purge, asid := 1 } := by rw [Jes.jobAt, Jes.busy_jobs]
  simp only [Jes.dispatchLogged, hjob, Jes.allocAsid_idle h, hstart, hactive, houtput, hpurge,
    hactiveJob, houtputJob, hpurgeJob, hfinal, Outcome.ok_bind, Outcome.pure_eq]
  refine Eq.trans ?_ (hret fun k => .ok (_, s.purged idx, k))
  simp only [Outcome.bind_assoc, printPrefix_state]

/-- **`run`** does with its output what it does without. -/
theorem runLogged_of_run (h : s.Idle) (hid : ∀ i j, s.jobs i = some j → j.id < wordCount)
    (hrun : s.run fuel = .ok (ds, s')) (k : Console) :
    ∃ k', s.runLogged fuel k = .ok (ds, s', k') ∧
      shown k' = shown k ++ expand ((ds.map (·.job)).flatMap (report 1)) := by
  induction fuel generalizing s ds k with
  | zero => cases hrun
  | succ fuel ih =>
      obtain ⟨hpick, rfl, rfl⟩ | ⟨idx, j, d, ds', hpick, hj, hd, hrest, rfl⟩ := Jes.run_cases h hrun
      · exact ⟨k, by rw [Jes.runLogged, hpick], (List.append_nil _).symm⟩
      · obtain ⟨d', k₁, hd', hjob, hk₁, hshown₁⟩ := dispatchLogged_spec h hj (hid idx j hj) k
        obtain rfl : d' = d := (Prod.mk.inj (Outcome.ok.inj (hd'.symm.trans hd))).1
        obtain ⟨k', hk', hshown⟩ := ih (h.purged idx)
          (fun i j' hj' => hid i j' (purged_jobs hj').2) hrest k₁
        refine ⟨k', ?_, ?_⟩
        · rw [Jes.runLogged, hpick]
          simp only [hk₁, Outcome.ok_bind, hk', Outcome.pure_eq]
        · rw [hshown, hshown₁, List.map_cons, List.flatMap_cons, expand_append, hjob,
            List.append_assoc]

end Writing

/-! ## Reading a report -/

/-- A job as it is in the queue. -/
def Queued : Set Job := {j | j.state = .input ∧ j.asid = 0 ∧ j.id < wordCount}

section Reading

variable {w w' n m : Nat} {l r t : List UInt8} {j j' : Job}

/-- Leading zeros count for nothing. -/
theorem readFrom_zeros (k : Nat) (ds : List Nat) :
    readFrom 10 0 (List.replicate k 0 ++ ds) = readFrom 10 0 ds := by
  induction k with
  | zero => rfl
  | succ k ih => exact ih

/-- The number can be read from its digits. -/
theorem readFrom_padded (w n : Nat) :
    readFrom 10 0 ((padded w n).map fun b => (b - asciiZero).toNat) = n := by
  have hdigits : ((numeral 10 n).map fun d => asciiZero + UInt8.ofNat d).map
      (fun b => (b - asciiZero).toNat) = numeral 10 n := by
    rw [List.map_map]
    refine (List.map_congr_left fun d hd => ?_).trans (List.map_id _)
    have hlt : d < 10 := lt_of_mem_numeral (by decide) hd
    change (asciiZero + UInt8.ofNat d - asciiZero).toNat = d
    rw [UInt8.add_comm, UInt8.add_sub_cancel, UInt8.toNat_ofNat', Nat.mod_eq_of_lt (by omega)]
  rw [padded, List.map_append, hdigits, List.map_replicate]
  exact (readFrom_zeros _ _).trans (readFrom_numeral 10 n)

/-- What is not a digit. -/
theorem not_mem_padded {a : UInt8} (ha : a < 48 ∨ 57 < a) (w n : Nat) : a ∉ padded w n := by
  intro hmem
  obtain hmem | hmem := List.mem_append.1 hmem
  · obtain rfl := List.eq_of_mem_replicate hmem
    exact absurd ha (by decide)
  · obtain ⟨d, hd, rfl⟩ := List.mem_map.1 hmem
    have hlt : d < 10 := lt_of_mem_numeral (by decide) hd
    rw [UInt8.lt_iff_toNat_lt, UInt8.lt_iff_toNat_lt, UInt8.toNat_add, UInt8.toNat_ofNat'] at ha
    change (48 + d % 256) % 256 < 48 ∨ 57 < (48 + d % 256) % 256 at ha
    omega

/-- A number with a text behind it that does not begin with a digit. -/
theorem read_padded (hl : ∃ a s, l = a :: s ∧ (a < 48 ∨ 57 < a))
    (h : padded w n ++ (l ++ r) = padded w m ++ (l ++ t)) : n = m ∧ r = t := by
  obtain ⟨a, s, rfl, ha⟩ := hl
  obtain ⟨hnum, hrest⟩ := split_at_symbol (not_mem_padded ha w n) (not_mem_padded ha w m) h
  refine ⟨?_, List.append_cancel_left hrest⟩
  rw [← readFrom_padded w n, hnum, readFrom_padded]

/-- The fields of a heading. -/
theorem read_heading (hl : ∃ a s, l = a :: s ∧ (a < 48 ∨ 57 < a))
    (h : heading j ++ (l ++ r) = heading j' ++ (l ++ t)) :
    (j.id = j'.id ∧ j.name = j'.name ∧ j.class' = j'.class' ∧ j.priority = j'.priority) ∧
      r = t := by
  simp only [heading, List.append_assoc] at h
  obtain ⟨hid, h⟩ := read_padded ⟨32, _, rfl, by decide⟩ (List.append_cancel_left h)
  obtain ⟨hname, h⟩ := List.append_inj h (by rw [Vector.length_toList, Vector.length_toList])
  obtain ⟨hclass, h⟩ := List.cons.inj (List.append_cancel_left h)
  obtain ⟨hpriority, h⟩ := read_padded hl (List.append_cancel_left h)
  exact ⟨⟨hid, Vector.toList_inj.1 hname, hclass, UInt8.toNat_inj.1 hpriority⟩, h⟩

/-- One line. -/
theorem stepLine_delimited : Delimited Set.univ fun p : Nat × Nat => stepLine p.1 p.2 := by
  intro p _ q _ r t h
  simp only [stepLine, List.append_assoc] at h
  obtain ⟨hstep, h⟩ := read_padded ⟨47, _, rfl, by decide⟩ (List.append_cancel_left h)
  obtain ⟨hsteps, h⟩ := read_padded ⟨32, _, rfl, by decide⟩ h
  exact ⟨Prod.ext hsteps hstep, h⟩

/-- The lines of the steps end where the next heading begins. -/
theorem read_steps
    (h : (List.range' 1 n).flatMap (stepLine n) ++ (lit "JOB" ++ r) =
      (List.range' 1 m).flatMap (stepLine m) ++ (lit "JOB" ++ t)) : n = m ∧ r = t := by
  have hlines : ∀ k, (List.range' 1 k).flatMap (stepLine k) =
      ((List.range' 1 k).map (Prod.mk k)).flatMap fun p => stepLine p.1 p.2 :=
    fun k => by rw [List.flatMap_map]
  have hlist := stepLine_delimited.list (a := 74) fun p _ => ⟨32, _, rfl, by decide⟩
  rw [hlines, hlines] at h
  obtain ⟨hmap, hrest⟩ := hlist (fun _ _ => trivial) (fun _ _ => trivial)
    (r := lit "OB" ++ r) (t := lit "OB" ++ t)
    (by rw [List.append_assoc, List.append_assoc]; exact h)
  have hlen := congrArg List.length hmap
  rw [List.length_map, List.length_map, List.length_range', List.length_range'] at hlen
  exact ⟨hlen, List.append_cancel_left hrest⟩

/-- **Reports can be told apart**, and where each one ends. -/
theorem report_delimited : Delimited Queued (report 1) := by
  intro j hj j' hj' r t h
  simp only [report, List.append_assoc] at h
  obtain ⟨⟨hid, hname, hclass, hpriority⟩, h⟩ := read_heading ⟨32, _, rfl, by decide⟩ h
  have hheading : heading j' = heading j := by
    simp only [heading, hid, hname, hclass, hpriority]
  rw [hheading] at h
  replace h := List.append_cancel_left (List.append_cancel_left h)
  simp only [heading, List.append_assoc] at h
  obtain ⟨hsteps, h⟩ := read_steps h
  obtain rfl : j = j' := by
    obtain ⟨hstate, hasid, -⟩ := hj
    obtain ⟨hstate', hasid', -⟩ := hj'
    cases j
    cases j'
    simp_all [UInt8.toNat_inj]
  exact ⟨rfl, by simpa only [List.append_cancel_left_eq] using h⟩

end Reading

/-! ## Sessions -/

/-- A session with its console, and the jobs that have been run. -/
structure Log where
  session : Session
  ran : List Job
  console : Console

namespace Log

/-- Nothing submitted, and nothing written. -/
def start : Log := ⟨Session.start, [], []⟩

/-- One call. -/
def call (l : Log) : Call → Outcome Log
  | .submit name class' priority steps =>
      .ok { l with session := l.session.submit name class' priority steps }
  | .run => do
      let (ds, s, k) ← l.session.jes.runLogged (maxJobs + 1) l.console
      return { session := ⟨s, l.session.submitted, [], l.session.seen ++ ds.flatMap (·.seen)⟩
               ran := l.ran ++ ds.map (·.job)
               console := k }

/-- Calls on a new subsystem. -/
def after (calls : List Call) : Outcome Log := calls.foldlM call start

theorem after_snoc (calls : List Call) (c : Call) :
    after (calls ++ [c]) = (after calls >>= fun l => l.call c) :=
  Outcome.foldlM_concat calls c start

end Log

section Sessions

variable {b : Backlog} {s : Jes} {l : Log}

theorem Numbered.queued (h : Numbered b s) {i : Fin maxJobs} {j : Job} (hj : s.jobs i = some j) :
    j ∈ Queued := by
  obtain ⟨hstate, hasid⟩ := h.idle.queued i j hj
  refine ⟨hstate, hasid, ?_⟩
  have hids := h.ids i
  rw [hj, Option.map_some] at hids
  split_ifs at hids
  rw [Option.some.inj hids]
  exact Nat.mod_lt _ (by decide)

/-- What holds of a log between two calls. -/
structure Kept (b : Backlog) (l : Log) : Prop where
  numbered : Numbered b l.session.jes
  queued : ∀ j ∈ l.ran, j ∈ Queued
  shown : shown l.console = expand (l.ran.flatMap (report 1))

/-- One call returns, does what it does without a console, and keeps the log. -/
theorem Kept.call (h : Kept b l) (c : Call) : ∃ l', l.call c = .ok l' ∧
    l.session.call c = .ok l'.session ∧ Kept (b.call c) l' := by
  cases c with
  | submit name class' priority steps =>
      exact ⟨_, rfl, rfl, h.numbered.submit name class' priority steps, h.queued, h.shown⟩
  | run =>
      obtain ⟨⟨ds, s⟩, hrun⟩ :=
        run_returns h.numbered.idle (Nat.lt_succ_of_le (queue_length_le l.session.jes))
      have hbatch := batch_of_run h.numbered.idle hrun
      obtain ⟨k, hk, hshown⟩ := runLogged_of_run h.numbered.idle
        (fun i j hj => (h.numbered.queued hj).2.2) hrun l.console
      refine ⟨_, by rw [Log.call, hk]; rfl, by rw [Session.call, hrun]; rfl,
        h.numbered.run hbatch, ?_, ?_⟩
      · intro j hj
        obtain hj | hj := List.mem_append.1 hj
        · exact h.queued j hj
        · obtain ⟨i, hi⟩ := Scan.mem_entries.1 (hbatch.perm.subset hj)
          exact h.numbered.queued hi
      · rw [hshown, h.shown, List.flatMap_append, expand_append]

theorem log_kept (calls : List Call) : ∃ l, Log.after calls = .ok l ∧
    Session.after calls = .ok l.session ∧ Kept (Backlog.after calls) l := by
  induction calls using List.reverseRecOn with
  | nil => exact ⟨Log.start, rfl, rfl, numbered_new, fun j hj => absurd hj List.not_mem_nil, rfl⟩
  | append_singleton calls c ih =>
      obtain ⟨l, hl, hsession, hkept⟩ := ih
      obtain ⟨l', hl', hsession', hkept'⟩ := hkept.call c
      refine ⟨l', ?_, ?_, ?_⟩
      · rw [Log.after_snoc, hl, Outcome.ok_bind, hl']
      · rw [Session.after_snoc, hsession, Outcome.ok_bind, hsession']
      · rw [Backlog.after_snoc]
        exact hkept'

/-- **The log.** The console takes no part in the work: every call returns and does the same with it
and without it. And it has the reports of all jobs that were run, one after another, as a whole. -/
theorem session_log (calls : List Call) : ∃ l, Log.after calls = .ok l ∧
    Session.after calls = .ok l.session ∧ shown l.console = expand (l.ran.flatMap (report 1)) := by
  obtain ⟨l, hl, hsession, hkept⟩ := log_kept calls
  exact ⟨l, hl, hsession, hkept.shown⟩

/-- **The log can be read.** Two sessions show the same on the console exactly if they ran the same
jobs in the same order. -/
theorem session_log_readable (calls calls' : List Call) :
    ∃ l l', Log.after calls = .ok l ∧ Log.after calls' = .ok l' ∧
      (shown l.console = shown l'.console ↔ l.ran = l'.ran) := by
  obtain ⟨l, hl, -, hkept⟩ := log_kept calls
  obtain ⟨l', hl', -, hkept'⟩ := log_kept calls'
  refine ⟨l, l', hl, hl', ?_⟩
  have hne : ∀ j ∈ Queued, report 1 j ≠ [] := fun j _ hnil =>
    absurd (List.append_eq_nil_iff.1 (List.append_eq_nil_iff.1 hnil).1).1 (by decide)
  rw [hkept.shown, hkept'.shown, expand_injective.eq_iff]
  exact (report_delimited.flatMap_injOn hne).eq_iff hkept.queued hkept'.queued

/-! ### The kernel -/

/-- What `kmain` writes first. -/
def banner : List UInt8 :=
  lit "\n" ++ (lit "========================================\n" ++
    (lit "   Munux z/OS  -  s390x / z-Architecture\n" ++ (lit "   hello, mainframe!\n" ++
    (lit "========================================\n" ++ (lit "[fase 1] boot + console SCLP: OK\n" ++
    (lit "\n[JES] 3 jobs submetidos (fila INPUT).\n" ++
    lit "[JES] Escalonamento batch por prioridade (maior primeiro):\n\n"))))))

/-- What `run_demo` writes at the end. -/
def farewell : List UInt8 := lit "[fase 2] address spaces + escalonamento + estados: OK\n"

/-- The jobs of `run_demo` in the order of their priorities: `PAYROLL`, `REPORTS` and `BACKUP`. -/
def demoJobs : List Job :=
  [0, 2, 1].filterMap fun n => (List.finRange maxJobs)[n]?.bind Session.demo.jes.jobs

theorem demo_idle : Session.demo.jes.Idle := (Session.inv_reachable Session.reachable_demo).idle

theorem demo_ids {i : Fin maxJobs} {j : Job} (hj : Session.demo.jes.jobs i = some j) :
    j.id < wordCount := by
  have hpacked := Session.packed_reachable Session.reachable_demo (show 3 < wordCount - 1 by decide)
  rw [hpacked.jobs i] at hj
  exact (hpacked.below j (List.mem_of_getElem? hj)).trans (by decide)

theorem demo_run : ∃ ds s, Session.demo.jes.run (maxJobs + 1) = .ok (ds, s) ∧
    ds.map (·.job) = demoJobs := by
  obtain ⟨⟨ds, s⟩, hrun⟩ :=
    run_returns demo_idle (Nat.lt_succ_of_le (queue_length_le Session.demo.jes))
  have hjobs : ((Session.demo.jes.run (maxJobs + 1)).getD ([], Session.demo.jes)).1.map (·.job) =
      demoJobs := by decide +kernel
  rw [hrun] at hjobs
  exact ⟨ds, s, hrun, hjobs⟩

theorem runDemo_shows : Shows (runDemo (maxJobs + 1))
    (lit "\n[JES] 3 jobs submetidos (fila INPUT).\n" ++
      (lit "[JES] Escalonamento batch por prioridade (maior primeiro):\n\n" ++
      (demoJobs.flatMap (report 1) ++ farewell))) := by
  refine (lit_shows _).comp ((lit_shows _).comp fun k => ?_)
  obtain ⟨ds, s, hrun, hjobs⟩ := demo_run
  obtain ⟨k₁, hk₁, hshown₁⟩ := runLogged_of_run demo_idle (fun _ _ => demo_ids) hrun k
  obtain ⟨k', hk', hshown⟩ :=
    lit_shows "[fase 2] address spaces + escalonamento + estados: OK\n" (by decide) k₁
  refine ⟨k', ?_, ?_⟩
  · simp only [hk₁, Outcome.ok_bind, hk']
  · rw [hshown, hshown₁, hjobs, expand_append, List.append_assoc]
    rfl

/-- `kmain` comes to its end, and has shown the jobs in the order of their priorities. -/
theorem kmain_shown : ∃ k, kmain (maxJobs + 1) = .ok k ∧
    shown k = expand (banner ++ (demoJobs.flatMap (report 1) ++ farewell)) := by
  obtain ⟨setup, hsetup, hnone⟩ := sclpSetup_shows
  have htext : Shows (fun k => do
      let k ← consoleWrite (lit "\n") k
      let k ← consoleWrite (lit "========================================\n") k
      let k ← consoleWrite (lit "   Munux z/OS  -  s390x / z-Architecture\n") k
      let k ← consoleWrite (lit "   hello, mainframe!\n") k
      let k ← consoleWrite (lit "========================================\n") k
      let k ← consoleWrite (lit "[fase 1] boot + console SCLP: OK\n") k
      runDemo (maxJobs + 1) k) _ :=
    (lit_shows _).comp ((lit_shows _).comp ((lit_shows _).comp ((lit_shows _).comp
      ((lit_shows _).comp ((lit_shows _).comp runDemo_shows)))))
  obtain ⟨k', hk', hshown⟩ := htext [setup]
  refine ⟨k', ?_, ?_⟩
  · rw [kmain, hsetup, Outcome.ok_bind]
    exact hk'
  · rw [hshown, hnone, List.nil_append]
    simp only [banner, List.append_assoc]

end Sessions

end Munux.Zos
