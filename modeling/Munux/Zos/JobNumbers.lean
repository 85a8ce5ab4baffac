import Munux.Zos.Batch
import Munux.Lib.Runs

/-!
# Job numbers

`Jes::submit` answers with the number of the new job, or with 0 if every slot is occupied. The
numbers count up from 1 in a 32-bit word, which the release build lets wrap. At any time the jobs in
the table are the last ones accepted, at most sixteen of them, so their numbers differ, before and
after a wrap. But the 2³²-th job accepted gets number 0, with a slot free.

`Backlog` keeps of a session what decides this: how many jobs are in the table, and how many were
accepted. It follows from the calls alone.
-/

namespace Munux.Zos

/-- A call that the users of the subsystem make. -/
inductive Call where
  | submit (name : Vector UInt8 8) (class' priority steps : UInt8)
  | run
  deriving DecidableEq, Repr

namespace Session

/-- One call. A run that finds at most `maxJobs` jobs needs one more turn to see that none is
left. -/
def call (σ : Session) : Call → Outcome Session
  | .submit name class' priority steps => .ok (σ.submit name class' priority steps)
  | .run => do
      let (ds, s) ← σ.jes.run (maxJobs + 1)
      return ⟨s, σ.submitted, [], σ.seen ++ ds.flatMap (·.seen)⟩

/-- Calls on a new subsystem. -/
def after (calls : List Call) : Outcome Session := calls.foldlM call start

end Session

/-- No two jobs in the table have the same number. -/
def UniqueIds (s : Jes) : Prop :=
  ∀ i i' j j', s.jobs i = some j → s.jobs i' = some j' → j.id = j'.id → i = i'

/-- A call that answers 0 finds every slot occupied. -/
def ZeroMeansFull (s : Jes) : Call → Prop
  | .submit name class' priority steps => (s.submit name class' priority steps).1 = 0 → s.Full
  | .run => True

/-- A session in which job numbers are what they are meant to be: each call returns, the numbers are
unique in every state seen, and 0 is the answer of a full table only. -/
def JobNumbers (calls : List Call) : Prop :=
  ∀ before, before <+: calls → ∃ σ, Session.after before = .ok σ ∧
    (∀ t ∈ Jes.new :: σ.seen, UniqueIds t) ∧ UniqueIds σ.jes ∧
    ∀ c, before ++ [c] <+: calls → ZeroMeansFull σ.jes c

/-! ## Counting the jobs -/

/-- The jobs in the table, and the jobs accepted since the start. -/
structure Backlog where
  queued : Nat
  accepted : Nat
  deriving DecidableEq, Repr

namespace Backlog

/-- A job is accepted while there is room; a run takes all of them. -/
def call (b : Backlog) : Call → Backlog
  | .submit .. => if b.queued < maxJobs then ⟨b.queued + 1, b.accepted + 1⟩ else b
  | .run => ⟨0, b.accepted⟩

def after (calls : List Call) : Backlog := calls.foldl call ⟨0, 0⟩

theorem after_snoc (calls : List Call) (c : Call) : after (calls ++ [c]) = (after calls).call c :=
  List.foldl_concat ..

theorem accepted_le_call (b : Backlog) (c : Call) : b.accepted ≤ (b.call c).accepted := by
  cases c with
  | run => exact le_rfl
  | submit name class' priority steps =>
      unfold call
      split_ifs
      · exact Nat.le_succ _
      · exact le_rfl

theorem accepted_mono {before calls : List Call} (h : before <+: calls) :
    (after before).accepted ≤ (after calls).accepted := by
  obtain ⟨rest, rfl⟩ := h
  induction rest using List.reverseRecOn with
  | nil => rw [List.append_nil]
  | append_singleton rest c ih =>
      rw [← List.append_assoc, after_snoc]
      exact ih.trans (accepted_le_call _ c)

end Backlog

/-- The table that a backlog describes: its jobs fill the first slots, and their numbers are the
last ones given. -/
structure Numbered (b : Backlog) (s : Jes) : Prop where
  idle : s.Idle
  room : b.queued ≤ maxJobs
  queued_le : b.queued ≤ b.accepted
  next : s.nextJobNo = (b.accepted + 1) % wordCount
  ids : ∀ i : Fin maxJobs, (s.jobs i).map (·.id) =
    if i.val < b.queued then some ((b.accepted - b.queued + i.val + 1) % wordCount) else none

section Numbered

variable {b : Backlog} {s t : Jes} {σ : Session} {i : Fin maxJobs} {c : Call}

theorem numbered_new : Numbered ⟨0, 0⟩ Jes.new where
  idle := Session.idle_new
  room := Nat.zero_le _
  queued_le := le_rfl
  next := rfl
  ids _ := (if_neg (Nat.not_lt_zero _)).symm

theorem Numbered.isSome_iff (h : Numbered b s) (i : Fin maxJobs) :
    (s.jobs i).isSome ↔ i.val < b.queued := by
  rw [← Option.isSome_map, h.ids i]
  split_ifs with hi <;> simp [hi]

theorem Numbered.full_iff (h : Numbered b s) : s.Full ↔ b.queued = maxJobs := by
  constructor
  · intro hfull
    have hlast := (h.isSome_iff ⟨15, by decide⟩).1 (hfull _)
    exact le_antisymm h.room hlast
  · intro hq i
    rw [h.isSome_iff, hq]
    exact i.isLt

/-- Sixteen numbers in a row differ, modulo the word. -/
theorem Numbered.uniqueIds (h : Numbered b s) : UniqueIds s := by
  intro i i' j j' hj hj' hid
  have hi := (h.isSome_iff i).1 (by rw [hj]; rfl)
  have hi' := (h.isSome_iff i').1 (by rw [hj']; rfl)
  have hnum := h.ids i
  have hnum' := h.ids i'
  rw [hj, if_pos hi, Option.map_some, Option.some.injEq] at hnum
  rw [hj', if_pos hi', Option.map_some, Option.some.injEq] at hnum'
  have heq : (b.accepted - b.queued + i.val + 1) % 2 ^ 32 =
      (b.accepted - b.queued + i'.val + 1) % 2 ^ 32 := hnum.symm.trans (hid.trans hnum')
  have hlt : i.val < 16 := i.isLt
  have hlt' : i'.val < 16 := i'.isLt
  exact Fin.ext (by omega)

theorem Numbered.submit (h : Numbered b s) (name : Vector UInt8 8)
    (class' priority steps : UInt8) :
    Numbered (b.call (.submit name class' priority steps))
      (s.submit name class' priority steps).2 := by
  rcases s.submit_cases name class' priority steps with ⟨hfull, heq⟩ | ⟨i, hnone, hbelow, heq⟩
  · rw [heq, Backlog.call, if_neg (by rw [h.full_iff.1 hfull]; exact lt_irrefl _)]
    exact h
  · have hi := Scan.eq_of_first_empty h.isSome_iff hnone hbelow
    have hlt := i.isLt
    have hidle := h.idle.submit name class' priority steps
    rw [heq] at hidle
    rw [heq, Backlog.call, if_pos (by omega)]
    refine ⟨hidle, ?_, ?_, ?_, ?_⟩
    · exact Nat.succ_le_of_lt (hi ▸ hlt)
    · exact Nat.succ_le_succ h.queued_le
    · calc (s.nextJobNo + 1) % wordCount
          = ((b.accepted + 1) % wordCount + 1) % wordCount := by rw [h.next]
        _ = (b.accepted + 1 + 1) % wordCount := Nat.mod_add_mod ..
    · intro k
      have hle := h.queued_le
      by_cases hk : k = i
      · rw [hk]
        simp only [Function.update_self, Option.map_some, Jes.newJob, h.next]
        rw [if_pos (by omega)]
        congr 2
        omega
      · have hval : k.val ≠ b.queued := fun heq => hk (Fin.ext (heq.trans hi.symm))
        simp only [Function.update_of_ne hk, h.ids k]
        by_cases hkq : k.val < b.queued
        · rw [if_pos hkq, if_pos (by omega)]
          congr 3
          omega
        · rw [if_neg hkq, if_neg (by omega)]

theorem Numbered.run (h : Numbered b s) {ds : List Dispatch} (hbatch : Batch s ds t) :
    Numbered (b.call .run) t where
  idle := hbatch.idle
  room := Nat.zero_le _
  queued_le := Nat.zero_le _
  next := hbatch.nextJobNo.trans h.next
  ids i := by
    rw [hbatch.empty i]
    exact (if_neg (Nat.not_lt_zero _)).symm

/-! ## The numbers during a run -/

/-- The jobs of `t` are jobs of `s`, in the same slots and with the same numbers. -/
def IdsFrom (s t : Jes) : Prop :=
  ∀ i j, t.jobs i = some j → ∃ j', s.jobs i = some j' ∧ j'.id = j.id

theorem IdsFrom.uniqueIds (h : IdsFrom s t) (hs : UniqueIds s) : UniqueIds t := by
  intro i i' j j' hj hj' hid
  obtain ⟨k, hk, hkid⟩ := h i j hj
  obtain ⟨k', hk', hkid'⟩ := h i' j' hj'
  exact hs i i' k k' hk hk' (hkid.trans (hid.trans hkid'.symm))

theorem idsFrom_purged (s : Jes) (idx : Fin maxJobs) : IdsFrom s (s.purged idx) :=
  fun _ j hj => ⟨j, (purged_jobs hj).2, rfl⟩

theorem idsFrom_busy {idx : Fin maxJobs} {j : Job} (hj : s.jobs idx = some j) (st : JobState) :
    IdsFrom s (s.busy idx j st) := by
  intro i j' hj'
  by_cases hi : i = idx
  · rw [hi, Jes.busy_jobs] at hj'
    obtain rfl := Option.some.inj hj'
    exact ⟨j, hi ▸ hj, rfl⟩
  · exact ⟨j', (Function.update_of_ne hi ..).symm.trans hj', rfl⟩

theorem idsFrom_run {fuel : Nat} {ds : List Dispatch} (h : s.Idle)
    (hrun : s.run fuel = .ok (ds, t)) : ∀ u ∈ ds.flatMap (·.seen), IdsFrom s u := by
  induction fuel generalizing s ds with
  | zero => cases hrun
  | succ fuel ih =>
      obtain ⟨-, rfl, -⟩ | ⟨idx, j, d, ds', -, hj, hd, hrest, rfl⟩ := Jes.run_cases h hrun
      · exact fun u hu => absurd hu List.not_mem_nil
      · obtain rfl := (Prod.mk.inj (Outcome.ok.inj ((Jes.dispatch_spec h hj).symm.trans hd))).1
        intro u hu
        rw [List.flatMap_cons, List.mem_append] at hu
        obtain hu | hu := hu
        · simp only [List.mem_cons, List.not_mem_nil, or_false] at hu
          obtain rfl | rfl | rfl | rfl := hu
          · exact idsFrom_busy hj .active
          · exact idsFrom_busy hj .output
          · exact idsFrom_busy hj .purge
          · exact idsFrom_purged s idx
        · intro i k hk
          obtain ⟨k', hk', hid⟩ := ih (h.purged idx) hrest u hu i k hk
          exact ⟨k', (purged_jobs hk').2, hid⟩

end Numbered

/-! ## Sessions -/

section Session

variable {b : Backlog} {s : Jes} {σ : Session} {calls : List Call}

theorem Session.after_snoc (calls : List Call) (c : Call) :
    after (calls ++ [c]) = (after calls >>= fun σ => σ.call c) :=
  Outcome.foldlM_concat calls c start

/-- One call returns, moves the backlog, and shows unique numbers only. -/
theorem call_spec (h : Numbered b σ.jes) (hseen : ∀ t ∈ Jes.new :: σ.seen, UniqueIds t)
    (c : Call) : ∃ σ', σ.call c = .ok σ' ∧ Numbered (b.call c) σ'.jes ∧
      ∀ t ∈ Jes.new :: σ'.seen, UniqueIds t := by
  cases c with
  | submit name class' priority steps =>
      have hnext := h.submit name class' priority steps
      refine ⟨_, rfl, hnext, ?_⟩
      intro t ht
      simp only [Session.submit] at ht
      split_ifs at ht with hfull
      · exact hseen t ht
      · rw [← List.cons_append, List.mem_append] at ht
        obtain ht | ht := ht
        · exact hseen t ht
        · rw [List.mem_singleton.1 ht]
          exact hnext.uniqueIds
  | run =>
      obtain ⟨⟨ds, s⟩, hrun⟩ :=
        run_returns h.idle (Nat.lt_succ_of_le (queue_length_le σ.jes))
      refine ⟨_, by rw [Session.call, hrun]; rfl, h.run (batch_of_run h.idle hrun), ?_⟩
      intro t ht
      rw [← List.cons_append, List.mem_append] at ht
      obtain ht | ht := ht
      · exact hseen t ht
      · exact (idsFrom_run h.idle hrun t ht).uniqueIds h.uniqueIds

/-- **Every session.** Each call returns, the table follows the backlog, and no two jobs that are in
the table at the same time have the same number. -/
theorem session_numbered (calls : List Call) : ∃ σ, Session.after calls = .ok σ ∧
    Numbered (Backlog.after calls) σ.jes ∧ ∀ t ∈ Jes.new :: σ.seen, UniqueIds t := by
  induction calls using List.reverseRecOn with
  | nil =>
      refine ⟨Session.start, rfl, numbered_new, ?_⟩
      intro t ht
      rw [List.mem_singleton.1 ht]
      exact numbered_new.uniqueIds
  | append_singleton calls c ih =>
      obtain ⟨σ, hafter, hnum, hseen⟩ := ih
      obtain ⟨σ', hcall, hnum', hseen'⟩ := call_spec hnum hseen c
      refine ⟨σ', ?_, ?_, hseen'⟩
      · rw [Session.after_snoc, hafter, Outcome.ok_bind, hcall]
      · rw [Backlog.after_snoc]
        exact hnum'

/-! ## The answer 0 -/

/-- Before the wrap, 0 is the answer of a full table exactly as long as the next number is not 0. -/
theorem zeroMeansFull_iff (h : Numbered b s) (hlt : b.accepted < wordCount) (c : Call) :
    ZeroMeansFull s c ↔ (b.call c).accepted < wordCount := by
  cases c with
  | run => exact iff_of_true trivial hlt
  | submit name class' priority steps =>
      simp only [ZeroMeansFull, Backlog.call]
      split_ifs with hroom
      · -- The job is accepted, under the next number.
        have hfull : ¬ s.Full := fun hfull => absurd (h.full_iff.1 hfull) hroom.ne
        obtain ⟨hyes, -⟩ | ⟨i, -, -, heq⟩ := s.submit_cases name class' priority steps
        · exact absurd hyes hfull
        · rw [heq, h.next]
          have hmod : (b.accepted + 1) % wordCount = 0 ↔ ¬ b.accepted + 1 < wordCount := by
            change _ % 2 ^ 32 = 0 ↔ ¬ _ < 2 ^ 32
            change _ < 2 ^ 32 at hlt
            omega
          constructor
          · intro hzero
            by_contra hge
            exact hfull (hzero (hmod.2 hge))
          · intro hroom' hzero
            exact absurd hroom' (hmod.1 hzero)
      · refine iff_of_true (fun _ => ?_) hlt
        exact h.full_iff.2 (le_antisymm h.room (Nat.le_of_not_lt hroom))

/-- **Job numbers.** They are what they are meant to be exactly in the sessions that have fewer than
2³² jobs accepted. -/
theorem jobNumbers_iff (calls : List Call) :
    JobNumbers calls ↔ (Backlog.after calls).accepted < wordCount := by
  have hstep : ∀ p c, (Backlog.after p).accepted < wordCount →
      ((Backlog.after (p ++ [c])).accepted < wordCount ↔
        ∀ σ, Session.after p = .ok σ → ZeroMeansFull σ.jes c) := by
    intro p c hlt
    obtain ⟨σ, hσ, hnum, -⟩ := session_numbered p
    rw [Backlog.after_snoc, ← zeroMeansFull_iff hnum hlt c]
    constructor
    · intro h σ' hσ'
      obtain rfl := Outcome.ok.inj (hσ.symm.trans hσ')
      exact h
    · exact fun h => h σ hσ
  calc JobNumbers calls
      ↔ ∀ p c, p ++ [c] <+: calls → ∀ σ, Session.after p = .ok σ → ZeroMeansFull σ.jes c := ?_
    _ ↔ ∀ p, p <+: calls → (Backlog.after p).accepted < wordCount :=
        (forall_prefix_iff (by decide) hstep calls).symm
    _ ↔ (Backlog.after calls).accepted < wordCount := ?_
  · constructor
    · intro h p c hp σ hσ
      obtain ⟨σ', hσ', -, -, hzero⟩ := h p ((List.prefix_append p [c]).trans hp)
      obtain rfl := Outcome.ok.inj (hσ.symm.trans hσ')
      exact hzero c hp
    · intro h p hp
      obtain ⟨σ, hσ, hnum, hseen⟩ := session_numbered p
      exact ⟨σ, hσ, hseen, hnum.uniqueIds, fun c hc => h p c hc σ hσ⟩
  · exact ⟨fun h => h calls (List.prefix_refl calls),
      fun h p hp => (Backlog.accepted_mono hp).trans_lt h⟩

/-- Jobs submitted one at a time, each followed by a run. -/
def rounds (n : Nat) (c : Call) : List Call := (List.replicate n [c, .run]).flatten

theorem backlog_rounds (n : Nat) (name : Vector UInt8 8) (class' priority steps : UInt8) :
    Backlog.after (rounds n (.submit name class' priority steps)) = ⟨0, n⟩ := by
  induction n with
  | zero => rfl
  | succ n ih =>
      rw [rounds, List.replicate_succ', List.flatten_concat, ← rounds, Backlog.after,
        List.foldl_append, ← Backlog.after, ih]
      rfl

/-- A job of class `A` whose name is eight blanks. -/
def unnamed : Call := .submit (Vector.replicate 8 0x20) 0x41 9 3

/-- After 2³² - 1 rounds the table is empty, and the next job is accepted under number 0. -/
theorem jobNumbers_fails : ¬ JobNumbers (rounds 0xFFFFFFFF unnamed ++ [unnamed]) := by
  intro h
  obtain ⟨σ, hσ, -, -, hzero⟩ := h _ (List.prefix_append _ [unnamed])
  obtain ⟨σ', hσ', hnum, -⟩ := session_numbered (rounds 0xFFFFFFFF unnamed)
  obtain rfl := Outcome.ok.inj (hσ.symm.trans hσ')
  have hcount : Backlog.after (rounds 0xFFFFFFFF unnamed) = ⟨0, 0xFFFFFFFF⟩ := backlog_rounds ..
  rw [hcount] at hnum
  exact absurd ((zeroMeansFull_iff hnum (by decide) unnamed).1 (hzero unnamed (List.prefix_refl _)))
    (by decide)

end Session

end Munux.Zos
