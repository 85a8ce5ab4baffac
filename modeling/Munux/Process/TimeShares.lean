import Mathlib.Data.Nat.ModEq
import Munux.Process.RoundRobin

/-!
# Time shares

How the timer divides the time among the processes of the highest priority. A process that is
selected gets 50 ticks, whatever it had left before, and each of them is charged to it; the 50th one
takes the ring on to the next process (`Slot.tick`). So the process that runs after `N` ticks is
given by `N / 50`, and what has been charged to it and to the others by `N` (`share`).

**Main result.**

* `time_shared`: the exact share of every process after any number of ticks. Two shares differ by at
  most 50.
-/

namespace Munux.Process

open State

/-! ## Taking turns -/

/-- What member `i` of `n` has got after `N` ticks: whole turns, the turn of this round if it is
over, or the part of it that is over. -/
def share (n i N : Nat) : Nat :=
  defaultQuantum * (N / defaultQuantum / n) +
    if i < N / defaultQuantum % n then defaultQuantum
    else if i = N / defaultQuantum % n then N % defaultQuantum else 0

section Turns

variable {n i j N : Nat}

theorem share_zero (n i : Nat) : share n i 0 = 0 := by
  simp [share]

/-- A tick is charged to the member whose turn it is. -/
theorem share_succ (hi : i < n) :
    share n i (N + 1) = share n i N + if i = N / defaultQuantum % n then 1 else 0 := by
  have hn : 0 < n := Nat.zero_lt_of_lt hi
  have hq : defaultQuantum = 50 := rfl
  unfold share
  rw [hq]
  by_cases hlast : N % 50 = 49
  · have hnext : (N + 1) / 50 = N / 50 + 1 ∧ (N + 1) % 50 = 0 := by omega
    rw [hnext.1, hnext.2, hlast]
    have hdivmod := Nat.mod_add_div (N / 50) n
    have hlt := Nat.mod_lt (N / 50) hn
    by_cases hround : N / 50 % n + 1 = n
    · obtain ⟨hdiv, hmod⟩ : (N / 50 + 1) / n = N / 50 / n + 1 ∧ (N / 50 + 1) % n = 0 := by
        rw [Nat.div_mod_unique hn, Nat.mul_succ]
        omega
      rw [hdiv, hmod]
      split_ifs <;> omega
    · obtain ⟨hdiv, hmod⟩ :
          (N / 50 + 1) / n = N / 50 / n ∧ (N / 50 + 1) % n = N / 50 % n + 1 := by
        rw [Nat.div_mod_unique hn]
        omega
      rw [hdiv, hmod]
      split_ifs <;> omega
  · have hsame : (N + 1) / 50 = N / 50 ∧ (N + 1) % 50 = N % 50 + 1 := by omega
    rw [hsame.1, hsame.2]
    split_ifs <;> omega

/-- Nobody is more than one turn ahead. -/
theorem share_le (n i j N : Nat) : share n i N ≤ share n j N + defaultQuantum := by
  have hlt : N % defaultQuantum < defaultQuantum := Nat.mod_lt _ (by decide)
  unfold share
  split_ifs <;> omega

end Turns

/-! ## The clock of the scheduler -/

section Clock

variable {s s' : State} {sw : Switch} {p x : Nat}

theorem modify_totalTime {f : Pcb → Pcb} (hf : ∀ b, (f b).totalTime = b.totalTime) (x : Nat) :
    ((s.modify p f).pcb x).totalTime = (s.pcb x).totalTime := by
  by_cases hx : x = p
  · rw [hx, modify_pcb_self, hf]
  · rw [modify_pcb_of_ne hx]

theorem schedulerAddProcess_totalTime (h : schedulerAddProcess s p = .ok s') (x : Nat) :
    (s'.pcb x).totalTime = (s.pcb x).totalTime := by
  have hlink : ∀ (s₁ : State) (q v : Nat),
      ((s₁.setNext q v).pcb x).totalTime = (s₁.pcb x).totalTime := by
    intro s₁ q v
    apply modify_totalTime
    exact fun _ => rfl
  have hready : ((s.modify p fun b =>
      { b with state := .ready, quantum := defaultQuantum }).pcb x).totalTime =
      (s.pcb x).totalTime := by
    apply modify_totalTime
    exact fun _ => rfl
  rw [schedulerAddProcess] at h
  by_cases hp : p = 0
  · rw [if_pos hp] at h
    rw [← Outcome.ok.inj h]
  · rw [if_neg hp] at h
    simp only [] at h
    split_ifs at h
    · rw [← Outcome.ok.inj h, hlink, setQueue_pcb, hready]
    · obtain ⟨last, -, hset⟩ := Outcome.bind_eq_ok.1 h
      rw [← Outcome.ok.inj hset, hlink, hlink, hready]

/-- The end of `schedule`, in both branches. -/
theorem modify_current {f : Pcb → Pcb} (hf : ∀ b, (f b).totalTime = b.totalTime)
    (hq : ∀ b, (f b).quantum = defaultQuantum) :
    (∀ x, ((s.modify s.currentProcess f).pcb x).totalTime = (s.pcb x).totalTime) ∧
      ((s.modify s.currentProcess f).pcb
        (s.modify s.currentProcess f).currentProcess).quantum = defaultQuantum := by
  refine ⟨fun x => modify_totalTime hf x, ?_⟩
  rw [modify_currentProcess, modify_pcb_self, hq]

theorem dispatch_clock (s : State) :
    (∀ x, ((dispatch s).1.pcb x).totalTime = (s.pcb x).totalTime) ∧
      ((dispatch s).1.pcb (dispatch s).1.currentProcess).quantum = defaultQuantum := by
  have hselect : ∀ x, ((selectNextProcess s).2.pcb x).totalTime = (s.pcb x).totalTime := by
    intro x
    rw [selectNextProcess]
    split <;> rfl
  rcases hsel : selectNextProcess s with ⟨next, s₂⟩
  rw [hsel] at hselect
  have hclock : ((∀ x, ((dispatch s).1.pcb x).totalTime = (s₂.pcb x).totalTime) ∧
      ((dispatch s).1.pcb (dispatch s).1.currentProcess).quantum = defaultQuantum) := by
    rw [dispatch, hsel]
    simp only []
    generalize (if next = 0 then s₂.idleProcess else next) = next
    by_cases hsame : next = s₂.currentProcess
    · rw [if_pos hsame, hsame]
      exact modify_current (f := fun b => { b with quantum := defaultQuantum }) (fun _ => rfl)
        fun _ => rfl
    · rw [if_neg hsame]
      exact modify_current (s := { s₂ with currentProcess := next })
        (f := fun b => { b with state := .running, quantum := defaultQuantum }) (fun _ => rfl)
        fun _ => rfl
  exact ⟨fun x => (hclock.1 x).trans (hselect x), hclock.2⟩

/-- A decision charges nothing, and whoever is selected gets a whole quantum. -/
theorem schedule_clock (h : schedule s = .ok (s', sw)) (hcur : s.currentProcess ≠ 0) :
    (∀ x, (s'.pcb x).totalTime = (s.pcb x).totalTime) ∧
      (s'.pcb s'.currentProcess).quantum = defaultQuantum := by
  rw [schedule, if_neg hcur] at h
  obtain ⟨s₁, hrequeue, hdispatch⟩ := Outcome.bind_eq_ok.1 h
  have hkept : ∀ x, (s₁.pcb x).totalTime = (s.pcb x).totalTime := by
    intro x
    rw [requeueCurrent] at hrequeue
    split_ifs at hrequeue
    · exact schedulerAddProcess_totalTime hrequeue x
    · rw [← Outcome.ok.inj hrequeue]
  obtain rfl : (dispatch s₁).1 = s' := congrArg Prod.fst (Outcome.ok.inj hdispatch)
  obtain ⟨htotal, hquantum⟩ := dispatch_clock s₁
  exact ⟨fun x => (htotal x).trans (hkept x), hquantum⟩

end Clock

/-! ## Slots -/

/-- The turn of the member that `m` decisions before it have led to, after `used` ticks of it. -/
structure Slot (s : State) (ms : Fin 4 → List Nat) (q : Fin 4) (m used : Nat) : Prop where
  turning : Turning s ms q (m + 1)
  current : some s.currentProcess = (ms q)[m % (ms q).length]?
  quantum : (s.pcb s.currentProcess).quantum + used = defaultQuantum
  used_lt : used < defaultQuantum

section Slots

variable {s s' : State} {ms : Fin 4 → List Nat} {q : Fin 4} {m used N : Nat}

/-- A decision starts a slot, and charges nothing. -/
theorem Turning.slot (h : Turning s ms q m) :
    ∃ s' sw, Process.schedule s = .ok (s', sw) ∧ Slot s' ms q m 0 ∧
      ∀ x, (s'.pcb x).totalTime = (s.pcb x).totalTime := by
  obtain ⟨s', sw, hcall, hturn, hcurrent⟩ := h.schedule
  obtain ⟨htotal, hquantum⟩ := schedule_clock hcall h.current.1
  exact ⟨s', sw, hcall, ⟨hturn, hcurrent, hquantum, by decide⟩, htotal⟩

/-- **A tick** is charged to the current process. The last one of a slot leads to the next slot. -/
theorem Slot.tick (h : Slot s ms q m used) :
    ∃ s', step s .tick = .ok s' ∧
      (∀ x, (s'.pcb x).totalTime = if x = s.currentProcess then
        ((s.pcb x).totalTime + 1) % wordCount else (s.pcb x).totalTime) ∧
      (used + 1 < defaultQuantum ∧ Slot s' ms q m (used + 1) ∨
        used + 1 = defaultQuantum ∧ Slot s' ms q (m + 1) 0) := by
  have hcur := h.turning.current.1
  have hquantum := h.quantum
  have hlt := h.used_lt
  have hpos : 0 < (s.pcb s.currentProcess).quantum := by omega
  set s₁ := s.modify s.currentProcess fun b =>
    { b with quantum := b.quantum - 1, totalTime := (b.totalTime + 1) % wordCount } with hs₁
  have hticked : Ticked s s₁ := ticked_modify fun _ => rfl
  have htotal : ∀ x, (s₁.pcb x).totalTime = if x = s.currentProcess then
      ((s.pcb x).totalTime + 1) % wordCount else (s.pcb x).totalTime := by
    intro x
    by_cases hx : x = s.currentProcess
    · rw [hs₁, if_pos hx, hx, modify_pcb_self]
    · rw [hs₁, if_neg hx, modify_pcb_of_ne hx]
  have hleft : (s₁.pcb s.currentProcess).quantum = (s.pcb s.currentProcess).quantum - 1 := by
    rw [hs₁, modify_pcb_self]
  have hturn := hticked.turning h.turning
  have hstep : step s .tick = (if (s₁.pcb s.currentProcess).quantum = 0 then schedule s₁
      else .ok (s₁, none)) >>= fun r => .ok r.1 := by
    rw [step, schedulerTick, if_neg hcur]
    simp only [if_pos hpos]
    rfl
  by_cases hlast : used + 1 = defaultQuantum
  · obtain ⟨s', sw, hcall, hslot, hkept⟩ := hturn.slot
    refine ⟨s', ?_, fun x => (hkept x).trans (htotal x), .inr ⟨hlast, hslot⟩⟩
    rw [hstep, if_pos (by omega), hcall]
    rfl
  · refine ⟨s₁, ?_, htotal, .inl ⟨by omega, hturn, h.current, ?_, by omega⟩⟩
    · rw [hstep, if_neg (by omega)]
      rfl
    · change (s₁.pcb s.currentProcess).quantum + (used + 1) = defaultQuantum
      omega

/-- The number of the slot and the ticks of it that are over, after another tick. -/
theorem Slot.next (h : Slot s' ms q (N / defaultQuantum) (N % defaultQuantum + 1) ∧
      N % defaultQuantum + 1 < defaultQuantum ∨
    Slot s' ms q (N / defaultQuantum + 1) 0 ∧ N % defaultQuantum + 1 = defaultQuantum) :
    Slot s' ms q ((N + 1) / defaultQuantum) ((N + 1) % defaultQuantum) := by
  have hq : defaultQuantum = 50 := rfl
  rw [hq] at h ⊢
  obtain ⟨hslot, hlt⟩ | ⟨hslot, heq⟩ := h
  · rwa [show (N + 1) / 50 = N / 50 by omega, show (N + 1) % 50 = N % 50 + 1 by omega]
  · rwa [show (N + 1) / 50 = N / 50 + 1 by omega, show (N + 1) % 50 = 0 by omega]

/-- What has been charged to a process after `N` ticks of a ring. -/
def charged (xs : List Nat) (x N : Nat) : Nat :=
  if x ∈ xs then share xs.length (xs.idxOf x) N else 0

theorem charged_succ {xs : List Nat} {p x : Nat} (hnd : xs.Nodup)
    (hp : some p = xs[N / defaultQuantum % xs.length]?) :
    charged xs x (N + 1) = charged xs x N + if x = p then 1 else 0 := by
  obtain ⟨hlt, hget⟩ := List.getElem?_eq_some_iff.1 hp.symm
  by_cases hx : x ∈ xs
  · have hturn : xs.idxOf x = N / defaultQuantum % xs.length ↔ x = p := by
      rw [← hget]
      constructor
      · intro heq
        simp only [← heq, List.getElem_idxOf]
      · intro heq
        rw [heq, hnd.idxOf_getElem]
    rw [charged, charged, if_pos hx, if_pos hx, share_succ (List.idxOf_lt_length_of_mem hx)]
    simp only [hturn]
  · have hne : x ≠ p := fun heq => hx (heq ▸ hget ▸ List.getElem_mem hlt)
    rw [charged, charged, if_neg hx, if_neg hx, if_neg hne]

theorem decisions_concat {ops : List Op} {op : Op} {ds : List Nat} {s₁ : State}
    (h : decisions s ops = .ok (ds, s₁)) (hstep : step s₁ op = .ok s') :
    ∃ ds', decisions s (ops ++ [op]) = .ok (ds', s') := by
  induction ops generalizing s ds with
  | nil =>
      obtain ⟨-, rfl⟩ := Prod.mk.inj (Outcome.ok.inj h)
      exact ⟨_, decisions_cons hstep rfl⟩
  | cons o ops ih =>
      rw [decisions] at h
      obtain ⟨s₂, ho, hrest⟩ := Outcome.bind_eq_ok.1 h
      obtain ⟨⟨ds₂, s₃⟩, hops, heq⟩ := Outcome.bind_eq_ok.1 hrest
      obtain ⟨-, rfl⟩ := Prod.mk.inj (Outcome.ok.inj heq)
      obtain ⟨ds', hds'⟩ := ih hops
      exact ⟨_, decisions_cons ho hds'⟩

/-- **A run of ticks.** -/
theorem Slot.ticks (h : Slot s ms q 0 0) (hnd : (ms q).Nodup) (N : Nat) :
    ∃ ds s', decisions s (List.replicate N .tick) = .ok (ds, s') ∧
      Slot s' ms q (N / defaultQuantum) (N % defaultQuantum) ∧
      ∀ x, (s'.pcb x).totalTime ≡ (s.pcb x).totalTime + charged (ms q) x N [MOD wordCount] := by
  induction N with
  | zero =>
      refine ⟨[], s, rfl, h, fun x => ?_⟩
      have hnone : charged (ms q) x 0 = 0 := by simp [charged, share_zero]
      rw [hnone]
      exact Nat.ModEq.refl _
  | succ N ih =>
      obtain ⟨ds, s₁, hrun, hslot, htotal⟩ := ih
      obtain ⟨s', hstep, hcharge, hnext⟩ := hslot.tick
      obtain ⟨ds', hrun'⟩ := decisions_concat hrun hstep
      refine ⟨ds', s', ?_, .next (hnext.imp And.symm And.symm), fun x => ?_⟩
      · rw [List.replicate_succ', hrun']
      · rw [hcharge, charged_succ hnd hslot.current, ← Nat.add_assoc]
        split_ifs
        · exact (Nat.mod_modEq _ _).trans ((htotal x).add_right 1)
        · exact htotal x

end Slots

section Main

variable {M : Type} {A : Allocator M} {m m' : M} {s s' : State} {dir idle idleTask : Nat}
  {ps : List Nat}

theorem charged_le {xs : List Nat} {x y : Nat} (hy : y ∈ xs) (N : Nat) :
    charged xs x N ≤ charged xs y N + defaultQuantum := by
  rw [charged, charged, if_pos hy]
  split_ifs
  · exact share_le _ _ _ _
  · exact Nat.zero_le _

/-- **Time shares.** The processes are added after `process_init` and `scheduler_init`, `schedule`
is called once, and then the timer ticks `N` times. Everything returns. The processes of the highest
priority have been charged 50 ticks for each turn, in the order in which they were added, and no
other process has been charged at all. -/
theorem time_shared (hcall : processInit A dir s m idleTask = .ok (idle, s', m'))
    (hidle : idle ≠ 0 ∧ idle < wordCount) (hnd : ps.Nodup)
    (hps : ∀ p ∈ ps, p ≠ 0 ∧ p < wordCount ∧ p ≠ idle) (N : Nat) :
    ∃ s₁, addAll (schedulerInit s') ps = .ok s₁ ∧ ∀ q, Top s₁ ps q →
      ∃ ds s₂, decisions s₁ (.schedule :: List.replicate N .tick) = .ok (ds, s₂) ∧
        some s₂.currentProcess =
          (members s₁ ps q)[N / defaultQuantum % (members s₁ ps q).length]? ∧
        (∀ x, (s₂.pcb x).totalTime ≡
          (s₁.pcb x).totalTime + charged (members s₁ ps q) x N [MOD wordCount]) ∧
        ∀ x, ∀ y ∈ members s₁ ps q,
          charged (members s₁ ps q) x N ≤ charged (members s₁ ps q) y N + defaultQuantum := by
  obtain ⟨hinit, rfl⟩ := initialised_init hcall hidle
  obtain ⟨s₁, hadd, hrings, hcur, hsame, hready⟩ := hinit.addAll hnd hps
  refine ⟨s₁, hadd, fun q htop => ?_⟩
  have hturn : Turning s₁ (members s₁ ps) q 0 := by
    refine ⟨?_, htop.1, htop.2, hcur ▸ hidle, fun hrun => ?_⟩
    · rwa [List.rotate_zero, Function.update_eq_self]
    · rw [hcur, hready] at hrun
      cases hrun
  obtain ⟨s₂, sw, hsched, hslot, htotal⟩ := hturn.slot
  obtain ⟨ds, s₃, hrun, hend, hcharged⟩ := hslot.ticks (hnd.filter _) N
  have hstep : step s₁ .schedule = .ok s₂ := by
    rw [step, hsched]
    rfl
  refine ⟨_, s₃, decisions_cons hstep hrun, hend.current, fun x => ?_, fun x y hy => ?_⟩
  · rw [← htotal]
    exact hcharged x
  · exact charged_le hy N

/-- Two processes of priority 2 share 120 ticks, 70 and 50. -/
theorem time_shared_mixed :
    ∃ s₁ ds s₂, addAll (schedulerInit mixedBoot.2.1) [32, 64, 48] = .ok s₁ ∧
      Top s₁ [32, 64, 48] 2 ∧ members s₁ [32, 64, 48] 2 = [32, 48] ∧
        decisions s₁ (.schedule :: List.replicate 120 .tick) = .ok (ds, s₂) ∧
          s₂.currentProcess = 32 ∧
            (s₂.pcb 32).totalTime ≡ (s₁.pcb 32).totalTime + 70 [MOD wordCount] ∧
              (s₂.pcb 64).totalTime ≡ (s₁.pcb 64).totalTime [MOD wordCount] := by
  have hboot : processInit freshHeap 0x1000 mixedState bootHeap 0x101000 = .ok mixedBoot :=
    Outcome.eq_ok_getD (by decide +kernel) _
  have hps : ∀ p ∈ [32, 64, 48], p ≠ 0 ∧ p < wordCount ∧ p ≠ mixedBoot.1 := by decide +kernel
  obtain ⟨s₁, hadd, hshares⟩ :=
    time_shared hboot ⟨by decide +kernel, by decide +kernel⟩ (by decide) hps 120
  have hqueues : (addAll (schedulerInit mixedBoot.2.1) [32, 64, 48] >>= fun s =>
      .ok (members s [32, 64, 48] 2, members s [32, 64, 48] 3)) = .ok ([32, 48], []) := by
    decide +kernel
  obtain ⟨s, hs, hqueues⟩ := Outcome.bind_eq_ok.1 hqueues
  obtain rfl := Outcome.ok.inj (hadd.symm.trans hs)
  obtain ⟨hmembers, hnone⟩ := Prod.mk.inj (Outcome.ok.inj hqueues)
  have htop : Top s₁ [32, 64, 48] 2 := by
    refine ⟨hmembers ▸ List.cons_ne_nil _ _, fun q' hq => ?_⟩
    obtain rfl : q' = 3 := by omega
    exact hnone
  obtain ⟨ds, s₂, hrun, hcurrent, htotal, -⟩ := hshares 2 htop
  rw [hmembers] at hcurrent htotal
  exact ⟨s₁, ds, s₂, hadd, htop, hmembers, hrun, Option.some.inj hcurrent, htotal 32, htotal 64⟩

end Main

end Munux.Process
