import Mathlib.Algebra.Order.Ring.Nat
import Mathlib.Data.List.Infix

/-!
# The timer

`kernel/drivers/timer.c` counts interrupts in a 32-bit word. `timer_wait` adds its argument to the
count, in 32 bits, and halts until the count is no longer below the sum. It is to wait for that many
interrupts. It does unless the sum wraps; then it returns at once, unless the count wraps too before
the loop first compares them.

A run is a list of events: an interrupt of the timer, an interrupt of another device, an instruction
of the waiting call. The call begins when it reads the count for its deadline.
-/

namespace Munux.Drivers

/-! ## The driver -/

/-- Where the waiting call is: at the loop's comparison, at `hlt`, halted by it, or back in its
caller. -/
inductive WaitPoint where
  | compare
  | hlt
  | halted
  | returned
  deriving DecidableEq, Repr

/-- The tick counter, and a call of `timer_wait` with its local `end_tick`. -/
structure TimerState where
  timerTicks : UInt32
  endTick : UInt32
  point : WaitPoint
  deriving DecidableEq, Repr

inductive TimerEvent where
  | timer
  | device
  | instruction
  deriving DecidableEq, Repr

namespace TimerState

def timerCallback (s : TimerState) : TimerState := { s with timerTicks := s.timerTicks + 1 }

def timerGetTicks (s : TimerState) : UInt32 := s.timerTicks

/-- `timer_wait`, up to the loop: the deadline. -/
def timerWait (timerTicks ticks : UInt32) : TimerState :=
  { timerTicks := timerTicks, endTick := timerTicks + ticks, point := .compare }

/-- The return from an interrupt: `hlt` is over, and the loop compares again. -/
def iret (s : TimerState) : TimerState :=
  match s.point with
  | .halted => { s with point := .compare }
  | _ => s

/-- The next instruction of the loop. -/
def advance (s : TimerState) : TimerState :=
  match s.point with
  | .compare => { s with point := if s.timerTicks < s.endTick then .hlt else .returned }
  | .hlt => { s with point := .halted }
  | .halted | .returned => s

def step (s : TimerState) : TimerEvent → TimerState
  | .timer => s.timerCallback.iret
  | .device => s.iret
  | .instruction => s.advance

end TimerState

open TimerState

/-- A call of `timer_wait(ticks)` that finds the count at `timerTicks`. -/
def waitRun (timerTicks ticks : UInt32) (events : List TimerEvent) : TimerState :=
  events.foldl step (timerWait timerTicks ticks)

/-- The call has not returned before `ticks` interrupts of the timer. -/
def Waits (timerTicks ticks : UInt32) (events : List TimerEvent) : Prop :=
  (waitRun timerTicks ticks events).point = .returned → ticks.toNat ≤ events.count .timer

/-! ## The counter and the deadline -/

variable {t n : UInt32} {s : TimerState} {e : TimerEvent} {p events : List TimerEvent}

theorem waitRun_snoc (t n : UInt32) (p : List TimerEvent) (e : TimerEvent) :
    waitRun t n (p ++ [e]) = (waitRun t n p).step e := by
  rw [waitRun, List.foldl_concat]
  rfl

@[simp] theorem iret_timerTicks (s : TimerState) : s.iret.timerTicks = s.timerTicks := by
  cases s with
  | mk ticks deadline point => cases point <;> rfl

@[simp] theorem advance_timerTicks (s : TimerState) : s.advance.timerTicks = s.timerTicks := by
  cases s with
  | mk ticks deadline point => cases point <;> rfl

theorem iret_point (h : s.iret.point = .returned) : s.point = .returned := by
  cases hp : s.point with
  | returned => rfl
  | halted =>
      rw [iret, hp] at h
      cases h
  | _ =>
      rw [iret, hp] at h
      cases hp.symm.trans h

theorem iret_compare (h : s.point = .compare) : s.iret.point = .compare := by
  rw [iret, h]
  exact h

@[simp] theorem step_endTick (s : TimerState) (e : TimerEvent) :
    (s.step e).endTick = s.endTick := by
  cases s with
  | mk ticks deadline point => cases e <;> cases point <;> rfl

/-- An instruction that returns is the comparison, with the deadline reached. -/
theorem advance_returned (h : s.advance.point = .returned) :
    s.point = .returned ∨ s.endTick ≤ s.timerTicks := by
  cases hp : s.point with
  | returned => exact .inl rfl
  | compare =>
      rw [advance, hp] at h
      refine .inr (UInt32.not_lt.1 fun hlt => ?_)
      rw [if_pos hlt] at h
      cases h
  | hlt =>
      rw [advance, hp] at h
      cases h
  | halted =>
      rw [advance, hp] at h
      cases hp.symm.trans h

@[simp] theorem waitRun_endTick (t n : UInt32) (p : List TimerEvent) :
    (waitRun t n p).endTick = t + n := by
  induction p using List.reverseRecOn with
  | nil => rfl
  | append_singleton p e ih => rw [waitRun_snoc, step_endTick, ih]

/-- The count is the number of interrupts, modulo the word. -/
theorem timerGetTicks_waitRun (t n : UInt32) (p : List TimerEvent) :
    (waitRun t n p).timerGetTicks = t + UInt32.ofNat (p.count .timer) := by
  induction p using List.reverseRecOn with
  | nil => exact (UInt32.add_zero t).symm
  | append_singleton p e ih =>
      rw [waitRun_snoc, List.count_append]
      cases e with
      | timer =>
          calc ((waitRun t n p).timerCallback.iret).timerTicks
              = (waitRun t n p).timerGetTicks + 1 := iret_timerTicks _
            _ = t + (UInt32.ofNat (p.count .timer) + 1) := by rw [ih, UInt32.add_assoc]
            _ = _ := by rw [← UInt32.ofNat_one, ← UInt32.ofNat_add]; rfl
      | device => exact (iret_timerTicks _).trans ih
      | instruction => exact (advance_timerTicks _).trans ih

theorem timerTicks_toNat (t n : UInt32) (p : List TimerEvent) :
    (waitRun t n p).timerTicks.toNat = (t.toNat + p.count .timer) % 2 ^ 32 := by
  have h := congrArg UInt32.toNat (timerGetTicks_waitRun t n p)
  rwa [UInt32.toNat_add, UInt32.toNat_ofNat', Nat.add_mod_mod] at h

/-! ## When the call waits -/

/-- Until its first instruction the call is at the comparison. -/
theorem waitRun_compare (h : .instruction ∉ p) : (waitRun t n p).point = .compare := by
  induction p using List.reverseRecOn with
  | nil => rfl
  | append_singleton p e ih =>
      have hp := ih fun hmem => h (List.mem_append_left [e] hmem)
      rw [waitRun_snoc]
      cases e with
      | timer => exact iret_compare hp
      | device => exact iret_compare hp
      | instruction => exact absurd (List.mem_append_right p (List.mem_singleton_self _)) h

/-- The deadline has wrapped and the count has not: the first comparison ends the wait. -/
theorem returns_at_once (hwrap : 2 ^ 32 ≤ t.toNat + n.toNat) (hp : .instruction ∉ p)
    (hcount : t.toNat + p.count .timer < 2 ^ 32) :
    (waitRun t n (p ++ [.instruction])).point = .returned := by
  have hticks := timerTicks_toNat t n p
  rw [Nat.mod_eq_of_lt hcount] at hticks
  have hend := UInt32.toNat_add t n
  have hle : ¬ (waitRun t n p).timerTicks < (waitRun t n p).endTick := by
    rw [waitRun_endTick, UInt32.lt_iff_toNat_lt]
    have hn := n.toNat_lt
    omega
  rw [waitRun_snoc]
  change (advance _).point = _
  rw [advance, waitRun_compare hp]
  exact if_neg hle

/-- The count has wrapped whenever the deadline has and the loop compares them. -/
theorem wrapped_at_compare
    (hfirst : ∀ p, p ++ [.instruction] <+: events → .instruction ∉ p →
      2 ^ 32 ≤ t.toNat + p.count .timer)
    (hp : p ++ [.instruction] <+: events) : 2 ^ 32 ≤ t.toNat + p.count .timer := by
  by_cases hmem : .instruction ∈ p
  · obtain ⟨first, rest, rfl, hnot⟩ := List.eq_append_cons_of_mem hmem
    have hbefore : first ++ [.instruction] <+: events := by
      refine List.IsPrefix.trans ⟨rest ++ [.instruction], ?_⟩ hp
      simp
    have hle : first.count .timer ≤ (first ++ .instruction :: rest).count .timer :=
      (List.sublist_append_left ..).count_le _
    exact (hfirst first hbefore hnot).trans (Nat.add_le_add_left hle _)
  · exact hfirst p hp hmem

/-- One comparison: the call returns on time. -/
theorem deadline_met
    (hok : t.toNat + n.toNat < 2 ^ 32 ∨ 2 ^ 32 ≤ t.toNat + p.count .timer)
    (h : (waitRun t n p).endTick ≤ (waitRun t n p).timerTicks) : n.toNat ≤ p.count .timer := by
  rw [waitRun_endTick, UInt32.le_iff_toNat_le, timerTicks_toNat, UInt32.toNat_add] at h
  have hmod := Nat.mod_le (t.toNat + p.count .timer) (2 ^ 32)
  obtain hdeadline | hcount := hok
  · rw [Nat.mod_eq_of_lt hdeadline] at h
    omega
  · have ht := t.toNat_lt
    have hn := n.toNat_lt
    omega

/-- One event more keeps a call waiting, if no comparison is made with the deadline wrapped and the
count not. -/
theorem waits_snoc (h : Waits t n p)
    (hok : e = .instruction → t.toNat + n.toNat < 2 ^ 32 ∨ 2 ^ 32 ≤ t.toNat + p.count .timer) :
    Waits t n (p ++ [e]) := by
  intro hback
  rw [waitRun_snoc] at hback
  have hle : p.count .timer ≤ (p ++ [e]).count .timer := (List.sublist_append_left ..).count_le _
  refine Nat.le_trans ?_ hle
  cases e with
  | timer => exact h (iret_point (s := (waitRun t n p).timerCallback) hback)
  | device => exact h (iret_point hback)
  | instruction =>
      obtain hbefore | hmet := advance_returned hback
      · exact h hbefore
      · exact deadline_met (hok rfl) hmet

/-- In a given run the call is never early exactly when its deadline does not wrap, or the count
wraps before the first comparison. -/
theorem waits_throughout_iff (t n : UInt32) (events : List TimerEvent) :
    (∀ p, p <+: events → Waits t n p) ↔
      t.toNat + n.toNat < 2 ^ 32 ∨
        ∀ p, p ++ [.instruction] <+: events → .instruction ∉ p →
          2 ^ 32 ≤ t.toNat + p.count .timer := by
  constructor
  · intro h
    refine or_iff_not_imp_left.2 fun hwrap p hp hnot => ?_
    by_contra hcount
    have hwaits := h _ hp (returns_at_once (Nat.le_of_not_lt hwrap) hnot (Nat.lt_of_not_le hcount))
    rw [List.count_append] at hwaits
    have hzero : [TimerEvent.instruction].count .timer = 0 := rfl
    omega
  · intro hok p hp
    induction p using List.reverseRecOn with
    | nil => exact fun h => by cases h
    | append_singleton p e ih =>
        refine waits_snoc (ih ((List.prefix_append p [e]).trans hp)) ?_
        rintro rfl
        exact hok.imp_right fun hfirst => wrapped_at_compare hfirst hp

/-- **`timer_wait` is never early**, whatever interrupts come between its instructions, exactly when
its deadline does not wrap. -/
theorem timerWait_never_early_iff (t n : UInt32) :
    (∀ events, Waits t n events) ↔ t.toNat + n.toNat < 2 ^ 32 := by
  constructor
  · intro h
    obtain hok | hfirst := (waits_throughout_iff t n [.instruction]).1 fun p _ => h p
    · exact hok
    · exact absurd (hfirst [] (List.prefix_refl _) List.not_mem_nil) (Nat.not_le.2 t.toNat_lt)
  · intro hok events
    exact (waits_throughout_iff t n events).2 (.inl hok) events (List.prefix_refl events)

/-- Ten ticks, asked for one tick before the counter wraps: the first comparison ends the wait. -/
theorem timerWait_early : ¬ Waits 0xFFFFFFFF 10 [.instruction] := fun h =>
  absurd (h (by decide)) (by decide)

end Munux.Drivers
