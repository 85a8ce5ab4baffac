import Munux.Lib.Outcome
import Munux.Lib.X86

/-!
# `IrqMutex`

`munux-rs/src/sync.rs`, over `munux_c_irq_save` and `munux_c_irq_restore` of `heap.c`: a mutex that
disables interrupts while it is held. Each guard keeps the flags it found, and puts them back when
it is dropped.

The flags that a guard puts back are those of the moment it was taken, whatever other guards there
are now. `masked_iff` says which orders of drops keep interrupts off: a guard that was taken with
interrupts on must be the last one to go.
-/

namespace Munux.Sync

open X86

/-- The interrupt flag. -/
def interruptFlag (eflags : UInt32) : Bool := eflags.toNat.testBit 9

/-- `munux_c_irq_save`: the flags it returns, and the flags after `cli`. -/
def irqSave (eflags : UInt32) : UInt32 × UInt32 := (flagsImage eflags, eflags &&& ~~~0x200)

/-- `munux_c_irq_restore`: the flags after `popfl`. -/
def irqRestore (flags : UInt32) : UInt32 := flags

/-- `IrqGuard` -/
structure Guard where
  mutex : Nat
  flags : UInt32
  deriving DecidableEq, Repr

/-- An execution context: its flags, the locks of all mutexes, and the guards that are alive. -/
structure Context where
  eflags : UInt32
  locked : Nat → Bool
  guards : List Guard

namespace Context

/-- `IrqMutex::lock`. With interrupts off nobody releases a lock that is held, so `acquire` spins
for ever on it. -/
def lock (c : Context) (mutex : Nat) : Outcome Context :=
  let (flags, eflags) := irqSave c.eflags
  if c.locked mutex then .diverge
  else .ok
    { eflags := eflags
      locked := Function.update c.locked mutex true
      guards := ⟨mutex, flags⟩ :: c.guards }

/-- `IrqGuard::drop` -/
def drop (c : Context) (g : Guard) : Context :=
  { eflags := irqRestore g.flags
    locked := Function.update c.locked g.mutex false
    guards := c.guards.erase g }

/-- No mutex is held. -/
def start (eflags : UInt32) : Context := ⟨eflags, fun _ => false, []⟩

end Context

/-- What a context does. -/
inductive Op where
  | lock (mutex : Nat)
  | drop (g : Guard)

namespace Op

/-- A mutex that is locked is not held; a guard that is dropped is alive. -/
def Allowed (c : Context) : Op → Prop
  | lock mutex => c.locked mutex = false
  | drop g => g ∈ c.guards

def step (c : Context) : Op → Outcome Context
  | lock mutex => c.lock mutex
  | drop g => .ok (c.drop g)

/-- A guard that is dropped was taken with interrupts off, or it is the only one. -/
def KeepsOff (c : Context) : Op → Prop
  | lock _ => True
  | drop g => interruptFlag g.flags = false ∨ c.guards = [g]

end Op

/-- A run: the operations, each with the context after it. -/
def Run : Context → List (Op × Context) → Prop
  | _, [] => True
  | c, (op, c') :: rest => op.Allowed c ∧ op.step c = .ok c' ∧ Run c' rest

/-- Every operation of a run keeps interrupts off. -/
def AllKeepOff : Context → List (Op × Context) → Prop
  | _, [] => True
  | c, (op, c') :: rest => op.KeepsOff c ∧ AllKeepOff c' rest

/-- Interrupts are off while a guard is alive, and as they were before when none is. -/
structure Masked (before : Bool) (c : Context) : Prop where
  off : c.guards ≠ [] → interruptFlag c.eflags = false
  restored : c.guards = [] → interruptFlag c.eflags = before

section Irq

variable {c c' : Context} {op : Op} {g : Guard} {before : Bool} {eflags : UInt32}
  {es : List (Op × Context)}

@[simp] theorem interruptFlag_image (eflags : UInt32) :
    interruptFlag (irqSave eflags).1 = interruptFlag eflags := by
  have hmask : Nat.testBit 0x00FCFFFF 9 = true := by decide
  simp [irqSave, flagsImage, interruptFlag, hmask]

@[simp] theorem interruptFlag_cli (eflags : UInt32) : interruptFlag (irqSave eflags).2 = false := by
  have hmask : (~~~(0x200 : UInt32)).toNat.testBit 9 = false := by decide
  rw [irqSave, interruptFlag, UInt32.toNat_and, Nat.testBit_and, hmask, Bool.and_false]

/-- A mutex that is not held can be locked. -/
theorem lock_returns {mutex : Nat} (h : c.locked mutex = false) :
    c.lock mutex = .ok
      { eflags := (irqSave c.eflags).2
        locked := Function.update c.locked mutex true
        guards := ⟨mutex, (irqSave c.eflags).1⟩ :: c.guards } := by
  simp [Context.lock, h]

/-- What the drops that keep interrupts off rely on: the flags that were there before, if they are
on, are still with one of the guards, and no guard has them on if they are off. -/
structure Inv (before : Bool) (c : Context) : Prop extends Masked before c where
  kept : c.guards ≠ [] → before = true → ∃ g ∈ c.guards, interruptFlag g.flags = true
  inner : before = false → ∀ g ∈ c.guards, interruptFlag g.flags = false

theorem inv_start (eflags : UInt32) : Inv (interruptFlag eflags) (.start eflags) where
  off h := absurd rfl h
  restored _ := rfl
  kept h := absurd rfl h
  inner _ _ hg := absurd hg List.not_mem_nil

theorem Inv.lock {mutex : Nat} (h : Inv before c) (hfree : c.locked mutex = false)
    (hcall : c.lock mutex = .ok c') : Inv before c' := by
  rw [lock_returns hfree] at hcall
  obtain rfl := Outcome.ok.inj hcall
  refine ⟨⟨fun _ => interruptFlag_cli _, fun hnil => absurd hnil (List.cons_ne_nil _ _)⟩,
    ?_, ?_⟩
  · intro _ hbefore
    by_cases hnone : c.guards = []
    · refine ⟨_, List.mem_cons_self, ?_⟩
      rw [interruptFlag_image, h.restored hnone, hbefore]
    · obtain ⟨g, hg, hflag⟩ := h.kept hnone hbefore
      exact ⟨g, List.mem_cons_of_mem _ hg, hflag⟩
  · intro hbefore g hg
    rcases List.mem_cons.1 hg with rfl | hg
    · rw [interruptFlag_image]
      by_cases hnone : c.guards = []
      · rw [h.restored hnone, hbefore]
      · exact h.off hnone
    · exact h.inner hbefore g hg

/-- A guard that leaves others behind puts its own flags back, so they must be off. -/
theorem Masked.keepsOff (h : Masked before (c.drop g)) (hg : g ∈ c.guards) :
    (Op.drop g).KeepsOff c := by
  by_cases hnone : c.guards.erase g = []
  · right
    have hlen := List.length_erase_add_one hg
    rw [hnone] at hlen
    obtain ⟨g', heq⟩ := List.length_eq_one_iff.1 hlen.symm
    rw [heq, List.mem_singleton] at hg
    rw [heq, hg]
  · exact .inl (h.off hnone)

theorem Inv.drop (h : Inv before c) (hg : g ∈ c.guards) (hoff : (Op.drop g).KeepsOff c) :
    Inv before (c.drop g) := by
  rcases hoff with hflag | honly
  · -- The guard that keeps the flags of before is another one.
    have hkept : before = true → ∃ g' ∈ c.guards.erase g, interruptFlag g'.flags = true := by
      intro hbefore
      obtain ⟨g', hg', hon⟩ := h.kept (List.ne_nil_of_mem hg) hbefore
      refine ⟨g', (List.mem_erase_of_ne ?_).2 hg', hon⟩
      rintro rfl
      rw [hflag] at hon
      cases hon
    refine ⟨⟨fun _ => hflag, ?_⟩, fun _ => hkept,
      fun hbefore g' hg' => h.inner hbefore g' (List.mem_of_mem_erase hg')⟩
    intro hnil
    cases before with
    | false => exact hflag
    | true =>
        obtain ⟨g', hg', -⟩ := hkept rfl
        exact absurd hnil (List.ne_nil_of_mem hg')
  · have hnil : (c.drop g).guards = [] := by
      rw [Context.drop, honly]
      exact List.erase_cons_head ..
    refine ⟨⟨fun hne => absurd hnil hne, ?_⟩, fun hne => absurd hnil hne,
      fun _ g' hg' => absurd (hnil ▸ hg') List.not_mem_nil⟩
    intro _
    change interruptFlag g.flags = before
    cases before with
    | false => exact h.inner rfl g hg
    | true =>
        obtain ⟨g', hg', hon⟩ := h.kept (List.ne_nil_of_mem hg) rfl
        rw [honly, List.mem_singleton] at hg'
        rwa [← hg']

/-- **One operation** masks interrupts as it should exactly when it keeps them off. -/
theorem Inv.step_iff (h : Inv before c) (hallow : op.Allowed c) (hcall : op.step c = .ok c') :
    Masked before c' ↔ op.KeepsOff c := by
  cases op with
  | lock mutex => exact iff_of_true (h.lock hallow hcall).toMasked trivial
  | drop g =>
      obtain rfl := Outcome.ok.inj hcall
      exact ⟨fun hmasked => hmasked.keepsOff hallow, fun hoff => (h.drop hallow hoff).toMasked⟩

theorem Inv.step (h : Inv before c) (hallow : op.Allowed c) (hcall : op.step c = .ok c')
    (hoff : op.KeepsOff c) : Inv before c' := by
  cases op with
  | lock mutex => exact h.lock hallow hcall
  | drop g =>
      obtain rfl := Outcome.ok.inj hcall
      exact h.drop hallow hoff

theorem Inv.run_iff (h : Inv before c) (hrun : Run c es) :
    (∀ e ∈ es, Masked before e.2) ↔ AllKeepOff c es := by
  induction es generalizing c with
  | nil => exact iff_of_true (fun _ he => absurd he List.not_mem_nil) trivial
  | cons e es ih =>
      obtain ⟨op, c'⟩ := e
      obtain ⟨hallow, hcall, hrest⟩ := hrun
      rw [List.forall_mem_cons, h.step_iff hallow hcall, AllKeepOff]
      exact and_congr_right fun hoff => ih (h.step hallow hcall hoff) hrest

/-- **Interrupts stay off** while a guard is alive, and come back as they were with the last one,
all through a run, exactly when every guard that is dropped while others are alive was taken with
interrupts off. -/
theorem masked_iff (hrun : Run (.start eflags) es) :
    (∀ e ∈ es, Masked (interruptFlag eflags) e.2) ↔ AllKeepOff (.start eflags) es :=
  (inv_start eflags).run_iff hrun

end Irq

/-- The guards of mutexes 1 and 2, taken in this order with interrupts on. -/
def firstGuard : Guard := ⟨1, (irqSave 0x202).1⟩

def secondGuard : Guard := ⟨2, (irqSave (irqSave 0x202).2).1⟩

/-- The context with the first guard, and with both. -/
def oneHeld : Context :=
  ⟨(irqSave 0x202).2, Function.update (fun _ => false) 1 true, [firstGuard]⟩

def bothHeld : Context :=
  ⟨(irqSave (irqSave 0x202).2).2, Function.update oneHeld.locked 2 true, [secondGuard, firstGuard]⟩

theorem run_both (rest : List (Op × Context)) (h : Run bothHeld rest) :
    Run (.start 0x202) ((.lock 1, oneHeld) :: (.lock 2, bothHeld) :: rest) :=
  ⟨rfl, rfl, rfl, rfl, h⟩

theorem interruptFlag_firstGuard : interruptFlag firstGuard.flags = true := by
  rw [firstGuard, interruptFlag_image]
  decide

theorem interruptFlag_secondGuard : interruptFlag secondGuard.flags = false := by
  rw [secondGuard, interruptFlag_image, interruptFlag_cli]

/-- Two guards, dropped in the order of scopes. -/
theorem masked_nested :
    Masked true oneHeld ∧ Masked true bothHeld ∧ Masked true (bothHeld.drop secondGuard) := by
  have hrun := run_both [(.drop secondGuard, bothHeld.drop secondGuard)]
    ⟨List.mem_cons_self, rfl, trivial⟩
  have hon : interruptFlag 0x202 = true := by decide
  have hall := (masked_iff hrun).2 ⟨trivial, trivial, .inl interruptFlag_secondGuard, trivial⟩
  rw [hon] at hall
  exact ⟨hall _ (.head _), hall _ (.tail _ (.head _)), hall _ (.tail _ (.tail _ (.head _)))⟩

/-- **Interrupts on, with a guard alive.** Two guards are taken with interrupts on, and the first
one is dropped first: interrupts come on while the second one is alive, and they are off when it has
been dropped. -/
theorem unmasked_guard :
    ∃ c c', Run (.start 0x202) [(.lock 1, oneHeld), (.lock 2, bothHeld), (.drop firstGuard, c),
        (.drop secondGuard, c')] ∧
      c.guards = [secondGuard] ∧ interruptFlag c.eflags = true ∧
      c'.guards = [] ∧ interruptFlag c'.eflags = false ∧ interruptFlag 0x202 = true := by
  have hfirst : firstGuard ∈ bothHeld.guards := List.mem_cons_of_mem _ List.mem_cons_self
  have hleft : (bothHeld.drop firstGuard).guards = [secondGuard] := by decide
  have hsecond : secondGuard ∈ (bothHeld.drop firstGuard).guards := by
    rw [hleft]
    exact List.mem_cons_self
  refine ⟨_, _, run_both _ ⟨hfirst, rfl, hsecond, rfl, trivial⟩, hleft, interruptFlag_firstGuard,
    ?_, interruptFlag_secondGuard, by decide⟩
  change (bothHeld.drop firstGuard).guards.erase secondGuard = []
  rw [hleft]
  exact List.erase_cons_head ..

end Munux.Sync
