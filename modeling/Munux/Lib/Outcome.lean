import Mathlib.Algebra.Order.Ring.Nat
import Mathlib.Data.Fintype.Basic
import Mathlib.Data.Nat.Bitwise

/-!
# Outcomes of a machine-level call

A call returns, stops the machine (a failed overflow check, an index out of range, a fault), or
runs for ever. The three are kept apart: a bound on a loop that is exceeded is `diverge`, never
silently a result, so "the call returns" is a statement one has to prove.
-/

namespace Munux

/-- What a call does. -/
inductive Outcome (α : Type) where
  | ok (a : α)
  | panic
  | diverge
  deriving DecidableEq, Repr

namespace Outcome

variable {α β : Type}

/-- Sequencing: anything but a result ends the computation. -/
def bind (x : Outcome α) (f : α → Outcome β) : Outcome β :=
  match x with
  | ok a => f a
  | panic => panic
  | diverge => diverge

instance : Monad Outcome where
  pure := ok
  bind := bind

@[simp] theorem pure_eq (a : α) : (pure a : Outcome α) = ok a := rfl
@[simp] theorem ok_bind (a : α) (f : α → Outcome β) : (ok a >>= f) = f a := rfl
@[simp] theorem panic_bind (f : α → Outcome β) : (panic >>= f) = panic := rfl
@[simp] theorem diverge_bind (f : α → Outcome β) : (diverge >>= f) = diverge := rfl

theorem bind_assoc {γ : Type} (x : Outcome α) (f : α → Outcome β) (g : β → Outcome γ) :
    (x >>= f >>= g) = (x >>= fun a => f a >>= g) := by
  cases x <;> rfl

/-- A sequence returns when both halves do. -/
theorem bind_eq_ok {x : Outcome α} {f : α → Outcome β} {b : β} :
    (x >>= f) = ok b ↔ ∃ a, x = ok a ∧ f a = ok b := by
  cases x <;> simp

theorem bind_returns {x : Outcome α} {f : α → Outcome β} :
    (∃ b, (x >>= f) = ok b) ↔ ∃ a, x = ok a ∧ ∃ b, f a = ok b := by
  cases x <;> simp

/-- A sequence runs for ever when one of its halves does. -/
theorem bind_eq_diverge {x : Outcome α} {f : α → Outcome β} :
    (x >>= f) = diverge ↔ x = diverge ∨ ∃ a, x = ok a ∧ f a = diverge := by
  cases x <;> simp

/-- Does the call return? -/
def isOk : Outcome α → Bool
  | ok _ => true
  | _ => false

/-- The result of a call that returns. -/
def getD (x : Outcome α) (d : α) : α :=
  match x with
  | ok a => a
  | _ => d

theorem eq_ok_getD {x : Outcome α} (h : x.isOk = true) (d : α) : x = ok (x.getD d) := by
  cases x with
  | ok a => rfl
  | panic => cases h
  | diverge => cases h

/-- Run `f 0`, `f 1`, … in order and collect the results. -/
def collect : (n : Nat) → (Fin n → Outcome α) → Outcome (Fin n → α)
  | 0, _ => ok Fin.elim0
  | n + 1, f => do
      let a ← f 0
      let rest ← collect n fun i => f i.succ
      return Fin.cons a rest

theorem collect_eq_ok {n : Nat} {f : Fin n → Outcome α} {g : Fin n → α} :
    collect n f = ok g ↔ ∀ i, f i = ok (g i) := by
  induction n with
  | zero => simp [collect, Subsingleton.elim g Fin.elim0]
  | succ n ih =>
      simp only [collect, bind_eq_ok, ih, pure_eq, ok.injEq, Fin.forall_fin_succ]
      constructor
      · rintro ⟨a, h0, rest, hrest, rfl⟩
        exact ⟨h0, hrest⟩
      · intro h
        exact ⟨g 0, h.1, fun i => g i.succ, h.2, Fin.cons_self_tail g⟩

/-! ## Loops -/

section Loop

variable {σ : Type} {f : σ → Nat → Outcome σ} {I : Nat → σ → Prop} {s s' : σ} {n : Nat}

/-- The last turn of a loop. -/
theorem foldlM_concat {f : σ → α → Outcome σ} (l : List α) (a : α) (s : σ) :
    (l ++ [a]).foldlM f s = (l.foldlM f s >>= fun t => f t a) := by
  induction l generalizing s with
  | nil => cases h : f s a <;> simp [h]
  | cons b l ih =>
      rw [List.cons_append, List.foldlM_cons, List.foldlM_cons]
      cases f s b with
      | ok t => exact ih t
      | panic => rfl
      | diverge => rfl

theorem foldlM_range_succ (f : σ → Nat → Outcome σ) (s : σ) (n : Nat) :
    (List.range (n + 1)).foldlM f s = ((List.range n).foldlM f s >>= fun t => f t n) := by
  rw [List.range_succ, foldlM_concat]

/-- A counted loop stops the machine when its first turn does. -/
theorem foldlM_range_panic (hn : 0 < n) (h : f s 0 = panic) :
    (List.range n).foldlM f s = panic := by
  obtain ⟨k, rfl⟩ := Nat.exists_eq_succ_of_ne_zero hn.ne'
  rw [List.range_succ_eq_map, List.foldlM_cons, h, panic_bind]

/-- A counted loop returns, and keeps its invariant, when every turn does. -/
theorem foldlM_range_returns (h0 : I 0 s)
    (hstep : ∀ i t, i < n → I i t → ∃ t', f t i = ok t' ∧ I (i + 1) t') :
    ∃ s', (List.range n).foldlM f s = ok s' ∧ I n s' := by
  induction n with
  | zero => exact ⟨s, rfl, h0⟩
  | succ n ih =>
      obtain ⟨t, ht, hI⟩ := ih fun i t hi => hstep i t (by omega)
      obtain ⟨t', ht', hI'⟩ := hstep n t (by omega) hI
      exact ⟨t', by rw [foldlM_range_succ, ht, ok_bind, ht'], hI'⟩

/-- A counted loop that returns keeps its invariant. -/
theorem foldlM_range_invariant (h : (List.range n).foldlM f s = ok s') (h0 : I 0 s)
    (hstep : ∀ i t t', i < n → I i t → f t i = ok t' → I (i + 1) t') : I n s' := by
  induction n generalizing s' with
  | zero =>
      cases h
      exact h0
  | succ n ih =>
      rw [foldlM_range_succ, bind_eq_ok] at h
      obtain ⟨t, ht, ht'⟩ := h
      exact hstep n t s' (by omega) (ih ht fun i t t' hi => hstep i t t' (by omega)) ht'

/-- A loop whose turns all return is a plain loop. -/
theorem foldlM_eq_foldl {f : σ → α → Outcome σ} {g : σ → α → σ} {l : List α}
    (h : ∀ a ∈ l, ∀ t, f t a = ok (g t a)) (s : σ) : l.foldlM f s = ok (l.foldl g s) := by
  induction l generalizing s with
  | nil => rfl
  | cons a l ih =>
      rw [List.foldlM_cons, h a (List.mem_cons_self ..), ok_bind, List.foldl_cons]
      exact ih (fun b hb => h b (List.mem_cons_of_mem a hb)) (g s a)

/-- A loop whose turns append to a list. -/
theorem foldlM_append {f : List β → α → Outcome (List β)} {g : α → List β} {l : List α}
    (h : ∀ x ∈ l, ∀ out, f out x = ok (out ++ g x)) (out : List β) :
    l.foldlM f out = ok (out ++ l.flatMap g) := by
  induction l generalizing out with
  | nil => simp
  | cons x l ih =>
      rw [List.foldlM_cons, h x (List.mem_cons_self ..), ok_bind,
        ih (fun y hy => h y (List.mem_cons_of_mem x hy)), List.append_assoc, List.flatMap_cons]

end Loop

end Outcome

end Munux
