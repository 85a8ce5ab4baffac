import Mathlib.Logic.Basic

/-!
# A program and a device

A device is a relation `Next d x d'`: the access `x` may take it from `d` to `d'`. A program records
its accesses in a log; what the device returns is part of the access. Whether the device behaved is
a question about a finished run: `Served` says that the accesses that the program made between two
of its states take the device from `d` to `d'`.

The rule for a sequence of calls is `Served.split`: in between, the device was somewhere.
-/

namespace Munux

variable {δ σ α : Type}

/-- Several accesses, one after another. -/
inductive Trace (Next : δ → α → δ → Prop) : δ → List α → δ → Prop
  | nil (d : δ) : Trace Next d [] d
  | cons {d d₁ d' : δ} {x : α} {xs : List α} :
      Next d x d₁ → Trace Next d₁ xs d' → Trace Next d (x :: xs) d'

/-- `a'` is later than `a`. -/
def LaterBy (log : σ → List α) (a a' : σ) : Prop := ∃ trace, log a' = log a ++ trace

/-- The accesses between `a` and `a'` took the device from `d` to `d'`. -/
def ServedBy (Next : δ → α → δ → Prop) (log : σ → List α) (d : δ) (a : σ) (d' : δ) (a' : σ) : Prop :=
  ∃ trace, log a' = log a ++ trace ∧ Trace Next d trace d'

section Traces

variable {Next : δ → α → δ → Prop} {log : σ → List α} {d d' d₁ : δ} {a a' a₁ : σ} {xs ys : List α}
  {x : α}

namespace Trace

theorem cons_iff : Trace Next d (x :: xs) d' ↔ ∃ d₁, Next d x d₁ ∧ Trace Next d₁ xs d' :=
  ⟨fun h => by cases h with | cons hx hxs => exact ⟨_, hx, hxs⟩,
    fun ⟨_, hx, hxs⟩ => .cons hx hxs⟩

theorem nil_iff : Trace Next d [] d' ↔ d' = d :=
  ⟨fun h => by cases h; rfl, fun h => by rw [h]; exact .nil d⟩

theorem append_iff : Trace Next d (xs ++ ys) d' ↔ ∃ d₁, Trace Next d xs d₁ ∧ Trace Next d₁ ys d' := by
  induction xs generalizing d with
  | nil => simp [nil_iff]
  | cons x xs ih =>
      simp only [List.cons_append, cons_iff, ih]
      exact ⟨fun ⟨e, he, e', h, h'⟩ => ⟨e', ⟨e, he, h⟩, h'⟩,
        fun ⟨e', ⟨e, he, h⟩, h'⟩ => ⟨e, he, e', h, h'⟩⟩

end Trace

theorem LaterBy.refl (log : σ → List α) (a : σ) : LaterBy log a a := ⟨[], (List.append_nil _).symm⟩

theorem LaterBy.trans (h : LaterBy log a a₁) (h' : LaterBy log a₁ a') : LaterBy log a a' := by
  obtain ⟨xs, hxs⟩ := h
  obtain ⟨ys, hys⟩ := h'
  exact ⟨xs ++ ys, by rw [hys, hxs, List.append_assoc]⟩

namespace ServedBy

theorem refl (Next : δ → α → δ → Prop) (log : σ → List α) (d : δ) (a : σ) :
    ServedBy Next log d a d a :=
  ⟨[], (List.append_nil _).symm, .nil d⟩

theorem trans (h : ServedBy Next log d a d₁ a₁) (h' : ServedBy Next log d₁ a₁ d' a') :
    ServedBy Next log d a d' a' := by
  obtain ⟨xs, hxs, hrun⟩ := h
  obtain ⟨ys, hys, hrun'⟩ := h'
  exact ⟨xs ++ ys, by rw [hys, hxs, List.append_assoc], Trace.append_iff.2 ⟨d₁, hrun, hrun'⟩⟩

/-- Without an access the device stays where it is. -/
theorem same (h : ServedBy Next log d a d' a) : d' = d := by
  obtain ⟨trace, hlog, hrun⟩ := h
  obtain rfl := List.append_right_eq_self.1 hlog.symm
  exact Trace.nil_iff.1 hrun

/-- The device was somewhere in between. -/
theorem split (h : LaterBy log a a₁) (h' : LaterBy log a₁ a') (hs : ServedBy Next log d a d' a') :
    ∃ d₁, ServedBy Next log d a d₁ a₁ ∧ ServedBy Next log d₁ a₁ d' a' := by
  obtain ⟨xs, hxs⟩ := h
  obtain ⟨ys, hys⟩ := h'
  obtain ⟨trace, hlog, hrun⟩ := hs
  rw [hys, hxs, List.append_assoc] at hlog
  obtain rfl := List.append_cancel_left hlog
  obtain ⟨d₁, h₁, h₂⟩ := Trace.append_iff.1 hrun
  exact ⟨d₁, ⟨xs, hxs, h₁⟩, ⟨ys, hys, h₂⟩⟩

/-- A single access. -/
theorem next (hs : ServedBy Next log d a d' a') (hlog : log a' = log a ++ [x]) : Next d x d' := by
  obtain ⟨trace, htrace, hrun⟩ := hs
  obtain rfl := List.append_cancel_left (hlog.symm.trans htrace)
  obtain ⟨d₁, hnext, hnil⟩ := Trace.cons_iff.1 hrun
  exact Trace.nil_iff.1 hnil ▸ hnext

end ServedBy

end Traces

end Munux
