import Mathlib.Data.Set.Function
import Mathlib.Data.List.Basic

/-!
# Texts that can be read back

A text can be read back if its reader knows at each point what comes first in the rest, and where
that ends. `Delimited s f` says so of the texts `f x` of the values `x` of `s`: whatever follows,
two texts that begin with one of them begin with the same one.

A field that is closed by a symbol that does not occur in it ends there (`split_at_symbol`), and
lists of delimited texts that are closed by a symbol that begins none of them are delimited
(`Delimited.list`). A record is read back field by field.
-/

namespace Munux

/-- A reader can tell which value of `s` comes first, and where its text ends. -/
def Delimited {α β : Type*} (s : Set α) (f : α → List β) : Prop :=
  ∀ ⦃x⦄, x ∈ s → ∀ ⦃y⦄, y ∈ s → ∀ ⦃r t⦄, f x ++ r = f y ++ t → x = y ∧ r = t

section Delimited

variable {α β : Type*} {s : Set α} {f : α → List β} {xs ys : List α} {a : β} {r t : List β}

/-- Two texts with a symbol behind them that is in neither. -/
theorem split_at_symbol {p q : List β} (hp : a ∉ p) (hq : a ∉ q)
    (heq : p ++ a :: r = q ++ a :: t) : p = q ∧ r = t := by
  induction p generalizing q with
  | nil =>
      cases q with
      | nil => exact ⟨rfl, (List.cons.inj heq).2⟩
      | cons b q => exact absurd ((List.cons.inj heq).1 ▸ List.mem_cons_self) hq
  | cons c p ih =>
      rw [List.mem_cons, not_or] at hp
      cases q with
      | nil => exact absurd (List.cons.inj heq).1.symm hp.1
      | cons b q =>
          rw [List.mem_cons, not_or] at hq
          obtain ⟨rfl, hrest⟩ := List.cons.inj heq
          obtain ⟨rfl, htail⟩ := ih hp.2 hq.2 hrest
          exact ⟨rfl, htail⟩

/-- **Lists.** The texts of a list one after another, closed by a symbol that begins none of
them. -/
theorem Delimited.list (h : Delimited s f) (hhead : ∀ x ∈ s, ∃ b l, f x = b :: l ∧ b ≠ a) :
    Delimited {xs : List α | ∀ x ∈ xs, x ∈ s} fun xs => xs.flatMap f ++ [a] := by
  -- One of the lists is at its end, and the other is not.
  have hend : ∀ {x xs r t}, x ∈ s → [] ++ [a] ++ r ≠ (x :: xs).flatMap f ++ [a] ++ t := by
    intro x xs r t hx heq
    obtain ⟨b, l, hfx, hb⟩ := hhead x hx
    rw [List.flatMap_cons, hfx] at heq
    exact hb (List.cons.inj heq).1.symm
  intro xs hxs ys hys r t heq
  induction xs generalizing ys with
  | nil =>
      cases ys with
      | nil => exact ⟨rfl, (List.cons.inj heq).2⟩
      | cons y ys => exact absurd heq (hend (hys y List.mem_cons_self))
  | cons x xs ih =>
      cases ys with
      | nil => exact absurd heq.symm (hend (hxs x List.mem_cons_self))
      | cons y ys =>
          simp only [List.flatMap_cons, List.append_assoc] at heq
          obtain ⟨rfl, hrest⟩ := h (hxs x List.mem_cons_self) (hys y List.mem_cons_self) heq
          obtain ⟨rfl, hrt⟩ := ih (fun z hz => hxs z (List.mem_cons_of_mem _ hz))
            (fun z hz => hys z (List.mem_cons_of_mem _ hz))
            (by simpa only [List.append_assoc] using hrest)
          exact ⟨rfl, hrt⟩

/-- **Lists** that are closed by the end of the text. -/
theorem Delimited.flatMap_injOn (h : Delimited s f) (hne : ∀ x ∈ s, f x ≠ []) :
    Set.InjOn (List.flatMap f) {xs : List α | ∀ x ∈ xs, x ∈ s} := by
  intro xs hxs ys hys heq
  induction xs generalizing ys with
  | nil =>
      cases ys with
      | nil => rfl
      | cons y ys =>
          rw [List.flatMap_nil, List.flatMap_cons, eq_comm, List.append_eq_nil_iff] at heq
          exact absurd heq.1 (hne y (hys y List.mem_cons_self))
  | cons x xs ih =>
      cases ys with
      | nil =>
          rw [List.flatMap_nil, List.flatMap_cons, List.append_eq_nil_iff] at heq
          exact absurd heq.1 (hne x (hxs x List.mem_cons_self))
      | cons y ys =>
          rw [List.flatMap_cons, List.flatMap_cons] at heq
          obtain ⟨rfl, hrest⟩ := h (hxs x List.mem_cons_self) (hys y List.mem_cons_self) heq
          rw [ih (fun z hz => hxs z (List.mem_cons_of_mem _ hz))
            (fun z hz => hys z (List.mem_cons_of_mem _ hz)) hrest]

end Delimited

end Munux
