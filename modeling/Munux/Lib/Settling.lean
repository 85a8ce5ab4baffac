import Munux.Lib.Traces

/-!
# Work that ends

A system makes steps of its own, and its surroundings make others. Some of these are quiet: they
make no work. While all others are, the work of the system ends if each step of its own leaves less
of it to do (`Settling`). The system may wait, but then only for a quiet step.

* `Settling.done`: the work is done after as many steps of its own as there was work.
* `Settling.exists_trace`: there are as many steps of its own as one likes.
-/

namespace Munux

variable {δ α : Type}

/-- Until it is `Done`, each step of its own leaves less `work`. -/
structure Settling (Next : δ → α → δ → Prop) (Own : α → Bool) (Quiet : α → Prop)
    (Good Done : δ → Prop) (work : δ → Nat) : Prop where
  quiet : ∀ {x}, Own x → Quiet x
  good : ∀ {d x d'}, Good d → Next d x d' → Good d'
  less : ∀ {d x d'}, Good d → Own x → Next d x d' → ¬Done d → work d' < work d
  calm : ∀ {d x d'}, Good d → Quiet x → ¬Own x → Next d x d' → work d' ≤ work d
  rest : ∀ {d x d'}, Good d → Quiet x → Next d x d' → Done d → Done d'
  live : ∀ {d}, Good d → (∃ x d', Own x ∧ Next d x d') ∨
    ∃ y d₁, Quiet y ∧ ¬Own y ∧ Next d y d₁ ∧ ∃ x d', Own x ∧ Next d₁ x d'

namespace Settling

variable {Next : δ → α → δ → Prop} {Own : α → Bool} {Quiet : α → Prop} {Good Done : δ → Prop}
  {work : δ → Nat} {d d' : δ} {xs : List α}

theorem done_of_done (h : Settling Next Own Quiet Good Done work) (hgood : Good d)
    (hquiet : ∀ x ∈ xs, Quiet x) (hrun : Trace Next d xs d') (hdone : Done d) : Done d' := by
  induction hrun with
  | nil => exact hdone
  | cons hx _ ih =>
      rw [List.forall_mem_cons] at hquiet
      exact ih (h.good hgood hx) hquiet.2 (h.rest hgood hquiet.1 hx hdone)

/-- **The work is done in time.** -/
theorem done (h : Settling Next Own Quiet Good Done work) (hgood : Good d)
    (hquiet : ∀ x ∈ xs, Quiet x) (hrun : Trace Next d xs d') (hlong : work d < xs.countP Own) :
    Done d' := by
  induction hrun with
  | nil => exact absurd hlong (Nat.not_lt_zero _)
  | @cons d d₁ d' x xs hx hrest ih =>
      by_cases hdone : Done d
      · exact h.done_of_done hgood hquiet (.cons hx hrest) hdone
      rw [List.forall_mem_cons] at hquiet
      apply ih (h.good hgood hx) hquiet.2
      by_cases hown : Own x
      · have hless := h.less hgood hown hx hdone
        rw [List.countP_cons_of_pos hown] at hlong
        exact Nat.lt_of_lt_of_le hless (Nat.le_of_lt_succ hlong)
      · rw [List.countP_cons_of_neg hown] at hlong
        exact Nat.lt_of_le_of_lt (h.calm hgood hquiet.1 hown hx) hlong

theorem exists_trace (h : Settling Next Own Quiet Good Done work) (hgood : Good d) (n : Nat) :
    ∃ xs d', xs.countP Own = n ∧ (∀ x ∈ xs, Quiet x) ∧ Trace Next d xs d' := by
  induction n generalizing d with
  | zero => exact ⟨[], d, rfl, fun x hx => absurd hx List.not_mem_nil, .nil d⟩
  | succ n ih =>
      obtain ⟨x, d₂, hown, hx⟩ | ⟨y, d₁, hy, hnot, hstep, x, d₂, hown, hx⟩ := h.live hgood
      · obtain ⟨xs, d', hcount, hall, hrun⟩ := ih (h.good hgood hx)
        refine ⟨x :: xs, d', ?_, List.forall_mem_cons.2 ⟨h.quiet hown, hall⟩, .cons hx hrun⟩
        rw [List.countP_cons_of_pos hown, hcount]
      · obtain ⟨xs, d', hcount, hall, hrun⟩ := ih (h.good (h.good hgood hstep) hx)
        refine ⟨y :: x :: xs, d', ?_, ?_, .cons hstep (.cons hx hrun)⟩
        · rw [List.countP_cons_of_neg hnot, List.countP_cons_of_pos hown, hcount]
        · exact List.forall_mem_cons.2 ⟨hy, List.forall_mem_cons.2 ⟨h.quiet hown, hall⟩⟩

end Settling

end Munux
