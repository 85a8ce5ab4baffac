import Mathlib.Data.Set.Lattice
import Mathlib.Order.CompletePartialOrder
import Mathlib.Order.Interval.Set.Basic

/-!
# Ranges that lie end to end

A range is given by its start and its length. `EndToEnd lo rs hi` says that the ranges `rs`, in
order, cut `[lo, hi)` into pieces: each begins where the one before ends. Such ranges share no
element, and together they are the whole interval.
-/

namespace Munux

/-- The elements of a range. -/
def rangeSet (r : Nat × Nat) : Set Nat := Set.Ico r.1 (r.1 + r.2)

/-- The ranges cut `[lo, hi)` into pieces. -/
def EndToEnd : Nat → List (Nat × Nat) → Nat → Prop
  | lo, [], hi => lo = hi
  | lo, r :: rs, hi => r.1 = lo ∧ EndToEnd (lo + r.2) rs hi

section Ranges

variable {lo hi : Nat} {r : Nat × Nat} {rs : List (Nat × Nat)}

theorem EndToEnd.le (h : EndToEnd lo rs hi) : lo ≤ hi := by
  induction rs generalizing lo with
  | nil => exact h.le
  | cons r rs ih => exact (Nat.le_add_right _ _).trans (ih h.2)

/-- The pieces say where they end. -/
theorem EndToEnd.unique {hi' : Nat} (h : EndToEnd lo rs hi) (h' : EndToEnd lo rs hi') :
    hi = hi' := by
  induction rs generalizing lo with
  | nil => exact h.symm.trans h'
  | cons r rs ih => exact ih h.2 h'.2

/-- One more piece at the end. -/
theorem EndToEnd.concat (h : EndToEnd lo rs hi) (n : Nat) :
    EndToEnd lo (rs ++ [(hi, n)]) (hi + n) := by
  induction rs generalizing lo with
  | nil =>
      obtain rfl : lo = hi := h
      exact ⟨rfl, rfl⟩
  | cons r rs ih => exact ⟨h.1, ih h.2⟩

theorem EndToEnd.subset (h : EndToEnd lo rs hi) (hr : r ∈ rs) : rangeSet r ⊆ Set.Ico lo hi := by
  induction rs generalizing lo with
  | nil => cases hr
  | cons s rs ih =>
      obtain ⟨rfl, hrest⟩ := h
      rcases List.mem_cons.1 hr with rfl | hr
      · exact Set.Ico_subset_Ico le_rfl hrest.le
      · exact (ih hrest hr).trans (Set.Ico_subset_Ico (Nat.le_add_right _ _) le_rfl)

/-- The pieces share no element. -/
theorem EndToEnd.disjoint (h : EndToEnd lo rs hi) :
    rs.Pairwise fun r s => Disjoint (rangeSet r) (rangeSet s) := by
  induction rs generalizing lo with
  | nil => exact List.Pairwise.nil
  | cons r rs ih =>
      obtain ⟨rfl, hrest⟩ := h
      refine List.Pairwise.cons ?_ (ih hrest)
      intro s hs
      apply Set.disjoint_left.2
      intro i hin hin'
      have hlater := hrest.subset hs hin'
      exact absurd hin.2 (Nat.not_lt.2 hlater.1)

/-- Together they are the interval. -/
theorem EndToEnd.iUnion (h : EndToEnd lo rs hi) : ⋃ r ∈ rs, rangeSet r = Set.Ico lo hi := by
  refine Set.Subset.antisymm (Set.iUnion₂_subset fun r hr => h.subset hr) ?_
  intro i hmem
  induction rs generalizing lo with
  | nil =>
      obtain rfl : lo = hi := h
      exact absurd (hmem.1.trans_lt hmem.2) (lt_irrefl _)
  | cons r rs ih =>
      obtain ⟨rfl, hrest⟩ := h
      simp only [List.mem_cons, Set.iUnion_iUnion_eq_or_left]
      by_cases hin : i < r.1 + r.2
      · exact Or.inl ⟨hmem.1, hin⟩
      · exact Or.inr (ih hrest ⟨Nat.not_lt.1 hin, hmem.2⟩)

end Ranges

end Munux
