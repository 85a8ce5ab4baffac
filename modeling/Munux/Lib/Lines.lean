import Mathlib.Data.List.Induction
import Mathlib.Tactic.SplitIfs

/-!
# Text broken into lines

A line ends at a newline, or when it is full: after `width` characters. Breaking a text puts a
newline after each full line (`broken`), and the lines are what is between the newlines (`lines`).

The last line is the one that the next character goes to (`lines_newline`, `lines_char`,
`lines_full`). It is never full itself (`exists_lines`).
-/

namespace Munux

variable {α : Type} [DecidableEq α] (newline : α) (width : Nat)

/-- A text with a newline after each full line. The line begins with `column` characters. -/
def broken : Nat → List α → List α
  | _, [] => []
  | column, c :: text =>
      if c = newline then c :: broken 0 text
      else if column + 1 = width then c :: newline :: broken 0 text
      else c :: broken (column + 1) text

/-- The lines of a text. -/
def lines (text : List α) : List (List α) := (broken newline width 0 text).splitOn newline

/-- Where the text ends, in its last line. -/
def endColumn : Nat → List α → Nat
  | column, [] => column
  | column, c :: text =>
      if c = newline then endColumn 0 text
      else if column + 1 = width then endColumn 0 text
      else endColumn (column + 1) text

variable {newline width} {c : α} {text : List α} {init : List (List α)} {last : List α}

theorem broken_append (column : Nat) (text rest : List α) :
    broken newline width column (text ++ rest) =
      broken newline width column text ++
        broken newline width (endColumn newline width column text) rest := by
  induction text generalizing column with
  | nil => rfl
  | cons c text ih =>
      rw [List.cons_append]
      simp only [broken, endColumn]
      split_ifs
      · rw [ih, List.cons_append]
      · rw [ih, List.cons_append, List.cons_append]
      · rw [ih, List.cons_append]

theorem endColumn_append (column : Nat) (text rest : List α) :
    endColumn newline width column (text ++ rest) =
      endColumn newline width (endColumn newline width column text) rest := by
  induction text generalizing column with
  | nil => rfl
  | cons c text ih =>
      rw [List.cons_append]
      simp only [endColumn]
      split_ifs
      · exact ih 0
      · exact ih 0
      · exact ih (column + 1)

/-- A last character that is no separator goes to the last piece. -/
theorem exists_splitOn (hc : c ≠ newline) (text : List α) :
    ∃ init last, text.splitOn newline = init ++ [last] ∧
      (text ++ [c]).splitOn newline = init ++ [last ++ [c]] := by
  induction text with
  | nil =>
      refine ⟨[], [], List.splitOn_nil newline, ?_⟩
      rw [List.nil_append, List.splitOn_eq_singleton (by simpa using hc.symm)]
      rfl
  | cons x text ih =>
      obtain ⟨init, last, h, h'⟩ := ih
      rw [List.cons_append, List.splitOn_cons_eq_if_modifyHead, List.splitOn_cons_eq_if_modifyHead,
        h, h']
      split_ifs with hx
      · exact ⟨[] :: init, last, rfl, rfl⟩
      · cases init with
        | nil => exact ⟨[], x :: last, rfl, rfl⟩
        | cons l init => exact ⟨(x :: l) :: init, last, rfl, rfl⟩

theorem splitOn_concat (hc : c ≠ newline) (h : text.splitOn newline = init ++ [last]) :
    (text ++ [c]).splitOn newline = init ++ [last ++ [c]] := by
  obtain ⟨init', last', h₁, h₂⟩ := exists_splitOn hc text
  obtain ⟨rfl, hlast⟩ := List.append_inj' (h₁.symm.trans h) rfl
  obtain rfl := List.singleton_inj.1 hlast
  exact h₂

theorem splitOn_concat_newline (text : List α) :
    (text ++ [newline]).splitOn newline = text.splitOn newline ++ [[]] := by
  rw [List.splitOn_append_cons_self, List.splitOn_nil]

/-! ## One character more -/

theorem lines_newline (text : List α) :
    lines newline width (text ++ [newline]) = lines newline width text ++ [[]] := by
  rw [lines, broken_append]
  simp only [broken, if_pos]
  exact splitOn_concat_newline _

theorem lines_char (hc : c ≠ newline) (h : lines newline width text = init ++ [last])
    (hend : endColumn newline width 0 text + 1 ≠ width) :
    lines newline width (text ++ [c]) = init ++ [last ++ [c]] := by
  rw [lines, broken_append]
  simp only [broken, if_neg hc, if_neg hend]
  exact splitOn_concat hc h

theorem lines_full (hc : c ≠ newline) (h : lines newline width text = init ++ [last])
    (hend : endColumn newline width 0 text + 1 = width) :
    lines newline width (text ++ [c]) = init ++ [last ++ [c]] ++ [[]] := by
  rw [lines, broken_append]
  simp only [broken, if_neg hc, if_pos hend]
  rw [List.append_cons, splitOn_concat_newline, splitOn_concat hc h]

/-- The last line is not full, and the text ends in it. -/
theorem exists_lines (hw : 0 < width) (newline : α) (text : List α) :
    ∃ init last, lines newline width text = init ++ [last] ∧ last.length < width ∧
      endColumn newline width 0 text = last.length := by
  induction text using List.reverseRecOn with
  | nil => exact ⟨[], [], List.splitOn_nil newline, hw, rfl⟩
  | append_singleton text c ih =>
      obtain ⟨init, last, hlines, hlt, hend⟩ := ih
      rw [endColumn_append, hend]
      simp only [endColumn]
      split_ifs with hc hfull
      · subst hc
        exact ⟨init ++ [last], [], by rw [lines_newline, hlines], hw, rfl⟩
      · exact ⟨init ++ [last ++ [c]], [], lines_full hc hlines (by rw [hend, hfull]), hw, rfl⟩
      · refine ⟨init, last ++ [c], lines_char hc hlines (by rwa [hend]), ?_, ?_⟩
        · rw [List.length_append, List.length_singleton]
          omega
        · rw [List.length_append, List.length_singleton]

theorem forall_mem_drop_concat {β : Type} {P : β → Prop} {init : List β} {last : β} {n : Nat} :
    (∀ b ∈ (init ++ [last]).drop n, P b) ↔
      (∀ b ∈ init.drop n, P b) ∧ (n ≤ init.length → P last) := by
  rw [List.drop_append, List.forall_mem_append]
  by_cases hn : n ≤ init.length
  · rw [Nat.sub_eq_zero_of_le hn, List.drop_zero, List.forall_mem_singleton]
    exact and_congr_right fun _ => (imp_iff_right hn).symm
  · have hnil : [last].drop (n - init.length) = [] :=
      List.drop_eq_nil_of_le (by rw [List.length_singleton]; omega)
    rw [hnil]
    exact and_congr_right fun _ => iff_of_true (List.forall_mem_nil P) fun h => absurd h hn

end Munux
