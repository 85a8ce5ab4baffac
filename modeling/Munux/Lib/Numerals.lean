import Mathlib.Data.Nat.Digits.Lemmas

/-!
# Positional numerals

Writing a number in a base divides it again and again and turns the digits around; reading it
multiplies and adds from the left. The two are inverse to each other (`readFrom_numeral`), and what
has been read of a numeral is never more than the whole (`le_readFrom`).
-/

namespace Munux

/-- The digits of `n`, the most significant one first; at least one. -/
def numeral (b n : Nat) : List Nat := if n = 0 then [0] else (Nat.digits b n).reverse

/-- Read some more digits after `acc`. -/
def readFrom (b acc : Nat) (ds : List Nat) : Nat := ds.foldl (fun n d => n * b + d) acc

variable {b n acc d : Nat} {ds : List Nat}

@[simp] theorem readFrom_nil (b acc : Nat) : readFrom b acc [] = acc := rfl

@[simp] theorem readFrom_cons (b acc d : Nat) (ds : List Nat) :
    readFrom b acc (d :: ds) = readFrom b (acc * b + d) ds := rfl

/-- Reading never makes a number less. -/
theorem le_readFrom (hb : 0 < b) (acc : Nat) (ds : List Nat) : acc ≤ readFrom b acc ds := by
  induction ds generalizing acc with
  | nil => exact le_rfl
  | cons d ds ih =>
      have hmul : acc ≤ acc * b := Nat.le_mul_of_pos_right acc hb
      exact (hmul.trans (Nat.le_add_right _ d)).trans (ih (acc * b + d))

/-- **Reading a numeral gives the number.** -/
theorem readFrom_numeral (b n : Nat) : readFrom b 0 (numeral b n) = n := by
  unfold readFrom numeral
  by_cases hn : n = 0
  · rw [if_pos hn, hn]
    simp
  · rw [if_neg hn, List.foldl_reverse]
    have hhorner := Nat.ofDigits_eq_foldr b (Nat.digits b n)
    rw [Nat.ofDigits_digits] at hhorner
    simpa [Nat.mul_comm, Nat.add_comm] using hhorner.symm

theorem numeral_ne_nil (b n : Nat) : numeral b n ≠ [] := by
  unfold numeral
  by_cases hn : n = 0
  · simp [hn]
  · rw [if_neg hn, Ne, List.reverse_eq_nil_iff]
    exact Nat.digits_ne_nil_iff_ne_zero.2 hn

/-- The digits are digits. -/
theorem lt_of_mem_numeral (hb : 1 < b) (hd : d ∈ numeral b n) : d < b := by
  unfold numeral at hd
  split_ifs at hd
  · rw [List.mem_singleton.1 hd]
    omega
  · exact Nat.digits_lt_base hb (List.mem_reverse.1 hd)

/-- There is no leading zero. -/
theorem head?_numeral (hn : n ≠ 0) : (numeral b n).head? ≠ some 0 := by
  rw [numeral, if_neg hn, List.head?_reverse]
  intro hlast
  have hne := Nat.digits_ne_nil_iff_ne_zero (b := b).2 hn
  rw [List.getLast?_eq_getLast_of_ne_nil hne, Option.some.injEq] at hlast
  exact Nat.getLast_digit_ne_zero b hn hlast

/-- A number below `b ^ k` has at most `k` digits. -/
theorem length_numeral_le {k : Nat} (hb : 1 < b) (hk : 0 < k) (hn : n < b ^ k) :
    (numeral b n).length ≤ k := by
  unfold numeral
  split_ifs
  · exact hk
  · rw [List.length_reverse]
    exact (Nat.digits_length_le_iff hb n).2 hn

end Munux
