import Munux.Lib.Outcome

/-!
# 32-bit words

The arithmetic of a 32-bit target. Where the build checks for overflow, an operation returns its
exact value or panics; where it does not, the value is reduced modulo `wordCount`.
-/

namespace Munux

/-- The number of 32-bit values, and of byte addresses. -/
abbrev wordCount : Nat := 2 ^ 32

/-- The exact value `n`, if it fits in 32 bits. -/
def checked (n : Nat) : Outcome Nat := if n < wordCount then .ok n else .panic

def checkedAdd (a b : Nat) : Outcome Nat := checked (a + b)

def checkedMul (a b : Nat) : Outcome Nat := checked (a * b)

def checkedSub (a b : Nat) : Outcome Nat := if b ≤ a then .ok (a - b) else .panic

/-- Division and remainder stop on a zero divisor. -/
def checkedDiv (a b : Nat) : Outcome Nat := if b = 0 then .panic else .ok (a / b)

def checkedMod (a b : Nat) : Outcome Nat := if b = 0 then .panic else .ok (a % b)

/-- The quotient rounded up. -/
def checkedDivCeil (a b : Nat) : Outcome Nat := if b = 0 then .panic else .ok ((a + b - 1) / b)

/-- A left shift loses the bits that leave the word, and stops on a distance of 32 or more. -/
def checkedShl (a k : Nat) : Outcome Nat :=
  if k < 32 then .ok (a * 2 ^ k % wordCount) else .panic

theorem checked_eq_ok {n v : Nat} : checked n = .ok v ↔ n = v ∧ n < wordCount := by
  unfold checked
  split_ifs with h
  · simp [h]
  · simp [h]

theorem checked_ne_diverge (n : Nat) : checked n ≠ .diverge := by
  unfold checked
  split_ifs <;> simp

theorem checkedAdd_eq_ok {a b v : Nat} : checkedAdd a b = .ok v ↔ a + b = v ∧ a + b < wordCount :=
  checked_eq_ok

theorem checkedMul_eq_ok {a b v : Nat} : checkedMul a b = .ok v ↔ a * b = v ∧ a * b < wordCount :=
  checked_eq_ok

theorem checkedSub_eq_ok {a b v : Nat} : checkedSub a b = .ok v ↔ a - b = v ∧ b ≤ a := by
  unfold checkedSub
  split_ifs with h
  · simp [h]
  · simp [h]

theorem checkedDiv_eq_ok {a b v : Nat} : checkedDiv a b = .ok v ↔ a / b = v ∧ b ≠ 0 := by
  unfold checkedDiv
  split_ifs with h
  · simp [h]
  · simp [h]

theorem checkedMod_eq_ok {a b v : Nat} : checkedMod a b = .ok v ↔ a % b = v ∧ b ≠ 0 := by
  unfold checkedMod
  split_ifs with h
  · simp [h]
  · simp [h]

theorem checkedDivCeil_eq_ok {a b v : Nat} :
    checkedDivCeil a b = .ok v ↔ (a + b - 1) / b = v ∧ b ≠ 0 := by
  unfold checkedDivCeil
  split_ifs with h
  · simp [h]
  · simp [h]

theorem checkedSub_ne_diverge (a b : Nat) : checkedSub a b ≠ .diverge := by
  unfold checkedSub
  split_ifs <;> simp

/-! ## Masks -/

/-- Clearing the low `k` bits of a word rounds it down to a multiple of `2 ^ k`. -/
theorem and_mask {n k : Nat} (hn : n < wordCount) (hk : k < 32) :
    n &&& (wordCount - 1 - (2 ^ k - 1)) = n / 2 ^ k * 2 ^ k := by
  have hpow : 2 ^ k ≤ 2 ^ 32 := Nat.pow_le_pow_right (by decide) (by omega)
  have hpos : 0 < 2 ^ k := Nat.two_pow_pos k
  have hmask : wordCount - 1 - (2 ^ k - 1) = (2 ^ (32 - k) - 1) <<< k := by
    rw [Nat.shiftLeft_eq, Nat.sub_mul, ← Nat.pow_add, Nat.sub_add_cancel (by omega)]
    simp only [wordCount]
    omega
  rw [hmask, ← Nat.shiftRight_eq_div_pow, ← Nat.shiftLeft_eq]
  apply Nat.eq_of_testBit_eq
  intro j
  simp only [Nat.testBit_and, Nat.testBit_shiftLeft, Nat.testBit_two_pow_sub_one,
    Nat.testBit_shiftRight]
  by_cases hjk : k ≤ j
  · rw [Nat.add_sub_cancel' hjk]
    by_cases hj : j < 32
    · simp [hjk, show j - k < 32 - k by omega]
    · have : n.testBit j = false := Nat.testBit_lt_two_pow (Nat.lt_of_lt_of_le hn
        (Nat.pow_le_pow_right (by decide) (by omega)))
      simp [this]
  · simp [hjk]

end Munux
