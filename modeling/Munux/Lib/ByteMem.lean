import Mathlib.Algebra.Order.Ring.Nat
import Mathlib.Data.Fintype.Basic
import Mathlib.Data.Nat.Bitwise

/-!
# Byte-addressed memory

Memory is a total map from addresses to bytes. A 32-bit word is four bytes, least significant
first. Everything a proof needs to know about words is three facts: a word read back is the word
written, a word elsewhere is kept, and a word depends only on its own four bytes.
-/

namespace Munux

/-- Memory: one byte per address. -/
abbrev ByteMem := Nat → UInt8

namespace ByteMem

/-- The 32-bit word at `a`. -/
def load32 (m : ByteMem) (a : Nat) : Nat :=
  (m a).toNat + 2 ^ 8 * (m (a + 1)).toNat + 2 ^ 16 * (m (a + 2)).toNat + 2 ^ 24 * (m (a + 3)).toNat

/-- Write the low 32 bits of `v` at `a`. -/
def store32 (m : ByteMem) (a v : Nat) : ByteMem := fun i =>
  if i = a then UInt8.ofNat v
  else if i = a + 1 then UInt8.ofNat (v / 2 ^ 8)
  else if i = a + 2 then UInt8.ofNat (v / 2 ^ 16)
  else if i = a + 3 then UInt8.ofNat (v / 2 ^ 24)
  else m i

/-- Two memories hold the same bytes in `[lo, hi)`. -/
def Agree (m m' : ByteMem) (lo hi : Nat) : Prop := ∀ i, lo ≤ i → i < hi → m' i = m i

/-- Two memories differ at most in `[lo, hi)`. -/
def SameOutside (m m' : ByteMem) (lo hi : Nat) : Prop := ∀ i, i < lo ∨ hi ≤ i → m' i = m i

variable {m m' m'' : ByteMem} {a b v lo hi lo' hi' : Nat}

theorem load32_lt (m : ByteMem) (a : Nat) : load32 m a < 2 ^ 32 := by
  have h0 := (m a).toNat_lt
  have h1 := (m (a + 1)).toNat_lt
  have h2 := (m (a + 2)).toNat_lt
  have h3 := (m (a + 3)).toNat_lt
  unfold load32
  omega

theorem load32_store32_mod (m : ByteMem) (a v : Nat) :
    load32 (store32 m a v) a = v % 2 ^ 32 := by
  simp only [load32, store32, ↓reduceIte, Nat.add_eq_left, Nat.add_left_cancel_iff,
    Nat.reduceEqDiff, Nat.succ_ne_zero, UInt8.toNat_ofNat']
  omega

/-- **A word read back is the word written.** -/
theorem load32_store32 (m : ByteMem) {v : Nat} (a : Nat) (hv : v < 2 ^ 32) :
    load32 (store32 m a v) a = v := by
  rw [load32_store32_mod, Nat.mod_eq_of_lt hv]

/-- A word depends only on its own four bytes. -/
theorem load32_congr (h : Agree m m' a (a + 4)) : load32 m' a = load32 m a := by
  unfold load32
  rw [h a (by omega) (by omega), h (a + 1) (by omega) (by omega), h (a + 2) (by omega) (by omega),
    h (a + 3) (by omega) (by omega)]

theorem store32_agree (m : ByteMem) (a v : Nat) (h : hi ≤ a ∨ a + 4 ≤ lo) :
    Agree m (store32 m a v) lo hi := by
  intro i hlo hhi
  have h0 : i ≠ a := by omega
  have h1 : i ≠ a + 1 := by omega
  have h2 : i ≠ a + 2 := by omega
  have h3 : i ≠ a + 3 := by omega
  simp [store32, h0, h1, h2, h3]

/-- **A word elsewhere is kept.** -/
theorem load32_store32_of_disjoint (m : ByteMem) (v : Nat) (h : b + 4 ≤ a ∨ a + 4 ≤ b) :
    load32 (store32 m a v) b = load32 m b :=
  load32_congr (store32_agree m a v h)

theorem Agree.refl (m : ByteMem) (lo hi : Nat) : Agree m m lo hi := fun _ _ _ => rfl

theorem Agree.trans (h : Agree m m' lo hi) (h' : Agree m' m'' lo hi) : Agree m m'' lo hi :=
  fun i hlo hhi => (h' i hlo hhi).trans (h i hlo hhi)

theorem store32_sameOutside (m : ByteMem) (a v : Nat) (hlo : lo ≤ a) (hhi : a + 4 ≤ hi) :
    SameOutside m (store32 m a v) lo hi := by
  intro i hi'
  have hag : Agree m (store32 m a v) i (i + 1) := store32_agree m a v (by omega)
  exact hag i (by omega) (by omega)

theorem SameOutside.trans (h : SameOutside m m' lo hi) (h' : SameOutside m' m'' lo hi) :
    SameOutside m m'' lo hi :=
  fun i hi' => (h' i hi').trans (h i hi')

theorem SameOutside.mono (h : SameOutside m m' lo hi) (hlo : lo' ≤ lo) (hhi : hi ≤ hi') :
    SameOutside m m' lo' hi' :=
  fun i hi' => h i (by omega)

theorem SameOutside.agree (h : SameOutside m m' lo hi) (hd : hi' ≤ lo ∨ hi ≤ lo') :
    Agree m m' lo' hi' :=
  fun i hi₁ hi₂ => h i (by omega)

theorem Agree.mono (h : Agree m m' lo hi) (hlo : lo ≤ lo') (hhi : hi' ≤ hi) :
    Agree m m' lo' hi' :=
  fun i hi₁ hi₂ => h i (by omega) (by omega)

end ByteMem

end Munux
