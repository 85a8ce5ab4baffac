import Munux.Lib.ByteMem
import Munux.Lib.Word

/-!
# Checked access to byte buffers

Buffers are lists of bytes, and every access is checked: an index or a range that leaves the
buffer stops the machine. A buffer that was read from a memory is a window of it
(`ByteMem.slice`), and decoding a field of the window is decoding the memory at that place.
-/

namespace Munux

/-- `b[i]` -/
def index (b : List UInt8) (i : Nat) : Outcome UInt8 :=
  match b[i]? with
  | some v => .ok v
  | none => .panic

/-- `&b[lo..hi]` -/
def subrange (b : List UInt8) (lo hi : Nat) : Outcome (List UInt8) :=
  if lo ≤ hi ∧ hi ≤ b.length then .ok ((b.drop lo).take (hi - lo)) else .panic

/-- `b[i] = v` -/
def store (b : List UInt8) (i : Nat) (v : UInt8) : Outcome (List UInt8) :=
  if i < b.length then .ok (b.set i v) else .panic

/-- The little-endian 16-bit value at `off`. -/
def rdU16 (b : List UInt8) (off : Nat) : Outcome Nat := do
  let b0 ← index b off
  let b1 ← index b (← checkedAdd off 1)
  return b0.toNat + 2 ^ 8 * b1.toNat

/-- The little-endian 32-bit value at `off`. -/
def rdU32 (b : List UInt8) (off : Nat) : Outcome Nat := do
  let b0 ← index b off
  let b1 ← index b (← checkedAdd off 1)
  let b2 ← index b (← checkedAdd off 2)
  let b3 ← index b (← checkedAdd off 3)
  return b0.toNat + 2 ^ 8 * b1.toNat + 2 ^ 16 * b2.toNat + 2 ^ 24 * b3.toNat

/-- A field behind the end of the buffer stops the machine. -/
theorem rdU32_past {b : List UInt8} {off : Nat} (h : b.length ≤ off) : rdU32 b off = .panic := by
  have hindex : index b off = .panic := by
    rw [index, List.getElem?_eq_none h]
  rw [rdU32, hindex, Outcome.panic_bind]

/-- A buffer after `l` has been written to its start. -/
def overwrite (b l : List UInt8) : List UInt8 := l ++ b.drop l.length

@[simp] theorem overwrite_nil (b : List UInt8) : overwrite b [] = b := rfl

theorem length_overwrite {b l : List UInt8} (h : l.length ≤ b.length) :
    (overwrite b l).length = b.length := by
  rw [overwrite, List.length_append, List.length_drop, Nat.add_sub_cancel' h]

theorem take_overwrite (b l : List UInt8) : (overwrite b l).take l.length = l := List.take_left

/-- What is behind it is as it was. -/
theorem getElem?_overwrite {b l : List UInt8} {i : Nat} (h : l.length ≤ i) :
    (overwrite b l)[i]? = b[i]? := by
  rw [overwrite, List.getElem?_append_right h, List.getElem?_drop, Nat.add_sub_cancel' h]

/-- Writing goes on behind what has been written. -/
theorem store_overwrite {b l : List UInt8} (h : l.length < b.length) (v : UInt8) :
    store (overwrite b l) l.length v = .ok (overwrite b (l ++ [v])) := by
  have hlt : l.length < (overwrite b l).length := by
    rw [overwrite, List.length_append, List.length_drop]
    omega
  rw [store, if_pos hlt, overwrite, overwrite, List.set_append_right _ _ le_rfl, Nat.sub_self,
    List.drop_eq_getElem_cons h, List.set_cons_zero, List.append_assoc, List.length_append]
  rfl

namespace ByteMem

/-- The 16-bit value at `a`. -/
def load16 (m : ByteMem) (a : Nat) : Nat := (m a).toNat + 2 ^ 8 * (m (a + 1)).toNat

theorem load16_lt (m : ByteMem) (a : Nat) : load16 m a < 2 ^ 16 := by
  have h0 := (m a).toNat_lt
  have h1 := (m (a + 1)).toNat_lt
  unfold load16
  omega

/-- The `n` bytes at `a`. -/
def slice (m : ByteMem) (a n : Nat) : List UInt8 := (List.range' a n).map m

variable {m : ByteMem} {a n k i : Nat} {v : UInt8} {w : Nat}

@[simp] theorem length_slice (m : ByteMem) (a n : Nat) : (slice m a n).length = n := by
  simp [slice]

theorem slice_eq_map (m : ByteMem) (a n : Nat) :
    slice m a n = (List.range n).map fun i => m (a + i) := by
  rw [slice, List.range'_eq_map_range, List.map_map]
  rfl

theorem slice_append (m : ByteMem) (a n k : Nat) :
    slice m a n ++ slice m (a + n) k = slice m a (n + k) := by
  simp only [slice, ← List.map_append, List.range'_append_1]

theorem drop_slice (m : ByteMem) (a n k : Nat) :
    (slice m a n).drop k = slice m (a + k) (n - k) := by
  simp only [slice, ← List.map_drop, List.drop_range', Nat.mul_one]

theorem take_slice (m : ByteMem) (a : Nat) (h : k ≤ n) : (slice m a n).take k = slice m a k := by
  simp only [slice, ← List.map_take, List.take_range'_of_length_ge h]

theorem getElem?_slice (m : ByteMem) (a n i : Nat) :
    (slice m a n)[i]? = if i < n then some (m (a + i)) else none := by
  by_cases h : i < n
  · simp [slice, h]
  · simp [slice, h]

theorem index_slice : index (slice m a n) i = .ok v ↔ i < n ∧ m (a + i) = v := by
  unfold index
  rw [getElem?_slice]
  by_cases h : i < n
  · simp [h]
  · simp [h]

theorem subrange_slice {lo hi : Nat} {b : List UInt8} :
    subrange (slice m a n) lo hi = .ok b ↔ (lo ≤ hi ∧ hi ≤ n) ∧ slice m (a + lo) (hi - lo) = b := by
  unfold subrange
  rw [length_slice]
  by_cases h : lo ≤ hi ∧ hi ≤ n
  · rw [if_pos h, drop_slice, take_slice _ _ (by omega), Outcome.ok.injEq]
    simp [h]
  · simp [h]

/-- Decoding a window decodes the memory, as long as the field is inside. -/
theorem rdU16_slice (hn : n ≤ wordCount) :
    rdU16 (slice m a n) i = .ok w ↔ i + 1 < n ∧ load16 m (a + i) = w := by
  simp only [rdU16, Outcome.bind_eq_ok, index_slice, checkedAdd_eq_ok, Outcome.pure_eq,
    Outcome.ok.injEq]
  constructor
  · rintro ⟨_, ⟨_, rfl⟩, _, ⟨rfl, _⟩, _, ⟨h, rfl⟩, rfl⟩
    exact ⟨h, rfl⟩
  · rintro ⟨h, rfl⟩
    exact ⟨_, ⟨by omega, rfl⟩, _, ⟨rfl, by omega⟩, _, ⟨h, rfl⟩, rfl⟩

theorem rdU32_slice (hn : n ≤ wordCount) :
    rdU32 (slice m a n) i = .ok w ↔ i + 3 < n ∧ load32 m (a + i) = w := by
  simp only [rdU32, Outcome.bind_eq_ok, index_slice, checkedAdd_eq_ok, Outcome.pure_eq,
    Outcome.ok.injEq]
  constructor
  · rintro ⟨_, ⟨_, rfl⟩, _, ⟨rfl, _⟩, _, ⟨_, rfl⟩, _, ⟨rfl, _⟩, _, ⟨_, rfl⟩, _, ⟨rfl, _⟩, _,
      ⟨h, rfl⟩, rfl⟩
    exact ⟨h, rfl⟩
  · rintro ⟨h, rfl⟩
    exact ⟨_, ⟨by omega, rfl⟩, _, ⟨rfl, by omega⟩, _, ⟨by omega, rfl⟩, _, ⟨rfl, by omega⟩, _,
      ⟨by omega, rfl⟩, _, ⟨rfl, by omega⟩, _, ⟨h, rfl⟩, rfl⟩

/-! ## Encoding -/

/-- A 16-bit value, low byte first. -/
def le16 (v : Nat) : List UInt8 := [UInt8.ofNat v, UInt8.ofNat (v / 2 ^ 8)]

/-- A 32-bit value, low byte first. -/
def le32 (v : Nat) : List UInt8 :=
  [UInt8.ofNat v, UInt8.ofNat (v / 2 ^ 8), UInt8.ofNat (v / 2 ^ 16), UInt8.ofNat (v / 2 ^ 24)]

@[simp] theorem length_le16 (v : Nat) : (le16 v).length = 2 := rfl

@[simp] theorem length_le32 (v : Nat) : (le32 v).length = 4 := rfl

/-- Two lists one after another are at two places. -/
theorem slice_eq_append {x y : List UInt8} (h : slice m a n = x ++ y) :
    slice m a x.length = x ∧ slice m (a + x.length) (n - x.length) = y := by
  have hlen : x.length ≤ n := by
    have hlen := congrArg List.length h
    rw [length_slice, List.length_append] at hlen
    omega
  rw [← Nat.add_sub_cancel' hlen, ← slice_append] at h
  exact List.append_inj h (length_slice ..)

/-- Decoding inverts encoding. -/
theorem load16_of_slice (hw : w < 2 ^ 16) (h : slice m a 2 = le16 w) : load16 m a = w := by
  simp only [slice, le16, List.range'_succ, List.map_cons, List.cons.injEq] at h
  obtain ⟨h0, h1, -⟩ := h
  simp only [load16, h0, h1, UInt8.toNat_ofNat']
  omega

theorem load32_of_slice (hw : w < 2 ^ 32) (h : slice m a 4 = le32 w) : load32 m a = w := by
  simp only [slice, le32, List.range'_succ, List.map_cons, List.cons.injEq] at h
  obtain ⟨h0, h1, h2, h3, -⟩ := h
  rw [Nat.add_assoc, Nat.add_assoc] at h3
  rw [Nat.add_assoc] at h2
  simp only [load32, h0, h1, h2, h3, UInt8.toNat_ofNat']
  omega

/-- Memory after `l` has been written at `a`. -/
def blit (m : ByteMem) (a : Nat) (l : List UInt8) : ByteMem := fun i =>
  if a ≤ i then (l[i - a]?).getD (m i) else m i

theorem blit_of_outside {l : List UInt8} (h : i < a ∨ a + l.length ≤ i) : blit m a l i = m i := by
  rw [blit]
  split_ifs with hle
  · rw [List.getElem?_eq_none (by omega), Option.getD_none]
  · rfl

theorem slice_blit (m : ByteMem) (a : Nat) (l : List UInt8) : slice (blit m a l) a l.length = l := by
  refine List.ext_getElem? fun i => ?_
  rw [getElem?_slice]
  split_ifs with hi
  · rw [blit, if_pos (Nat.le_add_right a i), Nat.add_sub_cancel_left, List.getElem?_eq_getElem hi]
    rfl
  · rw [List.getElem?_eq_none (by omega)]

/-- Writing back what is there already. -/
theorem blit_append_drop (m : ByteMem) (a k : Nat) (l : List UInt8) :
    blit m a (l ++ (slice m a k).drop l.length) = blit m a l := by
  funext i
  simp only [blit]
  split_ifs with hle
  · by_cases hi : i - a < l.length
    · rw [List.getElem?_append_left hi]
    · rw [List.getElem?_append_right (by omega), List.getElem?_drop, getElem?_slice,
        List.getElem?_eq_none (by omega)]
      split_ifs
      · rw [show a + (l.length + (i - a - l.length)) = i by omega]
        rfl
      · rfl
  · rfl

/-- A buffer depends only on its own bytes. -/
theorem slice_congr {m' : ByteMem} (h : m.Agree m' a (a + n)) : slice m' a n = slice m a n := by
  simp only [slice]
  refine List.map_congr_left fun i hi => ?_
  obtain ⟨hlo, hhi⟩ := List.mem_range'_1.1 hi
  exact h i hlo hhi

theorem blit_congr {m' : ByteMem} {l : List UInt8} (h : m i = m' i) :
    blit m a l i = blit m' a l i := by
  simp only [blit, h]

end ByteMem

/-! ## Byte arrays -/

theorem toList_loop (b : ByteArray) (i : Nat) (r : List UInt8) :
    ByteArray.toList.loop b i r = r.reverse ++ b.data.toList.drop i := by
  fun_induction ByteArray.toList.loop b i r with
  | case1 i r hlt ih =>
      have hi : i < b.data.toList.length := hlt
      have hget : b.get! i = b.data.toList[i] := getElem!_pos b.data i hlt
      rw [ih, List.drop_eq_getElem_cons hi, hget, List.reverse_cons, List.append_assoc,
        List.singleton_append]
  | case2 i r hge =>
      have hdrop : b.data.toList.drop i = [] := List.drop_eq_nil_of_le (Nat.le_of_not_lt hge)
      rw [hdrop, List.append_nil]

/-- The loop of `ByteArray.toList` lists the bytes. -/
theorem toList_data (b : ByteArray) : b.toList = b.data.toList := toList_loop b 0 []

/-! ## Runs of equal width -/

section Chunks

variable {α : Type}

/-- Runs of `width` places, the last one cut off at `size`, one after another. -/
theorem flatMap_chunks (f : Nat → Nat → α) (size width count : Nat) :
    ((List.range count).flatMap fun k =>
      (List.range (min (size - k * width) width)).map (f k)) =
      (List.range (min size (count * width))).map fun i => f (i / width) (i % width) := by
  induction count with
  | zero => simp
  | succ count ih =>
      have hsplit : min size ((count + 1) * width) =
          min size (count * width) + min (size - count * width) width := by
        rw [Nat.succ_mul]
        omega
      rw [List.range_succ, List.flatMap_append, ih, hsplit, List.range_add, List.map_append,
        List.flatMap_singleton, List.map_map]
      refine congrArg _ (List.map_congr_left fun i hi => ?_)
      rw [List.mem_range] at hi
      have hlt : i < width := by omega
      have hfull : min size (count * width) = count * width := by omega
      rw [Function.comp_apply, hfull, Nat.mul_comm, Nat.mul_add_div (by omega),
        Nat.div_eq_of_lt hlt, Nat.add_zero, Nat.mul_add_mod, Nat.mod_eq_of_lt hlt]

/-- All of them whole. -/
theorem flatMap_grid (f : Nat → Nat → α) (width count : Nat) :
    ((List.range count).flatMap fun k => (List.range width).map (f k)) =
      (List.range (count * width)).map fun i => f (i / width) (i % width) := by
  rw [← Nat.min_self (count * width), ← flatMap_chunks]
  refine List.flatMap_congr fun k hk => ?_
  have hle : (k + 1) * width ≤ count * width :=
    Nat.mul_le_mul_right width (List.mem_range.1 hk)
  rw [Nat.succ_mul] at hle
  rw [Nat.min_eq_right (by omega)]

/-- The runs from `a` to `b` add nothing exactly when they are empty. -/
theorem flatMap_range_iff {g : Nat → List α} {a b : Nat} (h : a ≤ b) :
    (List.range b).flatMap g = (List.range a).flatMap g ↔ ∀ n, a ≤ n → n < b → g n = [] := by
  obtain ⟨d, rfl⟩ := Nat.exists_eq_add_of_le h
  rw [List.range_add, List.flatMap_append, List.append_right_eq_self, List.flatMap_map,
    List.flatMap_eq_nil_iff]
  constructor
  · intro hnil n hn hn'
    have hrun := hnil (n - a) (List.mem_range.2 (by omega))
    rwa [Nat.add_sub_cancel' hn] at hrun
  · intro hnil i hi
    exact hnil (a + i) (Nat.le_add_right a i) (Nat.add_lt_add_left (List.mem_range.1 hi) a)

end Chunks

end Munux
