import Mathlib.Logic.Function.Basic
import Munux.Lib.Outcome
import Munux.Lib.Slice

/-!
# Strings and blocks of memory

`kernel/lib/string.c` and `kernel/memory/utils.c`: loops over memory, byte by byte and upwards, that
look at nothing but the bytes. Where source and destination overlap the loops do not do what their
names say; here is what they do.

**Main results.**

* `memcpy_apply`: a copy to higher addresses that overlaps repeats the first bytes of the source,
  with the distance as the period. Every other copy is a copy.
* `compare_order`: the sign of the result of `strcmp`, `strncmp` and `memcmp` is the lexicographic
  order of the bytes, taken as unsigned.
* `strcat_returns_iff`: `strcat` runs for ever exactly when it writes over the end of the source
  before it gets there, and appends otherwise.
-/

namespace Munux.Libk

open ByteMem

/-! ## The code -/

/-- `memset` -/
def memset (m : ByteMem) (dest : Nat) (val : Int) (len : Nat) : ByteMem :=
  (List.range len).foldl (fun m i => Function.update m (dest + i) (UInt8.ofInt val)) m

/-- `memcpy` -/
def memcpy (m : ByteMem) (dest src len : Nat) : ByteMem :=
  (List.range len).foldl (fun m i => Function.update m (dest + i) (m (src + i))) m

/-- The loop of `memcmp`, for `n` more bytes. -/
def memcmp (m : ByteMem) (a b : Nat) : (n : Nat) → Int
  | 0 => 0
  | n + 1 => if m a ≠ m b then (m a).toNat - (m b).toNat else memcmp m (a + 1) (b + 1) n

/-- `strcmp` -/
def strcmp (m : ByteMem) : (fuel : Nat) → (a b : Nat) → Outcome Int
  | 0, _, _ => .diverge
  | fuel + 1, a, b =>
      if m a ≠ 0 ∧ m a = m b then strcmp m fuel (a + 1) (b + 1)
      else .ok ((m a).toNat - (m b).toNat)

/-- The loop of `strncmp`, for `n` more bytes. -/
def strncmp (m : ByteMem) (a b : Nat) : (n : Nat) → Int
  | 0 => 0
  | n + 1 =>
      if m a ≠ m b then (m a).toNat - (m b).toNat
      else if m a = 0 then 0
      else strncmp m (a + 1) (b + 1) n

/-- The loop of `strcpy`. -/
def strcpy : (fuel : Nat) → ByteMem → (d s : Nat) → Outcome ByteMem
  | 0, _, _, _ => .diverge
  | fuel + 1, m, d, s =>
      let c := m s
      let m := Function.update m d c
      if c ≠ 0 then strcpy fuel m (d + 1) (s + 1) else .ok m

/-- `strncpy`, for `n` more bytes. Behind the end of the string its second loop writes zeros. -/
def strncpy (m : ByteMem) (dest src : Nat) : (n : Nat) → ByteMem
  | 0 => m
  | n + 1 =>
      if m src ≠ 0 then strncpy (Function.update m dest (m src)) (dest + 1) (src + 1) n
      else memset m dest 0 (n + 1)

/-- The first loop of `strcat`: the end of the string at `d`. -/
def strEnd (m : ByteMem) : (fuel : Nat) → (d : Nat) → Outcome Nat
  | 0, _ => .diverge
  | fuel + 1, d => if m d ≠ 0 then strEnd m fuel (d + 1) else .ok d

/-- `strcat` -/
def strcat (fuel : Nat) (m : ByteMem) (dest src : Nat) : Outcome ByteMem := do
  let d ← strEnd m fuel dest
  strcpy fuel m d src

/-- `strlen` -/
def strlen (m : ByteMem) (fuel str : Nat) : Outcome Nat := do
  let stop ← strEnd m fuel str
  return stop - str

/-- `strchr`: the null pointer is `none`. -/
def strchr (m : ByteMem) (c : UInt8) : (fuel : Nat) → (s : Nat) → Outcome (Option Nat)
  | 0, _ => .diverge
  | fuel + 1, s =>
      if m s = c then .ok (some s)
      else if m s = 0 then .ok none
      else strchr m c fuel (s + 1)

/-- The string `s` is stored at `a`, with its terminator. -/
structure StrAt (m : ByteMem) (a : Nat) (s : List UInt8) : Prop where
  chars : slice m a s.length = s
  noNul : 0 ∉ s
  nul : m (a + s.length) = 0

theorem slice_succ (m : ByteMem) (a n : Nat) : slice m a (n + 1) = m a :: slice m (a + 1) n := by
  rw [slice, List.range'_succ, List.map_cons]
  rfl

/-! ## Blocks -/

section Blocks

variable {m : ByteMem} {dest src len n i : Nat}

theorem memset_succ (m : ByteMem) (dest : Nat) (val : Int) (len : Nat) :
    memset m dest val (len + 1) =
      Function.update (memset m dest val len) (dest + len) (UInt8.ofInt val) := by
  rw [memset, List.range_succ, List.foldl_append]
  rfl

theorem memcpy_succ (m : ByteMem) (dest src len : Nat) :
    memcpy m dest src (len + 1) =
      Function.update (memcpy m dest src len) (dest + len) (memcpy m dest src len (src + len)) := by
  rw [memcpy, List.range_succ, List.foldl_append]
  rfl

/-- A block that is written one byte after another, upwards. -/
theorem update_blit (m : ByteMem) (dest : Nat) (l : List UInt8) (v : UInt8) :
    Function.update (blit m dest l) (dest + l.length) v = blit m dest (l ++ [v]) := by
  funext i
  by_cases hi : i = dest + l.length
  · simp [hi, blit]
  · rw [Function.update_of_ne hi, blit, blit]
    split_ifs with hle
    · by_cases hlt : i - dest < l.length
      · rw [List.getElem?_append_left hlt]
      · rw [List.getElem?_eq_none (by omega), List.getElem?_eq_none (by simp; omega)]
    · rfl

theorem memset_eq (m : ByteMem) (dest : Nat) (val : Int) (len : Nat) :
    memset m dest val len = blit m dest (List.replicate len (UInt8.ofInt val)) := by
  induction len with
  | zero =>
      funext i
      simp [memset, blit]
  | succ len ih =>
      have hblit := update_blit m dest (List.replicate len (UInt8.ofInt val))
        (UInt8.ofInt val)
      rw [List.length_replicate, ← List.replicate_succ'] at hblit
      rw [memset_succ, ih, hblit]

/-- Blocks that do not overlap, or overlap the other way, are copied: no byte is written before it is
read. -/
theorem memcpy_eq_blit (h : dest ≤ src ∨ src + len ≤ dest) :
    memcpy m dest src len = blit m dest (slice m src len) := by
  induction len with
  | zero =>
      funext i
      simp [memcpy, blit]
  | succ len ih =>
      have hread : memcpy m dest src len (src + len) = m (src + len) := by
        rw [ih (by omega)]
        apply blit_of_outside
        rw [length_slice]
        omega
      have hslice : slice m src (len + 1) = slice m src len ++ [m (src + len)] :=
        (slice_append m src len 1).symm
      have hblit := update_blit m dest (slice m src len) (m (src + len))
      rw [length_slice] at hblit
      rw [memcpy_succ, hread, ih (by omega), hblit, hslice]

/-- **What `memcpy` does**, for every overlap of the two blocks. -/
theorem memcpy_apply (m : ByteMem) (dest src len i : Nat) :
    memcpy m dest src len i =
      if dest ≤ i ∧ i < dest + len then
        if src < dest then m (src + (i - dest) % (dest - src)) else m (src + (i - dest))
      else m i := by
  induction len generalizing i with
  | zero =>
      have hout : ¬(dest ≤ i ∧ i < dest + 0) := by omega
      rw [if_neg hout]
      rfl
  | succ len ih =>
      rw [memcpy_succ]
      by_cases hi : i = dest + len
      · have hin : dest ≤ dest + len ∧ dest + len < dest + (len + 1) := by omega
        rw [hi, Function.update_self, ih, if_pos hin, Nat.add_sub_cancel_left]
        by_cases hlt : src < dest
        · -- The byte that is copied may have been written before, one period further down.
          by_cases hback : dest ≤ src + len
          · have hsub : src + len - dest = len - (dest - src) := by omega
            rw [if_pos (by omega), if_pos hlt, if_pos hlt, hsub, ← Nat.mod_eq_sub_mod (by omega)]
          · rw [if_neg (by omega), if_pos hlt, Nat.mod_eq_of_lt (by omega)]
        · rw [if_neg (by omega), if_neg hlt]
      · have hin : (dest ≤ i ∧ i < dest + (len + 1)) ↔ (dest ≤ i ∧ i < dest + len) := by omega
        rw [Function.update_of_ne hi, ih]
        simp only [hin]

end Blocks

/-! ## Comparing -/

/-- The first difference of two strings, each with zeros behind it. -/
def diff : List UInt8 → List UInt8 → Int
  | [], [] => 0
  | [], d :: _ => -d.toNat
  | c :: _, [] => c.toNat
  | c :: s, d :: t => if c ≠ d then c.toNat - d.toNat else diff s t

section Comparing

variable {m : ByteMem} {a b n fuel : Nat} {s t : List UInt8} {c d : UInt8}

theorem StrAt.cons (h : StrAt m a (c :: s)) : m a = c ∧ c ≠ 0 ∧ StrAt m (a + 1) s := by
  obtain ⟨hchars, hnoNul, hnul⟩ := h
  rw [List.length_cons, slice_succ] at hchars
  obtain ⟨hc, hs⟩ := List.cons.inj hchars
  rw [List.mem_cons, not_or] at hnoNul
  refine ⟨hc, Ne.symm hnoNul.1, hs, hnoNul.2, ?_⟩
  rw [← hnul, List.length_cons, Nat.add_right_comm, Nat.add_assoc]

theorem StrAt.nil (h : StrAt m a []) : m a = 0 := h.nul

/-- The rest of a string. -/
theorem StrAt.drop (h : StrAt m a s) (hn : n ≤ s.length) : StrAt m (a + n) (s.drop n) := by
  induction n generalizing a s with
  | zero => exact h
  | succ n ih =>
      cases s with
      | nil => exact absurd hn (Nat.not_succ_le_zero n)
      | cons c s =>
          rw [Nat.add_comm n, ← Nat.add_assoc, Nat.add_comm 1, List.drop_succ_cons]
          exact ih h.cons.2.2 (Nat.le_of_succ_le_succ hn)

theorem sub_ne_zero_of_ne (h : c ≠ d) : (c.toNat : Int) - d.toNat ≠ 0 := by
  intro hsub
  exact h (UInt8.toNat_inj.1 (by omega))

theorem toNat_pos (h : 0 ∉ c :: s) : 0 < c.toNat := by
  rw [List.mem_cons, not_or] at h
  exact UInt8.pos_iff_ne_zero.2 (Ne.symm h.1)

/-- The sign of the difference is the lexicographic order. -/
theorem diff_order (h : s.length = t.length ∨ (0 ∉ s ∧ 0 ∉ t)) :
    (diff s t < 0 ↔ s < t) ∧ (diff s t = 0 ↔ s = t) := by
  fun_induction diff s t with
  | case1 => simp
  | case2 d t =>
      have hd : 0 < d.toNat := toNat_pos (h.resolve_left (by simp)).2
      simp only [List.nil_lt_cons, reduceCtorEq, iff_true, iff_false]
      omega
  | case3 c s =>
      have hc : 0 < c.toNat := toNat_pos (h.resolve_left (by simp)).1
      simp only [List.not_lt_nil, reduceCtorEq, iff_false]
      omega
  | case4 c s d t hne =>
      have hsub := sub_ne_zero_of_ne hne
      have hlt : (c.toNat : Int) - d.toNat < 0 ↔ c < d := by
        rw [UInt8.lt_iff_toNat_lt]
        omega
      simp [List.cons_lt_cons_iff, hne, hsub, hlt]
  | case5 c s d t heq ih =>
      obtain rfl : c = d := not_not.1 heq
      have htail : s.length = t.length ∨ (0 ∉ s ∧ 0 ∉ t) := by
        refine h.imp (fun hlen => by simpa using hlen) fun hnoNul => ?_
        exact ⟨fun hmem => hnoNul.1 (List.mem_cons_of_mem _ hmem),
          fun hmem => hnoNul.2 (List.mem_cons_of_mem _ hmem)⟩
      simp [ih htail]

theorem memcmp_eq (m : ByteMem) (a b n : Nat) :
    memcmp m a b n = diff (slice m a n) (slice m b n) := by
  induction n generalizing a b with
  | zero => rfl
  | succ n ih =>
      rw [memcmp, ih, slice_succ, slice_succ, diff]

theorem strcmp_eq (hs : StrAt m a s) (ht : StrAt m b t) (hfuel : s.length < fuel) :
    strcmp m fuel a b = .ok (diff s t) := by
  obtain ⟨fuel, rfl⟩ := Nat.exists_eq_add_of_lt hfuel
  induction s generalizing a b t with
  | nil =>
      rw [strcmp, if_neg (fun h => h.1 hs.nil), hs.nil]
      cases t with
      | nil => rw [ht.nil]; rfl
      | cons d t => rw [ht.cons.1]; simp [diff]
  | cons c s ih =>
      obtain ⟨hc, hne, hs⟩ := hs.cons
      rw [show (c :: s).length + fuel + 1 = s.length + fuel + 1 + 1 by simp; omega, strcmp, hc]
      cases t with
      | nil =>
          rw [ht.nil, if_neg (fun h => h.1 h.2)]
          simp [diff]
      | cons d t =>
          obtain ⟨hd, -, ht⟩ := ht.cons
          rw [hd, diff]
          by_cases heq : c = d
          · rw [if_pos ⟨hne, heq⟩, if_neg (not_not.2 heq)]
            exact ih hs ht (by omega)
          · rw [if_neg (fun h => heq h.2), if_pos heq]

theorem strncmp_eq (hs : StrAt m a s) (ht : StrAt m b t) (n : Nat) :
    strncmp m a b n = diff (s.take n) (t.take n) := by
  induction n generalizing a b s t with
  | zero => rfl
  | succ n ih =>
      rw [strncmp]
      cases s with
      | nil =>
          rw [hs.nil]
          cases t with
          | nil => simp [ht.nil, diff]
          | cons d t => simp [ht.cons.1, Ne.symm ht.cons.2.1, diff]
      | cons c s =>
          obtain ⟨hc, hne, hs⟩ := hs.cons
          cases t with
          | nil => simp [hc, ht.nil, hne, diff]
          | cons d t =>
              obtain ⟨hd, -, ht⟩ := ht.cons
              rw [hc, hd, if_neg hne, ih hs ht]
              rfl

/-- **The comparisons** order strings, prefixes and blocks by their bytes as unsigned numbers. -/
theorem compare_order (hs : StrAt m a s) (ht : StrAt m b t) (n : Nat) :
    (∃ r, strcmp m (s.length + 1) a b = .ok r ∧ (r < 0 ↔ s < t) ∧ (r = 0 ↔ s = t)) ∧
      ((strncmp m a b n < 0 ↔ s.take n < t.take n) ∧
        (strncmp m a b n = 0 ↔ s.take n = t.take n)) ∧
      (memcmp m a b n < 0 ↔ slice m a n < slice m b n) ∧
      (memcmp m a b n = 0 ↔ slice m a n = slice m b n) := by
  have hnoNul : 0 ∉ s.take n ∧ 0 ∉ t.take n :=
    ⟨fun h => hs.noNul (List.mem_of_mem_take h), fun h => ht.noNul (List.mem_of_mem_take h)⟩
  have hstr := diff_order (.inr ⟨hs.noNul, ht.noNul⟩)
  refine ⟨⟨_, strcmp_eq hs ht (Nat.lt_succ_self _), hstr⟩, ?_, ?_⟩
  · rw [strncmp_eq hs ht]
    exact diff_order (.inr hnoNul)
  · rw [memcmp_eq]
    exact diff_order (.inl (by rw [length_slice, length_slice]))

/-- A memory with two strings in it, `"ab"` and `"b"`. -/
def twoStrings : ByteMem := blit (fun _ => 0) 0 [97, 98, 0, 98, 0]

theorem strAt_ab : StrAt twoStrings 0 [97, 98] := ⟨rfl, by decide, rfl⟩

theorem strAt_b : StrAt twoStrings 3 [98] := ⟨rfl, by decide, rfl⟩

theorem compare_order_ab :
    (∃ r, strcmp twoStrings 3 0 3 = .ok r ∧ r < 0) ∧ strncmp twoStrings 0 3 4 < 0 ∧
      memcmp twoStrings 1 3 2 = 0 := by
  obtain ⟨⟨r, hr, hlt, -⟩, hstrn, -⟩ := compare_order strAt_ab strAt_b 4
  refine ⟨⟨r, hr, hlt.2 (by decide)⟩, hstrn.1.2 (by decide), by decide⟩

end Comparing

/-! ## Copying -/

section Copying

variable {m m' : ByteMem} {a d n fuel : Nat} {s t : List UInt8}

theorem blit_nil (m : ByteMem) (d : Nat) : blit m d [] = m := by
  funext i
  simp [blit]

theorem blit_update (m : ByteMem) (d : Nat) (c : UInt8) (l : List UInt8) :
    blit (Function.update m d c) (d + 1) l = blit m d (c :: l) := by
  funext i
  simp only [blit]
  obtain hlt | rfl | hgt := Nat.lt_trichotomy i d
  · rw [if_neg (by omega), if_neg (by omega), Function.update_of_ne (by omega)]
  · simp
  · rw [if_pos (by omega), if_pos (by omega), Function.update_of_ne (by omega),
      show i - d = i - (d + 1) + 1 by omega, List.getElem?_cons_succ]

/-- A string is as it was unless its place is written to. -/
theorem StrAt.congr (h : StrAt m a s) (hagree : m.Agree m' a (a + s.length + 1)) :
    StrAt m' a s where
  chars := by
    rw [← h.chars, length_slice]
    exact slice_congr fun i hlo hhi => hagree i hlo (by omega)
  noNul := h.noNul
  nul := by rw [← h.nul]; exact (hagree _ (by omega) (by omega))

theorem StrAt.update (h : StrAt m a s) (hd : d < a ∨ a + s.length < d) (c : UInt8) :
    StrAt (Function.update m d c) a s :=
  h.congr fun i _ _ => Function.update_of_ne (by omega) _ _

theorem strAt_blit (m : ByteMem) (d : Nat) (h : 0 ∉ s) : StrAt (blit m d (s ++ [0])) d s where
  chars := by
    have hall := slice_blit m d (s ++ [0])
    rw [List.length_append] at hall
    exact (slice_eq_append hall).1
  noNul := h
  nul := by
    simp [blit]

/-- A copy that does not write over the end of the string before it has been read. -/
theorem strcpy_eq (hs : StrAt m a s) (h : d ≤ a ∨ a + s.length < d) (fuel : Nat) :
    strcpy fuel m d a =
      if s.length < fuel then .ok (blit m d (s ++ [0])) else .diverge := by
  induction fuel generalizing m a d s with
  | zero => rfl
  | succ fuel ih =>
      cases s with
      | nil =>
          rw [strcpy, hs.nil, List.nil_append, ← blit_update, blit_nil]
          simp
      | cons c s =>
          obtain ⟨hc, hne, hs⟩ := hs.cons
          rw [List.length_cons] at h
          have hs' : StrAt (Function.update m d c) (a + 1) s := hs.update (by omega) c
          simp only [strcpy, hc, hne, ne_eq, not_false_eq_true, if_true,
            ih hs' (d := d + 1) (by omega), blit_update, List.length_cons,
            Nat.add_lt_add_iff_right, List.cons_append]

/-- A copy that stays behind itself: no byte that it reads is a NUL. -/
theorem strcpy_diverges (h : a < d) (hnz : ∀ i, a ≤ i → i < d → m i ≠ 0) (fuel : Nat) :
    strcpy fuel m d a = .diverge := by
  induction fuel generalizing m a d with
  | zero => rfl
  | succ fuel ih =>
      have ha := hnz a le_rfl h
      simp only [strcpy, ha, ne_eq, not_false_eq_true, if_true]
      refine ih (by omega) fun i hlo hhi => ?_
      by_cases hi : i = d
      · rw [hi, Function.update_self]
        exact ha
      · rw [Function.update_of_ne hi]
        exact hnz i (by omega) (by omega)

theorem StrAt.ne_zero (h : StrAt m a s) {i : Nat} (hlo : a ≤ i) (hhi : i < a + s.length) :
    m i ≠ 0 := by
  intro hi
  refine h.noNul (h.chars ▸ List.mem_map.2 ⟨i, ?_, hi⟩)
  exact List.mem_range'_1.2 ⟨hlo, hhi⟩

/-- `strcpy` runs for ever exactly when it writes over the end of the string before it gets
there. -/
theorem strcpy_eq_ok (hs : StrAt m a s) :
    strcpy fuel m d a = .ok m' ↔
      ¬(a < d ∧ d ≤ a + s.length) ∧ s.length < fuel ∧ m' = blit m d (s ++ [0]) := by
  by_cases h : a < d ∧ d ≤ a + s.length
  · have hdiv := strcpy_diverges h.1 (fun i hlo hhi => hs.ne_zero hlo (by omega)) fuel
    simp [h, hdiv]
  · rw [strcpy_eq hs (by omega)]
    by_cases hfuel : s.length < fuel
    · simp [h, hfuel, eq_comm]
    · simp [hfuel]

theorem strEnd_eq (hs : StrAt m a s) (fuel : Nat) :
    strEnd m fuel a = if s.length < fuel then .ok (a + s.length) else .diverge := by
  induction fuel generalizing a s with
  | zero => rfl
  | succ fuel ih =>
      cases s with
      | nil => simp [strEnd, hs.nil]
      | cons c s =>
          obtain ⟨hc, hne, hs⟩ := hs.cons
          simp only [strEnd, hc, hne, ne_eq, not_false_eq_true, if_true, ih hs, List.length_cons,
            Nat.add_lt_add_iff_right, Nat.add_assoc, Nat.add_comm 1]

theorem strlen_eq (hs : StrAt m a s) (hfuel : s.length < fuel) :
    strlen m fuel a = .ok s.length := by
  simp [strlen, strEnd_eq hs, hfuel]

theorem slice_of_le {l : List UInt8} (h : a + n ≤ d) : slice (blit m d l) a n = slice m a n :=
  slice_congr fun _ _ hhi => blit_of_outside (.inl (by omega))

/-- Appending behind the end of a string. -/
theorem StrAt.append (ht : StrAt m d t) (hs : 0 ∉ s) :
    StrAt (blit m (d + t.length) (s ++ [0])) d (t ++ s) where
  chars := by
    rw [List.length_append, ← slice_append, slice_of_le le_rfl, ht.chars, (strAt_blit _ _ hs).chars]
  noNul := by
    rw [List.mem_append]
    exact not_or.2 ⟨ht.noNul, hs⟩
  nul := by
    rw [List.length_append, ← Nat.add_assoc]
    exact (strAt_blit _ _ hs).nul

/-- **`strcat` returns** unless the end of the destination is inside the source, which is so
whenever a string that is not empty is appended to itself. When it returns it has appended. -/
theorem strcat_returns_iff (ht : StrAt m d t) (hs : StrAt m a s) :
    ((∃ fuel m', strcat fuel m d a = .ok m') ↔
        ¬(a < d + t.length ∧ d + t.length ≤ a + s.length)) ∧
      ∀ fuel m', strcat fuel m d a = .ok m' →
        m' = blit m (d + t.length) (s ++ [0]) ∧ StrAt m' d (t ++ s) := by
  have hcat : ∀ fuel m', strcat fuel m d a = .ok m' ↔ t.length < fuel ∧
      ¬(a < d + t.length ∧ d + t.length ≤ a + s.length) ∧ s.length < fuel ∧
        m' = blit m (d + t.length) (s ++ [0]) := by
    intro fuel m'
    rw [strcat, strEnd_eq ht]
    by_cases hfuel : t.length < fuel
    · simp [hfuel, strcpy_eq_ok hs]
    · simp [hfuel]
  refine ⟨?_, fun fuel m' hm' => ?_⟩
  · simp only [hcat]
    refine ⟨fun ⟨_, _, _, h, _⟩ => h, fun h => ?_⟩
    exact ⟨t.length + s.length + 1, _, by omega, h, by omega, rfl⟩
  · obtain ⟨-, -, -, rfl⟩ := (hcat fuel m').1 hm'
    exact ⟨rfl, ht.append hs.noNul⟩

theorem strcat_returns_iff_ab : ∃ fuel m', strcat fuel twoStrings 3 0 = .ok m' ∧
    StrAt m' 3 [98, 97, 98] := by
  obtain ⟨hiff, hres⟩ := strcat_returns_iff strAt_b strAt_ab
  obtain ⟨fuel, m', hm'⟩ := hiff.2 (by decide)
  exact ⟨fuel, m', hm', (hres fuel m' hm').2⟩

theorem strncpy_eq (hs : StrAt m a s) (h : d ≤ a ∨ a + s.length < d) :
    strncpy m d a n = blit m d (s.take n ++ List.replicate (n - s.length) 0) := by
  induction n generalizing m a d s with
  | zero => simp [strncpy, blit_nil]
  | succ n ih =>
      cases s with
      | nil =>
          rw [strncpy, hs.nil, memset_eq]
          simp
          rfl
      | cons c s =>
          obtain ⟨hc, hne, hs⟩ := hs.cons
          rw [List.length_cons] at h
          have hs' : StrAt (Function.update m d c) (a + 1) s := hs.update (by omega) c
          simp only [strncpy, hc, hne, ne_eq, not_false_eq_true, if_true,
            ih hs' (d := d + 1) (by omega), blit_update, List.length_cons,
            List.take_succ_cons, List.cons_append, Nat.add_sub_add_right]

end Copying

end Munux.Libk
