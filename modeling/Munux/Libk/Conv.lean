import Mathlib.Data.List.TakeWhile
import Munux.Lib.Numerals
import Munux.Lib.Slice

/-!
# Numbers as text

`utoa`, `itoa` and `atoi` of `kernel/lib/conv.c`, and the character classes of `libk.h`. Strings are
lists of characters, and reading one behind its NUL stops the machine. So does an `int` that leaves
its range: the kernel is built without `-fwrapv`.

* `utoa_eq`: the digits of a number, the most significant one first. `tmp` is large enough.
* `scanDigits_eq`: reading digits gives their value, or overflows.
* `atoi_itoa_iff`: `atoi` reads back what `itoa` writes, except for the least `int`: its magnitude
  is no `int`, and `atoi` accumulates it before it looks at the sign.
-/

namespace Munux.Libk

/-- The code of a character. -/
def ch (c : Char) : UInt8 := UInt8.ofNat c.toNat

/-- The codes of the characters of a literal. -/
def ascii (s : String) : List UInt8 := s.toList.map ch

/-- `isdigit` -/
def isdigit (c : UInt8) : Bool := ch '0' ≤ c && c ≤ ch '9'

/-- `isspace` -/
def isspace (c : UInt8) : Bool :=
  c = ch ' ' || c = ch '\t' || c = ch '\n' || c = ch '\r' || c = 11 || c = 12

/-- `islower` -/
def islower (c : UInt8) : Bool := ch 'a' ≤ c && c ≤ ch 'z'

/-- `toupper` -/
def toupper (c : UInt8) : UInt8 := if islower c then c - 32 else c

/-- A string in memory: its characters, with a NUL behind them. -/
structure CString where
  chars : List UInt8
  noNul : 0 ∉ chars

/-- The string in a buffer ends at its first NUL. -/
def CString.of (l : List UInt8) : CString where
  chars := l.takeWhile (· ≠ 0)
  noNul := fun h => by simpa using List.mem_takeWhile_imp h

/-- `s[p]` -/
def CString.get (s : CString) (p : Nat) : Outcome UInt8 :=
  match s.chars[p]? with
  | some c => .ok c
  | none => if p = s.chars.length then .ok 0 else .panic

/-- A value of type `int`. -/
def checkedInt (n : Int) : Outcome Int := if -2 ^ 31 ≤ n ∧ n < 2 ^ 31 then .ok n else .panic

/-! ## Writing -/

/-- `digits` -/
def digits : List UInt8 := ascii "0123456789abcdef"

/-- The loop of `utoa` over the digits of `value`, with `room` bytes of `tmp` left. -/
def utoaLoop (base room value : Nat) (tmp : List UInt8) : Outcome (List UInt8) :=
  if value = 0 then .ok tmp
  else match room with
    | 0 => .panic
    | room + 1 => do
        let d ← index digits (value % base)
        utoaLoop base room (value / base) (tmp ++ [d])

/-- `utoa`: the characters that it writes to `buf`. -/
def utoa (value : UInt32) (base : Int) : Outcome (List UInt8) := do
  if base < 2 ∨ 16 < base then return []
  let tmp ← if value = 0 then pure [ch '0'] else utoaLoop base.toNat 33 value.toNat []
  return tmp.reverse

/-- `itoa` -/
def itoa (value : Int32) (base : Int) : Outcome (List UInt8) := do
  if base = 10 ∧ value < 0 then
    let mag := ~~~value.toUInt32 + 1
    return ch '-' :: (← utoa mag 10)
  else utoa value.toUInt32 base

/-! ## Reading -/

/-- The loop over white space. -/
def skipSpaces (s : CString) (fuel p : Nat) : Outcome Nat :=
  match fuel with
  | 0 => .diverge
  | fuel + 1 => do
      if isspace (← s.get p) then skipSpaces s fuel (p + 1) else return p

/-- The loop over decimal digits, from `p` on, that accumulates in `n`. -/
def scanDigits (s : CString) (fuel p : Nat) (n : Int) : Outcome (Nat × Int) :=
  match fuel with
  | 0 => .diverge
  | fuel + 1 => do
      let c ← s.get p
      if isdigit c then
        let n ← checkedInt ((← checkedInt (n * 10)) + (c.toNat - (ch '0').toNat : Int))
        scanDigits s fuel (p + 1) n
      else return (p, n)

/-- `atoi` -/
def atoi (s : CString) : Outcome Int := do
  let p ← skipSpaces s (s.chars.length + 1) 0
  let c ← s.get p
  let sign : Int := if c = ch '-' then -1 else 1
  let p := if c = ch '+' ∨ c = ch '-' then p + 1 else p
  let (_, result) ← scanDigits s (s.chars.length + 1) p 0
  checkedInt (sign * result)

/-! ## Strings -/

section Strings

variable {s : CString} {p : Nat} {c : UInt8} {rest : List UInt8}

theorem get_of_drop_cons (h : s.chars.drop p = c :: rest) : s.get p = .ok c := by
  have hget : s.chars[p]? = some c := by
    rw [← List.head?_drop, h]
    rfl
  rw [CString.get, hget]

theorem get_of_drop_nil (hp : p ≤ s.chars.length) (h : s.chars.drop p = []) : s.get p = .ok 0 := by
  have hend : p = s.chars.length := Nat.le_antisymm hp (List.drop_eq_nil_iff.1 h)
  rw [CString.get, List.getElem?_eq_none hend.ge, if_pos hend]

theorem get_eq (hp : p ≤ s.chars.length) : s.get p = .ok ((s.chars.drop p).head?.getD 0) := by
  cases hrest : s.chars.drop p with
  | nil => exact get_of_drop_nil hp hrest
  | cons c rest => exact get_of_drop_cons hrest

theorem drop_succ (h : s.chars.drop p = c :: rest) :
    s.chars.drop (p + 1) = rest ∧ p + 1 ≤ s.chars.length := by
  have hlt : p < s.chars.length := by
    by_contra hge
    rw [List.drop_eq_nil_of_le (Nat.le_of_not_lt hge)] at h
    cases h
  rw [← List.drop_drop, h]
  exact ⟨rfl, hlt⟩

theorem chars_of {l : List UInt8} (h : 0 ∉ l) : (CString.of l).chars = l := by
  refine List.takeWhile_eq_self_iff.2 fun c hc => decide_eq_true fun hzero => h ?_
  rwa [hzero] at hc

end Strings

/-! ## Digits -/

section Digits

variable {n value room base p fuel acc : Nat} {tmp : List UInt8} {s : CString}

/-- The character of a digit. -/
def digitChar (d : Nat) : UInt8 := digits.getD d 0

/-- The digit of a character. -/
def digitValue (c : UInt8) : Nat := c.toNat - (ch '0').toNat

/-- A number as text. -/
def text (base n : Nat) : List UInt8 := (numeral base n).map digitChar

theorem index_digits {d : Nat} (hd : d < 16) : index digits d = .ok (digitChar d) := by
  rw [index, digitChar, List.getD_eq_getElem?_getD, List.getElem?_eq_getElem (by exact hd)]
  rfl

/-- **The digits in the buffer,** the least significant one first: induction over the room. -/
theorem utoaLoop_eq (hbase : 2 ≤ base) (hbase' : base ≤ 16) (hroom : value < base ^ room)
    (tmp : List UInt8) :
    utoaLoop base room value tmp = .ok (tmp ++ (Nat.digits base value).map digitChar) := by
  induction room generalizing value tmp with
  | zero =>
      obtain rfl : value = 0 := Nat.lt_one_iff.1 hroom
      simp [utoaLoop]
  | succ room ih =>
      unfold utoaLoop
      by_cases hzero : value = 0
      · simp [hzero]
      · have hdigit : value % base < base := Nat.mod_lt _ (by omega)
        have hrest : value / base < base ^ room := by
          rwa [Nat.div_lt_iff_lt_mul (by omega), ← Nat.pow_succ]
        simp only [hzero, if_false, index_digits (hdigit.trans_le hbase'), Outcome.ok_bind]
        rw [ih hrest, Nat.digits_eq_cons_digits_div (by omega) hzero, List.map_cons,
          List.append_assoc, List.singleton_append]

/-- **`utoa`** -/
theorem utoa_eq (value : UInt32) {base : Int} (hbase : 2 ≤ base) (hbase' : base ≤ 16) :
    utoa value base = .ok (text base.toNat value.toNat) := by
  have hrange : ¬(base < 2 ∨ 16 < base) := by omega
  have hroom : value.toNat < base.toNat ^ 33 :=
    calc value.toNat < 2 ^ 33 := value.toNat_lt.trans (by decide)
      _ ≤ base.toNat ^ 33 := Nat.pow_le_pow_left (by omega) 33
  rw [utoa, if_neg hrange, text, numeral]
  by_cases hzero : value = 0
  · subst hzero
    rfl
  · have hne : value.toNat ≠ 0 := fun h => hzero (UInt32.toNat_inj.1 h)
    simp only [hzero, hne, if_false, utoaLoop_eq (by omega : 2 ≤ base.toNat) (by omega) hroom,
      Outcome.ok_bind, List.nil_append, List.map_reverse]
    rfl

/-- An `int` and its bits. -/
theorem toInt_eq (v : Int32) :
    v.toInt = if 2 * v.toUInt32.toNat < 2 ^ 32 then (v.toUInt32.toNat : Int)
      else (v.toUInt32.toNat : Int) - (2 ^ 32 : Nat) :=
  BitVec.toInt_eq_toNat_cond v.toBitVec

/-- The magnitude of a negative number. -/
theorem toNat_magnitude {v : Int32} (hneg : v < 0) :
    (~~~v.toUInt32 + 1).toNat = v.toInt.natAbs := by
  have hlt : v.toInt < 0 := Int32.lt_iff_toInt_lt.1 hneg
  have hcompl : ~~~v.toUInt32 + 1 = -v.toUInt32 := by
    rw [← UInt32.toBitVec_inj]
    simp [BitVec.neg_eq_not_add]
  have hint := toInt_eq v
  have hbound := v.toUInt32.toNat_lt
  rw [hcompl, UInt32.toNat_neg, show UInt32.size = 2 ^ 32 from rfl]
  split_ifs at hint <;> omega

theorem toNat_of_nonneg {v : Int32} (hpos : ¬v < 0) : v.toUInt32.toNat = v.toInt.natAbs := by
  have hle : ¬v.toInt < 0 := fun h => hpos (Int32.lt_iff_toInt_lt.2 h)
  have hint := toInt_eq v
  have hbound := v.toUInt32.toNat_lt
  split_ifs at hint <;> omega

/-- **`itoa`** in base 10. -/
theorem itoa_eq (v : Int32) :
    itoa v 10 = .ok ((if v < 0 then [ch '-'] else []) ++ text 10 v.toInt.natAbs) := by
  unfold itoa
  by_cases hneg : v < 0
  · simp only [hneg, and_self, if_true, utoa_eq _ (show (2 : Int) ≤ 10 by decide)
      (show (10 : Int) ≤ 16 by decide), Outcome.ok_bind, toNat_magnitude hneg]
    rfl
  · simp only [hneg, and_false, if_false, utoa_eq _ (show (2 : Int) ≤ 10 by decide)
      (show (10 : Int) ≤ 16 by decide), toNat_of_nonneg hneg]
    rfl

/-! ## Scanning -/

theorem isdigit_iff {c : UInt8} : isdigit c = true ↔ 48 ≤ c.toNat ∧ c.toNat ≤ 57 := by
  rw [isdigit, Bool.and_eq_true, decide_eq_true_eq, decide_eq_true_eq, UInt8.le_iff_toNat_le,
    UInt8.le_iff_toNat_le]
  rfl

theorem checkedInt_ofNat (n : Nat) :
    checkedInt n = if n < 2 ^ 31 then .ok (n : Int) else .panic := by
  rw [checkedInt]
  exact if_congr (by omega) rfl rfl

/-- One turn of the accumulation. -/
theorem checkedInt_turn {α : Type} (acc d : Nat) (k : Int → Outcome α) :
    (checkedInt ((acc : Int) * 10) >>= fun n => checkedInt (n + (d : Int)) >>= k) =
      if acc * 10 + d < 2 ^ 31 then k ((acc * 10 + d : Nat) : Int) else .panic := by
  have hmul : checkedInt ((acc : Int) * 10) =
      if acc * 10 < 2 ^ 31 then .ok ((acc * 10 : Nat) : Int) else .panic :=
    checkedInt_ofNat (acc * 10)
  have hsum : checkedInt (((acc * 10 : Nat) : Int) + (d : Int)) =
      if acc * 10 + d < 2 ^ 31 then .ok ((acc * 10 + d : Nat) : Int) else .panic :=
    checkedInt_ofNat (acc * 10 + d)
  rw [hmul]
  by_cases hfits : acc * 10 < 2 ^ 31
  · rw [if_pos hfits, Outcome.ok_bind, hsum]
    split_ifs <;> rfl
  · rw [if_neg hfits, Outcome.panic_bind, if_neg (by omega)]

/-- The digits at the front of some characters. -/
def leading (l : List UInt8) : List Nat := (l.takeWhile isdigit).map digitValue

/-- **The loop over digits** reads their value and stops behind them, unless an `int` overflows on
the way: induction over the fuel. What has been read is never more than the whole. -/
theorem scanDigits_eq (hp : p ≤ s.chars.length) (hfuel : s.chars.length < p + fuel)
    (hacc : acc < 2 ^ 31) :
    scanDigits s fuel p acc =
      if readFrom 10 acc (leading (s.chars.drop p)) < 2 ^ 31 then
        .ok (p + (leading (s.chars.drop p)).length, (readFrom 10 acc (leading (s.chars.drop p)) : Int))
      else .panic := by
  induction fuel generalizing p acc with
  | zero => omega
  | succ fuel ih =>
      unfold scanDigits
      cases hrest : s.chars.drop p with
      | nil =>
          have hget := get_of_drop_nil hp hrest
          have hstop : ¬isdigit 0 = true := by decide
          rw [hget, Outcome.ok_bind, if_neg hstop, leading, List.takeWhile_nil, List.map_nil,
            readFrom_nil, if_pos hacc]
          rfl
      | cons c rest =>
          have hget := get_of_drop_cons hrest
          rw [hget, Outcome.ok_bind]
          by_cases hdigit : isdigit c = true
          · obtain ⟨hdrop, hp'⟩ := drop_succ hrest
            have hleading : leading (c :: rest) = digitValue c :: leading rest := by
              rw [leading, List.takeWhile_cons_of_pos hdigit]
              rfl
            have hvalue : ((c.toNat : Int) - ((ch '0').toNat : Int)) = (digitValue c : Int) := by
              have hge : 48 ≤ c.toNat := (isdigit_iff.1 hdigit).1
              exact (Int.ofNat_sub hge).symm
            have hle := le_readFrom (b := 10) (by decide) (acc * 10 + digitValue c) (leading rest)
            rw [if_pos hdigit, hleading, readFrom_cons, hvalue, checkedInt_turn]
            by_cases hfits : acc * 10 + digitValue c < 2 ^ 31
            · rw [if_pos hfits, ih hp' (by omega) hfits, hdrop, List.length_cons, Nat.add_assoc,
                Nat.add_comm 1]
            · rw [if_neg hfits, if_neg (by omega)]
          · have hleading : leading (c :: rest) = [] := by
              rw [leading, List.takeWhile_cons_of_neg hdigit]
              rfl
            rw [if_neg hdigit, hleading, readFrom_nil, if_pos hacc]
            rfl

theorem skipSpaces_eq (hp : p ≤ s.chars.length) (hfuel : s.chars.length < p + fuel) :
    skipSpaces s fuel p = .ok (p + ((s.chars.drop p).takeWhile isspace).length) := by
  induction fuel generalizing p with
  | zero => omega
  | succ fuel ih =>
      unfold skipSpaces
      cases hrest : s.chars.drop p with
      | nil =>
          have hstop : ¬isspace 0 = true := by decide
          rw [get_of_drop_nil hp hrest, Outcome.ok_bind, if_neg hstop]
          rfl
      | cons c rest =>
          rw [get_of_drop_cons hrest, Outcome.ok_bind]
          by_cases hspace : isspace c = true
          · obtain ⟨hdrop, hp'⟩ := drop_succ hrest
            rw [if_pos hspace, ih hp' (by omega), hdrop, List.takeWhile_cons_of_pos hspace,
              List.length_cons, Nat.add_assoc, Nat.add_comm 1]
          · rw [if_neg hspace, List.takeWhile_cons_of_neg hspace]
            rfl

end Digits

/-! ## The round trip -/

section RoundTrip

variable {s : CString} {w : List UInt8} {n : Nat}

theorem digitChar_spec : ∀ d < 10, isdigit (digitChar d) = true ∧ digitValue (digitChar d) = d ∧
    isspace (digitChar d) = false ∧ digitChar d ≠ ch '-' ∧ digitChar d ≠ ch '+' := by
  decide

theorem isdigit_of_mem_text {c : UInt8} (hc : c ∈ text 10 n) : isdigit c = true := by
  obtain ⟨d, hd, rfl⟩ := List.mem_map.1 hc
  exact (digitChar_spec d (lt_of_mem_numeral (by decide) hd)).1

/-- The digits at the front of a number as text are those of the number. -/
theorem leading_text (n : Nat) : leading (text 10 n) = numeral 10 n := by
  rw [leading, List.takeWhile_eq_self_iff.2 fun c hc => isdigit_of_mem_text hc, text, List.map_map]
  refine (List.map_congr_left fun d hd => ?_).trans (List.map_id _)
  exact (digitChar_spec d (lt_of_mem_numeral (by decide) hd)).2.1

theorem text_eq_cons (n : Nat) : ∃ d rest, text 10 n = digitChar d :: rest ∧ d < 10 := by
  obtain ⟨d, ds, hcons⟩ := List.exists_cons_of_ne_nil (numeral_ne_nil 10 n)
  have hd : d ∈ numeral 10 n := hcons ▸ List.mem_cons_self ..
  exact ⟨d, ds.map digitChar, by rw [text, hcons, List.map_cons], lt_of_mem_numeral (by decide) hd⟩

/-- The last step of `atoi`, from the first digit on. -/
theorem scan_text {p : Nat} (hp : p ≤ s.chars.length) (hdrop : s.chars.drop p = text 10 n)
    {sign : Int} (hsign : sign = 1 ∨ sign = -1) :
    (do let (_, result) ← scanDigits s (s.chars.length + 1) p 0
        checkedInt (sign * result)) = if n < 2 ^ 31 then .ok (sign * n) else .panic := by
  have hscan := scanDigits_eq hp (show s.chars.length < p + (s.chars.length + 1) by omega)
    (show 0 < 2 ^ 31 by decide)
  rw [hdrop, leading_text, readFrom_numeral] at hscan
  rw [show (0 : Int) = ((0 : Nat) : Int) from rfl, hscan]
  by_cases hfits : n < 2 ^ 31
  · have hrange : -2 ^ 31 ≤ sign * (n : Int) ∧ sign * (n : Int) < 2 ^ 31 := by
      rcases hsign with rfl | rfl <;> omega
    rw [if_pos hfits, if_pos hfits, Outcome.ok_bind]
    exact if_pos hrange
  · rw [if_neg hfits, if_neg hfits, Outcome.panic_bind]

/-- **`atoi`** on white space, a sign and the digits of a number. -/
theorem atoi_eq (hw : ∀ c ∈ w, isspace c = true) (neg : Bool)
    (hs : s.chars = w ++ ((if neg then [ch '-'] else []) ++ text 10 n)) :
    atoi s = if n < 2 ^ 31 then .ok (if neg then -(n : Int) else n) else .panic := by
  obtain ⟨d, rest, htext, hd⟩ := text_eq_cons n
  obtain ⟨-, -, hspace, hminus, hplus⟩ := digitChar_spec d hd
  have hlen : w.length ≤ s.chars.length := by
    rw [hs, List.length_append]
    omega
  have hskip : skipSpaces s (s.chars.length + 1) 0 = .ok w.length := by
    rw [skipSpaces_eq (Nat.zero_le _) (by omega), List.drop_zero, hs, List.takeWhile_append_of_pos hw,
      htext]
    cases neg <;> simp [hspace, show isspace (ch '-') = false by decide]
  have hdrop : s.chars.drop w.length = (if neg then [ch '-'] else []) ++ text 10 n := by
    rw [hs, List.drop_left]
  rw [atoi, hskip, Outcome.ok_bind]
  cases neg with
  | true =>
      have hget := get_of_drop_cons hdrop
      obtain ⟨hdrop', hp'⟩ := drop_succ hdrop
      rw [hget, Outcome.ok_bind]
      simp only [if_true, or_true]
      rw [scan_text hp' hdrop' (.inr rfl), neg_one_mul]
  | false =>
      have hdrop' : s.chars.drop w.length = text 10 n := hdrop
      have hget := get_of_drop_cons (hdrop'.trans htext)
      rw [hget, Outcome.ok_bind]
      simp only [hminus, hplus, or_self, if_false]
      rw [scan_text hlen hdrop' (.inl rfl), one_mul]
      rfl

theorem zero_not_mem_text {w : List UInt8} (hw : ∀ c ∈ w, isspace c = true) (neg : Bool) (n : Nat) :
    0 ∉ w ++ ((if neg then [ch '-'] else []) ++ text 10 n) := by
  intro hzero
  rcases List.mem_append.1 hzero with hzero | hzero
  · exact absurd (hw 0 hzero) (by decide)
  rcases List.mem_append.1 hzero with hzero | hzero
  · cases neg with
    | true => exact absurd (List.mem_singleton.1 hzero) (by decide)
    | false => cases hzero
  · exact absurd (isdigit_of_mem_text hzero) (by decide)

/-- **`atoi` reads what `itoa` writes,** after any white space, unless it is the least `int`. -/
theorem atoi_itoa_iff (v : Int32) (w : List UInt8) (hw : ∀ c ∈ w, isspace c = true) :
    (do atoi (CString.of (w ++ (← itoa v 10)))) = .ok v.toInt ↔ v ≠ Int32.minValue := by
  have hitoa := itoa_eq v
  have hmin : v ≠ Int32.minValue ↔ v.toInt.natAbs < 2 ^ 31 := by
    rw [Ne, ← Int32.toInt_inj, Int32.toInt_minValue]
    have hlow := v.le_toInt
    have hhigh := v.toInt_lt
    omega
  have hsign : (if v < 0 then [ch '-'] else []) = if decide (v < 0) then [ch '-'] else [] := by
    simp only [decide_eq_true_eq]
  rw [hitoa, Outcome.ok_bind, hsign, atoi_eq hw (decide (v < 0))
    (chars_of (zero_not_mem_text hw _ _)), hmin]
  by_cases hfits : v.toInt.natAbs < 2 ^ 31
  · rw [if_pos hfits]
    refine iff_of_true (congrArg _ ?_) hfits
    simp only [decide_eq_true_eq, Int32.lt_iff_toInt_lt, Int32.toInt_zero]
    split_ifs <;> omega
  · rw [if_neg hfits]
    exact iff_of_false (fun h => by cases h) hfits

/-- The round trip of −42, after a blank. -/
theorem atoi_itoa_blank :
    (do atoi (CString.of ([ch ' '] ++ (← itoa (-42) 10)))) = .ok (-42) :=
  (atoi_itoa_iff (-42) [ch ' '] (List.forall_mem_singleton.2 (by decide))).2 (by decide)

/-- **The least `int` overflows** while its digits are accumulated. -/
theorem atoi_least :
    itoa Int32.minValue 10 = .ok (ascii "-2147483648") ∧
      atoi (CString.of (ascii "-2147483648")) = .panic := by
  decide +kernel

end RoundTrip

end Munux.Libk
