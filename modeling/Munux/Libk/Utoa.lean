import Munux.Libk.Conv

/-!
# The buffers of `utoa`

`utoa` of `kernel/lib/conv.c` on memory. Its first loop divides the value again and again and puts
the digits into `tmp`, the last one first; its second loop copies them back to front into `buf`, and
a NUL goes behind them. `libk.h` asks the callers for 33 bytes, or for base 10 for 12 with a sign.

* `utoaInto_eq`: `buf` holds what `utoa` returns. 32 bytes of `tmp` are enough.
* `Spells`: positional notation. It determines the value (`Spells.unique`), so `utoa` is injective.
-/

namespace Munux.Libk

/-- The division loop: the digits of `value`, from `tmp[i]` on. -/
def digitLoop (base : Nat) : (fuel value : Nat) → List UInt8 → (i : Nat) →
    Outcome (List UInt8 × Nat)
  | 0, _, _, _ => .diverge
  | fuel + 1, value, tmp, i =>
      if 0 < value then do
        let d ← index digits (value % base)
        let tmp ← store tmp i d
        digitLoop base fuel (value / base) tmp (i + 1)
      else .ok (tmp, i)

/-- The loop that copies `tmp[i - 1]`, …, `tmp[0]` to `buf[j]`, `buf[j + 1]`, … -/
def copyLoop (tmp : List UInt8) : (i : Nat) → (buf : List UInt8) → (j : Nat) →
    Outcome (List UInt8 × Nat)
  | 0, buf, j => .ok (buf, j)
  | i + 1, buf, j => do
      let c ← index tmp i
      let buf ← store buf j c
      copyLoop tmp i buf (j + 1)

/-- The first half of `utoa`: the digits in `tmp`, and `i` behind them. -/
def reversedDigits (base : Nat) (value : UInt32) (tmp : List UInt8) :
    Outcome (List UInt8 × Nat) := do
  if value = 0 then
    let tmp ← store tmp 0 (ch '0')
    return (tmp, 1)
  else digitLoop base (value.toNat + 1) value.toNat tmp 0

/-- `utoa`, with what is in its array `tmp` when it is called. -/
def utoaInto (tmp : List UInt8) (value : UInt32) (buf : List UInt8) (base : Int) :
    Outcome (List UInt8) := do
  if base < 2 ∨ 16 < base then store buf 0 0
  else
    let (tmp, i) ← reversedDigits base.toNat value tmp
    let (buf, j) ← copyLoop tmp i buf 0
    store buf j 0

/-! ## The loops -/

section Loops

variable {base fuel value : Nat} {tmp buf : List UInt8} {i : Nat}

/-- The digits, the last one first, behind those that are there: induction over the divisions. -/
theorem digitLoop_eq (hbase : 2 ≤ base) (hbase' : base ≤ 16) (hfuel : value < fuel)
    (out : List UInt8)
    (hroom : (out ++ (Nat.digits base value).map digitChar).length ≤ tmp.length) :
    digitLoop base fuel value (overwrite tmp out) out.length =
      .ok (overwrite tmp (out ++ (Nat.digits base value).map digitChar),
        (out ++ (Nat.digits base value).map digitChar).length) := by
  induction fuel generalizing value out with
  | zero => omega
  | succ fuel ih =>
      unfold digitLoop
      by_cases hzero : value = 0
      · subst hzero
        rw [if_neg (lt_irrefl 0), Nat.digits_zero, List.map_nil, List.append_nil]
      · have hpos : 0 < value := Nat.pos_of_ne_zero hzero
        have hdigit : value % base < base := Nat.mod_lt _ (by omega)
        have hrest : value / base < fuel :=
          lt_of_lt_of_le (Nat.div_lt_self hpos hbase) (Nat.le_of_lt_succ hfuel)
        rw [Nat.digits_eq_cons_digits_div (by omega) hzero, List.map_cons,
          List.append_cons] at hroom ⊢
        have hlt : out.length < tmp.length := by
          simp only [List.length_append, List.length_singleton] at hroom
          omega
        simp only [if_pos hpos, index_digits (hdigit.trans_le hbase'), Outcome.ok_bind,
          store_overwrite hlt]
        have hnext := ih hrest (out ++ [digitChar (value % base)]) hroom
        rwa [List.length_append, List.length_singleton] at hnext

/-- The first `i` bytes of `tmp`, turned around. -/
theorem copyLoop_eq (htmp : i ≤ tmp.length) (out : List UInt8)
    (hroom : out.length + i ≤ buf.length) :
    copyLoop tmp i (overwrite buf out) out.length =
      .ok (overwrite buf (out ++ (tmp.take i).reverse), (out ++ (tmp.take i).reverse).length) := by
  induction i generalizing out with
  | zero => rw [List.take_zero, List.reverse_nil, List.append_nil]; rfl
  | succ i ih =>
      have hget : index tmp i = .ok tmp[i] := by
        rw [index, List.getElem?_eq_getElem htmp]
      have hturn : (tmp.take (i + 1)).reverse = tmp[i] :: (tmp.take i).reverse := by
        rw [List.take_succ_eq_append_getElem htmp, List.reverse_append]
        rfl
      have hnext := ih (Nat.le_of_lt htmp) (out ++ [tmp[i]])
        (by rw [List.length_append, List.length_singleton]; omega)
      rw [List.length_append, List.length_singleton] at hnext
      rw [hturn, List.append_cons, ← hnext, copyLoop, hget, Outcome.ok_bind,
        store_overwrite (by omega), Outcome.ok_bind]

end Loops

/-! ## The function -/

section Utoa

variable {base : Int} {tmp buf : List UInt8} {value : UInt32} {n : Nat}

/-- The bytes of `buf` that are enough: 33, or 11 in base 10. -/
def utoaRoom (base : Int) : Nat := if base = 10 then 11 else 33

theorem length_text_lt (value : UInt32) (hbase : 2 ≤ base) :
    (text base.toNat value.toNat).length < utoaRoom base := by
  have hone : 1 < base.toNat := by omega
  rw [text, List.length_map, utoaRoom]
  split_ifs with hten
  · have hvalue : value.toNat < base.toNat ^ 10 := by
      rw [hten]
      exact value.toNat_lt.trans (by decide)
    exact Nat.lt_succ_of_le (length_numeral_le hone (by decide) hvalue)
  · have hvalue : value.toNat < base.toNat ^ 32 :=
      value.toNat_lt.trans_le (Nat.pow_le_pow_left hone 32)
    exact Nat.lt_succ_of_le (length_numeral_le hone (by decide) hvalue)

theorem length_text_le (value : UInt32) (hbase : 2 ≤ base) :
    (text base.toNat value.toNat).length ≤ 32 := by
  have hlt := length_text_lt value hbase
  unfold utoaRoom at hlt
  split_ifs at hlt <;> omega

/-- `tmp` gets the text, turned around. -/
theorem reversedDigits_eq (value : UInt32) (hbase : 2 ≤ base) (hbase' : base ≤ 16)
    (htmp : 32 ≤ tmp.length) :
    reversedDigits base.toNat value tmp =
      .ok (overwrite tmp (text base.toNat value.toNat).reverse,
        (text base.toNat value.toNat).length) := by
  unfold reversedDigits
  have hlen := length_text_le value hbase
  by_cases hzero : value = 0
  · have hstore : store tmp 0 (ch '0') = .ok (overwrite tmp [ch '0']) :=
      store_overwrite (l := []) (show 0 < tmp.length by omega) (ch '0')
    rw [if_pos hzero, hstore, hzero]
    rfl
  · have hne : value.toNat ≠ 0 := fun h => hzero (UInt32.toNat_inj.1 h)
    have hrev : (text base.toNat value.toNat).reverse =
        (Nat.digits base.toNat value.toNat).map digitChar := by
      rw [text, numeral, if_neg hne, ← List.map_reverse, List.reverse_reverse]
    rw [← List.length_reverse, hrev] at hlen
    rw [if_neg hzero, ← List.length_reverse, hrev]
    exact digitLoop_eq (by omega) (by omega) (Nat.lt_succ_self _) [] (hlen.trans htmp)

/-- **The buffer** gets what `utoa` returns, and a NUL. Of `tmp`, 32 bytes are enough. -/
theorem utoaInto_eq (value : UInt32) (hbase : 2 ≤ base) (hbase' : base ≤ 16)
    (htmp : 32 ≤ tmp.length) (hbuf : utoaRoom base ≤ buf.length) :
    utoaInto tmp value buf base = (do
      let s ← utoa value base
      return overwrite buf (s ++ [0])) := by
  have hrange : ¬(base < 2 ∨ 16 < base) := by omega
  have hlen := length_text_le value hbase
  have hlt := (length_text_lt value hbase).trans_le hbuf
  have hle : (text base.toNat value.toNat).length ≤
      (overwrite tmp (text base.toNat value.toNat).reverse).length := by
    rw [length_overwrite (by rw [List.length_reverse]; omega)]
    omega
  have hroom : ([] : List UInt8).length + (text base.toNat value.toNat).length ≤ buf.length := by
    rw [List.length_nil, Nat.zero_add]
    exact hlt.le
  have hcopy := copyLoop_eq hle [] hroom
  rw [← List.length_reverse, take_overwrite, List.reverse_reverse, List.nil_append,
    List.length_reverse] at hcopy
  rw [utoaInto, if_neg hrange, reversedDigits_eq value hbase hbase' htmp,
    utoa_eq value hbase hbase']
  simp only [Outcome.ok_bind, Outcome.pure_eq]
  rw [show copyLoop _ _ buf 0 = _ from hcopy, Outcome.ok_bind]
  exact store_overwrite hlt 0

end Utoa

/-! ## Positional notation -/

section Positional

variable {base n n' d : Nat} {s : List UInt8}

/-- The value of a string of digits; a digit counts for its place in `digits`. -/
def positional (base : Nat) (s : List UInt8) : Nat := readFrom base 0 (s.map (digits.idxOf ·))

/-- `s` is `n` in the base: digits of the base, without a zero in front unless that is all. -/
structure Spells (base n : Nat) (s : List UInt8) : Prop where
  ne_nil : s ≠ []
  digit : ∀ c ∈ s, c ∈ digits.take base
  lead : s.head? = some (ch '0') → s = [ch '0']
  value : positional base s = n

theorem Spells.unique (h : Spells base n s) (h' : Spells base n' s) : n = n' :=
  h.value.symm.trans h'.value

/-- No digit ends the string. -/
theorem Spells.noNul (h : Spells base n s) : 0 ∉ s := fun hzero =>
  absurd (List.mem_of_mem_take (h.digit 0 hzero)) (by decide)

theorem idxOf_digitChar : ∀ d < 16, digits.idxOf (digitChar d) = d := by decide

theorem digitChar_mem_take (hd : d < base) (hbase : base ≤ 16) :
    digitChar d ∈ digits.take base := by
  have hlen : d < digits.length := hd.trans_le hbase
  have hget : digitChar d = digits[d] := by
    rw [digitChar, List.getD_eq_getElem?_getD, List.getElem?_eq_getElem hlen, Option.getD_some]
  rw [hget]
  exact List.mem_take_iff_getElem.2 ⟨d, lt_min hd hlen, rfl⟩

theorem digitChar_zero (hd : d < 16) (h : digitChar d = ch '0') : d = 0 := by
  have hidx := idxOf_digitChar d hd
  rw [h] at hidx
  exact hidx.symm.trans (by decide)

/-- **The text of a number spells it.** -/
theorem spells_text (hbase : 2 ≤ base) (hbase' : base ≤ 16) (n : Nat) :
    Spells base n (text base n) where
  ne_nil := fun h => numeral_ne_nil base n (List.map_eq_nil_iff.1 h)
  digit c hc := by
    obtain ⟨d, hd, rfl⟩ := List.mem_map.1 hc
    exact digitChar_mem_take (lt_of_mem_numeral hbase hd) hbase'
  lead h := by
    have hzero : n = 0 := by
      by_contra hne
      rw [text, List.head?_map, Option.map_eq_some_iff] at h
      obtain ⟨d, hd, hchar⟩ := h
      have hlt := lt_of_mem_numeral hbase (List.mem_of_head? hd)
      rw [digitChar_zero (hlt.trans_le hbase') hchar] at hd
      exact head?_numeral hne hd
    rw [hzero]
    rfl
  value := by
    have hdigits : (numeral base n).map (fun d => digits.idxOf (digitChar d)) = numeral base n := by
      refine (List.map_congr_left fun d hd => ?_).trans (List.map_id _)
      exact idxOf_digitChar d ((lt_of_mem_numeral hbase hd).trans_le hbase')
    rw [positional, text, List.map_map]
    exact (congrArg _ hdigits).trans (readFrom_numeral base n)

/-- **`utoa` writes positional notation.** For each base there is one string for each value, and
different ones for different values: its digits spell the value. It goes into `buf` with a NUL, and
fits. -/
theorem utoaInto_spells {base : Int} (hbase : 2 ≤ base) (hbase' : base ≤ 16) :
    ∃ s : UInt32 → List UInt8, Function.Injective s ∧ ∀ value,
      Spells base.toNat value.toNat (s value) ∧ 0 ∉ s value ∧
      (s value).length < utoaRoom base ∧
      ∀ tmp buf : List UInt8, 32 ≤ tmp.length → utoaRoom base ≤ buf.length →
        utoaInto tmp value buf base = .ok (overwrite buf (s value ++ [0])) := by
  have hspells : ∀ value : UInt32,
      Spells base.toNat value.toNat (text base.toNat value.toNat) := fun value =>
    spells_text (by omega) (by omega) value.toNat
  refine ⟨fun value => text base.toNat value.toNat, ?_, fun value => ?_⟩
  · intro v w hvw
    have hspelled := hspells v
    rw [show text base.toNat v.toNat = text base.toNat w.toNat from hvw] at hspelled
    exact UInt32.toNat_inj.1 (hspelled.unique (hspells w))
  · refine ⟨hspells value, (hspells value).noNul, length_text_lt value hbase, ?_⟩
    intro tmp buf htmp hbuf
    rw [utoaInto_eq value hbase hbase' htmp hbuf, utoa_eq value hbase hbase']
    rfl

/-- The largest value in base 10, in the 12 bytes of `klog_uint`. -/
theorem utoaInto_spells_max : ∃ s : List UInt8, Spells 10 4294967295 s ∧ s.length < 11 ∧
    utoaInto (List.replicate 33 0xAA) 4294967295 (List.replicate 12 0xAA) 10 =
      .ok (overwrite (List.replicate 12 0xAA) (s ++ [0])) := by
  obtain ⟨s, -, hs⟩ := utoaInto_spells (show (2 : Int) ≤ 10 by decide) (by decide)
  obtain ⟨hspells, -, hlen, hcall⟩ := hs 4294967295
  exact ⟨s 4294967295, hspells, hlen, hcall _ _ (by decide) (by decide)⟩

end Positional

end Munux.Libk
