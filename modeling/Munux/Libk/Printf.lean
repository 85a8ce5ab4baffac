import Munux.Libk.Conv

/-!
# Formatted output

`kvsnprintf` of `kernel/lib/printf.c`. It walks over the format with an index, takes its arguments
from a list, and puts characters into a buffer of `size` bytes: those that do not fit are counted
only. A read behind the NUL of the format, a write behind the buffer, an argument of another type
and an `int` that overflows all stop the machine.

The output is first described without a buffer: a format is parsed into pieces (`parse`), and each
piece gives some characters (`fullOutput`).

* `kvLoop_eq`: the invariant of the loop. The sink has counted the output so far and holds as much
  of it as fits, and what is left to do is in the rest of the format.
* `kvsnprintf_eq`: the length of the whole output is returned, whatever the size, and the buffer has
  its first `size - 1` characters and a NUL.
-/

namespace Munux.Libk

/-- An argument. The null pointer to a string is `str none`. -/
inductive Arg where
  | word (w : UInt32)
  | ptr (address : UInt32)
  | str (s : Option CString)

/-- `va_arg(args, int)` and `va_arg(args, uint32_t)` -/
def vaWord : List Arg → Outcome (UInt32 × List Arg)
  | .word w :: args => .ok (w, args)
  | _ => .panic

/-- `va_arg(args, void*)` -/
def vaPtr : List Arg → Outcome (UInt32 × List Arg)
  | .ptr address :: args => .ok (address, args)
  | _ => .panic

/-- `va_arg(args, const char*)` -/
def vaStr : List Arg → Outcome (Option CString × List Arg)
  | .str s :: args => .ok (s, args)
  | _ => .panic

/-- The buffer, and the number of characters of the output. -/
structure Sink where
  buf : List UInt8
  total : Nat

/-- `putc_buf` -/
def putcBuf (size : Nat) (o : Sink) (c : UInt8) : Outcome Sink := do
  let buf ← if (o.total + 1) % wordCount < size then store o.buf o.total c else pure o.buf
  return ⟨buf, (o.total + 1) % wordCount⟩

/-- `puts_buf` -/
def putsBuf (size : Nat) (o : Sink) (s : CString) : Outcome Sink :=
  s.chars.foldlM (putcBuf size) o

/-- The sign of a number, if it has one: `sign` is 0 otherwise. -/
def putSign (size : Nat) (o : Sink) (sign : UInt8) : Outcome Sink :=
  if sign = 0 then .ok o else putcBuf size o sign

/-- `emit_num` -/
def emitNum (size : Nat) (o : Sink) (digits : CString) (sign : UInt8) (width : Int) (zero : Bool) :
    Outcome Sink := do
  let len := digits.chars.length
  let field : Int := len + if sign = 0 then 0 else 1
  let padding := (width - field).toNat
  if zero then
    let o ← putSign size o sign
    let o ← (List.replicate padding (ch '0')).foldlM (putcBuf size) o
    putsBuf size o digits
  else
    let o ← (List.replicate padding (ch ' ')).foldlM (putcBuf size) o
    let o ← putSign size o sign
    putsBuf size o digits

/-- `utoa` to `numbuf`, which has 33 bytes. -/
def numbuf (value : UInt32) (base : Int) : Outcome CString := do
  let digits ← utoa value base
  if digits.length < 33 then return CString.of digits else .panic

/-- `(null)` -/
def nullString : CString := CString.of (ascii "(null)")

/-- `0x` -/
def hexMark : CString := CString.of (ascii "0x")

/-- The `switch` over the conversions, but for the end of the format. -/
def convert (size : Nat) (o : Sink) (args : List Arg) (zero : Bool) (width : Int) (conv : UInt8) :
    Outcome (Sink × List Arg) := do
  if conv = ch 'c' then
    let (v, args) ← vaWord args
    return (← putcBuf size o v.toUInt8, args)
  else if conv = ch 's' then
    let (s, args) ← vaStr args
    return (← putsBuf size o (s.getD nullString), args)
  else if conv = ch 'd' ∨ conv = ch 'i' then
    let (v, args) ← vaWord args
    let negative := v.toInt32 < 0
    let sign := if negative then ch '-' else 0
    let mag := if negative then ~~~v + 1 else v
    return (← emitNum size o (← numbuf mag 10) sign width zero, args)
  else if conv = ch 'u' then
    let (v, args) ← vaWord args
    return (← emitNum size o (← numbuf v 10) 0 width zero, args)
  else if conv = ch 'x' then
    let (v, args) ← vaWord args
    return (← emitNum size o (← numbuf v 16) 0 width zero, args)
  else if conv = ch 'X' then
    let (v, args) ← vaWord args
    let digits ← numbuf v 16
    return (← emitNum size o (CString.of (digits.chars.map toupper)) 0 width zero, args)
  else if conv = ch 'p' then
    let (address, args) ← vaPtr args
    let o ← putsBuf size o hexMark
    return (← emitNum size o (← numbuf address 16) 0 width zero, args)
  else if conv = ch '%' then
    return (← putcBuf size o (ch '%'), args)
  else
    let o ← putcBuf size o (ch '%')
    return (← putcBuf size o conv, args)

/-- The loop of `kvsnprintf`, from index `p` of the format on. -/
def kvLoop (size : Nat) (fmt : CString) (fuel p : Nat) (o : Sink) (args : List Arg) : Outcome Sink :=
  match fuel with
  | 0 => .diverge
  | fuel + 1 => do
      let c ← fmt.get p
      if c = 0 then return o
      else if c ≠ ch '%' then
        let o ← putcBuf size o c
        kvLoop size fmt fuel (p + 1) o args
      else
        let p := p + 1
        let zero := (← fmt.get p) = ch '0'
        let p := if zero then p + 1 else p
        let (p, width) ← scanDigits fmt (fmt.chars.length + 1) p 0
        let conv ← fmt.get p
        if conv = 0 then
          -- The format has ended: the index goes back, and the loop takes it on again.
          let p := p - 1
          kvLoop size fmt fuel (p + 1) o args
        else
          let (o, args) ← convert size o args zero width conv
          kvLoop size fmt fuel (p + 1) o args

/-- `kvsnprintf`: the number that it returns, and the buffer. -/
def kvsnprintf (buf : List UInt8) (size : Nat) (fmt : CString) (args : List Arg) :
    Outcome (Int × List UInt8) := do
  let o ← kvLoop size fmt (fmt.chars.length + 1) 0 ⟨buf, 0⟩ args
  let buf ← if 0 < size then store o.buf (if o.total < size then o.total else size - 1) 0
    else pure o.buf
  return ((UInt32.ofNat o.total).toInt32.toInt, buf)

/-! ## The output -/

/-- A piece of a format. An `unfinished` one has met the end of the format. -/
inductive Piece where
  | char (c : UInt8)
  | directive (zero : Bool) (width : Nat) (conv : UInt8)
  | unfinished (width : Nat)

/-- The least number of characters that a piece asks for. -/
def Piece.width : Piece → Nat
  | .char _ => 0
  | .directive _ width _ => width
  | .unfinished width => width

/-- A directive without its flag. -/
def afterFlag (s : List UInt8) : List UInt8 := if s.head? = some (ch '0') then s.tail else s

theorem length_afterFlag_le (s : List UInt8) : (afterFlag s).length ≤ s.length := by
  unfold afterFlag
  split_ifs
  · rw [List.length_tail]
    exact Nat.sub_le _ 1
  · exact le_rfl

/-- The pieces of a format. -/
def parse : List UInt8 → List Piece
  | [] => []
  | c :: s =>
      if c ≠ ch '%' then .char c :: parse s
      else
        let width := readFrom 10 0 (leading (afterFlag s))
        match _h : (afterFlag s).dropWhile isdigit with
        | [] => [.unfinished width]
        | conv :: rest => .directive (s.head? = some (ch '0')) width conv :: parse rest
termination_by s => s.length
decreasing_by
  · exact Nat.lt_succ_self _
  · have hlen := (List.dropWhile_suffix isdigit (l := afterFlag s)).length_le
    rw [_h, List.length_cons] at hlen
    exact Nat.lt_succ_of_lt (Nat.lt_of_lt_of_le hlen (length_afterFlag_le s))

/-- A number with its sign, filled up to the width. -/
def padded (zero : Bool) (width : Nat) (sign digits : List UInt8) : List UInt8 :=
  let padding := width - (digits.length + sign.length)
  if zero then sign ++ List.replicate padding (ch '0') ++ digits
  else List.replicate padding (ch ' ') ++ sign ++ digits

/-- The characters of a signed number. -/
def signed (zero : Bool) (width : Nat) (v : Int32) : List UInt8 :=
  padded zero width (if v < 0 then [ch '-'] else []) (text 10 v.toInt.natAbs)

/-- What a directive makes of an argument of its type. -/
def field (zero : Bool) (width : Nat) (conv : UInt8) : Arg → Option (List UInt8)
  | .word w =>
      if conv = ch 'c' then some [w.toUInt8]
      else if conv = ch 'd' ∨ conv = ch 'i' then some (signed zero width w.toInt32)
      else if conv = ch 'u' then some (padded zero width [] (text 10 w.toNat))
      else if conv = ch 'x' then some (padded zero width [] (text 16 w.toNat))
      else if conv = ch 'X' then some (padded zero width [] ((text 16 w.toNat).map toupper))
      else none
  | .ptr address =>
      if conv = ch 'p' then some (ascii "0x" ++ padded zero width [] (text 16 address.toNat))
      else none
  | .str s => if conv = ch 's' then some (s.getD nullString).chars else none

/-- The conversions with an argument. -/
def TakesArg (conv : UInt8) : Prop := conv ∈ ascii "csdiuxXp"

instance (conv : UInt8) : Decidable (TakesArg conv) := inferInstanceAs (Decidable (_ ∈ _))

/-- The characters of a piece, and the arguments after it. -/
def Piece.output : Piece → List Arg → Option (List UInt8 × List Arg)
  | .char c, args => some ([c], args)
  | .unfinished _, args => some ([], args)
  | .directive zero width conv, args =>
      if TakesArg conv then
        match args with
        | [] => none
        | arg :: args => (field zero width conv arg).map (·, args)
      else if conv = ch '%' then some ([ch '%'], args)
      else some ([ch '%', conv], args)

/-- The whole output, if the arguments match the pieces. -/
def fullOutput : List Piece → List Arg → Option (List UInt8)
  | [], _ => some []
  | piece :: pieces, args => do
      let (l, args) ← piece.output args
      let rest ← fullOutput pieces args
      return l ++ rest

/-- What a buffer of `size` bytes holds of an output. -/
def bounded (size : Nat) (buf output : List UInt8) : List UInt8 :=
  if size = 0 then buf else overwrite buf (output.take (size - 1) ++ [0])

/-! ## The sink -/

section Sink

variable {size : Nat} {buf G : List UInt8}

/-- The sink after some output. -/
def Sink.after (size : Nat) (buf G : List UInt8) : Sink where
  buf := overwrite buf (G.take (size - 1))
  total := G.length

/-- **A character** is counted, and stored if there is room for it and a NUL. -/
theorem putcBuf_after (hsize : size ≤ buf.length) (hlen : G.length + 1 < wordCount) (c : UInt8) :
    putcBuf size (.after size buf G) c = .ok (.after size buf (G ++ [c])) := by
  simp only [putcBuf, Sink.after, Nat.mod_eq_of_lt hlen]
  by_cases hroom : G.length + 1 < size
  · have hall : ∀ l : List UInt8, l.length ≤ size - 1 → l.take (size - 1) = l :=
      fun l hl => List.take_of_length_le hl
    rw [if_pos hroom, hall G (by omega), hall (G ++ [c]) (by simp; omega),
      store_overwrite (by omega), Outcome.ok_bind, List.length_append]
    rfl
  · rw [if_neg hroom, List.take_append_of_le_length (by omega), List.length_append]
    rfl

theorem puts_after (hsize : size ≤ buf.length) {l : List UInt8}
    (hlen : G.length + l.length < wordCount) :
    l.foldlM (putcBuf size) (.after size buf G) = .ok (.after size buf (G ++ l)) := by
  induction l generalizing G with
  | nil => rw [List.foldlM_nil, List.append_nil, Outcome.pure_eq]
  | cons c l ih =>
      rw [List.length_cons] at hlen
      rw [List.foldlM_cons, putcBuf_after hsize (by omega), Outcome.ok_bind,
        ih (by rw [List.length_append, List.length_singleton]; omega), List.append_assoc,
        List.singleton_append]

theorem putsBuf_after (hsize : size ≤ buf.length) {s : CString}
    (hlen : G.length + s.chars.length < wordCount) :
    putsBuf size (.after size buf G) s = .ok (.after size buf (G ++ s.chars)) :=
  puts_after hsize hlen

theorem length_padded_ge (zero : Bool) (width : Nat) (sign digits : List UInt8) :
    (padded zero width sign digits).length = max width (digits.length + sign.length) := by
  unfold padded
  split_ifs <;> simp only [List.length_append, List.length_replicate] <;> omega

/-- **A number** comes out filled up to its width. -/
theorem emitNum_after (hsize : size ≤ buf.length) (digits : CString) (width : Nat) (zero : Bool)
    {sign : UInt8} {signs : List UInt8} (hsign : signs = if sign = 0 then [] else [sign])
    (hlen : G.length + (padded zero width signs digits.chars).length < wordCount) :
    emitNum size (.after size buf G) digits sign width zero =
      .ok (.after size buf (G ++ padded zero width signs digits.chars)) := by
  have hpadding : ((width : Int) - ((digits.chars.length : Int) + if sign = 0 then 0 else 1)).toNat =
      width - (digits.chars.length + signs.length) := by
    rw [hsign]
    split_ifs
    · rw [List.length_nil]
      omega
    · rw [List.length_singleton]
      omega
  have hputSign : ∀ G' : List UInt8, G'.length + signs.length < wordCount →
      putSign size (.after size buf G') sign = .ok (.after size buf (G' ++ signs)) := by
    intro G' hlen'
    rw [hsign] at hlen' ⊢
    unfold putSign
    split_ifs at hlen' ⊢ with hzero
    · rw [List.append_nil]
    · exact putcBuf_after hsize hlen' sign
  rw [length_padded_ge] at hlen
  simp only [emitNum, hpadding, padded]
  have hword : wordCount = 2 ^ 32 := rfl
  cases zero with
  | true =>
      rw [if_pos rfl, if_pos rfl, hputSign G (by omega), Outcome.ok_bind, puts_after hsize,
        Outcome.ok_bind, putsBuf_after hsize]
      · simp only [List.append_assoc]
      all_goals
        simp only [List.length_append, List.length_replicate]
        omega
  | false =>
      rw [if_neg Bool.false_ne_true, if_neg Bool.false_ne_true, puts_after hsize, Outcome.ok_bind,
        hputSign, Outcome.ok_bind, putsBuf_after hsize]
      · simp only [List.append_assoc]
      all_goals
        simp only [List.length_append, List.length_replicate]
        omega

end Sink

/-! ## One directive -/

section Convert

variable {size : Nat} {buf G l : List UInt8} {args args' : List Arg}

theorem text_noNul {base n : Nat} (hbase : 1 < base) (hbase' : base ≤ 16) : 0 ∉ text base n := by
  have hdigit : ∀ d < 16, digitChar d ≠ 0 := by decide
  intro hzero
  obtain ⟨d, hd, hchar⟩ := List.mem_map.1 hzero
  exact hdigit d ((lt_of_mem_numeral hbase hd).trans_le hbase') hchar

/-- `numbuf` is large enough. -/
theorem numbuf_eq (value : UInt32) {base : Nat} (hbase : 2 ≤ base) (hbase' : base ≤ 16) :
    numbuf value base = .ok (CString.of (text base value.toNat)) := by
  have hlen : (text base value.toNat).length < 33 := by
    have hlt : value.toNat < base ^ 32 :=
      value.toNat_lt.trans_le (Nat.pow_le_pow_left hbase 32)
    rw [text, List.length_map, Nat.lt_succ_iff]
    exact length_numeral_le hbase (by decide) hlt
  rw [numbuf, utoa_eq value (by omega) (by omega), Outcome.ok_bind, Int.toNat_natCast, if_pos hlen,
    Outcome.pure_eq]

theorem putsBuf_of_after (hsize : size ≤ buf.length) (h0 : 0 ∉ l)
    (hlen : G.length + l.length < wordCount) :
    putsBuf size (.after size buf G) (CString.of l) = .ok (.after size buf (G ++ l)) := by
  have hchars := chars_of h0
  rw [← hchars] at hlen
  rw [putsBuf_after hsize hlen, hchars]

/-- The unsigned conversions. -/
theorem emitNum_of_after (hsize : size ≤ buf.length) (h0 : 0 ∉ l) {width : Nat} {zero : Bool}
    (hlen : G.length + (padded zero width [] l).length < wordCount) :
    emitNum size (.after size buf G) (CString.of l) 0 width zero =
      .ok (.after size buf (G ++ padded zero width [] l)) := by
  have hchars := chars_of h0
  have h := emitNum_after hsize (CString.of l) width zero (if_pos rfl).symm (by rwa [hchars])
  rwa [hchars] at h

theorem toupper_ne_zero {c : UInt8} (hc : c ≠ 0) : toupper c ≠ 0 := by
  unfold toupper
  split_ifs with hlower
  · intro hzero
    have heq : c = 32 := by
      rw [← UInt8.sub_add_cancel c 32, hzero, UInt8.zero_add]
    rw [heq] at hlower
    exact absurd hlower (by decide)
  · exact hc

/-- An unsigned number in a directive. -/
theorem putNumber_after (hsize : size ≤ buf.length) (w : UInt32) {base width : Nat} {zero : Bool}
    (hbase : 2 ≤ base) (hbase' : base ≤ 16)
    (hlen : G.length + (padded zero width [] (text base w.toNat)).length < wordCount) :
    (do return (← emitNum size (.after size buf G) (← numbuf w base) 0 width zero, args)) =
      Outcome.ok (Sink.after size buf (G ++ padded zero width [] (text base w.toNat)), args) := by
  simp only [numbuf_eq w hbase hbase', Outcome.ok_bind,
    emitNum_of_after hsize (text_noNul hbase hbase') hlen, Outcome.pure_eq]

/-- A signed number. -/
theorem putSigned_after (hsize : size ≤ buf.length) (w : UInt32) {width : Nat} {zero : Bool}
    (hlen : G.length + (signed zero width w.toInt32).length < wordCount) :
    (do return (← emitNum size (.after size buf G)
        (← numbuf (if w.toInt32 < 0 then ~~~w + 1 else w) 10)
        (if w.toInt32 < 0 then ch '-' else 0) width zero, args)) =
      Outcome.ok (Sink.after size buf (G ++ signed zero width w.toInt32), args) := by
  have hmag : (if w.toInt32 < 0 then ~~~w + 1 else w).toNat = w.toInt32.toInt.natAbs := by
    by_cases hneg : w.toInt32 < 0
    · rw [if_pos hneg]
      exact toNat_magnitude hneg
    · rw [if_neg hneg]
      exact toNat_of_nonneg hneg
  have hsign : (if w.toInt32 < 0 then [ch '-'] else []) =
      if (if w.toInt32 < 0 then ch '-' else 0) = 0 then []
      else [if w.toInt32 < 0 then ch '-' else 0] := by
    by_cases hneg : w.toInt32 < 0
    · rw [if_pos hneg, if_pos hneg, if_neg (by decide)]
    · rw [if_neg hneg, if_neg hneg, if_pos rfl]
  have hchars : (CString.of (text 10 w.toInt32.toInt.natAbs)).chars =
      text 10 w.toInt32.toInt.natAbs := chars_of (text_noNul (by decide) (by decide))
  have hnum := numbuf_eq (if w.toInt32 < 0 then ~~~w + 1 else w) (show 2 ≤ 10 by decide) (by decide)
  have hemit := emitNum_after (G := G) hsize (CString.of (text 10 w.toInt32.toInt.natAbs)) width zero
    hsign (by rw [hchars]; exact hlen)
  rw [hmag] at hnum
  rw [hchars] at hemit
  rw [show (10 : Int) = ((10 : Nat) : Int) from rfl, hnum, Outcome.ok_bind, hemit]
  rfl

theorem TakesArg.cases {conv : UInt8} (h : ¬TakesArg conv) : conv ≠ ch 'c' ∧ conv ≠ ch 's' ∧
    ¬(conv = ch 'd' ∨ conv = ch 'i') ∧ conv ≠ ch 'u' ∧ conv ≠ ch 'x' ∧ conv ≠ ch 'X' ∧
      conv ≠ ch 'p' := by
  have hlist : ascii "csdiuxXp" =
      [ch 'c', ch 's', ch 'd', ch 'i', ch 'u', ch 'x', ch 'X', ch 'p'] := by decide
  simpa [TakesArg, hlist, not_or, and_assoc] using h

/-- A number in capital digits. -/
theorem putUpper_after (hsize : size ≤ buf.length) (w : UInt32) {width : Nat} {zero : Bool}
    (hlen : G.length + (padded zero width [] ((text 16 w.toNat).map toupper)).length < wordCount) :
    (do
      let digits ← numbuf w 16
      return (← emitNum size (.after size buf G) (CString.of (digits.chars.map toupper)) 0 width zero,
        args)) =
      Outcome.ok (Sink.after size buf (G ++ padded zero width [] ((text 16 w.toNat).map toupper)),
        args) := by
  have hnoNul : 0 ∉ text 16 w.toNat := text_noNul (by decide) (by decide)
  have hupper : 0 ∉ (text 16 w.toNat).map toupper := by
    intro hzero
    obtain ⟨c, hc, hnul⟩ := List.mem_map.1 hzero
    refine toupper_ne_zero (fun h => hnoNul ?_) hnul
    rwa [h] at hc
  have hnum : numbuf w 16 = .ok (CString.of (text 16 w.toNat)) :=
    numbuf_eq w (by decide) (by decide)
  simp only [hnum, Outcome.ok_bind, chars_of hnoNul, emitNum_of_after hsize hupper hlen,
    Outcome.pure_eq]

variable {zero : Bool} {width : Nat} {conv : UInt8}

/-- The directives for characters and numbers. -/
theorem convert_word (hsize : size ≤ buf.length) {w : UInt32}
    (hfield : field zero width conv (.word w) = some l) (hlen : G.length + l.length < wordCount) :
    convert size (.after size buf G) (.word w :: args) zero width conv =
      .ok (.after size buf (G ++ l), args) := by
  simp only [field] at hfield
  split_ifs at hfield with hc hd hu hx hX
  all_goals obtain rfl := Option.some.inj hfield
  · rw [convert, if_pos hc, vaWord, Outcome.ok_bind]
    simp only [putcBuf_after hsize hlen, Outcome.ok_bind, Outcome.pure_eq]
  · have hskip : conv ≠ ch 'c' ∧ conv ≠ ch 's' := by
      rcases hd with rfl | rfl <;> decide
    rw [convert, if_neg hskip.1, if_neg hskip.2, if_pos hd, vaWord, Outcome.ok_bind]
    exact putSigned_after hsize w hlen
  · subst hu
    rw [convert, if_neg hc, if_neg (by decide), if_neg hd, if_pos rfl, vaWord, Outcome.ok_bind]
    exact putNumber_after hsize w (by decide) (by decide) hlen
  · subst hx
    rw [convert, if_neg hc, if_neg (by decide), if_neg hd, if_neg hu, if_pos rfl, vaWord,
      Outcome.ok_bind]
    exact putNumber_after hsize w (by decide) (by decide) hlen
  · subst hX
    rw [convert, if_neg hc, if_neg (by decide), if_neg hd, if_neg hu, if_neg hx, if_pos rfl, vaWord,
      Outcome.ok_bind]
    exact putUpper_after hsize w hlen

/-- The directive for pointers. -/
theorem convert_ptr (hsize : size ≤ buf.length) {address : UInt32}
    (hfield : field zero width conv (.ptr address) = some l)
    (hlen : G.length + l.length < wordCount) :
    convert size (.after size buf G) (.ptr address :: args) zero width conv =
      .ok (.after size buf (G ++ l), args) := by
  simp only [field] at hfield
  split_ifs at hfield with hp
  obtain rfl := Option.some.inj hfield
  subst hp
  rw [List.length_append] at hlen
  have hmark := putsBuf_of_after (l := ascii "0x") (G := G) hsize (by decide) (by omega)
  rw [convert, if_neg (by decide), if_neg (by decide), if_neg (by decide), if_neg (by decide),
    if_neg (by decide), if_neg (by decide), if_pos rfl, vaPtr, Outcome.ok_bind, ← List.append_assoc]
  simp only [hexMark, hmark, Outcome.ok_bind]
  refine putNumber_after hsize address (by decide) (by decide) ?_
  rw [List.length_append, Nat.add_assoc]
  exact hlen

/-- The directive for strings. -/
theorem convert_str (hsize : size ≤ buf.length) {s : Option CString}
    (hfield : field zero width conv (.str s) = some l) (hlen : G.length + l.length < wordCount) :
    convert size (.after size buf G) (.str s :: args) zero width conv =
      .ok (.after size buf (G ++ l), args) := by
  simp only [field] at hfield
  split_ifs at hfield with hs
  obtain rfl := Option.some.inj hfield
  subst hs
  rw [convert, if_neg (by decide), if_pos rfl, vaStr, Outcome.ok_bind]
  simp only [putsBuf_after hsize hlen, Outcome.ok_bind, Outcome.pure_eq]

/-- `%%`, and characters that are no conversion. -/
theorem convert_plain (hsize : size ≤ buf.length) (htakes : ¬TakesArg conv)
    (hlen : G.length + (if conv = ch '%' then [ch '%'] else [ch '%', conv]).length < wordCount) :
    convert size (.after size buf G) args zero width conv =
      .ok (.after size buf (G ++ if conv = ch '%' then [ch '%'] else [ch '%', conv]), args) := by
  obtain ⟨hc, hs, hd, hu, hx, hX, hp⟩ := TakesArg.cases htakes
  rw [convert, if_neg hc, if_neg hs, if_neg hd, if_neg hu, if_neg hx, if_neg hX, if_neg hp]
  by_cases hpercent : conv = ch '%'
  · rw [if_pos hpercent] at hlen
    rw [if_pos hpercent, if_pos hpercent, putcBuf_after hsize hlen, Outcome.ok_bind,
      Outcome.pure_eq]
  · rw [if_neg hpercent] at hlen
    have hlen' : G.length + 2 < wordCount := hlen
    rw [if_neg hpercent, if_neg hpercent, putcBuf_after hsize (by omega), Outcome.ok_bind,
      putcBuf_after hsize (by rw [List.length_append, List.length_singleton]; omega),
      Outcome.ok_bind, Outcome.pure_eq, List.append_assoc]
    rfl

/-- **A directive** puts its characters out and takes its argument. -/
theorem convert_after (hsize : size ≤ buf.length)
    (hpiece : (Piece.directive zero width conv).output args = some (l, args'))
    (hlen : G.length + l.length < wordCount) :
    convert size (.after size buf G) args zero width conv =
      .ok (.after size buf (G ++ l), args') := by
  by_cases htakes : TakesArg conv
  · simp only [Piece.output, htakes, if_true] at hpiece
    cases args with
    | nil => cases hpiece
    | cons arg args =>
        obtain ⟨l', hfield, heq⟩ := Option.map_eq_some_iff.1 hpiece
        obtain ⟨rfl, rfl⟩ := Prod.mk.inj heq
        cases arg with
        | word w => exact convert_word hsize hfield hlen
        | ptr address => exact convert_ptr hsize hfield hlen
        | str s => exact convert_str hsize hfield hlen
  · have hplain : (if conv = ch '%' then [ch '%'] else [ch '%', conv]) = l ∧ args = args' := by
      simp only [Piece.output, htakes, if_false] at hpiece
      split_ifs at hpiece ⊢ <;> exact Prod.mk.inj (Option.some.inj hpiece)
    obtain ⟨rfl, rfl⟩ := hplain
    exact convert_plain hsize htakes hlen

end Convert

/-! ## The loop -/

section Loop

variable {size fuel p : Nat} {buf G F s rest : List UInt8} {fmt : CString} {args : List Arg}
  {c conv : UInt8}

theorem parse_char (hc : c ≠ ch '%') : parse (c :: s) = .char c :: parse s := by
  rw [parse, if_pos hc]

theorem parse_unfinished (h : (afterFlag s).dropWhile isdigit = []) :
    parse (ch '%' :: s) = [.unfinished (readFrom 10 0 (leading (afterFlag s)))] := by
  rw [parse, if_neg (not_not.2 rfl)]
  split
  · rfl
  · rename_i heq
    rw [h] at heq
    cases heq

theorem parse_directive (h : (afterFlag s).dropWhile isdigit = conv :: rest) :
    parse (ch '%' :: s) =
      .directive (s.head? = some (ch '0')) (readFrom 10 0 (leading (afterFlag s))) conv ::
        parse rest := by
  rw [parse, if_neg (not_not.2 rfl)]
  split
  · rename_i heq
    rw [h] at heq
    cases heq
  · rename_i heq
    rw [h] at heq
    obtain ⟨rfl, rfl⟩ := List.cons.inj heq
    rfl

theorem drop_afterFlag (hp : p ≤ fmt.chars.length) (hs : fmt.chars.drop p = s) :
    fmt.chars.drop (if s.head? = some (ch '0') then p + 1 else p) = afterFlag s ∧
      (if s.head? = some (ch '0') then p + 1 else p) ≤ fmt.chars.length := by
  unfold afterFlag
  split_ifs with hflag
  · cases s with
    | nil => cases hflag
    | cons c s => exact drop_succ hs
  · exact ⟨hs, hp⟩

/-- Behind the digits of the width. -/
theorem drop_leading {t : List UInt8} (hp : p ≤ fmt.chars.length) (ht : fmt.chars.drop p = t) :
    fmt.chars.drop (p + (leading t).length) = t.dropWhile isdigit ∧
      p + (leading t).length ≤ fmt.chars.length := by
  have hlen : (leading t).length = (t.takeWhile isdigit).length := List.length_map _
  have hsplit : t.takeWhile isdigit ++ t.dropWhile isdigit = t := List.takeWhile_append_dropWhile
  have htotal := congrArg List.length hsplit
  have hdrop := congrArg List.length ht
  rw [List.length_append] at htotal
  rw [List.length_drop] at hdrop
  refine ⟨?_, by omega⟩
  calc fmt.chars.drop (p + (leading t).length)
      = (t.takeWhile isdigit ++ t.dropWhile isdigit).drop (t.takeWhile isdigit).length := by
        rw [← List.drop_drop, ht, hlen, hsplit]
    _ = t.dropWhile isdigit := List.drop_left

/-- What a turn of the loop does with any other character. -/
theorem kvLoop_char (o : Sink) (size fuel : Nat) (args : List Arg)
    (hs : fmt.chars.drop p = c :: s) (hc : c ≠ ch '%') :
    kvLoop size fmt (fuel + 1) p o args =
      putcBuf size o c >>= fun o => kvLoop size fmt fuel (p + 1) o args := by
  have hmem : c ∈ fmt.chars.drop p := hs ▸ List.mem_cons_self ..
  have hne : c ≠ 0 := fun h => fmt.noNul (h ▸ List.mem_of_mem_drop hmem)
  rw [kvLoop, get_of_drop_cons hs, Outcome.ok_bind, if_neg hne, if_pos hc]

/-- The width of a directive is that of its piece. -/
theorem first_width (hwidth : ∀ piece ∈ parse (ch '%' :: s), piece.width < 2 ^ 31) :
    readFrom 10 0 (leading (afterFlag s)) < 2 ^ 31 := by
  cases hconv : (afterFlag s).dropWhile isdigit with
  | nil =>
      rw [parse_unfinished hconv] at hwidth
      exact hwidth _ (List.mem_singleton_self _)
  | cons conv rest =>
      rw [parse_directive hconv] at hwidth
      exact hwidth _ (List.mem_cons_self ..)

/-- What a turn of the loop does with a directive. -/
theorem kvLoop_directive (o : Sink) (size fuel : Nat) (args : List Arg)
    (hs : fmt.chars.drop p = ch '%' :: s)
    (hwidth : readFrom 10 0 (leading (afterFlag s)) < 2 ^ 31) :
    ∃ q, p < q ∧ q ≤ fmt.chars.length ∧ fmt.chars.drop q = (afterFlag s).dropWhile isdigit ∧
      kvLoop size fmt (fuel + 1) p o args =
        match (afterFlag s).dropWhile isdigit with
        | [] => kvLoop size fmt fuel q o args
        | conv :: _ =>
            convert size o args (s.head? = some (ch '0'))
              (readFrom 10 0 (leading (afterFlag s)) : Nat) conv >>= fun r =>
            kvLoop size fmt fuel (q + 1) r.1 r.2 := by
  obtain ⟨hs', hp'⟩ := drop_succ hs
  obtain ⟨hflag, hpFlag⟩ := drop_afterFlag hp' hs'
  obtain ⟨hconv, hpConv⟩ := drop_leading hpFlag hflag
  refine ⟨_, ?_, hpConv, hconv, ?_⟩
  · split_ifs <;> omega
  have hzero : (s.head?.getD 0 = ch '0') ↔ s.head? = some (ch '0') := by
    cases s with
    | nil => simp; decide
    | cons c s => simp
  have hscan := scanDigits_eq hpFlag (show fmt.chars.length < _ + (fmt.chars.length + 1) by omega)
    (show 0 < 2 ^ 31 by decide)
  rw [hflag, if_pos hwidth, Nat.cast_zero] at hscan
  have hget := get_eq hp'
  have hgetConv := get_eq hpConv
  rw [hs'] at hget
  rw [hconv] at hgetConv
  rw [kvLoop, get_of_drop_cons hs, Outcome.ok_bind, if_neg (by decide), if_neg (not_not.2 rfl)]
  simp only [hget, hzero, hscan, hgetConv, Outcome.ok_bind]
  cases hrest : (afterFlag s).dropWhile isdigit with
  | nil =>
      have hback : (if s.head? = some (ch '0') then p + 1 + 1 else p + 1) +
          (leading (afterFlag s)).length - 1 + 1 = _ := Nat.sub_add_cancel (by split_ifs <;> omega)
      simp only [List.head?_nil, Option.getD_none, if_true, hback]
  | cons conv rest =>
      have hmem : conv ∈ conv :: rest := List.mem_cons_self ..
      rw [← hrest, ← hconv] at hmem
      have hne : conv ≠ 0 := fun h => fmt.noNul (h ▸ List.mem_of_mem_drop hmem)
      simp only [List.head?_cons, Option.getD_some, hne, if_false]

theorem fullOutput_cons {piece : Piece} {pieces : List Piece} :
    fullOutput (piece :: pieces) args = some F ↔ ∃ l args' F', piece.output args = some (l, args') ∧
      fullOutput pieces args' = some F' ∧ l ++ F' = F := by
  simp only [fullOutput, Option.bind_eq_bind, Option.bind_eq_some_iff, Option.pure_def,
    Option.some.injEq, Prod.exists]
  constructor
  · rintro ⟨l, args', hl, F', hF', rfl⟩
    exact ⟨l, args', F', hl, hF', rfl⟩
  · rintro ⟨l, args', F', hl, hF', rfl⟩
    exact ⟨l, args', hl, F', hF', rfl⟩

/-- **The loop** puts the output of the rest of the format out: induction over the fuel. The sink
holds the output so far. -/
theorem kvLoop_eq (hsize : size ≤ buf.length) (hp : p ≤ fmt.chars.length)
    (hfuel : fmt.chars.length < p + fuel)
    (hout : fullOutput (parse (fmt.chars.drop p)) args = some F)
    (hwidth : ∀ piece ∈ parse (fmt.chars.drop p), piece.width < 2 ^ 31)
    (hlen : G.length + F.length < wordCount) :
    kvLoop size fmt fuel p (.after size buf G) args = .ok (.after size buf (G ++ F)) := by
  induction fuel generalizing p G args F with
  | zero => omega
  | succ fuel ih =>
      cases hrest : fmt.chars.drop p with
      | nil =>
          rw [hrest, parse] at hout
          obtain rfl : [] = F := Option.some.inj hout
          rw [kvLoop, get_of_drop_nil hp hrest, Outcome.ok_bind, if_pos rfl, List.append_nil]
          rfl
      | cons c s =>
          obtain ⟨hdrop, hp'⟩ := drop_succ hrest
          rw [hrest] at hout hwidth
          by_cases hchar : c = ch '%'
          · subst hchar
            obtain ⟨q, hlt, hq, hdropq, hturn⟩ := kvLoop_directive (.after size buf G) size fuel
              args hrest (first_width hwidth)
            rw [hturn]
            cases hconv : (afterFlag s).dropWhile isdigit with
            | nil =>
                rw [parse_unfinished hconv] at hout
                obtain ⟨l, args', F', hl, hF', rfl⟩ := fullOutput_cons.1 hout
                obtain ⟨rfl, rfl⟩ := Prod.mk.inj (Option.some.inj hl)
                rw [hconv] at hdropq
                exact ih hq (by omega) (by rw [hdropq, parse]; exact hF') (by simp [hdropq, parse])
                  hlen
            | cons conv rest =>
                rw [parse_directive hconv] at hout hwidth
                obtain ⟨l, args', F', hl, hF', rfl⟩ := fullOutput_cons.1 hout
                rw [List.length_append] at hlen
                obtain ⟨hdropq', hq'⟩ := drop_succ (hdropq.trans hconv)
                rw [List.forall_mem_cons] at hwidth
                have hconvert := convert_after (G := G) hsize hl (by omega)
                simp only [hconvert, Outcome.ok_bind]
                rw [ih hq' (by omega) (hdropq' ▸ hF') (hdropq' ▸ hwidth.2)
                  (by rw [List.length_append]; omega), List.append_assoc]
          · rw [parse_char hchar] at hout hwidth
            obtain ⟨l, args', F', hl, hF', rfl⟩ := fullOutput_cons.1 hout
            obtain ⟨rfl, rfl⟩ := Prod.mk.inj (Option.some.inj hl)
            rw [List.forall_mem_cons] at hwidth
            rw [List.length_append, List.length_singleton] at hlen
            rw [kvLoop_char _ size fuel args hrest hchar, putcBuf_after hsize (by omega),
              Outcome.ok_bind, ih hp' (by omega) (hdrop ▸ hF') (hdrop ▸ hwidth.2)
                (by rw [List.length_append, List.length_singleton]; omega), List.append_assoc]

/-- **Formatted output** counts all of the output and stores what fits of it. -/
theorem kvsnprintf_eq (hsize : size ≤ buf.length)
    (hout : fullOutput (parse fmt.chars) args = some F)
    (hwidth : ∀ piece ∈ parse fmt.chars, piece.width < 2 ^ 31) (hlen : F.length < 2 ^ 31) :
    kvsnprintf buf size fmt args = .ok ((F.length : Int), bounded size buf F) := by
  have hloop : kvLoop size fmt (fmt.chars.length + 1) 0 (.after size buf []) args =
      .ok (.after size buf ([] ++ F)) :=
    kvLoop_eq hsize (Nat.zero_le _) (by omega) hout hwidth
      (by rw [List.length_nil, wordCount]; omega)
  have hstart : Sink.after size buf [] = ⟨buf, 0⟩ := by
    rw [Sink.after, List.take_nil]
    rfl
  have hreturn : (UInt32.ofNat F.length).toInt32.toInt = (F.length : Int) := by
    have hbits : (UInt32.ofNat F.length).toInt32.toUInt32.toNat = F.length :=
      UInt32.toNat_ofNat_of_lt' (hlen.trans (by decide))
    rw [toInt_eq, hbits, if_pos (by omega)]
  rw [hstart, List.nil_append] at hloop
  rw [kvsnprintf, hloop, Outcome.ok_bind]
  by_cases hzero : size = 0
  · subst hzero
    rw [if_neg (Nat.lt_irrefl 0)]
    simp only [Sink.after, hreturn, bounded, if_true]
    rfl
  · have hstore : store (Sink.after size buf F).buf
        (if (Sink.after size buf F).total < size then (Sink.after size buf F).total else size - 1) 0 =
        .ok (bounded size buf F) := by
      have hplace : (if (Sink.after size buf F).total < size then (Sink.after size buf F).total
          else size - 1) = (F.take (size - 1)).length := by
        change (if F.length < size then F.length else size - 1) = _
        rw [List.length_take]
        split_ifs <;> omega
      rw [hplace, bounded, if_neg hzero]
      exact store_overwrite (by rw [List.length_take]; omega) 0
    rw [if_pos (Nat.pos_of_ne_zero hzero), hstore, Outcome.ok_bind]
    simp only [Sink.after, hreturn]
    rfl

/-- What is stored, with its NUL. -/
theorem length_stored (hsize : 0 < size) (F : List UInt8) :
    (F.take (size - 1) ++ [0]).length = min F.length (size - 1) + 1 ∧
      (F.take (size - 1) ++ [0]).length ≤ size := by
  rw [List.length_append, List.length_take, List.length_singleton]
  omega

/-- **Formatted output is cut off safely.** The call returns the length of the whole output, it
changes nothing from `buf[size]` on, and it leaves as much of the output as fits, with a NUL behind
it. -/
theorem kvsnprintf_truncates (hsize : size ≤ buf.length)
    (hout : fullOutput (parse fmt.chars) args = some F)
    (hwidth : ∀ piece ∈ parse fmt.chars, piece.width < 2 ^ 31) (hlen : F.length < 2 ^ 31) :
    ∃ buf', kvsnprintf buf size fmt args = .ok ((F.length : Int), buf') ∧
      buf'.length = buf.length ∧ (∀ i, size ≤ i → buf'[i]? = buf[i]?) ∧
      (0 < size → buf'.take (min F.length (size - 1) + 1) =
        F.take (min F.length (size - 1)) ++ [0]) := by
  refine ⟨_, kvsnprintf_eq hsize hout hwidth hlen, ?_⟩
  by_cases hzero : size = 0
  · rw [bounded, if_pos hzero]
    exact ⟨rfl, fun _ _ => rfl, fun hpos => absurd hzero hpos.ne'⟩
  · obtain ⟨hstored, hfits⟩ := length_stored (Nat.pos_of_ne_zero hzero) F
    rw [bounded, if_neg hzero]
    refine ⟨length_overwrite (hfits.trans hsize), fun i hi => getElem?_overwrite (hfits.trans hi),
      fun _ => ?_⟩
    rw [← hstored, take_overwrite, Nat.min_comm, ← List.take_take, List.take_length]

/-- A string that is longer than the buffer, and a format that ends inside of a directive. -/
theorem kvsnprintf_tiny :
    ∃ buf', kvsnprintf [1, 2, 3, 4, 5] 4 (CString.of (ascii "%s%"))
        [.str (some (CString.of (ascii "abcdef")))] = .ok (6, buf') ∧
      buf'.length = 5 ∧ (∀ i, 4 ≤ i → buf'[i]? = [1, 2, 3, 4, (5 : UInt8)][i]?) ∧
      (0 < 4 → buf'.take 4 = ascii "abc" ++ [0]) := by
  have hchars : (CString.of (ascii "%s%")).chars = [ch '%', ch 's', ch '%'] := by decide
  have hparse : parse (CString.of (ascii "%s%")).chars =
      [.directive false 0 (ch 's'), .unfinished 0] := by
    have hconv : (afterFlag [ch 's', ch '%']).dropWhile isdigit = ch 's' :: [ch '%'] := by decide
    rw [hchars, parse_directive hconv, parse_unfinished (by decide)]
    rfl
  exact kvsnprintf_truncates (F := ascii "abcdef") (by decide) (by rw [hparse]; decide)
    (by rw [hparse]; simp [Piece.width]) (by decide)

end Loop

end Munux.Libk
