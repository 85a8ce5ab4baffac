import Munux.Libk.Printf

/-!
# Agreement with C

What the C standard says about the part of `printf` that `kvsnprintf` supports: literal characters,
`%%`, and the conversions `d i u x X s c`, each with an optional minimum width, and the first five
with an optional flag `0`. A field that is too short is filled up on its left, with blanks or,
behind the sign, with zeros.

`kvsnprintf` reads the width of every directive, and ignores it for `%s` and `%c`. Its output is
what C demands exactly when no string and no character is shorter than its width
(`kvsnprintf_standard_iff`).
-/

namespace Munux.Libk

/-- The conversions of integers. -/
inductive IntConv where
  | d
  | i
  | u
  | x
  | X
  deriving DecidableEq

def IntConv.char : IntConv → UInt8
  | d => ch 'd'
  | i => ch 'i'
  | u => ch 'u'
  | x => ch 'x'
  | X => ch 'X'

/-- What a format of the subset consists of. The width is 0 where there is none. -/
inductive Directive where
  | literal (c : UInt8) (ordinary : c ≠ 0 ∧ c ≠ ch '%')
  | percent
  | int (conv : IntConv) (zero : Bool) (width : Nat)
  | string (width : Nat)
  | char (width : Nat)

namespace Directive

/-- The minimum width of a field. -/
def width : Directive → Nat
  | literal _ _ | percent => 0
  | int _ _ width | string width | char width => width

/-- A directive with a flag and a width. -/
def spell (zero : Bool) (width : Nat) (conv : UInt8) : List UInt8 :=
  ch '%' :: ((if zero then [ch '0'] else []) ++
    ((if width = 0 then [] else text 10 width) ++ [conv]))

/-- The characters of a directive. -/
def spelling : Directive → List UInt8
  | literal c _ => [c]
  | percent => [ch '%', ch '%']
  | int conv zero width => spell zero width conv.char
  | string width => spell false width (ch 's')
  | char width => spell false width (ch 'c')

end Directive

/-- Filled up with blanks on the left. -/
def justify (width : Nat) (l : List UInt8) : List UInt8 :=
  List.replicate (width - l.length) (ch ' ') ++ l

/-- An integer, filled up with zeros behind the sign or with blanks before it. -/
def intField (zero : Bool) (width : Nat) (sign digits : List UInt8) : List UInt8 :=
  if zero then sign ++ List.replicate (width - (sign ++ digits).length) (ch '0') ++ digits
  else justify width (sign ++ digits)

/-- The digits of `%X` -/
def upperChar (d : Nat) : UInt8 := (ascii "0123456789ABCDEF").getD d 0

/-- An integer in a field, by its conversion. -/
def IntConv.field (conv : IntConv) (zero : Bool) (width : Nat) (w : UInt32) : List UInt8 :=
  match conv with
  | d | i => intField zero width (if w.toInt32.toInt < 0 then [ch '-'] else [])
      (text 10 w.toInt32.toInt.natAbs)
  | u => intField zero width [] (text 10 w.toNat)
  | x => intField zero width [] (text 16 w.toNat)
  | X => intField zero width [] ((numeral 16 w.toNat).map upperChar)

/-- What the standard asks for, and the arguments that are left. -/
def Directive.standard : Directive → List Arg → Option (List UInt8 × List Arg)
  | literal c _, args => some ([c], args)
  | percent, args => some ([ch '%'], args)
  | int conv zero width, .word w :: args => some (conv.field zero width w, args)
  | string width, .str (some s) :: args => some (justify width s.chars, args)
  | char width, .word w :: args => some (justify width [w.toUInt8], args)
  | _, _ => none

/-- The output that the standard asks for, if the arguments match. -/
def standardOutput : List Directive → List Arg → Option (List UInt8)
  | [], _ => some []
  | d :: ds, args => do
      let (l, args) ← d.standard args
      let rest ← standardOutput ds args
      return l ++ rest

/-- A string or character is not shorter than its width. -/
def Directive.Fits : Directive → List Arg → Prop
  | string width, .str (some s) :: _ => width ≤ s.chars.length
  | char width, _ => width ≤ 1
  | _, _ => True

/-- No string and no character is. -/
def Fit : List Directive → List Arg → Prop
  | [], _ => True
  | d :: ds, args => d.Fits args ∧ ∀ l args', d.standard args = some (l, args') → Fit ds args'

/-! ## The format -/

section Format

variable {zero : Bool} {width : Nat} {conv : UInt8} {rest : List UInt8} {d : Directive}

/-- The piece that a directive is parsed into. -/
def Directive.piece : Directive → Piece
  | literal c _ => .char c
  | percent => .directive false 0 (ch '%')
  | int conv zero width => .directive zero width conv.char
  | string width => .directive false width (ch 's')
  | char width => .directive false width (ch 'c')

/-- The characters of a width. -/
theorem leading_width (hconv : isdigit conv = false) (width : Nat) (rest : List UInt8) :
    readFrom 10 0 (leading ((if width = 0 then [] else text 10 width) ++ conv :: rest)) = width ∧
      ((if width = 0 then [] else text 10 width) ++ conv :: rest).dropWhile isdigit =
        conv :: rest := by
  have hdigits : ∀ c ∈ (if width = 0 then [] else text 10 width), isdigit c = true := by
    intro c hc
    split_ifs at hc
    · cases hc
    · exact isdigit_of_mem_text hc
  have hstop : (conv :: rest).takeWhile isdigit = [] :=
    List.takeWhile_cons_of_neg (by rw [hconv]; exact Bool.false_ne_true)
  have hstop' : (conv :: rest).dropWhile isdigit = conv :: rest :=
    List.dropWhile_cons_of_neg (by rw [hconv]; exact Bool.false_ne_true)
  refine ⟨?_, ?_⟩
  · rw [leading, List.takeWhile_append_of_pos hdigits, hstop, List.append_nil]
    split_ifs with hzero
    · exact hzero.symm
    · have hread := leading_text width
      rw [leading, List.takeWhile_eq_self_iff.2 fun c hc => isdigit_of_mem_text hc] at hread
      rw [hread, readFrom_numeral]
  · rw [List.dropWhile_append_of_pos hdigits, hstop']

/-- A width does not start with a zero. -/
theorem head?_width (hconv : isdigit conv = false) (width : Nat) (rest : List UInt8) :
    ((if width = 0 then [] else text 10 width) ++ conv :: rest).head? ≠ some (ch '0') := by
  by_cases hzero : width = 0
  · rw [if_pos hzero, List.nil_append, List.head?_cons]
    rintro h
    rw [Option.some.inj h] at hconv
    exact absurd hconv (by decide)
  · have hlead : ∀ d < 10, digitChar d = ch '0' → d = 0 := by decide
    obtain ⟨d, ds, hcons⟩ := List.exists_cons_of_ne_nil (numeral_ne_nil 10 width)
    have hd : d < 10 := lt_of_mem_numeral (n := width) (by decide) (hcons ▸ List.mem_cons_self ..)
    rw [if_neg hzero, text, hcons, List.map_cons, List.cons_append, List.head?_cons]
    intro h
    have hhead := head?_numeral (b := 10) hzero
    rw [hcons, List.head?_cons] at hhead
    exact hhead (congrArg some (hlead d hd (Option.some.inj h)))

/-- **A directive is parsed** as it is spelled. -/
theorem parse_spell (hconv : isdigit conv = false) :
    parse (Directive.spell zero width conv ++ rest) = .directive zero width conv :: parse rest := by
  obtain ⟨hvalue, hrest⟩ := leading_width hconv width rest
  have hsplit : Directive.spell zero width conv ++ rest =
      ch '%' :: ((if zero then [ch '0'] else []) ++
        ((if width = 0 then [] else text 10 width) ++ conv :: rest)) := by
    simp [Directive.spell]
  rw [hsplit]
  cases zero with
  | true =>
      have hflag : afterFlag ([ch '0'] ++
          ((if width = 0 then [] else text 10 width) ++ conv :: rest)) =
          (if width = 0 then [] else text 10 width) ++ conv :: rest := if_pos rfl
      rw [if_pos rfl, parse_directive (hflag ▸ hrest), hflag, hvalue]
      rfl
  | false =>
      have hhead := head?_width hconv width rest
      have hflag : afterFlag ([] ++ ((if width = 0 then [] else text 10 width) ++ conv :: rest)) =
          (if width = 0 then [] else text 10 width) ++ conv :: rest := if_neg hhead
      rw [if_neg Bool.false_ne_true, parse_directive (hflag ▸ hrest), hflag, hvalue,
        List.nil_append, decide_eq_false hhead]

theorem parse_spelling (d : Directive) (rest : List UInt8) :
    parse (d.spelling ++ rest) = d.piece :: parse rest := by
  cases d with
  | literal c ordinary => exact parse_char ordinary.2
  | percent =>
      show parse (Directive.spell false 0 (ch '%') ++ rest) =
        .directive false 0 (ch '%') :: parse rest
      exact parse_spell (by decide)
  | int conv zero width => exact parse_spell (by cases conv <;> decide)
  | string width => exact parse_spell (by decide)
  | char width => exact parse_spell (by decide)

theorem parse_format (ds : List Directive) :
    parse (ds.flatMap Directive.spelling) = ds.map Directive.piece := by
  induction ds with
  | nil => rw [List.flatMap_nil, parse, List.map_nil]
  | cons d ds ih => rw [List.flatMap_cons, parse_spelling, ih, List.map_cons]

end Format

/-! ## The fields -/

section Fields

variable {d : Directive} {ds : List Directive} {args args' : List Arg} {l E : List UInt8}

theorem padded_eq (zero : Bool) (width : Nat) (sign digits : List UInt8) :
    padded zero width sign digits = intField zero width sign digits := by
  simp only [padded, intField, justify, List.length_append, Nat.add_comm, List.append_assoc]

/-- Integers come out as the standard asks. -/
theorem field_int (conv : IntConv) (zero : Bool) (width : Nat) (w : UInt32) :
    field zero width conv.char (.word w) = some (conv.field zero width w) := by
  have hsigned : signed zero width w.toInt32 = intField zero width
      (if w.toInt32.toInt < 0 then [ch '-'] else []) (text 10 w.toInt32.toInt.natAbs) := by
    simp only [signed, padded_eq, Int32.lt_iff_toInt_lt, Int32.toInt_zero]
  have hupper : (text 16 w.toNat).map toupper = (numeral 16 w.toNat).map upperChar := by
    have hdigit : ∀ d < 16, toupper (digitChar d) = upperChar d := by decide
    rw [text, List.map_map]
    exact List.map_congr_left fun d hd => hdigit d (lt_of_mem_numeral (by decide) hd)
  cases conv with
  | d => exact congrArg some hsigned
  | i => exact congrArg some hsigned
  | u => exact congrArg some (padded_eq ..)
  | x => exact congrArg some (padded_eq ..)
  | X => exact congrArg some ((congrArg _ hupper).trans (padded_eq ..))

theorem justify_length (width : Nat) (l : List UInt8) :
    (justify width l).length = max width l.length := by
  rw [justify, List.length_append, List.length_replicate]
  omega

theorem justify_fits {width : Nat} (h : width ≤ l.length) : justify width l = l := by
  rw [justify, Nat.sub_eq_zero_of_le h, List.replicate_zero, List.nil_append]

/-- What comes out of a field that should have been filled up. -/
theorem unfilled {P : Prop} {width : Nat} (h : P ↔ width ≤ l.length) :
    l.length ≤ (justify width l).length ∧ (l.length = (justify width l).length ↔ P) ∧
      (P → l = justify width l) := by
  rw [justify_length, h]
  exact ⟨by omega, by omega, fun hfits => (justify_fits hfits).symm⟩

/-- **One directive:** what is missing is the width of a string or a character. -/
theorem piece_output (h : d.standard args = some (l, args')) :
    ∃ l', d.piece.output args = some (l', args') ∧ l'.length ≤ l.length ∧
      (l'.length = l.length ↔ d.Fits args) ∧ (d.Fits args → l' = l) := by
  unfold Directive.standard at h
  split at h
  case h_1 c ordinary args =>
    obtain ⟨rfl, rfl⟩ := Prod.mk.inj (Option.some.inj h)
    exact ⟨_, rfl, le_rfl, iff_of_true rfl trivial, fun _ => rfl⟩
  case h_2 args =>
    obtain ⟨rfl, rfl⟩ := Prod.mk.inj (Option.some.inj h)
    exact ⟨_, rfl, le_rfl, iff_of_true rfl trivial, fun _ => rfl⟩
  case h_3 conv zero width w args =>
    obtain ⟨rfl, rfl⟩ := Prod.mk.inj (Option.some.inj h)
    have htakes : TakesArg conv.char := by cases conv <;> decide
    refine ⟨_, ?_, le_rfl, iff_of_true rfl trivial, fun _ => rfl⟩
    rw [Directive.piece, Piece.output, if_pos htakes, field_int]
    rfl
  case h_4 width s args =>
    obtain ⟨rfl, rfl⟩ := Prod.mk.inj (Option.some.inj h)
    exact ⟨_, rfl, unfilled Iff.rfl⟩
  case h_5 width w args =>
    obtain ⟨rfl, rfl⟩ := Prod.mk.inj (Option.some.inj h)
    exact ⟨_, rfl, unfilled Iff.rfl⟩
  case h_6 => cases h

theorem standardOutput_cons : standardOutput (d :: ds) args = some E ↔
    ∃ l args' E', d.standard args = some (l, args') ∧ standardOutput ds args' = some E' ∧
      l ++ E' = E := by
  simp only [standardOutput, Option.bind_eq_bind, Option.bind_eq_some_iff, Option.pure_def,
    Option.some.injEq, Prod.exists]
  constructor
  · rintro ⟨l, args', hl, E', hE', rfl⟩
    exact ⟨l, args', E', hl, hE', rfl⟩
  · rintro ⟨l, args', E', hl, hE', rfl⟩
    exact ⟨l, args', hl, E', hE', rfl⟩

/-- **The whole output:** induction over the directives. -/
theorem fullOutput_pieces (h : standardOutput ds args = some E) :
    ∃ F, fullOutput (ds.map Directive.piece) args = some F ∧ F.length ≤ E.length ∧
      (F.length = E.length ↔ Fit ds args) ∧ (Fit ds args → F = E) := by
  induction ds generalizing args E with
  | nil =>
      obtain rfl : [] = E := Option.some.inj h
      exact ⟨[], rfl, le_rfl, iff_of_true rfl trivial, fun _ => rfl⟩
  | cons d ds ih =>
      obtain ⟨l, args', E', hl, hE', rfl⟩ := standardOutput_cons.1 h
      obtain ⟨l', hl', hle, hlen, heq⟩ := piece_output hl
      obtain ⟨F', hF', hleF, hlenF, heqF⟩ := ih hE'
      have hfit : Fit (d :: ds) args ↔ d.Fits args ∧ Fit ds args' := by
        refine and_congr_right fun _ => ⟨fun h => h l args' hl, fun h l₂ args₂ h₂ => ?_⟩
        obtain ⟨-, rfl⟩ := Prod.mk.inj (Option.some.inj (hl.symm.trans h₂))
        exact h
      refine ⟨l' ++ F', fullOutput_cons.2 ⟨l', args', F', hl', hF', rfl⟩, ?_, ?_, ?_⟩
      · rw [List.length_append, List.length_append]
        omega
      · rw [List.length_append, List.length_append, hfit, ← hlen, ← hlenF]
        omega
      · intro hall
        obtain ⟨hfirst, hrest⟩ := hfit.1 hall
        rw [heq hfirst, heqF hrest]

theorem width_piece (d : Directive) : d.piece.width = d.width := by
  cases d <;> rfl

/-- **`kvsnprintf` is C's `snprintf`,** for every size of the buffer, exactly when no string and no
character is shorter than its width. -/
theorem kvsnprintf_standard_iff {fmt : CString} (hfmt : fmt.chars = ds.flatMap Directive.spelling)
    (hout : standardOutput ds args = some E) (hwidth : ∀ d ∈ ds, d.width < 2 ^ 31)
    (hlen : E.length < 2 ^ 31) :
    (∀ size buf, size ≤ buf.length →
      kvsnprintf buf size fmt args = .ok ((E.length : Int), bounded size buf E)) ↔ Fit ds args := by
  obtain ⟨F, hF, hle, hlenF, heqF⟩ := fullOutput_pieces hout
  have hparse : parse fmt.chars = ds.map Directive.piece := by rw [hfmt, parse_format]
  have hcall : ∀ size buf, size ≤ buf.length →
      kvsnprintf buf size fmt args = .ok ((F.length : Int), bounded size buf F) := by
    intro size buf hsize
    refine kvsnprintf_eq hsize (hparse ▸ hF) ?_ (hle.trans_lt hlen)
    intro piece hpiece
    rw [hparse] at hpiece
    obtain ⟨d, hd, rfl⟩ := List.mem_map.1 hpiece
    rw [width_piece]
    exact hwidth d hd
  constructor
  · intro h
    have hsame := (hcall 0 [] le_rfl).symm.trans (h 0 [] le_rfl)
    have hreturn := (Prod.mk.inj (Outcome.ok.inj hsame)).1
    exact hlenF.1 (Int.ofNat_inj.1 hreturn)
  · intro hfit size buf hsize
    rw [hcall size buf hsize, heqF hfit]

/-- `-0042 ok` in ten bytes. -/
theorem kvsnprintf_standard_fits :
    kvsnprintf (List.replicate 12 7) 10 (CString.of (ascii "%05d %2s"))
        [.word (-42), .str (some (CString.of (ascii "ok")))] =
      .ok (8, ascii "-0042 ok" ++ [0, 7, 7, 7]) := by
  have hfmt : (CString.of (ascii "%05d %2s")).chars =
      [.int .d true 5, .literal (ch ' ') (by decide), .string 2].flatMap Directive.spelling := by
    decide +kernel
  have hfit : Fit [.int .d true 5, .literal (ch ' ') (by decide), .string 2]
      [.word (-42), .str (some (CString.of (ascii "ok")))] := by
    refine ⟨trivial, fun _ _ h => ?_⟩
    obtain ⟨-, rfl⟩ := Prod.mk.inj (Option.some.inj h)
    refine ⟨trivial, fun _ _ h => ?_⟩
    obtain ⟨-, rfl⟩ := Prod.mk.inj (Option.some.inj h)
    refine ⟨?_, fun _ _ _ => trivial⟩
    change 2 ≤ (CString.of (ascii "ok")).chars.length
    decide
  exact (kvsnprintf_standard_iff (E := ascii "-0042 ok") hfmt (by decide +kernel) (by decide)
    (by decide)).2 hfit 10 (List.replicate 12 7) (by decide)

/-- **A short string** is not filled up to its width. -/
theorem kvsnprintf_short :
    (CString.of (ascii "%5s")).chars = [Directive.string 5].flatMap Directive.spelling ∧
      standardOutput [.string 5] [.str (some (CString.of (ascii "ok")))] = some (ascii "   ok") ∧
      kvsnprintf [1, 2, 3, 4, 5, 6] 6 (CString.of (ascii "%5s"))
        [.str (some (CString.of (ascii "ok")))] = .ok (2, ascii "ok" ++ [0, 4, 5, 6]) := by
  refine ⟨?_, ?_, ?_⟩ <;> decide +kernel

end Fields

end Munux.Libk
