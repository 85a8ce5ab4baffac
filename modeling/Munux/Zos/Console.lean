import Munux.Zos.Sclp
import Munux.Lib.Numerals

/-!
# What is on the console

`main.rs` writes to the console through `console_write`, one block for the service processor for
each call, and writes numbers with `console_write_u32_pad`. Here the blocks are kept in their order
(`Console`), and `shown` is the text in them.

The texts that the kernel writes are short, so none is cut off. `Shows f s` says that `f` writes
`s`, whatever is on the console before; what is done one after another is shown one after another
(`Shows.comp`). And what is shown can be read back, although every newline has got a carriage return
(`expand_injective`).

Main results: `consoleWrite_shows`, `consoleWriteU32Pad_shows`, `expand_injective`.
-/

namespace Munux.Zos

/-! ## The code -/

/-- `b'0'` -/
def asciiZero : UInt8 := 48

/-- A byte string of the source. -/
def lit (s : String) : List UInt8 := s.toByteArray.data.toList

/-- `SCLP_CMD_WRITE_EVENT_MASK` -/
def sclpCmdWriteEventMask : UInt64 := 0x00780005

/-- `SCLP_EVENT_MASK_MSG_ASCII` -/
def sclpEventMaskMsgAscii : Nat := 0x40

/-- `size_of::<WriteEventMask>()`: after the header `reserved` at 8, `mask_length` at 10, and the
four masks of 32 bits from 12 on. -/
def writeEventMaskSize : Nat := sccbHeaderSize + 20

/-- An assignment to a `u32` field. -/
def storeU32 (b : List UInt8) (off v : Nat) : Outcome (List UInt8) := do
  let b ← storeU16 b off (v / 2 ^ 16)
  storeU16 b (off + 2) v

/-- `sclp_setup` -/
def sclpSetup : Outcome ServiceCall := do
  let sccb := List.replicate sccbSize 0
  let sccb ← storeU16 sccb 0 writeEventMaskSize
  let sccb ← storeU16 sccb 10 4
  let sccb ← storeU32 sccb 12 0
  let sccb ← storeU32 sccb 16 sclpEventMaskMsgAscii
  return { command := sclpCmdWriteEventMask, sccb := sccb }

/-- The calls that the service processor has got. -/
abbrev Console := List ServiceCall

/-- `console_write` -/
def consoleWrite (s : List UInt8) (k : Console) : Outcome Console := do
  let call ← sclpWrite s
  return k ++ [call]

/-- The loop of `console_write_u32_pad`: the digits of `v`, the last one first, go to the places
before `i`. With no place left `i -= 1` leaves the buffer. -/
def padLoop (v : Nat) (buf : List UInt8) : Nat → Outcome (List UInt8 × Nat)
  | 0 => if v = 0 then .ok (buf, 0) else .panic
  | i + 1 =>
      if v = 0 then .ok (buf, i + 1)
      else do
        let buf ← store buf i (asciiZero + UInt8.ofNat (v % 10))
        padLoop (v / 10) buf i

/-- The digits of a number in the buffer, and the place of the first one. -/
def padDigits (n : UInt32) : Outcome (List UInt8 × Nat) :=
  let buf := List.replicate 10 asciiZero
  if n.toNat = 0 then .ok (buf, 9) else padLoop n.toNat buf 10

/-- `console_write_u32_pad` -/
def consoleWriteU32Pad (n : UInt32) (width : Nat) (k : Console) : Outcome Console := do
  let (buf, i) ← padDigits n
  let digits := buf.length - i
  let start := if width > digits ∧ width ≤ buf.length then buf.length - width else i
  consoleWrite (buf.drop start) k

/-! ## What it shows -/

/-- The text on the console. -/
def shown (k : Console) : List UInt8 :=
  k.flatMap fun call => if call.command = sclpCmdWriteEventData then sentText call.sccb else []

/-- `f` writes `s`. -/
def Shows (f : Console → Outcome Console) (s : List UInt8) : Prop :=
  ∀ k, ∃ k', f k = .ok k' ∧ shown k' = shown k ++ expand s

/-- A number with zeros in front of it, up to `width` characters. -/
def padded (width n : Nat) : List UInt8 :=
  List.replicate (width - (numeral 10 n).length) asciiZero ++
    (numeral 10 n).map fun d => asciiZero + UInt8.ofNat d

section Shows

variable {f g : Console → Outcome Console} {s t : List UInt8} {i : Nat}

theorem expand_append (s t : List UInt8) : expand (s ++ t) = expand s ++ expand t :=
  List.flatMap_append

theorem length_expand_le (s : List UInt8) : (expand s).length ≤ 2 * s.length := by
  induction s with
  | nil => exact le_rfl
  | cons b s ih =>
      have hone := (length_expand_singleton b).2
      rw [expand_cons, List.length_append, List.length_cons]
      omega

theorem shown_append (k k' : Console) : shown (k ++ k') = shown k ++ shown k' :=
  List.flatMap_append

/-- Nothing is written. -/
theorem shows_nil : Shows .ok [] := fun k => ⟨k, rfl, (List.append_nil _).symm⟩

/-- **One after the other.** -/
theorem Shows.comp (hf : Shows f s) (hg : Shows g t) :
    Shows (fun k => f k >>= g) (s ++ t) := by
  intro k
  obtain ⟨k₁, hk₁, hshown₁⟩ := hf k
  obtain ⟨k₂, hk₂, hshown₂⟩ := hg k₁
  refine ⟨k₂, ?_, ?_⟩
  · change (f k >>= g) = _
    rw [hk₁, Outcome.ok_bind, hk₂]
  · rw [hshown₂, hshown₁, expand_append, List.append_assoc]

/-- What is done after that. -/
theorem Shows.ret (hf : Shows f s) (k : Console) : ∃ k', shown k' = shown k ++ expand s ∧
    ∀ {γ : Type} (g : Console → Outcome γ), (f k >>= g) = g k' := by
  obtain ⟨k', hk', hshown⟩ := hf k
  exact ⟨k', hshown, fun g => by rw [hk', Outcome.ok_bind]⟩

/-- **A short text** is shown as a whole. -/
theorem consoleWrite_shows (hs : s.length ≤ 2000) : Shows (consoleWrite s) s := by
  intro k
  obtain ⟨p, -, hwrite, hlt, hall⟩ := sclpWrite_eq s
  have hlen := length_expand_le s
  obtain rfl := hall (show (expand s).length < 4081 by omega)
  refine ⟨k ++ [⟨sclpCmdWriteEventData, frame (expand p)⟩], ?_, ?_⟩
  · rw [consoleWrite, hwrite]
    rfl
  · rw [shown_append]
    simp only [shown, List.flatMap_cons, List.flatMap_nil, List.append_nil, if_true,
      sentText_frame hlt.le]

/-- Every turn of the loop writes the last digit of what is left. -/
theorem padLoop_eq (v : Nat) (out : List UInt8) (h : (Nat.digits 10 v).length ≤ i) :
    padLoop v (List.replicate i asciiZero ++ out) i =
      .ok (List.replicate (i - (Nat.digits 10 v).length) asciiZero ++
        ((Nat.digits 10 v).reverse.map fun d => asciiZero + UInt8.ofNat d) ++ out,
        i - (Nat.digits 10 v).length) := by
  induction i generalizing v out with
  | zero =>
      have hv : v = 0 := by
        by_contra hv
        exact Nat.digits_ne_nil_iff_ne_zero.2 hv (List.length_eq_zero_iff.1 (Nat.le_zero.1 h))
      subst hv
      rfl
  | succ i ih =>
      by_cases hv : v = 0
      · subst hv
        simp [padLoop]
      · have hdigits : Nat.digits 10 v = v % 10 :: Nat.digits 10 (v / 10) :=
          Nat.digits_def' (by decide) (Nat.pos_of_ne_zero hv)
        rw [hdigits, List.length_cons, Nat.add_le_add_iff_right] at h
        have hstore : store (List.replicate (i + 1) asciiZero ++ out) i
            (asciiZero + UInt8.ofNat (v % 10)) =
            .ok (List.replicate i asciiZero ++ (asciiZero + UInt8.ofNat (v % 10)) :: out) := by
          rw [store_of_lt (by simp; omega), List.replicate_succ', List.append_assoc,
            List.set_append_right _ _ (by simp)]
          simp
        rw [padLoop, if_neg hv, hstore, Outcome.ok_bind, ih _ _ h, hdigits]
        simp [Nat.succ_sub_succ]

/-- **Numbers.** -/
theorem consoleWriteU32Pad_shows (n : UInt32) (width : Nat) (hw : width ≤ 10) :
    Shows (consoleWriteU32Pad n width) (padded width n.toNat) := by
  have hlen : (numeral 10 n.toNat).length ≤ 10 := by
    have hlt := n.toNat_lt
    exact length_numeral_le (by decide) (by decide) (by omega)
  set ds := (numeral 10 n.toNat).map fun d => asciiZero + UInt8.ofNat d with hds
  have hlends : ds.length = (numeral 10 n.toNat).length := List.length_map _
  -- The digits fill the end of the buffer.
  have hbuf : padDigits n =
      .ok (List.replicate (10 - ds.length) asciiZero ++ ds, 10 - ds.length) := by
    rw [padDigits]
    by_cases hn : n.toNat = 0
    · rw [if_pos hn, hds, hn]
      rfl
    · have hloop := padLoop_eq (i := 10) n.toNat [] (by
        rw [numeral, if_neg hn, List.length_reverse] at hlen
        exact hlen)
      rw [if_neg hn, hlends, hds, numeral, if_neg hn, List.length_reverse]
      simpa only [List.append_nil] using hloop
  have htext : (List.replicate (10 - ds.length) asciiZero ++ ds).drop
      (if width > ds.length ∧ width ≤ 10 then 10 - width else 10 - ds.length) =
      padded width n.toNat := by
    rw [List.drop_append_of_le_length (by rw [List.length_replicate]; split_ifs <;> omega),
      List.drop_replicate, padded, ← hlends]
    congr 2
    split_ifs <;> omega
  have hten : (List.replicate (10 - ds.length) asciiZero ++ ds).length = 10 := by
    rw [List.length_append, List.length_replicate]
    omega
  have hsub : 10 - (10 - ds.length) = ds.length := by omega
  have hfun : consoleWriteU32Pad n width = consoleWrite (padded width n.toNat) := by
    funext k
    simp only [consoleWriteU32Pad, hbuf, Outcome.ok_bind, hten, hsub, htext]
  rw [hfun]
  refine consoleWrite_shows ?_
  rw [padded, List.length_append, List.length_replicate, List.length_map]
  omega

/-- The console is set up with a call that writes no text. -/
theorem sclpSetup_shows : ∃ call, sclpSetup = .ok call ∧ shown [call] = [] := by
  have hlen : (List.replicate sccbSize (0 : UInt8)).length = 4096 := List.length_replicate
  obtain ⟨sccb, hsetup⟩ : ∃ sccb, sclpSetup = .ok ⟨sclpCmdWriteEventMask, sccb⟩ := by
    unfold sclpSetup storeU32
    simp (disch := simp only [List.length_set, hlen]; decide) only [storeU16_of_lt, Outcome.ok_bind,
      Outcome.pure_eq]
    exact ⟨_, rfl⟩
  exact ⟨_, hsetup, rfl⟩

end Shows

/-! ## Reading it back -/

section Reading

variable {s t : List UInt8}

/-- The text without the carriage returns that stand before newlines. -/
def collapse : List UInt8 → List UInt8
  | [] => []
  | [b] => [b]
  | b :: c :: s =>
      if b = carriageReturn ∧ c = lineFeed then lineFeed :: collapse s else b :: collapse (c :: s)

theorem head?_expand_ne (s : List UInt8) : (expand s).head? ≠ some lineFeed := by
  cases s with
  | nil => exact Option.some_ne_none _ ∘ Eq.symm
  | cons b s =>
      rw [expand_cons, expand_singleton]
      split_ifs with hb
      · exact fun h => absurd (Option.some.inj h) (by decide)
      · exact fun h => hb (Option.some.inj h)

theorem collapse_cons {b : UInt8} (h : s.head? ≠ some lineFeed) :
    collapse (b :: s) = b :: collapse s := by
  cases s with
  | nil => rfl
  | cons c s => rw [collapse, if_neg fun hc => h (congrArg some hc.2)]

theorem collapse_expand (s : List UInt8) : collapse (expand s) = s := by
  induction s with
  | nil => rfl
  | cons b s ih =>
      rw [expand_cons, expand_singleton]
      split_ifs with hb
      · rw [hb]
        exact congrArg _ ih
      · exact (collapse_cons (head?_expand_ne s)).trans (congrArg _ ih)

/-- **What is shown tells what was written.** -/
theorem expand_injective : Function.Injective expand :=
  Function.LeftInverse.injective collapse_expand

end Reading

end Munux.Zos
