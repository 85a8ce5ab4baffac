import Munux.Lib.Slice
import Mathlib.Data.List.Infix

/-!
# The SCLP console

`sclp_write` of `kernel/src/main.rs` shows a text on the console: it builds a control block of one
page and hands it to the service processor. The block has a header, the header of one event buffer,
and the text, with a carriage return before every newline. Each header begins with its length, a
16-bit field in the byte order of the machine, which is big-endian. A text that does not fit is cut
off, at a byte of the text.

`frame` is the block that a text should give. The structures of the source are laid out as
`#[repr(C)]` has them: eight bytes and six, without padding.
-/

namespace Munux.Zos

/-- `SCCB_SIZE` -/
def sccbSize : Nat := 4096

/-- `size_of::<SccbHeader>()`: `length` at 0, `function_code` at 2, `control_mask` from 3 on and
`response_code` at 6. -/
def sccbHeaderSize : Nat := 8

/-- `size_of::<EventBufferHeader>()`: `length` at 0, `kind` at 2, `flags` at 3 and `reserved`
at 4. -/
def eventBufferHeaderSize : Nat := 6

/-- `size_of::<WriteEventData>()`: the two headers. -/
def writeEventDataSize : Nat := sccbHeaderSize + eventBufferHeaderSize

/-- `cap`, the room for the text. -/
def textCap : Nat := sccbSize - writeEventDataSize

/-- `SCLP_CMD_WRITE_EVENT_DATA` -/
def sclpCmdWriteEventData : UInt64 := 0x00760005

/-- `SCLP_EVENT_ASCII_CONSOLE_DATA` -/
def sclpEventAsciiConsoleData : UInt8 := 0x1A

/-- `SCLP_FC_NORMAL_WRITE` -/
def sclpFcNormalWrite : UInt8 := 0

/-- `b'\n'` -/
def lineFeed : UInt8 := 10

/-- `b'\r'` -/
def carriageReturn : UInt8 := 13

/-- What `sclp_service_call` gets: the command, and the block as it is in memory. -/
structure ServiceCall where
  command : UInt64
  sccb : List UInt8
  deriving DecidableEq, Repr

/-- A 16-bit value, high byte first. -/
def be16 (v : Nat) : List UInt8 := [UInt8.ofNat (v / 2 ^ 8), UInt8.ofNat v]

/-- An assignment to a `u16` field. -/
def storeU16 (b : List UInt8) (off v : Nat) : Outcome (List UInt8) := do
  let b ← store b off (UInt8.ofNat (v / 2 ^ 8))
  store b (off + 1) (UInt8.ofNat v)

/-- The loop of `sclp_write`: the text goes behind the headers, from place `n` on. It ends with the
text, or when there may be no room for two bytes more. -/
def copyText (sccb : List UInt8) (n : Nat) : List UInt8 → Outcome (Nat × List UInt8)
  | [] => .ok (n, sccb)
  | b :: s =>
      if n + 2 ≥ textCap then .ok (n, sccb)
      else do
        let (n, sccb) ←
          if b = lineFeed then do
            let sccb ← store sccb (writeEventDataSize + n) carriageReturn
            pure (n + 1, sccb)
          else pure (n, sccb)
        let sccb ← store sccb (writeEventDataSize + n) b
        copyText sccb (n + 1) s

/-- `sclp_write` -/
def sclpWrite (s : List UInt8) : Outcome ServiceCall := do
  let sccb := List.replicate sccbSize 0
  let (n, sccb) ← copyText sccb 0 s
  let sccb ← storeU16 sccb 0 ((writeEventDataSize + n) % 2 ^ 16)
  let sccb ← store sccb 2 sclpFcNormalWrite
  let sccb ← storeU16 sccb sccbHeaderSize ((eventBufferHeaderSize + n) % 2 ^ 16)
  let sccb ← store sccb (sccbHeaderSize + 2) sclpEventAsciiConsoleData
  let sccb ← store sccb (sccbHeaderSize + 3) 0
  return { command := sclpCmdWriteEventData, sccb := sccb }

/-! ## The block a text should give -/

/-- A text with a carriage return before every newline. -/
def expand (s : List UInt8) : List UInt8 :=
  s.flatMap fun b => if b = lineFeed then [carriageReturn, b] else [b]

/-- The block that shows some bytes. -/
def frame (data : List UInt8) : List UInt8 :=
  be16 (writeEventDataSize + data.length) ++ [sclpFcNormalWrite, 0, 0, 0, 0, 0] ++
    be16 (eventBufferHeaderSize + data.length) ++ [sclpEventAsciiConsoleData, 0, 0, 0] ++
    data ++ List.replicate (textCap - data.length) 0

/-- The `u16` field at `off`. -/
def fieldU16 (sccb : List UInt8) (off : Nat) : Nat :=
  (sccb.getD off 0).toNat * 2 ^ 8 + (sccb.getD (off + 1) 0).toNat

/-- The bytes that the receiver finds behind the headers, up to the length in the first one. -/
def sentText (sccb : List UInt8) : List UInt8 :=
  (sccb.drop writeEventDataSize).take (fieldU16 sccb 0 - writeEventDataSize)

section Frame

variable {data : List UInt8}

theorem frame_fields (h : data.length ≤ textCap) :
    (frame data).length = sccbSize ∧
      fieldU16 (frame data) 0 = writeEventDataSize + data.length ∧
      fieldU16 (frame data) sccbHeaderSize = eventBufferHeaderSize + data.length := by
  have hcap : data.length ≤ 4082 := h
  refine ⟨?_, ?_, ?_⟩
  · simp only [frame, be16, List.length_append, List.length_cons, List.length_nil,
      List.length_replicate]
    change _ + (4082 - _) = 4096
    omega
  · change (UInt8.ofNat ((14 + data.length) / 2 ^ 8)).toNat * 2 ^ 8 +
      (UInt8.ofNat (14 + data.length)).toNat = 14 + data.length
    rw [UInt8.toNat_ofNat', UInt8.toNat_ofNat']
    omega
  · change (UInt8.ofNat ((6 + data.length) / 2 ^ 8)).toNat * 2 ^ 8 +
      (UInt8.ofNat (6 + data.length)).toNat = 6 + data.length
    rw [UInt8.toNat_ofNat', UInt8.toNat_ofNat']
    omega

theorem sentText_frame (h : data.length ≤ textCap) : sentText (frame data) = data := by
  rw [sentText, (frame_fields h).2.1, Nat.add_sub_cancel_left]
  exact List.take_left

end Frame

/-! ## The loop -/

section Write

variable {out s : List UInt8} {b : List UInt8} {v : UInt8} {i : Nat}

/-- The block while the text is written: `out` is behind the headers, the rest is 0. -/
def partialBlock (out : List UInt8) : List UInt8 :=
  overwrite (List.replicate sccbSize 0) (List.replicate writeEventDataSize 0 ++ out)

theorem partialBlock_nil : partialBlock [] = List.replicate sccbSize 0 := by
  rw [partialBlock, overwrite, List.append_nil, List.drop_replicate, List.length_replicate,
    List.replicate_append_replicate]
  rfl

theorem store_partialBlock (h : out.length < textCap) (v : UInt8) :
    store (partialBlock out) (writeEventDataSize + out.length) v =
      .ok (partialBlock (out ++ [v])) := by
  have hlen : (List.replicate writeEventDataSize (0 : UInt8) ++ out).length =
      writeEventDataSize + out.length := by
    rw [List.length_append, List.length_replicate]
  have hstore := store_overwrite (b := List.replicate sccbSize 0)
    (l := List.replicate writeEventDataSize 0 ++ out) (by
      rw [hlen, List.length_replicate]
      exact Nat.add_lt_of_lt_sub' h) v
  rwa [hlen, List.append_assoc] at hstore

theorem expand_singleton (b : UInt8) :
    expand [b] = if b = lineFeed then [carriageReturn, b] else [b] := List.flatMap_singleton ..

theorem expand_cons (b : UInt8) (s : List UInt8) : expand (b :: s) = expand [b] ++ expand s := by
  rw [expand_singleton, expand, List.flatMap_cons]
  rfl

theorem length_expand_singleton (b : UInt8) :
    1 ≤ (expand [b]).length ∧ (expand [b]).length ≤ 2 := by
  rw [expand_singleton]
  split_ifs
  · exact ⟨Nat.le_succ 1, le_rfl⟩
  · exact ⟨le_rfl, Nat.le_succ 1⟩

/-- One byte of the text, with the carriage return that goes before it. -/
theorem copyText_cons (h : out.length + 2 < textCap) (b : UInt8) (s : List UInt8) :
    copyText (partialBlock out) out.length (b :: s) =
      copyText (partialBlock (out ++ expand [b])) (out ++ expand [b]).length s := by
  rw [copyText, if_neg (Nat.not_le.2 h)]
  have hroom : out.length < textCap := by omega
  by_cases hb : b = lineFeed
  · have hexpand : out ++ expand [b] = (out ++ [carriageReturn]) ++ [b] := by
      rw [expand_singleton, if_pos hb, List.append_assoc]
      rfl
    have hlen : out.length + 1 = (out ++ [carriageReturn]).length := by
      rw [List.length_append, List.length_singleton]
    have hroom' : (out ++ [carriageReturn]).length < textCap := by omega
    rw [hexpand, List.length_append, List.length_singleton]
    simp only [if_pos hb, store_partialBlock hroom, store_partialBlock hroom', Outcome.ok_bind,
      Outcome.pure_eq, hlen]
  · have hexpand : out ++ expand [b] = out ++ [b] := by
      rw [expand_singleton, if_neg hb]
    rw [hexpand, List.length_append, List.length_singleton]
    simp only [if_neg hb, store_partialBlock hroom, Outcome.ok_bind, Outcome.pure_eq]

/-- **The loop** writes a prefix of the text, and all of it if that leaves two bytes. -/
theorem copyText_spec (s out : List UInt8) (h : out.length < textCap) :
    ∃ p, p <+: s ∧
      copyText (partialBlock out) out.length s =
        .ok ((out ++ expand p).length, partialBlock (out ++ expand p)) ∧
      (out ++ expand p).length < textCap ∧
      ((out ++ expand s).length < textCap - 1 → p = s) := by
  have hnil : out ++ expand [] = out := List.append_nil out
  induction s generalizing out with
  | nil => exact ⟨[], List.prefix_refl [], by rw [hnil]; rfl, by rwa [hnil], fun _ => rfl⟩
  | cons b s ih =>
      obtain ⟨hone, htwo⟩ := length_expand_singleton b
      have hexpand : ∀ l, out ++ expand (b :: l) = (out ++ expand [b]) ++ expand l := fun l => by
        rw [expand_cons, List.append_assoc]
      by_cases hroom : out.length + 2 < textCap
      · have hlen : (out ++ expand [b]).length < textCap := by
          rw [List.length_append]
          omega
        obtain ⟨p, hp, hcopy, hlt, hall⟩ := ih (out ++ expand [b]) hlen (List.append_nil _)
        refine ⟨b :: p, List.cons_prefix_cons.2 ⟨rfl, hp⟩, ?_, ?_, ?_⟩
        · rw [copyText_cons hroom, hcopy, hexpand p]
        · rwa [hexpand p]
        · intro hlt'
          rw [hexpand s] at hlt'
          rw [hall hlt']
      · refine ⟨[], List.nil_prefix, ?_, by rwa [hnil], ?_⟩
        · rw [copyText, if_pos (Nat.le_of_not_lt hroom), hnil]
        · intro hlt
          -- The byte that is left would take the last place.
          rw [hexpand s, List.length_append, List.length_append] at hlt
          omega

/-! ## The headers -/

theorem store_of_lt (h : i < b.length) (v : UInt8) : store b i v = .ok (b.set i v) := if_pos h

theorem storeU16_of_lt (h : i + 1 < b.length) (v : Nat) :
    storeU16 b i v =
      .ok ((b.set i (UInt8.ofNat (v / 2 ^ 8))).set (i + 1) (UInt8.ofNat v)) := by
  rw [storeU16, store_of_lt (Nat.lt_of_succ_lt h), Outcome.ok_bind]
  exact store_of_lt (by rwa [List.length_set]) _

theorem length_partialBlock (h : out.length < textCap) : (partialBlock out).length = sccbSize := by
  have hlt : out.length < sccbSize - writeEventDataSize := h
  rw [partialBlock, length_overwrite, List.length_replicate]
  rw [List.length_append, List.length_replicate, List.length_replicate]
  omega

theorem partialBlock_eq (out : List UInt8) :
    partialBlock out = List.replicate writeEventDataSize 0 ++ out ++
      List.replicate (textCap - out.length) 0 := by
  rw [partialBlock, overwrite, List.drop_replicate, List.length_append, List.length_replicate,
    ← Nat.sub_sub]
  rfl

/-- The two headers make the block a frame. -/
theorem sclpWrite_eq (s : List UInt8) : ∃ p, p <+: s ∧
    sclpWrite s = .ok ⟨sclpCmdWriteEventData, frame (expand p)⟩ ∧
    (expand p).length < textCap ∧ ((expand s).length < textCap - 1 → p = s) := by
  obtain ⟨p, hp, hcopy, hlt, hall⟩ := copyText_spec s [] (by decide)
  rw [partialBlock_nil] at hcopy
  rw [List.nil_append] at hcopy hlt hall
  refine ⟨p, hp, ?_, hlt, hall⟩
  have hlen := length_partialBlock hlt
  have hlt' : (expand p).length < 4082 := hlt
  have hfit : (writeEventDataSize + (expand p).length) % 2 ^ 16 =
      writeEventDataSize + (expand p).length :=
    Nat.mod_eq_of_lt (show 14 + _ < 2 ^ 16 by omega)
  have hfit' : (eventBufferHeaderSize + (expand p).length) % 2 ^ 16 =
      eventBufferHeaderSize + (expand p).length :=
    Nat.mod_eq_of_lt (show 6 + _ < 2 ^ 16 by omega)
  have hcopy' : copyText (List.replicate sccbSize 0) 0 s =
      .ok ((expand p).length, partialBlock (expand p)) := hcopy
  rw [sclpWrite]
  simp only [hcopy', Outcome.ok_bind, hfit, hfit']
  simp (disch := simp only [List.length_set, hlen]; decide) only [storeU16_of_lt, store_of_lt,
    Outcome.ok_bind, Outcome.pure_eq]
  rw [partialBlock_eq]
  rfl

/-- No carriage return is left without its newline. -/
theorem expand_getLast? (s : List UInt8) : (expand s).getLast? = s.getLast? := by
  induction s using List.reverseRecOn with
  | nil => rfl
  | append_singleton s b _ =>
      rw [expand, List.flatMap_append, ← expand, ← expand, expand_singleton, List.getLast?_concat]
      split_ifs
      · exact List.getLast?_append_of_ne_nil _ (List.cons_ne_nil _ _)
      · exact List.getLast?_concat ..

/-- **What the console gets**, for every text: the expansion of a prefix of it, inside the block and
under the right lengths. Only a text that fills the block is cut off. -/
theorem sclpWrite_frame (s : List UInt8) : ∃ p sccb, p <+: s ∧
    sclpWrite s = .ok ⟨sclpCmdWriteEventData, sccb⟩ ∧ sccb.length = 4096 ∧
    sentText sccb = expand p ∧ (expand p).getLast? = p.getLast? ∧
    ((expand s).length < 4082 - 1 → p = s) ∧
    fieldU16 sccb 0 = 14 + (expand p).length ∧ fieldU16 sccb 8 = 6 + (expand p).length := by
  obtain ⟨p, hp, hwrite, hlt, hall⟩ := sclpWrite_eq s
  obtain ⟨hlen, hsccb, hevent⟩ := frame_fields hlt.le
  exact ⟨p, frame (expand p), hp, hwrite, hlen, sentText_frame hlt.le, expand_getLast? p, hall,
    hsccb, hevent⟩

end Write

end Munux.Zos
