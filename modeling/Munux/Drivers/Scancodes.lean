import Munux.Drivers.Keyboard
import Munux.Lib.Runs

/-!
# Scan codes

`keyboard_handler` of `kernel/drivers/keyboard.c`. A byte is the number of a key, with the high bit
set when the key is released. The byte `0xE0` says that the next byte belongs to another set of
keys, and both are ignored.

**What is held** (`Keys`). Keys are held from the byte that says so until the byte that releases
them.

**The flag.** There are two shift keys and one flag, which every byte of either key overwrites. So
the flag is right as long as no shift key is released while the other one is held, and wrong right
after that (`shift_iff`).
-/

namespace Munux.Drivers

/-- `scancode_to_ascii` -/
def scancodeToAscii : List UInt8 :=
  [0, 27, 49, 50, 51, 52, 53, 54,                       -- 0x00-0x07
    55, 56, 57, 48, 45, 61, 8, 9,                       -- 0x08-0x0F
    113, 119, 101, 114, 116, 121, 117, 105,             -- 0x10-0x17
    111, 112, 91, 93, 10, 0x80, 97, 115,                -- 0x18-0x1F
    100, 102, 103, 104, 106, 107, 108, 59,              -- 0x20-0x27
    39, 96, 0x81, 92, 122, 120, 99, 118,                -- 0x28-0x2F
    98, 110, 109, 44, 46, 47, 0x81, 42,                 -- 0x30-0x37
    0x82, 32, 0x83, 0x84, 0x85, 0x86, 0x87, 0x88,       -- 0x38-0x3F
    0x89, 0x8A, 0x8B, 0x8C, 0x8D, 0, 0, 55,             -- 0x40-0x47
    56, 57, 45, 52, 53, 54, 43, 49,                     -- 0x48-0x4F
    50, 51, 48, 46, 0, 0, 0, 0x8E,                      -- 0x50-0x57
    0x8F]                                               -- 0x58

/-- `scancode_to_ascii_shift` -/
def scancodeToAsciiShift : List UInt8 :=
  [0, 27, 33, 64, 35, 36, 37, 94,                       -- 0x00-0x07
    38, 42, 40, 41, 95, 43, 8, 9,                       -- 0x08-0x0F
    81, 87, 69, 82, 84, 89, 85, 73,                     -- 0x10-0x17
    79, 80, 123, 125, 10, 0x80, 65, 83,                 -- 0x18-0x1F
    68, 70, 71, 72, 74, 75, 76, 58,                     -- 0x20-0x27
    34, 126, 0x81, 124, 90, 88, 67, 86,                 -- 0x28-0x2F
    66, 78, 77, 60, 62, 63, 0x81, 42,                   -- 0x30-0x37
    0x82, 32, 0x83, 0x84, 0x85, 0x86, 0x87, 0x88,       -- 0x38-0x3F
    0x89, 0x8A, 0x8B, 0x8C, 0x8D, 0, 0, 55,             -- 0x40-0x47
    56, 57, 45, 52, 53, 54, 43, 49,                     -- 0x48-0x4F
    50, 51, 48, 46, 0, 0, 0, 0x8E,                      -- 0x50-0x57
    0x8F]                                               -- 0x58

/-- `keyboard_state_t` -/
structure KeyboardState where
  shift : Bool
  ctrl : Bool
  alt : Bool
  caps : Bool
  num : Bool
  scroll : Bool
  deriving DecidableEq, Repr

/-- The buffer, `kbd_state` and `kbd_extended`. -/
structure Handler where
  kbd : Keyboard
  state : KeyboardState
  extended : Bool

/-- After `keyboard_init`. -/
def Handler.init (buffer : Nat → UInt8) : Handler where
  kbd := ⟨buffer, 0, 0⟩
  state := ⟨false, false, false, false, false, false⟩
  extended := false

/-- The character of a key: `KEY_` codes are above the letters. -/
def translate (state : KeyboardState) (scancode : UInt8) : UInt8 :=
  let ascii := (if state.shift then scancodeToAsciiShift else scancodeToAscii).getD scancode.toNat 0
  if state.caps ∧ 97 ≤ ascii ∧ ascii ≤ 122 then ascii - 32
  else if state.caps ∧ 65 ≤ ascii ∧ ascii ≤ 90 ∧ state.shift then ascii + 32
  else ascii

/-- What `keyboard_handler` does about a key. -/
def handleKey (h : Handler) (pressed : Bool) (scancode : UInt8) : Handler :=
  if scancode = 0x2A ∨ scancode = 0x36 then { h with state := { h.state with shift := pressed } }
  else if scancode = 0x1D then { h with state := { h.state with ctrl := pressed } }
  else if scancode = 0x38 then { h with state := { h.state with alt := pressed } }
  else if scancode = 0x3A ∧ pressed then { h with state := { h.state with caps := !h.state.caps } }
  else if pressed ∧ scancode.toNat < scancodeToAscii.length then
    let ascii := translate h.state scancode
    if ascii ≠ 0 then { h with kbd := keyboardBufferPut h.kbd ascii } else h
  else h

/-- `keyboard_handler`, for the byte that it reads. -/
def keyboardHandler (h : Handler) (byte : UInt8) : Handler :=
  if byte = 0xE0 then { h with extended := true }
  else if h.extended then { h with extended := false }
  else handleKey h (byte &&& 0x80 = 0) (byte &&& 0x7F)

/-! ## What is held -/

/-- The keys that are held, and whether the last byte was `0xE0`. -/
structure Keys where
  held : UInt8 → Bool
  prefixed : Bool

namespace Keys

def init : Keys := ⟨fun _ => false, false⟩

/-- A key is pressed or released. -/
def turn (k : Keys) (pressed : Bool) (scancode : UInt8) : Keys :=
  { k with held := Function.update k.held scancode pressed }

/-- The keys after another byte. -/
def record (k : Keys) (byte : UInt8) : Keys :=
  if byte = 0xE0 then { k with prefixed := true }
  else if k.prefixed then { k with prefixed := false }
  else k.turn (byte &&& 0x80 = 0) (byte &&& 0x7F)

/-- The keys after some bytes. -/
def after (bytes : List UInt8) : Keys := bytes.foldl record init

/-- A shift key is held. -/
def Shift (k : Keys) : Prop := k.held 0x2A = true ∨ k.held 0x36 = true

/-- The byte fits the keys: `0xE0` is followed by a byte of a key, and keys are released that are
held. -/
def Allows (k : Keys) (byte : UInt8) : Prop :=
  if k.prefixed then byte ≠ 0xE0
  else byte = 0xE0 ∨ byte &&& 0x80 = 0 ∨ k.held (byte &&& 0x7F) = true

instance (k : Keys) (byte : UInt8) : Decidable (k.Allows byte) :=
  inferInstanceAs (Decidable (if k.prefixed then byte ≠ 0xE0 else _))

/-- Keys are pressed and released consistently. -/
def Consistent (k : Keys) : List UInt8 → Prop
  | [] => True
  | byte :: bytes => k.Allows byte ∧ (k.record byte).Consistent bytes

/-- The byte releases one of the shift keys while the other is held. -/
def Overlaps (k : Keys) (byte : UInt8) : Prop :=
  k.prefixed = false ∧ byte &&& 0x80 ≠ 0 ∧
    (byte &&& 0x7F = 0x2A ∧ k.held 0x36 = true ∨ byte &&& 0x7F = 0x36 ∧ k.held 0x2A = true)

end Keys

section Shift

variable {h : Handler} {k : Keys} {byte : UInt8} {buffer : Nat → UInt8}

theorem handleKey_extended (h : Handler) (pressed : Bool) (scancode : UInt8) :
    (handleKey h pressed scancode).extended = h.extended := by
  simp only [handleKey]
  split_ifs <;> rfl

theorem handleKey_shift (h : Handler) (pressed : Bool) (scancode : UInt8) :
    (handleKey h pressed scancode).state.shift =
      if scancode = 0x2A ∨ scancode = 0x36 then pressed else h.state.shift := by
  simp only [handleKey]
  split_ifs <;> rfl

theorem extended_step (hmode : h.extended = k.prefixed) (byte : UInt8) :
    (keyboardHandler h byte).extended = (k.record byte).prefixed := by
  unfold keyboardHandler Keys.record
  rw [hmode]
  split_ifs
  · rfl
  · rfl
  · exact (handleKey_extended ..).trans hmode

/-- The handler knows which bytes have a prefix. -/
theorem extended_eq_prefixed (buffer : Nat → UInt8) (bytes : List UInt8) :
    (bytes.foldl keyboardHandler (.init buffer)).extended = (Keys.after bytes).prefixed := by
  induction bytes using List.reverseRecOn with
  | nil => rfl
  | append_singleton bytes byte ih =>
      rw [Keys.after, List.foldl_concat, List.foldl_concat]
      exact extended_step ih byte

/-- **A key.** If the flag is right, it is right after the key exactly when no shift key is released
while the other is held. -/
theorem shift_key (hshift : h.state.shift = true ↔ k.Shift) (pressed : Bool) (scancode : UInt8) :
    ((handleKey h pressed scancode).state.shift = true ↔ (k.turn pressed scancode).Shift) ↔
      ¬(pressed = false ∧
        (scancode = 0x2A ∧ k.held 0x36 = true ∨ scancode = 0x36 ∧ k.held 0x2A = true)) := by
  rw [handleKey_shift]
  simp only [Keys.Shift, Keys.turn] at hshift ⊢
  by_cases hleft : scancode = 0x2A
  · subst hleft
    cases pressed <;> simp
  by_cases hright : scancode = 0x36
  · subst hright
    cases pressed <;> simp
  · rw [if_neg (not_or.2 ⟨hleft, hright⟩), Function.update_of_ne (Ne.symm hleft),
      Function.update_of_ne (Ne.symm hright)]
    exact iff_of_true hshift fun h => h.2.elim (fun h => hleft h.1) fun h => hright h.1

theorem shift_step (hmode : h.extended = k.prefixed) (hshift : h.state.shift = true ↔ k.Shift)
    (byte : UInt8) :
    ((keyboardHandler h byte).state.shift = true ↔ (k.record byte).Shift) ↔ ¬k.Overlaps byte := by
  unfold keyboardHandler Keys.record
  rw [hmode]
  split_ifs with hmark hprefixed
  · refine iff_of_true hshift ?_
    rintro ⟨-, -, ⟨h, -⟩ | ⟨h, -⟩⟩
    · exact absurd (hmark ▸ h) (by decide)
    · exact absurd (hmark ▸ h) (by decide)
  · refine iff_of_true hshift fun hover => ?_
    rw [hover.1] at hprefixed
    cases hprefixed
  · rw [shift_key hshift, decide_eq_false_iff_not, Keys.Overlaps,
      and_iff_right (Bool.eq_false_iff.2 hprefixed)]

/-- **The shift flag** says throughout whether a shift key is held, exactly when none of them is
released while the other one is held. -/
theorem shift_iff (buffer : Nat → UInt8) (bytes : List UInt8) :
    (∀ before, before <+: bytes →
      ((before.foldl keyboardHandler (.init buffer)).state.shift = true ↔
        (Keys.after before).Shift)) ↔
      ∀ before byte, before ++ [byte] <+: bytes → ¬(Keys.after before).Overlaps byte := by
  refine forall_prefix_iff (by simp [Keys.after, Keys.init, Keys.Shift, Handler.init]) ?_ bytes
  intro before byte hbefore
  rw [Keys.after, List.foldl_concat, List.foldl_concat]
  exact shift_step (extended_eq_prefixed buffer before) hbefore byte

/-- **Both shift keys, then only the right one:** the flag is cleared. -/
theorem shift_cleared :
    Keys.init.Consistent [0x2A, 0x36, 0xAA] ∧ (Keys.after [0x2A, 0x36, 0xAA]).held 0x36 = true ∧
      ([0x2A, 0x36, 0xAA].foldl keyboardHandler (.init fun _ => 0)).state.shift = false :=
  ⟨⟨by decide, by decide, by decide, trivial⟩, by decide, by decide⟩

end Shift

end Munux.Drivers
