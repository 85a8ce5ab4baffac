import Munux.Drivers.Scancodes
import Munux.Lib.Settling
import Munux.Shell.Session

/-!
# From the keys to the screen

The handler of IRQ1, the keyboard buffer and the shell together. An interrupt may come between any
two accesses of `keyboard_getchar` to the buffer, and at any time while the shell is busy with a
character.

**The story** (`Story`). Some of the bytes that the keyboard sends mean a character. Of these, what
finds 255 unread ones is lost. The shell acts on the others, one after another.

**The invariant** (`Follows`). The buffer is a queue, as `Drivers.Inv` says. What has been taken out
of it is what the shell acted on, and the line and the screen are what comes of that.

**Catching up.** While no key is pressed, each access of the shell leaves it less to do (`work`). It
may go to `hlt` although there is a character in the buffer: the key was pressed after the test, or
after `buffer_write_pos` was read. Then it waits for the next interrupt, which the timer sends.

Main results: `typing_shown`, `typing_catches_up`.
-/

namespace Munux.Shell

open Drivers Libk ByteMem

/-! ## What is typed -/

/-- How the next byte of the keyboard is read. -/
structure Mode where
  state : KeyboardState
  extended : Bool

namespace Mode

def init : Mode := ⟨⟨false, false, false, false, false, false⟩, false⟩

/-- The keys that change how others are read. -/
def modifiers : List UInt8 := [0x2A, 0x36, 0x1D, 0x38, 0x3A]

/-- The character that a byte means: a key is pressed, and has one. -/
def char (m : Mode) (byte : UInt8) : Option UInt8 :=
  if byte = 0xE0 ∨ m.extended ∨ byte &&& 0x80 ≠ 0 ∨ byte ∈ modifiers ∨
    Drivers.translate m.state byte = 0 then none
  else some (Drivers.translate m.state byte)

/-- A modifier is pressed or released. -/
def turn (s : KeyboardState) (pressed : Bool) (key : UInt8) : KeyboardState :=
  if key = 0x2A ∨ key = 0x36 then { s with shift := pressed }
  else if key = 0x1D then { s with ctrl := pressed }
  else if key = 0x38 then { s with alt := pressed }
  else if key = 0x3A ∧ pressed then { s with caps := !s.caps }
  else s

def next (m : Mode) (byte : UInt8) : Mode :=
  if byte = 0xE0 then { m with extended := true }
  else if m.extended then { m with extended := false }
  else { m with state := turn m.state (byte &&& 0x80 = 0) (byte &&& 0x7F) }

end Mode

/-! ## The system -/

/-- The handler with its buffer, the reader in `keyboard_getchar`, the character that it returned
and that the shell has not acted on, and the shell. -/
structure System where
  handler : Handler
  reader : Reader
  char : Option UInt8
  shell : State

inductive Act where
  | scancode (byte : UInt8)
  | tick
  | access
  | returned (c : UInt8)
  | key (c : UInt8) (now : Moment)

/-- The reader is in `keyboard_getchar`, the only function of the driver that `shell_run` calls. -/
def Getting : Reader → Prop
  | .available | .availableRead _ | .availableWrite _ | .flush | .flushWrite => False
  | _ => True

/-- One interrupt of the keyboard or of the timer, one access of `keyboard_getchar`, or what the
shell does about a character. -/
inductive Step (L : Layout) (fuel : Nat) : System → Act → System → Prop
  | scancode (h : Handler) (p : Reader) (c : Option UInt8) (s : State) (byte : UInt8) :
      Step L fuel ⟨h, p, c, s⟩ (.scancode byte) ⟨keyboardHandler h byte, p.woken, c, s⟩
  | tick (h : Handler) (p : Reader) (c : Option UInt8) (s : State) :
      Step L fuel ⟨h, p, c, s⟩ .tick ⟨h, p.woken, c, s⟩
  | access {h : Handler} {p p' : Reader} {k : Keyboard} (s : State)
      (hstep : Drivers.Step ⟨h.kbd, p⟩ none ⟨k, p'⟩) (hgetting : Getting p') :
      Step L fuel ⟨h, p, none, s⟩ .access ⟨{ h with kbd := k }, p', none, s⟩
  | returned {h : Handler} {p p' : Reader} {k : Keyboard} {c : UInt8} (s : State)
      (hstep : Drivers.Step ⟨h.kbd, p⟩ (some (.returned c)) ⟨k, p'⟩) :
      Step L fuel ⟨h, p, none, s⟩ (.returned c) ⟨{ h with kbd := k }, p', some c, s⟩
  | key {s s' : State} {c : UInt8} {now : Moment} (h : Handler) (p : Reader)
      (hkey : key L fuel s c now = .ok s') :
      Step L fuel ⟨h, p, some c, s⟩ (.key c now) ⟨h, p, none, s'⟩

/-- The shell before its first `keyboard_getchar`. -/
def System.start (buffer : Nat → UInt8) (s : State) : System := ⟨.init buffer, .idle, none, s⟩

/-- A step of `keyboard_getchar` or of the shell. -/
def Act.own : Act → Bool
  | .scancode _ | .tick => false
  | _ => true

/-- No key is pressed or released. -/
def Act.Quiet : Act → Prop
  | .scancode _ => False
  | _ => True

/-! ## The story -/

/-- What was typed, what became of it in the buffer, how much was lost, and what the shell has acted
on. -/
structure Story where
  mode : Mode
  typed : List UInt8
  fifo : Fifo
  lost : Nat
  keys : List (UInt8 × Moment)

namespace Story

def init : Story := ⟨.init, [], ⟨[], []⟩, 0, []⟩

/-- A byte of the keyboard. -/
def scancode (t : Story) (byte : UInt8) : Story :=
  match t.mode.char byte with
  | none => { t with mode := t.mode.next byte }
  | some c =>
      { t with
        mode := t.mode.next byte
        typed := t.typed ++ [c]
        fifo := t.fifo.record (.put c)
        lost := if t.fifo.unread = 255 then t.lost + 1 else t.lost }

def record (t : Story) : Act → Story
  | .scancode byte => t.scancode byte
  | .tick | .access => t
  | .returned c => { t with fifo := t.fifo.record (.returned c) }
  | .key c now => { t with keys := t.keys ++ [(c, now)] }

/-- The story of a run. -/
def of (acts : List Act) : Story := acts.foldl record init

end Story

/-! ## The handler -/

section Handler

variable {h : Handler} {byte : UInt8}

/-- The mode of the handler. -/
def modeOf (h : Handler) : Mode := ⟨h.state, h.extended⟩

theorem translate_of_le (s : KeyboardState) (hlong : scancodeToAscii.length ≤ byte.toNat) :
    Drivers.translate s byte = 0 := by
  have hplain : scancodeToAscii.getD byte.toNat 0 = 0 := List.getD_eq_default _ _ hlong
  have hshift : scancodeToAsciiShift.getD byte.toNat 0 = 0 := List.getD_eq_default _ _ hlong
  have hzero : (if s.shift then scancodeToAsciiShift else scancodeToAscii).getD byte.toNat 0 = 0 := by
    split_ifs
    · exact hshift
    · exact hplain
  rw [Drivers.translate, hzero]
  simp

theorem and_mask_of_pressed (hpressed : byte &&& 0x80 = 0) : byte &&& 0x7F = byte := by
  have hor : byte &&& 0x80 ||| byte &&& 0x7F = byte := by
    apply UInt8.eq_of_toBitVec_eq
    simp only [UInt8.toBitVec_or, UInt8.toBitVec_and]
    rw [← BitVec.and_or_distrib_left]
    exact BitVec.and_allOnes
  rwa [hpressed, UInt8.zero_or] at hor

theorem modeOf_handleKey (h : Handler) (pressed : Bool) (key : UInt8) :
    modeOf (handleKey h pressed key) = ⟨Mode.turn h.state pressed key, h.extended⟩ := by
  simp only [handleKey, Mode.turn]
  split_ifs <;> rfl

theorem handleKey_released (h : Handler) (key : UInt8) : (handleKey h false key).kbd = h.kbd := by
  simp only [handleKey]
  split_ifs <;> first | rfl | simp_all

theorem handleKey_modifier {key : UInt8} (hkey : key ∈ Mode.modifiers) (h : Handler) :
    (handleKey h true key).kbd = h.kbd := by
  simp only [Mode.modifiers, List.mem_cons, List.not_mem_nil, or_false] at hkey
  obtain rfl | rfl | rfl | rfl | rfl := hkey <;> rfl

theorem handleKey_pressed {key : UInt8} (hkey : key ∉ Mode.modifiers) (h : Handler) :
    (handleKey h true key).kbd =
      if Drivers.translate h.state key = 0 then h.kbd
      else keyboardBufferPut h.kbd (Drivers.translate h.state key) := by
  simp only [Mode.modifiers, List.mem_cons, List.not_mem_nil, or_false, not_or] at hkey
  obtain ⟨hleft, hright, hctrl, halt, hcaps⟩ := hkey
  simp only [handleKey, hleft, hright, hctrl, halt, hcaps, or_self, false_and, if_false, true_and]
  by_cases hlong : key.toNat < scancodeToAscii.length
  · rw [if_pos hlong, ite_not]
    split_ifs <;> rfl
  · rw [if_neg hlong, if_pos (translate_of_le h.state (Nat.not_lt.1 hlong))]

/-- The handler keeps its mode, and puts what is typed into the buffer. -/
theorem modeOf_keyboardHandler (h : Handler) (byte : UInt8) :
    modeOf (keyboardHandler h byte) = (modeOf h).next byte := by
  change _ = if byte = 0xE0 then _ else if h.extended then _ else _
  unfold keyboardHandler
  split_ifs
  · rfl
  · rfl
  · exact modeOf_handleKey h _ _

theorem kbd_keyboardHandler (h : Handler) (byte : UInt8) :
    (keyboardHandler h byte).kbd = ((modeOf h).char byte).elim h.kbd (keyboardBufferPut h.kbd) := by
  unfold keyboardHandler Mode.char
  by_cases hmark : byte = 0xE0
  · rw [if_pos hmark, if_pos (.inl hmark)]
    rfl
  by_cases hextended : h.extended
  · rw [if_neg hmark, if_pos hextended, if_pos (.inr (.inl hextended))]
    rfl
  rw [if_neg hmark, if_neg hextended]
  by_cases hpressed : byte &&& 0x80 = 0
  · rw [and_mask_of_pressed hpressed, decide_eq_true hpressed]
    by_cases hkey : byte ∈ Mode.modifiers
    · rw [handleKey_modifier hkey, if_pos (.inr (.inr (.inr (.inl hkey))))]
      rfl
    · rw [handleKey_pressed hkey]
      split_ifs <;> simp_all [modeOf]
  · rw [decide_eq_false hpressed, handleKey_released, if_pos (.inr (.inr (.inl hpressed)))]
    rfl

end Handler

/-! ## The reader -/

/-- The number of characters in the buffer. -/
def pending (k : Keyboard) : Nat := (k.writePos + keyboardBufferSize - k.readPos) % keyboardBufferSize

/-- How far the reader is from the next character, if there is one. -/
def distance (k : Keyboard) : Reader → Nat
  | .halt => 8
  | .idle | .halted => 7
  | .getchar => 6
  | .getcharRead _ => 5
  -- If `buffer_write_pos` has changed since, the test may still fail.
  | .getcharWrite w => if w = k.writePos then 5 else 9
  | .index => 4
  | .load _ => 3
  | .advance _ => 2
  | .store _ _ => 1
  | _ => 0

section Reading

variable {k k' : Keyboard} {p p' : Reader} {f : Fifo} {xs : List UInt8} {c : UInt8}

theorem Getting.ne (hp : Getting p) : p ≠ .flushWrite := by
  rintro rfl
  exact hp

theorem pending_eq (h : Filled ⟨k, p⟩ f xs) : pending k = xs.length := by
  have hread : k.readPos < 256 := h.holds.read_lt
  have hroom : xs.length < 256 := h.holds.room
  have hwrite : k.writePos = (k.readPos + xs.length) % 256 := h.holds.write_eq
  rw [pending, hwrite, keyboardBufferSize]
  omega

/-- An access of `keyboard_getchar` leaves the buffer alone, and brings the reader nearer to the
next character, if there is one. -/
theorem access_cases (h : Drivers.Step ⟨k, p⟩ none ⟨k', p'⟩) (hp : Getting p) (hp' : Getting p')
    (hxs : Filled ⟨k, p⟩ f xs) : k' = k ∧ (xs ≠ [] → distance k p' < distance k p) := by
  have hempty := hxs.holds.empty_iff
  have hknows := hxs.knows
  cases h with
  | getchar | getcharRead | hlt | index | load | advance =>
      exact ⟨rfl, fun _ => Nat.lt_succ_self _⟩
  | getcharWrite =>
      refine ⟨rfl, fun _ => ?_⟩
      have hnew : distance k (.getcharWrite k.writePos) = 5 := if_pos rfl
      exact hnew.trans_lt (Nat.lt_succ_self _)
  | testWrite k r =>
      obtain rfl : r = k.readPos := hknows
      refine ⟨rfl, fun hne => ?_⟩
      rw [Reader.tested, if_neg (mt hempty.1 hne)]
      exact Nat.lt_succ_self _
  | testRead k w =>
      refine ⟨rfl, fun hne => ?_⟩
      by_cases hw : w = k.writePos
      · subst hw
        have hfresh : distance k (.getcharWrite k.writePos) = 5 := if_pos rfl
        rw [hfresh, Reader.tested, if_neg (mt hempty.1 hne)]
        exact Nat.lt_succ_self _
      · have hold : distance k (.getcharWrite w) = 9 := if_neg hw
        rw [hold, Reader.tested]
        split_ifs
        · exact Nat.lt_succ_self _
        · exact Nat.lt_of_sub_pos (Nat.zero_lt_succ _)
  | available | flush => exact hp'.elim
  | availableRead | availableWrite | flushRead => exact hp.elim

theorem Getting.woken (hp : Getting p) : Getting p.woken := by
  cases p with
  | halted => trivial
  | _ => exact hp

theorem distance_woken (k : Keyboard) (p : Reader) : distance k p.woken ≤ distance k p := by
  cases p with
  | halted => exact Nat.le_succ _
  | _ => exact Nat.le_refl _

/-- A reader in `keyboard_getchar` can go on, unless it waits for an interrupt. -/
theorem access_live (k : Keyboard) (hp : Getting p) (hawake : p ≠ .halted) :
    (∃ p', Drivers.Step ⟨k, p⟩ none ⟨k, p'⟩ ∧ Getting p') ∨
      ∃ c k', Drivers.Step ⟨k, p⟩ (some (.returned c)) ⟨k', .idle⟩ := by
  have htested : ∀ r w, Getting (Reader.tested r w) := fun r w => by
    rw [Reader.tested]
    split_ifs <;> trivial
  cases p with
  | idle => exact .inl ⟨_, .getchar k, trivial⟩
  | getchar => exact .inl ⟨_, .getcharRead k, trivial⟩
  | getcharRead r => exact .inl ⟨_, .testWrite k r, htested _ _⟩
  | getcharWrite w => exact .inl ⟨_, .testRead k w, htested _ _⟩
  | halt => exact .inl ⟨_, .hlt k, trivial⟩
  | halted => exact absurd rfl hawake
  | index => exact .inl ⟨_, .index k, trivial⟩
  | load i => exact .inl ⟨_, .load k i, trivial⟩
  | advance c => exact .inl ⟨_, .advance k c, trivial⟩
  | store c r => exact .inr ⟨c, _, .store k c r⟩
  | available | availableRead | availableWrite | flush | flushWrite => exact hp.elim

/-- The character that is returned was the first one in the buffer. -/
theorem returned_cases (h : Drivers.Step ⟨k, p⟩ (some (.returned c)) ⟨k', p'⟩) (hinv : Inv ⟨k, p⟩ f) :
    p' = .idle ∧ Inv ⟨k', p'⟩ (f.record (.returned c)) ∧ pending k = pending k' + 1 ∧
      distance k p = 1 := by
  have hinv' : Inv ⟨k', p'⟩ (f.record (.returned c)) := hinv.step h
  cases h with
  | store k c r =>
      obtain ⟨xs, hxs⟩ := hinv.filled (by simp)
      obtain ⟨ys, hys⟩ := hinv'.filled (by simp)
      refine ⟨rfl, hinv', ?_, rfl⟩
      have hkept : f.taken ++ xs = f.taken ++ [c] ++ ys := hxs.kept.symm.trans hys.kept
      have hlength := congrArg List.length hkept
      rw [pending_eq hxs, pending_eq hys]
      simp only [List.length_append, List.length_singleton] at hlength
      omega

end Reading

/-! ## The invariant -/

/-- A system follows its story. -/
structure Follows (L : Layout) (m₀ : ByteMem) (k₀ : Console) (σ : System) (t : Story) : Prop where
  mode : modeOf σ.handler = t.mode
  queue : Inv ⟨σ.handler.kbd, σ.reader⟩ t.fifo
  getting : Getting σ.reader
  idle : σ.char ≠ none → σ.reader = .idle
  taken : t.fifo.taken = t.keys.map Prod.fst ++ σ.char.toList
  kept : t.fifo.kept.Sublist t.typed
  lost : t.fifo.kept.length + t.lost = t.typed.length
  shown : Tracks L m₀ σ.shell (after t.keys).1 ((after t.keys).2.foldl Console.put k₀)

section Following

variable {L : Layout} {m₀ : ByteMem} {fuel : Nat} {k₀ : Console} {σ σ' : System} {t : Story}
  {acts : List Act} {a : Act} {s : State} {buffer : Nat → UInt8}

theorem follows_start (hloaded : L.Loaded m₀) (hfuel : lineSize ≤ fuel)
    (hstart : shellRun L fuel k₀ m₀ = .ok s) : Follows L m₀ k₀ (.start buffer s) .init where
  mode := rfl
  queue := .of_filled [] ⟨rfl, ringHolds_nil (Nat.zero_lt_succ _), trivial⟩ (by simp [System.start])
  getting := trivial
  idle h := absurd rfl h
  taken := rfl
  kept := .slnil
  lost := rfl
  shown := by
    rw [shellRun_eq hloaded hfuel k₀] at hstart
    obtain rfl := Outcome.ok.inj hstart
    exact ⟨rfl, rfl, rfl, fun c hc => absurd hc List.not_mem_nil, Nat.zero_lt_succ _, fun _ _ => rfl⟩

/-- `hlt` ends. -/
theorem Follows.woken (h : Follows L m₀ k₀ σ t) :
    Follows L m₀ k₀ { σ with reader := σ.reader.woken } t :=
  { h with
    queue := h.queue.woken
    getting := h.getting.woken
    idle := fun hchar => congrArg Reader.woken (h.idle hchar) }

/-- **An interrupt.** -/
theorem Follows.scancode (h : Follows L m₀ k₀ σ t) (byte : UInt8) :
    Follows L m₀ k₀ { σ with handler := keyboardHandler σ.handler byte } (t.scancode byte) := by
  have hmode := modeOf_keyboardHandler σ.handler byte
  have hkbd := kbd_keyboardHandler σ.handler byte
  rw [h.mode] at hmode hkbd
  unfold Story.scancode
  cases hchar : t.mode.char byte with
  | none =>
      rw [hchar, Option.elim_none] at hkbd
      exact { h with mode := hmode, queue := hkbd ▸ h.queue }
  | some c =>
      rw [hchar, Option.elim_some] at hkbd
      refine { h with mode := hmode, queue := ?_, taken := ?_, kept := ?_, lost := ?_ }
      · change Inv ⟨(keyboardHandler σ.handler byte).kbd, σ.reader⟩ _
        rw [hkbd]
        exact h.queue.put c
      · refine Eq.trans ?_ h.taken
        simp only [Fifo.record]
        split_ifs <;> rfl
      · simp only [Fifo.record]
        split_ifs
        · exact h.kept.trans (List.sublist_append_left ..)
        · exact h.kept.append (List.Sublist.refl [c])
      · have hlost := h.lost
        simp only [Fifo.record]
        split_ifs <;> simp only [List.length_append, List.length_singleton] <;> omega

/-- **An access.** -/
theorem Follows.access {k : Keyboard} {p' : Reader} (h : Follows L m₀ k₀ σ t) (hchar : σ.char = none)
    (hstep : Drivers.Step ⟨σ.handler.kbd, σ.reader⟩ none ⟨k, p'⟩) (hgetting : Getting p') :
    Follows L m₀ k₀ { σ with handler := { σ.handler with kbd := k }, reader := p' } t :=
  { h with queue := h.queue.step hstep, getting := hgetting, idle := fun hne => absurd hchar hne }

/-- **A character is returned.** -/
theorem Follows.returned {k : Keyboard} {p' : Reader} {c : UInt8} (h : Follows L m₀ k₀ σ t)
    (hchar : σ.char = none)
    (hstep : Drivers.Step ⟨σ.handler.kbd, σ.reader⟩ (some (.returned c)) ⟨k, p'⟩) :
    Follows L m₀ k₀ ⟨{ σ.handler with kbd := k }, p', some c, σ.shell⟩ (t.record (.returned c)) := by
  obtain ⟨rfl, hqueue, -, -⟩ := returned_cases hstep h.queue
  have htaken := h.taken
  rw [hchar, Option.toList_none, List.append_nil] at htaken
  refine { h with queue := hqueue, getting := trivial, idle := fun _ => rfl, taken := ?_ }
  change t.fifo.taken ++ [c] = _
  rw [htaken]
  rfl

/-- **The shell acts.** -/
theorem Follows.key {c : UInt8} (hloaded : L.Loaded m₀) (hfuel : lineSize ≤ fuel)
    (h : Follows L m₀ k₀ σ t) (hchar : σ.char = some c) (now : Moment) :
    ∃ s', key L fuel σ.shell c now = .ok s' ∧
      Follows L m₀ k₀ { σ with char := none, shell := s' } (t.record (.key c now)) := by
  obtain ⟨s', hkey, hshown⟩ := key_tracks hloaded hfuel h.shown c now
  refine ⟨s', hkey, { h with idle := fun hne => absurd rfl hne, taken := ?_, shown := ?_ }⟩
  · have htaken := h.taken
    rw [hchar] at htaken
    change t.fifo.taken = (t.keys ++ [(c, now)]).map Prod.fst ++ []
    rw [htaken, List.map_append, List.append_nil]
    rfl
  · have hkeys : (t.record (.key c now)).keys = t.keys ++ [(c, now)] := rfl
    rw [hkeys, after_append, List.foldl_append]
    exact hshown

theorem Follows.step (hloaded : L.Loaded m₀) (hfuel : lineSize ≤ fuel) (h : Follows L m₀ k₀ σ t)
    (hstep : Step L fuel σ a σ') : Follows L m₀ k₀ σ' (t.record a) := by
  cases hstep with
  | scancode _ _ _ _ byte => exact (h.scancode byte).woken
  | tick => exact h.woken
  | access _ hstep hgetting => exact h.access rfl hstep hgetting
  | returned _ hstep => exact h.returned rfl hstep
  | key _ _ hkey =>
      obtain ⟨s', hkey', hfollows⟩ := h.key hloaded hfuel rfl _
      obtain rfl := Outcome.ok.inj (hkey.symm.trans hkey')
      exact hfollows

theorem Follows.run (hloaded : L.Loaded m₀) (hfuel : lineSize ≤ fuel) (h : Follows L m₀ k₀ σ t)
    (hrun : Trace (Step L fuel) σ acts σ') : Follows L m₀ k₀ σ' (acts.foldl Story.record t) := by
  induction hrun generalizing t with
  | nil => exact h
  | cons hstep _ ih => exact ih (h.step hloaded hfuel hstep)

/-! ## Catching up -/

/-- What is left to do: all steps of the reader for a character, and one of the shell. -/
def work (σ : System) : Nat :=
  8 * pending σ.handler.kbd + distance σ.handler.kbd σ.reader + σ.char.toList.length

/-- There is nothing left to act on. -/
def CaughtUp (σ : System) : Prop := pending σ.handler.kbd = 0 ∧ σ.char = none

/-- The shell can go on, unless it waits for an interrupt. -/
theorem Follows.live (hloaded : L.Loaded m₀) (hfuel : lineSize ≤ fuel) (h : Follows L m₀ k₀ σ t)
    (hawake : σ.reader ≠ .halted) : ∃ a σ', a.own ∧ Step L fuel σ a σ' := by
  obtain ⟨handler, p, char, s⟩ := σ
  cases char with
  | some c =>
      obtain ⟨s', hkey, -⟩ := h.key hloaded hfuel rfl bootMoment
      exact ⟨.key c bootMoment, _, rfl, .key handler p hkey⟩
  | none =>
      obtain ⟨p', hstep, hgetting⟩ | ⟨c, k', hstep⟩ := access_live handler.kbd h.getting hawake
      · exact ⟨.access, _, rfl, .access s hstep hgetting⟩
      · exact ⟨.returned c, _, rfl, .returned s hstep⟩

theorem Reader.woken_awake (p : Reader) : p.woken ≠ .halted := by
  cases p <;> simp [Reader.woken]

/-- **Work that ends.** While nothing is typed, every step of the reader or of the shell leaves less
to do, and there is always one, at the latest after an interrupt of the timer. -/
theorem settling (L : Layout) (m₀ : ByteMem) (fuel : Nat) (k₀ : Console) (hloaded : L.Loaded m₀)
    (hfuel : lineSize ≤ fuel) :
    Settling (Step L fuel) Act.own Act.Quiet (fun σ => ∃ t, Follows L m₀ k₀ σ t) CaughtUp work where
  quiet := fun {a} hown => by
    cases a with
    | scancode => cases hown
    | _ => trivial
  good := fun ⟨t, h⟩ hstep => ⟨_, h.step hloaded hfuel hstep⟩
  less := by
    rintro σ a σ' ⟨t, h⟩ hown hstep hbusy
    cases hstep with
    | scancode | tick => cases hown
    | access _ hstep hgetting =>
        obtain ⟨xs, hxs⟩ := h.queue.filled h.getting.ne
        obtain ⟨rfl, hnear⟩ := access_cases hstep h.getting hgetting hxs
        have hne : xs ≠ [] := by
          rintro rfl
          exact hbusy ⟨pending_eq hxs, rfl⟩
        have hless := hnear hne
        simp only [work]
        omega
    | @returned handler p p' k c s hstep =>
        obtain ⟨rfl, -, hpending, hnear⟩ := returned_cases hstep h.queue
        have hbefore : work ⟨handler, p, none, s⟩ =
            8 * pending handler.kbd + distance handler.kbd p := rfl
        have hafter : work ⟨{ handler with kbd := k }, .idle, some c, s⟩ =
            8 * pending k + 7 + 1 := rfl
        omega
    | key => exact Nat.lt_succ_self _
  calm := by
    rintro σ a σ' ⟨t, h⟩ hquiet hnot hstep
    cases hstep with
    | scancode => exact hquiet.elim
    | tick handler p =>
        have hwoken := distance_woken handler.kbd p
        simp only [work]
        omega
    | access | returned | key => exact absurd rfl hnot
  rest := by
    rintro σ a σ' ⟨t, h⟩ hquiet hstep ⟨hpending, hchar⟩
    cases hstep with
    | scancode => exact hquiet.elim
    | tick => exact ⟨hpending, hchar⟩
    | access _ hstep hgetting =>
        obtain ⟨xs, hxs⟩ := h.queue.filled h.getting.ne
        obtain ⟨rfl, -⟩ := access_cases hstep h.getting hgetting hxs
        exact ⟨hpending, rfl⟩
    | returned _ hstep =>
        obtain ⟨-, -, hone, -⟩ := returned_cases hstep h.queue
        rw [hpending] at hone
        exact absurd hone.symm (Nat.succ_ne_zero _)
    | key => cases hchar
  live := by
    rintro σ ⟨t, h⟩
    by_cases hawake : σ.reader = .halted
    · exact .inr ⟨.tick, _, trivial, Bool.false_ne_true, .tick ..,
        h.woken.live hloaded hfuel (Reader.woken_awake _)⟩
    · exact .inl (h.live hloaded hfuel hawake)

theorem Follows.caughtUp (h : Follows L m₀ k₀ σ t) (hdone : CaughtUp σ) :
    t.keys.map Prod.fst = t.fifo.kept := by
  obtain ⟨hpending, hchar⟩ := hdone
  obtain ⟨xs, hxs⟩ := h.queue.filled h.getting.ne
  rw [pending_eq hxs, List.length_eq_zero_iff] at hpending
  have htaken := h.taken
  rw [hchar, Option.toList_none, List.append_nil] at htaken
  rw [hxs.kept, hpending, List.append_nil, htaken]

theorem Follows.work_le (h : Follows L m₀ k₀ σ t) : work σ ≤ 8 * t.fifo.unread + 9 := by
  obtain ⟨xs, hxs⟩ := h.queue.filled h.getting.ne
  have hunread := hxs.unread
  have hpending := pending_eq hxs
  have hidle := h.idle
  obtain ⟨⟨kbd, state, extended⟩, p, char, s⟩ := σ
  cases char with
  | none =>
      have hfar : distance kbd p ≤ 9 := by
        cases p <;> simp only [distance] <;> (try split_ifs) <;> decide
      simp only [work, Option.toList_none, List.length_nil]
      simp only at hpending
      omega
  | some c =>
      obtain rfl : p = .idle := hidle (Option.some_ne_none c)
      simp only [work, distance, Option.toList_some, List.length_singleton]
      simp only at hpending
      omega

/-- What was kept stays so, while nothing is typed. -/
theorem kept_quiet (t : Story) (hquiet : ∀ a ∈ acts, a.Quiet) :
    (acts.foldl Story.record t).fifo.kept = t.fifo.kept := by
  induction acts generalizing t with
  | nil => rfl
  | cons a acts ih =>
      rw [List.forall_mem_cons] at hquiet
      rw [List.foldl_cons, ih _ hquiet.2]
      cases a with
      | scancode => exact hquiet.1.elim
      | tick | access | returned | key => rfl

/-! ## Runs -/

/-- **The shell catches up.** It can always go on, unless it is halted, and then it can after an
interrupt of the timer. When no key is pressed any more, then whenever the timer ticks, after eight
steps for each character in the buffer, and nine others, it has acted on all that was kept. -/
theorem typing_catches_up (hloaded : L.Loaded m₀) (hfuel : lineSize ≤ fuel)
    (hstart : shellRun L fuel k₀ m₀ = .ok s)
    (hrun : Trace (Step L fuel) (.start buffer s) acts σ) :
    (σ.reader ≠ .halted → ∃ a σ', a.own ∧ Step L fuel σ a σ') ∧
      (∃ σ₁, Step L fuel σ .tick σ₁ ∧ ∃ a σ', a.own ∧ Step L fuel σ₁ a σ') ∧
      ∀ more σ', Trace (Step L fuel) σ more σ' → (∀ a ∈ more, a.Quiet) →
        8 * (Story.of acts).fifo.unread + 9 < more.countP Act.own →
        (Story.of (acts ++ more)).keys.map Prod.fst = (Story.of acts).fifo.kept := by
  have h := (follows_start hloaded hfuel hstart).run hloaded hfuel hrun
  change Follows L m₀ k₀ σ (Story.of acts) at h
  refine ⟨h.live hloaded hfuel, ⟨_, .tick .., h.woken.live hloaded hfuel (Reader.woken_awake _)⟩, ?_⟩
  intro more σ' hmore hquiet hlong
  have hdone := (settling L m₀ fuel k₀ hloaded hfuel).done ⟨_, h⟩ hquiet hmore
    (h.work_le.trans_lt hlong)
  have h' := h.run hloaded hfuel hmore
  rw [Story.of, List.foldl_append]
  exact (h'.caughtUp hdone).trans (kept_quiet _ hquiet)

/-- The letter `a` is pressed between the test of `keyboard_getchar` and its `hlt`. -/
def pressedLate : List Act := [.access, .access, .access, .scancode 0x1E, .access]

theorem pressedLate_trace (s : State) : Trace (Step image lineSize) (.start (fun _ => 0) s)
    pressedLate ⟨keyboardHandler (.init fun _ => 0) 0x1E, .halted, none, s⟩ :=
  let h : Handler := .init fun _ => 0
  .cons (.access s (.getchar h.kbd) trivial) <|
  .cons (.access s (.getcharRead h.kbd) trivial) <|
  .cons (.access s (.testWrite h.kbd 0) trivial) <|
  .cons (.scancode h .halt none s 0x1E) <|
  .cons (.access s (.hlt (keyboardHandler h 0x1E).kbd) trivial) <|
  .nil _

theorem asleep {h : Handler} (hown : a.own) : ¬Step L fuel ⟨h, .halted, none, s⟩ a σ' := by
  intro hstep
  cases hstep with
  | scancode | tick => cases hown
  | access _ hstep => cases hstep
  | returned _ hstep => cases hstep

/-- The shell sleeps over the letter. The timer wakes it, and it acts on the letter. -/
theorem typing_catches_up_late : ∃ s σ more,
    Trace (Step image lineSize) (.start (fun _ => 0) s) pressedLate σ ∧
      pending σ.handler.kbd = 1 ∧ (∀ a σ', a.own → ¬Step image lineSize σ a σ') ∧
      more.countP Act.own = 18 ∧
      (Story.of (pressedLate ++ more)).keys.map Prod.fst = [97] := by
  have hstart := shellRun_eq image_loaded le_rfl blankConsole
  have hrun := pressedLate_trace ⟨started.foldl Console.put blankConsole, imageMem, 0⟩
  have hfollows := (follows_start image_loaded le_rfl hstart).run image_loaded le_rfl hrun
  obtain ⟨more, σ, hcount, hquiet, hmore⟩ :=
    (settling image imageMem lineSize blankConsole image_loaded le_rfl).exists_trace ⟨_, hfollows⟩ 18
  obtain ⟨-, -, hcatch⟩ := typing_catches_up image_loaded le_rfl hstart hrun
  have hunread : (Story.of pressedLate).fifo.unread = 1 := by decide
  have hkept : (Story.of pressedLate).fifo.kept = [97] := by decide
  refine ⟨_, _, more, hrun, by decide, fun _ _ => asleep, hcount, ?_⟩
  rw [hcatch more σ hmore hquiet (by rw [hunread, hcount]; decide), hkept]

end Following

end Munux.Shell
