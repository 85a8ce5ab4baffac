import Munux.Lib.Ring

/-!
# The keyboard buffer

`kernel/drivers/keyboard.c`: the handler of IRQ1 puts characters into a circular buffer, and the
rest of the kernel takes them out. Nothing is locked. The handler runs to its end between any two
accesses that the reader makes to the buffer or to one of its positions.

**The reader** is a program of single accesses (`Reader`). The test of `keyboard_getchar` and of
`keyboard_available` reads both positions, in an order that C leaves open. Between the test and the
`hlt` there may be an interrupt; the `hlt` then waits for the next one.

**What should be there** (`Fifo`). Of the characters that were put since the buffer was last
flushed, those are kept that did not find 255 unread ones; the reader takes them in order.

**The invariant** (`Inv`). Between the two positions lie the characters that are kept and not taken
yet. The reader alone moves `buffer_read_pos`, so what it has read of it is still true; what it has
read of `buffer_write_pos` is old, but it says at least that there was a character, and the handler
takes none away. Only in the middle of `keyboard_flush` the buffer holds nothing in particular.

Main result: `keyboard_fifo`.
-/

namespace Munux.Drivers

/-- `KEYBOARD_BUFFER_SIZE` -/
def keyboardBufferSize : Nat := 256

/-- `keyboard_buffer`, `buffer_read_pos` and `buffer_write_pos`. -/
structure Keyboard where
  buffer : Nat → UInt8
  readPos : Nat
  writePos : Nat

/-- `keyboard_buffer_put` -/
def keyboardBufferPut (k : Keyboard) (c : UInt8) : Keyboard :=
  let nextPos := (k.writePos + 1) % keyboardBufferSize
  if nextPos ≠ k.readPos then
    { k with buffer := Function.update k.buffer k.writePos c, writePos := nextPos }
  else
    k

/-- Where the reader is, and what it has read so far. -/
inductive Reader where
  | idle
  | getchar
  | getcharRead (readPos : Nat)
  | getcharWrite (writePos : Nat)
  | halt
  | halted
  | index
  | load (index : Nat)
  | advance (c : UInt8)
  | store (c : UInt8) (readPos : Nat)
  | available
  | availableRead (readPos : Nat)
  | availableWrite (writePos : Nat)
  | flush
  | flushWrite
  deriving DecidableEq, Repr

/-- What a run shows of itself; `interrupt` is one that puts nothing into the buffer. -/
inductive Event where
  | put (c : UInt8)
  | interrupt
  | returned (c : UInt8)
  | answered (b : Bool)
  | flushed
  deriving DecidableEq, Repr

/-- The buffer and its reader. -/
structure State where
  kbd : Keyboard
  reader : Reader

/-- The outcome of the test of `keyboard_getchar`. -/
def Reader.tested (readPos writePos : Nat) : Reader := if readPos = writePos then halt else index

/-- An interrupt of any kind ends `hlt`. One that comes before the instruction does not. -/
def Reader.woken : Reader → Reader
  | .halted => .getchar
  | p => p

/-- One access of the reader, or one interrupt. -/
inductive Step : State → Option Event → State → Prop
  | put (k : Keyboard) (p : Reader) (c : UInt8) :
      Step ⟨k, p⟩ (some (.put c)) ⟨keyboardBufferPut k c, p.woken⟩
  | interrupt (k : Keyboard) (p : Reader) : Step ⟨k, p⟩ (some .interrupt) ⟨k, p.woken⟩
  -- `keyboard_getchar`
  | getchar (k : Keyboard) : Step ⟨k, .idle⟩ none ⟨k, .getchar⟩
  | getcharRead (k : Keyboard) : Step ⟨k, .getchar⟩ none ⟨k, .getcharRead k.readPos⟩
  | getcharWrite (k : Keyboard) : Step ⟨k, .getchar⟩ none ⟨k, .getcharWrite k.writePos⟩
  | testWrite (k : Keyboard) (r : Nat) :
      Step ⟨k, .getcharRead r⟩ none ⟨k, .tested r k.writePos⟩
  | testRead (k : Keyboard) (w : Nat) :
      Step ⟨k, .getcharWrite w⟩ none ⟨k, .tested k.readPos w⟩
  | hlt (k : Keyboard) : Step ⟨k, .halt⟩ none ⟨k, .halted⟩
  | index (k : Keyboard) : Step ⟨k, .index⟩ none ⟨k, .load k.readPos⟩
  | load (k : Keyboard) (i : Nat) : Step ⟨k, .load i⟩ none ⟨k, .advance (k.buffer i)⟩
  | advance (k : Keyboard) (c : UInt8) : Step ⟨k, .advance c⟩ none ⟨k, .store c k.readPos⟩
  | store (k : Keyboard) (c : UInt8) (r : Nat) :
      Step ⟨k, .store c r⟩ (some (.returned c))
        ⟨{ k with readPos := (r + 1) % keyboardBufferSize }, .idle⟩
  -- `keyboard_available`
  | available (k : Keyboard) : Step ⟨k, .idle⟩ none ⟨k, .available⟩
  | availableRead (k : Keyboard) : Step ⟨k, .available⟩ none ⟨k, .availableRead k.readPos⟩
  | availableWrite (k : Keyboard) : Step ⟨k, .available⟩ none ⟨k, .availableWrite k.writePos⟩
  | answerWrite (k : Keyboard) (r : Nat) :
      Step ⟨k, .availableRead r⟩ (some (.answered (r != k.writePos))) ⟨k, .idle⟩
  | answerRead (k : Keyboard) (w : Nat) :
      Step ⟨k, .availableWrite w⟩ (some (.answered (k.readPos != w))) ⟨k, .idle⟩
  -- `keyboard_flush`
  | flush (k : Keyboard) : Step ⟨k, .idle⟩ none ⟨k, .flush⟩
  | flushRead (k : Keyboard) : Step ⟨k, .flush⟩ none ⟨{ k with readPos := 0 }, .flushWrite⟩
  | flushWrite (k : Keyboard) :
      Step ⟨k, .flushWrite⟩ (some .flushed) ⟨{ k with writePos := 0 }, .idle⟩

/-- A run, with its events in order. -/
inductive Run (s : State) : List Event → State → Prop
  | refl : Run s [] s
  | tail {es : List Event} {t u : State} {e : Option Event} (hrun : Run s es t)
      (hstep : Step t e u) : Run s (es ++ e.toList) u

/-- After `keyboard_init`. -/
def initial (buffer : Nat → UInt8) : State := ⟨⟨buffer, 0, 0⟩, .idle⟩

/-! ## What the reader should get -/

/-- The characters kept since the last flush, and those that were returned since. -/
structure Fifo where
  kept : List UInt8
  taken : List UInt8
  deriving DecidableEq, Repr

namespace Fifo

/-- The number of characters that nobody has read. -/
def unread (f : Fifo) : Nat := f.kept.length - f.taken.length

/-- A character that finds 255 unread ones is dropped; any other is kept. -/
def record (f : Fifo) : Event → Fifo
  | .put c => if f.unread = 255 then f else { f with kept := f.kept ++ [c] }
  | .interrupt => f
  | .returned c => { f with taken := f.taken ++ [c] }
  | .answered _ => f
  | .flushed => ⟨[], []⟩

/-- What the events of a run leave. -/
def history (es : List Event) : Fifo := es.foldl record ⟨[], []⟩

end Fifo

/-! ## The invariant -/

/-- What the reader knows, when the buffer holds `xs`. -/
def Reader.Knows (k : Keyboard) (xs : List UInt8) : Reader → Prop
  | .getcharRead r => r = k.readPos
  | .getcharWrite w => k.readPos ≠ w → xs ≠ []
  | .index => xs ≠ []
  | .load i => xs ≠ [] ∧ i = k.readPos
  | .advance c => xs.head? = some c
  | .store c r => xs.head? = some c ∧ r = k.readPos
  | .availableRead r => r = k.readPos
  | .availableWrite w => k.readPos ≠ w → xs ≠ []
  | _ => True

/-- The buffer holds the characters that are kept and not taken. -/
structure Filled (s : State) (f : Fifo) (xs : List UInt8) : Prop where
  kept : f.kept = f.taken ++ xs
  holds : RingHolds s.kbd.buffer keyboardBufferSize s.kbd.readPos s.kbd.writePos xs
  knows : s.reader.Knows s.kbd xs

/-- The invariant of a run. -/
structure Inv (s : State) (f : Fifo) : Prop where
  read_lt : s.kbd.readPos < keyboardBufferSize
  write_lt : s.kbd.writePos < keyboardBufferSize
  ordered : f.taken <+: f.kept
  flushing : s.reader = .flushWrite → s.kbd.readPos = 0
  filled : s.reader ≠ .flushWrite → ∃ xs, Filled s f xs

section Steps

variable {k : Keyboard} {p p' : Reader} {f : Fifo} {xs : List UInt8} {c : UInt8} {s s' : State}
variable {e : Option Event} {es : List Event}

theorem Filled.unread (h : Filled s f xs) : f.unread = xs.length := by
  unfold Fifo.unread
  rw [h.kept, List.length_append, Nat.add_sub_cancel_left]

/-- A buffer that holds what it should makes the invariant. -/
theorem Inv.of_filled (xs : List UInt8) (h : Filled s f xs) (hp : s.reader ≠ .flushWrite) :
    Inv s f :=
  ⟨h.holds.read_lt, h.holds.write_lt, ⟨xs, h.kept.symm⟩, fun hflush => absurd hflush hp,
    fun _ => ⟨xs, h⟩⟩

/-- The reader moves on, and touches nothing. -/
theorem Inv.goto (h : Inv ⟨k, p⟩ f) (hp : p ≠ .flushWrite) (hp' : p' ≠ .flushWrite)
    (hknows : ∀ xs, Filled ⟨k, p⟩ f xs → p'.Knows k xs) : Inv ⟨k, p'⟩ f := by
  obtain ⟨xs, hxs⟩ := h.filled hp
  exact .of_filled xs ⟨hxs.kept, hxs.holds, hknows xs hxs⟩ hp'

theorem Reader.woken_of_ne (h : p ≠ .halted) : p.woken = p := by
  cases p with
  | halted => exact absurd rfl h
  | _ => rfl

/-- `hlt` ends. -/
theorem Inv.woken (h : Inv ⟨k, p⟩ f) : Inv ⟨k, p.woken⟩ f := by
  by_cases hp : p = .halted
  · subst hp
    exact h.goto (by simp) (by simp [Reader.woken]) fun _ _ => trivial
  · rwa [Reader.woken_of_ne hp]

/-- What the reader knows, the handler leaves true. -/
theorem Reader.Knows.push (h : p.Knows k xs) (buf : Nat → UInt8) (w : Nat) (c : UInt8) :
    p.Knows ⟨buf, k.readPos, w⟩ (xs ++ [c]) := by
  have hhead : ∀ {d : UInt8}, xs.head? = some d → (xs ++ [c]).head? = some d := by
    intro d hd
    rw [List.head?_append, hd]
    rfl
  cases p with
  | getcharRead r => exact h
  | getcharWrite w => exact fun _ => List.append_ne_nil_of_right_ne_nil _ (List.cons_ne_nil _ _)
  | index => exact List.append_ne_nil_of_right_ne_nil _ (List.cons_ne_nil _ _)
  | load i => exact ⟨List.append_ne_nil_of_right_ne_nil _ (List.cons_ne_nil _ _), h.2⟩
  | advance d => exact hhead h
  | store d r => exact ⟨hhead h.1, h.2⟩
  | availableRead r => exact h
  | availableWrite w =>
      exact fun _ => List.append_ne_nil_of_right_ne_nil _ (List.cons_ne_nil _ _)
  | _ => trivial

theorem keyboardBufferPut_full (h : (k.writePos + 1) % keyboardBufferSize = k.readPos) (c : UInt8) :
    keyboardBufferPut k c = k :=
  if_neg (not_not.2 h)

theorem keyboardBufferPut_room (h : (k.writePos + 1) % keyboardBufferSize ≠ k.readPos) (c : UInt8) :
    keyboardBufferPut k c = ⟨Function.update k.buffer k.writePos c, k.readPos,
      (k.writePos + 1) % keyboardBufferSize⟩ :=
  if_pos h

@[simp] theorem readPos_keyboardBufferPut : (keyboardBufferPut k c).readPos = k.readPos := by
  unfold keyboardBufferPut
  simp only
  split_ifs <;> rfl

theorem writePos_keyboardBufferPut (h : k.writePos < keyboardBufferSize) :
    (keyboardBufferPut k c).writePos < keyboardBufferSize := by
  unfold keyboardBufferPut
  simp only
  split_ifs
  · exact Nat.mod_lt _ (by decide)
  · exact h

theorem Fifo.ordered_put (h : f.taken <+: f.kept) (c : UInt8) :
    (f.record (.put c)).taken <+: (f.record (.put c)).kept := by
  simp only [Fifo.record]
  split_ifs
  · exact h
  · exact h.trans (List.prefix_append _ _)

/-- **The handler.** The character is kept, unless it finds 255 unread ones. -/
theorem Filled.put (h : Filled ⟨k, p⟩ f xs) (c : UInt8) :
    ∃ xs', Filled ⟨keyboardBufferPut k c, p⟩ (f.record (.put c)) xs' := by
  have hfull : f.unread = 255 ↔ (k.writePos + 1) % keyboardBufferSize = k.readPos := by
    rw [h.unread, h.holds.full_iff, keyboardBufferSize]
    omega
  by_cases hroom : (k.writePos + 1) % keyboardBufferSize = k.readPos
  · have hrecord : f.record (.put c) = f := if_pos (hfull.2 hroom)
    rw [keyboardBufferPut_full hroom, hrecord]
    exact ⟨xs, h⟩
  · have hrecord : f.record (.put c) = { f with kept := f.kept ++ [c] } := if_neg (mt hfull.1 hroom)
    rw [keyboardBufferPut_room hroom, hrecord]
    refine ⟨xs ++ [c], ?_, h.holds.push hroom c, h.knows.push _ _ c⟩
    rw [h.kept, List.append_assoc]

theorem Inv.put (h : Inv ⟨k, p⟩ f) (c : UInt8) :
    Inv ⟨keyboardBufferPut k c, p⟩ (f.record (.put c)) where
  read_lt := by simpa using h.read_lt
  write_lt := writePos_keyboardBufferPut h.write_lt
  ordered := Fifo.ordered_put h.ordered c
  flushing hp := by simpa using h.flushing hp
  filled hp := by
    obtain ⟨xs, hxs⟩ := h.filled hp
    exact hxs.put c

/-- The test of `keyboard_getchar` leads on only when there is a character. -/
theorem Filled.tested {r w : Nat} (hne : r ≠ w → xs ≠ []) : (Reader.tested r w).Knows k xs := by
  unfold Reader.tested
  split_ifs with heq
  · trivial
  · exact hne heq

theorem Reader.tested_ne {r w : Nat} : Reader.tested r w ≠ .flushWrite := by
  unfold Reader.tested
  split_ifs <;> simp

/-- **Every step keeps the invariant.** -/
theorem Inv.step (h : Inv s f) (hstep : Step s e s') : Inv s' (e.toList.foldl Fifo.record f) := by
  cases hstep with
  | put k p c => exact (h.put c).woken
  | interrupt k p => exact h.woken
  | getchar k => exact h.goto (by simp) (by simp) fun _ _ => trivial
  | getcharRead k => exact h.goto (by simp) (by simp) fun _ _ => rfl
  | getcharWrite k =>
      exact h.goto (by simp) (by simp) fun _ hxs hne hnil => hne (hxs.holds.empty_iff.2 hnil)
  | testWrite k r =>
      refine h.goto (by simp) Reader.tested_ne fun _ hxs => Filled.tested fun hne hnil => hne ?_
      rw [show r = k.readPos from hxs.knows]
      exact hxs.holds.empty_iff.2 hnil
  | testRead k w => exact h.goto (by simp) Reader.tested_ne fun _ hxs => Filled.tested hxs.knows
  | hlt k => exact h.goto (by simp) (by simp) fun _ _ => trivial
  | index k => exact h.goto (by simp) (by simp) fun _ hxs => ⟨hxs.knows, rfl⟩
  | load k i =>
      apply h.goto (by simp) (by simp)
      intro xs hxs
      obtain ⟨hne, hi⟩ := hxs.knows
      obtain rfl : i = k.readPos := hi
      cases xs with
      | nil => exact absurd rfl hne
      | cons x xs => exact congrArg some hxs.holds.pop.1.symm
  | advance k c => exact h.goto (by simp) (by simp) fun _ hxs => ⟨hxs.knows, rfl⟩
  | store k c r =>
      obtain ⟨xs, hxs⟩ := h.filled (by simp)
      obtain ⟨hhead, hr⟩ := hxs.knows
      obtain rfl : r = k.readPos := hr
      cases xs with
      | nil => cases hhead
      | cons x xs =>
          obtain rfl : x = c := Option.some.inj hhead
          refine .of_filled xs ⟨?_, hxs.holds.pop.2, trivial⟩ (by simp)
          change f.kept = (f.taken ++ [x]) ++ xs
          rw [hxs.kept, List.append_assoc, List.singleton_append]
  | available k => exact h.goto (by simp) (by simp) fun _ _ => trivial
  | availableRead k => exact h.goto (by simp) (by simp) fun _ _ => rfl
  | availableWrite k =>
      exact h.goto (by simp) (by simp) fun _ hxs hne hnil => hne (hxs.holds.empty_iff.2 hnil)
  | answerWrite k r => exact h.goto (by simp) (by simp) fun _ _ => trivial
  | answerRead k w => exact h.goto (by simp) (by simp) fun _ _ => trivial
  | flush k => exact h.goto (by simp) (by simp) fun _ _ => trivial
  | flushRead k =>
      exact ⟨Nat.zero_lt_succ _, h.write_lt, h.ordered, fun _ => rfl, fun hne => absurd rfl hne⟩
  | flushWrite k =>
      refine .of_filled [] ⟨rfl, ?_, trivial⟩ (by simp)
      rw [show k.readPos = 0 from h.flushing rfl]
      exact ringHolds_nil (Nat.zero_lt_succ _)

/-- **Every run keeps the invariant.** -/
theorem Inv.run {buffer : Nat → UInt8} (hrun : Run (initial buffer) es s) :
    Inv s (Fifo.history es) := by
  induction hrun with
  | refl =>
      exact .of_filled [] ⟨rfl, ringHolds_nil (Nat.zero_lt_succ _), trivial⟩
        (by simp [initial])
  | tail _ hstep ih =>
      rw [Fifo.history, List.foldl_append]
      exact ih.step hstep

/-- When `keyboard_available` answers yes, there is a character. -/
theorem Inv.answered (h : Inv s f) (hstep : Step s (some (.answered true)) s') :
    ∃ xs, Filled s f xs ∧ xs ≠ [] := by
  generalize he : some (Event.answered true) = e at hstep
  cases hstep with
  | answerWrite k r =>
      obtain ⟨xs, hxs⟩ := h.filled (by simp)
      simp only [Option.some.injEq, Event.answered.injEq] at he
      obtain rfl : r = k.readPos := hxs.knows
      exact ⟨xs, hxs, fun hnil => bne_iff_ne.1 he.symm (hxs.holds.empty_iff.2 hnil)⟩
  | answerRead k w =>
      obtain ⟨xs, hxs⟩ := h.filled (by simp)
      simp only [Option.some.injEq, Event.answered.injEq] at he
      exact ⟨xs, hxs, hxs.knows (bne_iff_ne.1 he.symm)⟩
  | _ => cases he

/-- **The keyboard buffer is a bounded FIFO.** Whenever the handler runs, both positions stay in the
buffer, the characters returned are the first ones of those kept since the last flush, and outside a
flush the rest of those is what the buffer holds. -/
theorem keyboard_fifo {buffer : Nat → UInt8} (hrun : Run (initial buffer) es s) :
    s.kbd.readPos < keyboardBufferSize ∧ s.kbd.writePos < keyboardBufferSize ∧
      (Fifo.history es).taken <+: (Fifo.history es).kept ∧
      (s.reader ≠ .flushWrite → ∃ xs, (Fifo.history es).kept = (Fifo.history es).taken ++ xs ∧
        RingHolds s.kbd.buffer keyboardBufferSize s.kbd.readPos s.kbd.writePos xs) := by
  have hinv := Inv.run hrun
  refine ⟨hinv.read_lt, hinv.write_lt, hinv.ordered, ?_⟩
  intro hp
  obtain ⟨xs, hxs⟩ := hinv.filled hp
  exact ⟨xs, hxs.kept, hxs.holds⟩

/-- A character that arrives in the middle of the test of `keyboard_getchar`. -/
theorem keyboard_fifo_interrupted :
    ∃ s, Run (initial fun _ => 0) [.put 7, .put 8, .returned 7] s ∧ s.kbd.readPos = 1 ∧
      s.kbd.writePos = 2 ∧ ∃ xs, [7, 8] = [7] ++ xs ∧
        RingHolds s.kbd.buffer keyboardBufferSize s.kbd.readPos s.kbd.writePos xs := by
  let k₁ := keyboardBufferPut (initial fun _ => 0).kbd 7
  let k₂ := keyboardBufferPut k₁ 8
  have htested : Reader.tested k₁.readPos k₂.writePos = .index := by decide
  have hloaded : k₂.buffer k₂.readPos = 7 := by decide
  have hrun : Run (initial fun _ => 0) [.put 7, .put 8] ⟨k₂, .index⟩ := htested ▸
    ((((Run.refl.tail (.put _ .idle 7)).tail (.getchar k₁)).tail (.getcharRead k₁)).tail
      (.put k₁ _ 8)).tail (.testWrite k₂ k₁.readPos)
  have hrun' : Run (initial fun _ => 0) [.put 7, .put 8] ⟨k₂, .advance 7⟩ := hloaded ▸
    (hrun.tail (.index k₂)).tail (.load k₂ k₂.readPos)
  have hrun'' := (hrun'.tail (.advance k₂ 7)).tail (.store k₂ 7 k₂.readPos)
  obtain ⟨-, -, -, hfilled⟩ := keyboard_fifo hrun''
  exact ⟨_, hrun'', rfl, rfl, hfilled (by simp)⟩

end Steps

end Munux.Drivers
