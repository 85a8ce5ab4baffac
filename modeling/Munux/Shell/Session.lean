import Munux.Drivers.Cursor
import Munux.Libk.Printf
import Munux.Libk.Strings

/-!
# The shell

`shell_run` and `shell_exec` of `kernel/kernel.c`: characters are edited into a line of at most 127,
and the line is a command. The line is a buffer on the stack, the commands are compared with it byte
by byte, and everything goes to the screen and to the serial port.

**What it should do** (`edit`, `reply`). A line is a list of characters. Each key changes the line,
and may put something out; the screen and the serial port show the same, except that `clear` and the
colors mean nothing to the serial port.

**Main result.**

* `session_refines`: whatever is typed, at whatever ticks, the shell never gets lost in its memory.
  It does what it should, and it writes to nothing but the 128 bytes of its line.
-/

namespace Munux.Shell

open Drivers Libk ByteMem

/-! ## Output -/

/-- The bytes of a string literal. -/
def bytes (s : String) : List UInt8 := s.toByteArray.data.toList

/-- `'\b'` -/
def backspace : UInt8 := 8

/-- The terminal, and the characters that have been sent over `COM1`. -/
structure Console where
  screen : Terminal
  sent : List UInt8

namespace Console

/-- `terminal_setcolor` -/
def setcolor (k : Console) (color : UInt8) : Console :=
  { k with screen := { k.screen with color := color } }

/-- `terminal_putchar` and `serial_putchar`, of the same character. The wait of `serial_putchar` for
the UART is left out: it changes neither. -/
def putchar (k : Console) (c : UInt8) : Console :=
  ⟨terminalPutchar k.screen c, k.sent ++ [c]⟩

/-- `terminal_writestring` -/
def terminalWritestring (k : Console) (m : ByteMem) (fuel data : Nat) : Outcome Console := do
  let size ← strlen m fuel data
  return { k with screen := terminalWrite k.screen (slice m data size) }

/-- `serial_writestring` -/
def serialWritestring (k : Console) (m : ByteMem) : (fuel str : Nat) → Outcome Console
  | 0, _ => .diverge
  | fuel + 1, str =>
      if m str ≠ 0 then serialWritestring { k with sent := k.sent ++ [m str] } m fuel (str + 1)
      else .ok k

/-- `klog` -/
def klog (k : Console) (m : ByteMem) (fuel s : Nat) : Outcome Console := do
  let k ← k.terminalWritestring m fuel s
  k.serialWritestring m fuel s

/-- A text on both. -/
def write (k : Console) (s : List UInt8) : Console := ⟨terminalWrite k.screen s, k.sent ++ s⟩

/-- `kprintf`: `buf` is what its buffer holds before the call. -/
def kprintf (k : Console) (buf : List UInt8) (fmt : CString) (args : List Arg) : Outcome Console := do
  let (_, buf) ← kvsnprintf buf 256 fmt args
  return k.write (CString.of buf).chars

end Console

/-! ## The code -/

/-- `sizeof(line)` -/
def lineSize : Nat := 128

/-- Where the line of the shell is, and where the string literals are. -/
structure Layout where
  line : Nat
  literal : String → Nat

/-- When a command is executed: the ticks of the timer, and what is on the stack for `kprintf`. -/
structure Moment where
  ticks : UInt32
  stack : List UInt8
  stack_length : stack.length = 256

/-- The shell between two calls of `keyboard_getchar`. -/
structure State where
  console : Console
  mem : ByteMem
  len : Nat

section Code

variable (L : Layout) (fuel : Nat)

/-- `shell_exec` -/
def shellExec (k : Console) (m : ByteMem) (now : Moment) (line : Nat) : Outcome Console := do
  if m line = 0 then return k
  if (← strcmp m fuel line (L.literal "help")) = 0 then
    k.klog m fuel (L.literal "Comandos: help, clear, about, ticks, echo <texto>\n")
  else if (← strcmp m fuel line (L.literal "clear")) = 0 then
    return { k with screen := terminalClear k.screen }
  else if (← strcmp m fuel line (L.literal "about")) = 0 then
    let k ← k.klog m fuel
      (L.literal "Munux OS — flavor de proposito geral do ecossistema Munux.\n")
    k.klog m fuel (L.literal "Kernel poliglota C + Assembly + Rust (no_std).\n")
  else if (← strcmp m fuel line (L.literal "ticks")) = 0 then
    k.kprintf now.stack (CString.of (bytes "Ticks do timer desde o boot: %u\n")) [.word now.ticks]
  else if strncmp m line (L.literal "echo ") 5 = 0 then
    let k ← k.klog m fuel (line + 5)
    k.klog m fuel (L.literal "\n")
  else
    let k ← k.klog m fuel (L.literal "comando nao encontrado: ")
    let k ← k.klog m fuel line
    k.klog m fuel (L.literal "\n")

/-- The prompt of `shell_run`, in `COLOR_LIGHT_CYAN`; then `COLOR_LIGHT_GREY`. -/
def prompt (k : Console) (m : ByteMem) : Outcome Console := do
  let k ← (k.setcolor 11).klog m fuel (L.literal "munux> ")
  return k.setcolor 7

/-- `shell_run` up to the first `keyboard_getchar`. -/
def shellRun (k : Console) (m : ByteMem) : Outcome State := do
  let k ← (k.setcolor 10).klog m fuel
    (L.literal "\nMunux shell interativo pronto. Digite \x27help\x27.\n")
  let k ← prompt L fuel k m
  return ⟨k, m, 0⟩

/-- `shell_run` from one `keyboard_getchar`, which returns `c`, to the next one. -/
def key (s : State) (c : UInt8) (now : Moment) : Outcome State :=
  if c = newline then do
    let m := Function.update s.mem (L.line + s.len) 0
    let k ← shellExec L fuel (s.console.putchar newline) m now L.line
    let k ← prompt L fuel k m
    return ⟨k, m, 0⟩
  else if c = backspace then
    if 0 < s.len then
      return { s with
        console := ⟨terminalBackspace s.console.screen, s.console.sent ++ [backspace]⟩
        len := s.len - 1 }
    else return s
  else if 32 ≤ c ∧ c < 127 then
    if s.len < lineSize - 1 then
      return ⟨s.console.putchar c, Function.update s.mem (L.line + s.len) c, s.len + 1⟩
    else return s
  else return s

/-- A session: the keys, and when each of them comes. -/
def session (k : Console) (m : ByteMem) (keys : List (UInt8 × Moment)) : Outcome State := do
  let s ← shellRun L fuel k m
  keys.foldlM (fun s (c, now) => key L fuel s c now) s

end Code

/-! ## What it should do -/

/-- What the shell puts out. -/
inductive Output where
  | text (s : List UInt8)
  | erase
  | color (c : UInt8)
  | clear

/-- On the screen and on the serial port. -/
def Console.put (k : Console) : Output → Console
  | .text s => k.write s
  | .erase => ⟨terminalBackspace k.screen, k.sent ++ [backspace]⟩
  | .color c => k.setcolor c
  | .clear => { k with screen := terminalClear k.screen }

/-- The answer to `ticks`. -/
def ticksText (ticks : UInt32) : List UInt8 :=
  bytes "Ticks do timer desde o boot: " ++ text 10 ticks.toNat ++ bytes "\n"

/-- The answer to a line. -/
def reply (line : List UInt8) (ticks : UInt32) : List Output :=
  if line = [] then []
  else if line = bytes "help" then
    [.text (bytes "Comandos: help, clear, about, ticks, echo <texto>\n")]
  else if line = bytes "clear" then [.clear]
  else if line = bytes "about" then
    [.text (bytes "Munux OS — flavor de proposito geral do ecossistema Munux.\n"),
      .text (bytes "Kernel poliglota C + Assembly + Rust (no_std).\n")]
  else if line = bytes "ticks" then
    [.text (ticksText ticks)]
  else if bytes "echo " <+: line then [.text (line.drop 5), .text (bytes "\n")]
  else [.text (bytes "comando nao encontrado: "), .text line, .text (bytes "\n")]

/-- The prompt. -/
def prompted : List Output := [.color 11, .text (bytes "munux> "), .color 7]

/-- What a key does to a line, and what is put out. -/
def edit (line : List UInt8) (c : UInt8) (ticks : UInt32) : List UInt8 × List Output :=
  if c = newline then ([], .text [newline] :: (reply line ticks ++ prompted))
  else if c = backspace then
    if line = [] then ([], []) else (line.dropLast, [.erase])
  else if 32 ≤ c ∧ c < 127 ∧ line.length < 127 then (line ++ [c], [.text [c]])
  else (line, [])

/-- The output before the first key. -/
def started : List Output :=
  [.color 10, .text (bytes "\nMunux shell interativo pronto. Digite \x27help\x27.\n")] ++ prompted

/-- The line and the output after some keys. -/
def after (keys : List (UInt8 × Moment)) : List UInt8 × List Output :=
  keys.foldl (fun (line, out) (c, now) => ((edit line c now.ticks).1, out ++ (edit line c now.ticks).2))
    ([], started)

/-! ## Output -/

section Output

variable {k : Console} {m : ByteMem} {fuel a : Nat} {s : List UInt8}

theorem serialWritestring_eq (h : StrAt m a s) (hfuel : s.length < fuel) (k : Console) :
    k.serialWritestring m fuel a = .ok { k with sent := k.sent ++ s } := by
  induction fuel generalizing a s k with
  | zero => cases hfuel
  | succ fuel ih =>
      cases s with
      | nil => simp [Console.serialWritestring, h.nil]
      | cons c s =>
          obtain ⟨hc, hne, hs⟩ := h.cons
          have hrest := ih hs (Nat.lt_of_succ_lt_succ hfuel) { k with sent := k.sent ++ [c] }
          simp only [Console.serialWritestring, hc, hne, ne_eq, not_false_eq_true, if_true, hrest,
            List.append_assoc, List.singleton_append]

theorem klog_eq (h : StrAt m a s) (hfuel : s.length < fuel) (k : Console) :
    k.klog m fuel a = .ok (k.put (.text s)) := by
  rw [Console.klog, Console.terminalWritestring, strlen_eq h hfuel, Outcome.ok_bind, h.chars,
    Outcome.pure_eq, Outcome.ok_bind, serialWritestring_eq h hfuel]
  rfl

theorem parse_chars (h : ch '%' ∉ s) (rest : List UInt8) :
    parse (s ++ rest) = s.map .char ++ parse rest := by
  induction s with
  | nil => rfl
  | cons c s ih =>
      rw [List.mem_cons, not_or] at h
      rw [List.cons_append, parse_char (Ne.symm h.1), ih h.2]
      rfl

theorem fullOutput_chars (s : List UInt8) (pieces : List Piece) (args : List Arg) :
    fullOutput (s.map .char ++ pieces) args = (fullOutput pieces args).map (s ++ ·) := by
  induction s with
  | nil => simp
  | cons c s ih =>
      rw [List.map_cons, List.cons_append, fullOutput]
      simp only [Piece.output, ih, Option.bind_eq_bind, Option.bind_some]
      cases fullOutput pieces args with
      | none => rfl
      | some F => rfl

theorem of_bounded {size : Nat} (hs : 0 ∉ s) (hlen : s.length < size) (buf : List UInt8) :
    (CString.of (bounded size buf s)).chars = s := by
  have hall : ∀ c ∈ s, decide (c ≠ 0) = true := fun c hc => by
    simpa using fun h0 : c = 0 => hs (h0 ▸ hc)
  rw [bounded, if_neg (by omega), List.take_of_length_le (by omega), overwrite, CString.of]
  simp only [List.append_assoc]
  rw [List.takeWhile_append_of_pos hall]
  simp

theorem kprintf_ticks (k : Console) (now : Moment) :
    k.kprintf now.stack (CString.of (bytes "Ticks do timer desde o boot: %u\n")) [.word now.ticks] =
      .ok (k.put (.text (ticksText now.ticks))) := by
  have hparse : parse (CString.of (bytes "Ticks do timer desde o boot: %u\n")).chars =
      (bytes "Ticks do timer desde o boot: ").map .char ++
        [.directive false 0 (ch 'u'), .char newline] := by
    have hchars : (CString.of (bytes "Ticks do timer desde o boot: %u\n")).chars =
        bytes "Ticks do timer desde o boot: " ++ ch '%' :: [ch 'u', newline] := by decide
    have hconv : (afterFlag [ch 'u', newline]).dropWhile isdigit = ch 'u' :: [newline] := by decide
    rw [hchars, parse_chars (by decide), parse_directive hconv, parse_char (by decide)]
    simp [parse, afterFlag]
    decide
  have hout : fullOutput (parse (CString.of (bytes "Ticks do timer desde o boot: %u\n")).chars)
      [.word now.ticks] = some (ticksText now.ticks) := by
    have hrest : fullOutput [.directive false 0 (ch 'u'), .char newline] [.word now.ticks] =
        some (text 10 now.ticks.toNat ++ [newline]) := by
      have hu : ch 'u' ∈ ascii "csdiuxXp" := by decide
      have hconv : ch 'u' ≠ ch 'c' ∧ ch 'u' ≠ ch 'd' ∧ ch 'u' ≠ ch 'i' := by decide
      simp [fullOutput, Piece.output, field, padded, TakesArg, hu, hconv]
    rw [hparse, fullOutput_chars, hrest]
    simp [ticksText]
    decide
  have hwidth : ∀ piece ∈ parse (CString.of (bytes "Ticks do timer desde o boot: %u\n")).chars,
      piece.width < 2 ^ 31 := by
    rw [hparse]
    decide
  have hlen : (ticksText now.ticks).length < 256 := by
    have hle : (text 10 now.ticks.toNat).length ≤ 10 := by
      rw [text, List.length_map]
      exact length_numeral_le (by decide) (by decide)
        (now.ticks.toNat_lt.trans (by decide))
    have hfirst : (bytes "Ticks do timer desde o boot: ").length = 29 := by decide
    have hlast : (bytes "\n").length = 1 := by decide
    rw [ticksText, List.length_append, List.length_append, hfirst, hlast]
    omega
  have h0 : 0 ∉ ticksText now.ticks := by
    have hfirst : 0 ∉ bytes "Ticks do timer desde o boot: " := by decide
    have hlast : 0 ∉ bytes "\n" := by decide
    have htext : 0 ∉ text 10 now.ticks.toNat := text_noNul (by decide) (by decide)
    simp [ticksText, hfirst, hlast, htext]
  have hcall := kvsnprintf_eq now.stack_length.ge hout hwidth (hlen.trans (by decide))
  rw [Console.kprintf, hcall, Outcome.ok_bind]
  exact congrArg (fun s => Outcome.ok (k.write s)) (of_bounded h0 hlen now.stack)

end Output

/-! ## One line -/

/-- The string literals. -/
def literals : List String :=
  ["help", "clear", "about", "ticks", "echo ", "\n", "munux> ",
    "\nMunux shell interativo pronto. Digite \x27help\x27.\n",
    "Comandos: help, clear, about, ticks, echo <texto>\n",
    "Munux OS — flavor de proposito geral do ecossistema Munux.\n",
    "Kernel poliglota C + Assembly + Rust (no_std).\n",
    "comando nao encontrado: "]

/-- The literals are in memory, and the line is somewhere else. -/
structure Layout.Loaded (L : Layout) (m : ByteMem) : Prop where
  strAt : ∀ s ∈ literals, StrAt m (L.literal s) (bytes s)
  apart : ∀ s ∈ literals, L.literal s + (bytes s).length < L.line ∨
    L.line + lineSize ≤ L.literal s

theorem length_literal : ∀ s ∈ literals, (bytes s).length < lineSize := by decide

section Line

variable {L : Layout} {m : ByteMem} {fuel : Nat} {line : List UInt8}

theorem Layout.Loaded.klog (h : L.Loaded m) (hfuel : lineSize ≤ fuel) {s : String}
    (hs : s ∈ literals) (k : Console) :
    k.klog m fuel (L.literal s) = .ok (k.put (.text (bytes s))) :=
  klog_eq (h.strAt s hs) ((length_literal s hs).trans_le hfuel) k

/-- The test for a command. -/
theorem Layout.Loaded.strcmp (h : L.Loaded m) (hline : StrAt m L.line line)
    (hlen : line.length < fuel) {s : String} (hs : s ∈ literals) :
    ∃ r, strcmp m fuel L.line (L.literal s) = .ok r ∧ (r = 0 ↔ line = bytes s) :=
  ⟨_, strcmp_eq hline (h.strAt s hs) hlen,
    (diff_order (.inr ⟨hline.noNul, (h.strAt s hs).noNul⟩)).2⟩

/-- The test for `echo`. -/
theorem Layout.Loaded.strncmp (h : L.Loaded m) (hline : StrAt m L.line line) :
    strncmp m L.line (L.literal "echo ") 5 = 0 ↔ bytes "echo " <+: line := by
  have hecho := h.strAt "echo " (by decide)
  have htake : (bytes "echo ").take 5 = bytes "echo " := by decide
  have hlength : (bytes "echo ").length = 5 := by decide
  have hnoNul : 0 ∉ line.take 5 ∧ 0 ∉ (bytes "echo ").take 5 :=
    ⟨fun hmem => hline.noNul (List.mem_of_mem_take hmem), by decide⟩
  rw [strncmp_eq hline hecho, (diff_order (.inr hnoNul)).2, htake, List.prefix_iff_eq_take, hlength]
  exact eq_comm

theorem shellExec_eq (h : L.Loaded m) (hline : StrAt m L.line line) (hlen : line.length < lineSize)
    (hfuel : lineSize ≤ fuel) (k : Console) (now : Moment) :
    shellExec L fuel k m now L.line = .ok ((reply line now.ticks).foldl Console.put k) := by
  have hlen' := hlen.trans_le hfuel
  have hempty : m L.line = 0 ↔ line = [] := by
    cases line with
    | nil => simp [hline.nil]
    | cons c line => simp [hline.cons.1, hline.cons.2.1]
  obtain ⟨rhelp, hrhelp, hhelp⟩ := h.strcmp hline hlen' (s := "help") (by decide)
  obtain ⟨rclear, hrclear, hclear⟩ := h.strcmp hline hlen' (s := "clear") (by decide)
  obtain ⟨rabout, hrabout, habout⟩ := h.strcmp hline hlen' (s := "about") (by decide)
  obtain ⟨rticks, hrticks, hticks⟩ := h.strcmp hline hlen' (s := "ticks") (by decide)
  have hecho := h.strncmp hline
  have hlog : ∀ s ∈ literals, ∀ k : Console,
      k.klog m fuel (L.literal s) = .ok (k.put (.text (bytes s))) :=
    fun s hs k => h.klog hfuel hs k
  have habout₁ : "Munux OS — flavor de proposito geral do ecossistema Munux.\n" ∈ literals := by
    decide
  have habout₂ : "Kernel poliglota C + Assembly + Rust (no_std).\n" ∈ literals := by decide
  have hunknown : "comando nao encontrado: " ∈ literals := by decide
  have hend : "\n" ∈ literals := by decide
  rw [shellExec, reply]
  simp only [hrhelp, hrclear, hrabout, hrticks, Outcome.ok_bind, hempty, hhelp, hclear, habout,
    hticks, hecho]
  split_ifs with h0 h1 h2 h3 h4 h5
  · rfl
  · exact hlog _ (by decide) k
  · rfl
  · simp only [hlog _ habout₁, hlog _ habout₂, Outcome.ok_bind, List.foldl_cons, List.foldl_nil]
  · exact kprintf_ticks k now
  · have hfive : 5 ≤ line.length := h5.length_le.trans_eq' (by decide)
    have hrest := hline.drop hfive
    have hshort : (line.drop 5).length < fuel := by
      rw [List.length_drop]
      omega
    have hlog' := klog_eq hrest hshort
    simp only [hlog', hlog _ hend, Outcome.ok_bind, List.foldl_cons, List.foldl_nil]
  · have hlog' := klog_eq hline hlen'
    simp only [hlog _ hunknown, hlog', hlog _ hend, Outcome.ok_bind, List.foldl_cons,
      List.foldl_nil]

theorem prompt_eq (h : L.Loaded m) (hfuel : lineSize ≤ fuel) (k : Console) :
    prompt L fuel k m = .ok (prompted.foldl Console.put k) := by
  rw [prompt, h.klog hfuel (by decide), Outcome.ok_bind]
  rfl

theorem Layout.Loaded.congr {m' : ByteMem} (h : L.Loaded m)
    (hframe : m.SameOutside m' L.line (L.line + lineSize)) : L.Loaded m' where
  strAt s hs := (h.strAt s hs).congr fun i hlo hhi => by
    have hapart := h.apart s hs
    exact hframe i (by omega)
  apart := h.apart

end Line

/-! ## Sessions -/

/-- The line and the output of a state. -/
structure Tracks (L : Layout) (m₀ : ByteMem) (s : State) (line : List UInt8) (k : Console) :
    Prop where
  console : s.console = k
  len : s.len = line.length
  chars : slice s.mem L.line line.length = line
  typed : ∀ c ∈ line, 32 ≤ c
  short : line.length < lineSize
  frame : m₀.SameOutside s.mem L.line (L.line + lineSize)

section Sessions

variable {L : Layout} {m₀ : ByteMem} {fuel : Nat} {s : State} {line : List UInt8} {k : Console}
  {c : UInt8} {now : Moment} {keys : List (UInt8 × Moment)}

/-- Another character at the end of the line is inside of the buffer. -/
theorem Tracks.store (h : Tracks L m₀ s line k) (c : UInt8) :
    m₀.SameOutside (Function.update s.mem (L.line + s.len) c) L.line (L.line + lineSize) ∧
      slice (Function.update s.mem (L.line + s.len) c) L.line (line.length + 1) = line ++ [c] := by
  have hshort := h.short
  constructor
  · intro i hi
    rw [Function.update_of_ne (by rw [h.len]; omega)]
    exact h.frame i hi
  · have hsame : slice (Function.update s.mem (L.line + line.length) c) L.line line.length = line := by
      rw [slice_congr (m := s.mem), h.chars]
      intro i _ hhi
      exact Function.update_of_ne hhi.ne _ _
    rw [← slice_append, h.len, hsame]
    simp [slice]

/-- At the end of a line it is a string. -/
theorem Tracks.strAt (h : Tracks L m₀ s line k) :
    StrAt (Function.update s.mem (L.line + s.len) 0) L.line line where
  chars := by
    have hall := (slice_eq_append (h.store 0).2).1
    exact hall
  noNul := fun hmem => absurd (h.typed 0 hmem) (by decide)
  nul := by rw [h.len, Function.update_self]

/-- A backspace takes the last character off. -/
theorem Tracks.erased (h : Tracks L m₀ s line k) :
    Tracks L m₀ { s with console := k.put .erase, len := s.len - 1 } line.dropLast
      (k.put .erase) where
  console := rfl
  len := by
    rw [h.len, List.length_dropLast]
  chars := by
    rw [List.length_dropLast, ← take_slice _ _ (Nat.sub_le line.length 1), h.chars,
      List.dropLast_eq_take]
  typed := fun d hd => h.typed d (List.mem_of_mem_dropLast hd)
  short := by
    rw [List.length_dropLast]
    exact (Nat.sub_le _ _).trans_lt h.short
  frame := h.frame

/-- A character goes behind the line. -/
theorem Tracks.appended (h : Tracks L m₀ s line k) (hprint : 32 ≤ c) (hfits : line.length < 127) :
    Tracks L m₀ ⟨k.put (.text [c]), Function.update s.mem (L.line + s.len) c, s.len + 1⟩
      (line ++ [c]) (k.put (.text [c])) where
  console := rfl
  len := by
    rw [h.len, List.length_append]
    rfl
  chars := by
    rw [List.length_append]
    exact (h.store c).2
  typed := by
    intro d hd
    rcases List.mem_append.1 hd with hd | hd
    · exact h.typed d hd
    · exact List.mem_singleton.1 hd ▸ hprint
  short := by
    rw [List.length_append, List.length_singleton, lineSize]
    omega
  frame := (h.store c).1

/-- **One key.** -/
theorem key_tracks (hloaded : L.Loaded m₀) (hfuel : lineSize ≤ fuel) (h : Tracks L m₀ s line k)
    (c : UInt8) (now : Moment) :
    ∃ s', key L fuel s c now = .ok s' ∧ Tracks L m₀ s' (edit line c now.ticks).1
      ((edit line c now.ticks).2.foldl Console.put k) := by
  have hlen : 0 < s.len ↔ line ≠ [] := by rw [h.len, List.length_pos_iff]
  have hroom : s.len < lineSize - 1 ↔ line.length < 127 := by rw [h.len, lineSize]
  by_cases hnewline : c = newline
  · have hframe := (h.store 0).1
    have hloaded' := hloaded.congr hframe
    have hexec := shellExec_eq hloaded' h.strAt h.short hfuel (k.putchar newline) now
    rw [key, if_pos hnewline, edit, if_pos hnewline, h.console]
    simp only [hexec, prompt_eq hloaded' hfuel, Outcome.ok_bind]
    refine ⟨_, rfl, ?_, rfl, rfl, by simp, by decide, hframe⟩
    rw [List.foldl_cons, List.foldl_append]
    rfl
  by_cases hback : c = backspace
  · rw [key, if_neg hnewline, if_pos hback, edit, if_neg hnewline, if_pos hback]
    by_cases hline : line = []
    · rw [if_neg (fun hpos => hlen.1 hpos hline), if_pos hline]
      exact ⟨s, rfl, hline ▸ h⟩
    · rw [if_pos (hlen.2 hline), if_neg hline]
      obtain rfl := h.console
      exact ⟨_, rfl, h.erased⟩
  · rw [key, if_neg hnewline, if_neg hback, edit, if_neg hnewline, if_neg hback]
    by_cases hprint : 32 ≤ c ∧ c < 127
    · rw [if_pos hprint]
      by_cases hfits : line.length < 127
      · rw [if_pos (hroom.2 hfits), if_pos ⟨hprint.1, hprint.2, hfits⟩]
        obtain rfl := h.console
        exact ⟨_, rfl, h.appended hprint.1 hfits⟩
      · rw [if_neg (fun hlt => hfits (hroom.1 hlt)), if_neg (fun hand => hfits hand.2.2)]
        exact ⟨s, rfl, h⟩
    · rw [if_neg hprint, if_neg (fun hand => hprint ⟨hand.1, hand.2.1⟩)]
      exact ⟨s, rfl, h⟩

theorem after_append (keys : List (UInt8 × Moment)) (c : UInt8) (now : Moment) :
    after (keys ++ [(c, now)]) = ((edit (after keys).1 c now.ticks).1,
      (after keys).2 ++ (edit (after keys).1 c now.ticks).2) := by
  simp [after]

theorem shellRun_eq (hloaded : L.Loaded m₀) (hfuel : lineSize ≤ fuel) (k : Console) :
    shellRun L fuel k m₀ = .ok ⟨started.foldl Console.put k, m₀, 0⟩ := by
  rw [shellRun, hloaded.klog hfuel (by decide), Outcome.ok_bind, prompt_eq hloaded hfuel, started,
    List.foldl_append]
  rfl

theorem session_tracks (hloaded : L.Loaded m₀) (hfuel : lineSize ≤ fuel) (k : Console)
    (keys : List (UInt8 × Moment)) :
    ∃ s, session L fuel k m₀ keys = .ok s ∧
      Tracks L m₀ s (after keys).1 ((after keys).2.foldl Console.put k) := by
  induction keys using List.reverseRecOn with
  | nil =>
      have hnil : after [] = ([], started) := rfl
      rw [session, shellRun_eq hloaded hfuel k, Outcome.ok_bind, hnil]
      exact ⟨_, rfl, rfl, rfl, rfl, by simp, by decide, fun _ _ => rfl⟩
  | append_singleton keys x ih =>
      obtain ⟨c, now⟩ := x
      obtain ⟨s, hs, htracks⟩ := ih
      obtain ⟨s', hkey, htracks'⟩ := key_tracks hloaded hfuel htracks c now
      refine ⟨s', ?_, ?_⟩
      · obtain ⟨s₁, hrun, hkeys⟩ := Outcome.bind_eq_ok.1 hs
        rw [session, hrun, Outcome.ok_bind, Outcome.foldlM_concat, hkeys, Outcome.ok_bind]
        exact hkey
      · rw [after_append, List.foldl_append]
        exact htracks'

/-- The characters that the serial port gets. -/
def Output.serial : Output → List UInt8
  | .text s => s
  | .erase => [backspace]
  | .color _ | .clear => []

theorem sent_foldl_put (out : List Output) (k : Console) :
    (out.foldl Console.put k).sent = k.sent ++ out.flatMap Output.serial := by
  induction out generalizing k with
  | nil => simp
  | cons o out ih =>
      rw [List.foldl_cons, ih, List.flatMap_cons, ← List.append_assoc]
      cases o <;> simp [Console.put, Console.write, Console.setcolor, Output.serial]

/-- **The shell** does what it should with whatever is typed: it returns to `keyboard_getchar` after
every key, its buffer holds the line, the screen and the serial port got the same output, and no
byte outside of the buffer has changed. -/
theorem session_refines (hloaded : L.Loaded m₀) (hfuel : lineSize ≤ fuel) (k : Console)
    (keys : List (UInt8 × Moment)) :
    ∃ s, session L fuel k m₀ keys = .ok s ∧
      (s.len < lineSize ∧ slice s.mem L.line s.len = (after keys).1) ∧
      s.console.screen = ((after keys).2.foldl Console.put k).screen ∧
      s.console.sent = k.sent ++ (after keys).2.flatMap Output.serial ∧
      m₀.SameOutside s.mem L.line (L.line + lineSize) := by
  obtain ⟨s, hs, htracks⟩ := session_tracks hloaded hfuel k keys
  refine ⟨s, hs, ⟨?_, ?_⟩, ?_, ?_, htracks.frame⟩
  · exact htracks.len ▸ htracks.short
  · exact htracks.len ▸ htracks.chars
  · rw [htracks.console]
  · rw [htracks.console, sent_foldl_put]

end Sessions

/-! ## An image -/

/-- Strings one after another. -/
def offset : List String → String → Nat
  | [], _ => 0
  | t :: ts, s => if s = t then 0 else (bytes t).length + 1 + offset ts s

/-- The literals from address 0 on, and the line behind them. -/
def image : Layout := ⟨1024, offset literals⟩

def imageMem : ByteMem := blit (fun _ => 0) 0 (literals.flatMap fun s => bytes s ++ [0])

theorem image_loaded : image.Loaded imageMem where
  strAt := by
    have hall : ∀ s ∈ literals, slice imageMem (image.literal s) (bytes s).length = bytes s ∧
        0 ∉ bytes s ∧ imageMem (image.literal s + (bytes s).length) = 0 := by decide +kernel
    exact fun s hs => ⟨(hall s hs).1, (hall s hs).2.1, (hall s hs).2.2⟩
  apart := by decide +kernel

/-- An empty screen. -/
def blankConsole : Console :=
  ⟨⟨fun _ => vgaEntry space 7, 0, 0, 7, vgaHeight_pos, vgaWidth_pos⟩, []⟩

/-- The boot, with a stack of zeros. -/
def bootMoment : Moment := ⟨0, List.replicate 256 0, List.length_replicate⟩

/-- Two characters, and one of them erased. -/
theorem session_refines_erased :
    ∃ s, session image lineSize blankConsole imageMem
        [(104, bootMoment), (105, bootMoment), (backspace, bootMoment)] = .ok s ∧
      slice s.mem 1024 s.len = [104] := by
  obtain ⟨s, hs, ⟨-, hline⟩, -⟩ := session_refines image_loaded le_rfl blankConsole
    [(104, bootMoment), (105, bootMoment), (backspace, bootMoment)]
  exact ⟨s, hs, hline⟩

end Munux.Shell
