import Munux.Drivers.Terminal
import Munux.Lib.Outcome

/-!
# The cursor stays on the screen

The terminal of `kernel/kernel.c` keeps its cursor in two `int`s, and neither is compared with the
bounds of the screen by more than an equality after an increment. An index into the video memory
goes through `size_t`, and one that leaves the 2000 cells of the screen stops the machine here.

A `Terminal` has its cursor on the screen in every state. `Screen` is what the variables of the
source may hold, and the three functions on it do on the variables of a `Terminal` what they should
(`terminalPutchar_screen` and the like). So they never leave the screen, in any order of calls.
-/

namespace Munux.Drivers

/-- The variables of the terminal. -/
structure Screen where
  videoMemory : Nat → UInt16
  terminalRow : Int
  terminalColumn : Int
  terminalColor : UInt8

/-! ## Backspace -/

/-- The cursor in another cell. -/
def Terminal.moveTo (t : Terminal) (row column : Nat) (hrow : row < vgaHeight)
    (hcolumn : column < vgaWidth) : Terminal :=
  { t with row := row, column := column, row_lt := hrow, column_lt := hcolumn }

/-- `terminal_backspace` -/
def terminalBackspace (t : Terminal) : Terminal :=
  if 0 < t.column then
    (t.moveTo t.row (t.column - 1) t.row_lt ((Nat.sub_le t.column 1).trans_lt t.column_lt)).store
      space
  else if 0 < t.row then
    (t.moveTo (t.row - 1) (vgaWidth - 1) ((Nat.sub_le t.row 1).trans_lt t.row_lt)
      (by decide)).store space
  else t

namespace Screen

/-! ## The source -/

/-- The variables when the kernel starts: `COLOR_LIGHT_GREY` on `COLOR_BLACK`. -/
def initial (videoMemory : Nat → UInt16) : Screen := ⟨videoMemory, 0, 0, 7⟩

/-- `video_memory[index]` -/
def cell (videoMemory : Nat → UInt16) (index : Nat) : Outcome UInt16 :=
  if index < vgaHeight * vgaWidth then .ok (videoMemory index) else .panic

/-- `video_memory[index] = entry` -/
def setCell (videoMemory : Nat → UInt16) (index : Nat) (entry : UInt16) :
    Outcome (Nat → UInt16) :=
  if index < vgaHeight * vgaWidth then .ok (Function.update videoMemory index entry) else .panic

/-- `terminal_row * VGA_WIDTH + terminal_column`, as a `size_t`. -/
def cursorIndex (s : Screen) : Nat :=
  ((s.terminalRow * vgaWidth + s.terminalColumn) % 2 ^ 32).toNat

/-- `terminal_clear` -/
def terminalClear (s : Screen) : Outcome Screen := do
  let videoMemory ← (List.range vgaHeight).foldlM (fun videoMemory y =>
    (List.range vgaWidth).foldlM (fun videoMemory x =>
      setCell videoMemory (y * vgaWidth + x) (vgaEntry space s.terminalColor)) videoMemory)
    s.videoMemory
  return { s with videoMemory := videoMemory, terminalRow := 0, terminalColumn := 0 }

/-- The scrolling in `terminal_putchar`; `y` is one less than in the source. -/
def scroll (s : Screen) : Outcome (Nat → UInt16) := do
  let videoMemory ← (List.range (vgaHeight - 1)).foldlM (fun videoMemory y =>
    (List.range vgaWidth).foldlM (fun videoMemory x => do
      let entry ← cell videoMemory ((y + 1) * vgaWidth + x)
      setCell videoMemory (y * vgaWidth + x) entry) videoMemory) s.videoMemory
  (List.range vgaWidth).foldlM (fun videoMemory x =>
    setCell videoMemory ((vgaHeight - 1) * vgaWidth + x) (vgaEntry space s.terminalColor))
    videoMemory

/-- `terminal_putchar` -/
def terminalPutchar (s : Screen) (c : UInt8) : Outcome Screen := do
  if c = newline then
    let s := { s with terminalColumn := 0, terminalRow := s.terminalRow + 1 }
    if s.terminalRow = (vgaHeight : Int) then
      let videoMemory ← s.scroll
      return { s with videoMemory := videoMemory, terminalRow := vgaHeight - 1 }
    else return s
  else
    let videoMemory ← setCell s.videoMemory s.cursorIndex (vgaEntry c s.terminalColor)
    let s := { s with videoMemory := videoMemory, terminalColumn := s.terminalColumn + 1 }
    if s.terminalColumn = (vgaWidth : Int) then
      let s := { s with terminalColumn := 0, terminalRow := s.terminalRow + 1 }
      if s.terminalRow = (vgaHeight : Int) then return { s with terminalRow := 0 } else return s
    else return s

/-- The end of `terminal_backspace`: a blank in the cell of the cursor. -/
def eraseCell (s : Screen) : Outcome Screen := do
  let videoMemory ← setCell s.videoMemory s.cursorIndex (vgaEntry space s.terminalColor)
  return { s with videoMemory := videoMemory }

/-- `terminal_backspace` -/
def terminalBackspace (s : Screen) : Outcome Screen :=
  if 0 < s.terminalColumn then eraseCell { s with terminalColumn := s.terminalColumn - 1 }
  else if 0 < s.terminalRow then
    eraseCell { s with terminalRow := s.terminalRow - 1, terminalColumn := vgaWidth - 1 }
  else .ok s

end Screen

/-- The calls. -/
inductive TerminalCall where
  | clear
  | putchar (c : UInt8)
  | backspace
  deriving DecidableEq, Repr

def TerminalCall.run (s : Screen) : TerminalCall → Outcome Screen
  | clear => s.terminalClear
  | putchar c => s.terminalPutchar c
  | backspace => s.terminalBackspace

/-- A sequence of calls. -/
def Screen.runAll (s : Screen) (calls : List TerminalCall) : Outcome Screen :=
  calls.foldlM TerminalCall.run s

/-! ## On the screen -/

/-- The variables of a terminal. -/
def Terminal.screen (t : Terminal) : Screen := ⟨t.video, t.row, t.column, t.color⟩

section Refine

variable {t : Terminal} {video : Nat → UInt16} {y x i : Nat} {entry : UInt16}

theorem index_lt (hy : y < vgaHeight) (hx : x < vgaWidth) :
    y * vgaWidth + x < vgaHeight * vgaWidth := by
  unfold vgaHeight vgaWidth at *
  omega

theorem setCell_of_lt (h : i < vgaHeight * vgaWidth) (entry : UInt16) :
    Screen.setCell video i entry = .ok (Function.update video i entry) := if_pos h

theorem cell_of_lt (h : i < vgaHeight * vgaWidth) : Screen.cell video i = .ok (video i) := if_pos h

theorem cursorIndex_screen (t : Terminal) : t.screen.cursorIndex = t.row * vgaWidth + t.column := by
  have hlt : t.row * 80 + t.column < 25 * 80 := index_lt t.row_lt t.column_lt
  change (((t.row : Int) * 80 + t.column) % 2 ^ 32).toNat = t.row * 80 + t.column
  omega

/-- A character in the cell of the cursor, which is on the screen. -/
theorem setCell_cursor (t : Terminal) (c : UInt8) :
    Screen.setCell t.video t.screen.cursorIndex (vgaEntry c t.color) = .ok (t.store c).video := by
  rw [cursorIndex_screen, setCell_of_lt (index_lt t.row_lt t.column_lt)]
  rfl

theorem terminalClear_screen (t : Terminal) :
    t.screen.terminalClear = .ok (terminalClear t).screen := by
  have hloop : (List.range vgaHeight).foldlM (fun video y =>
      (List.range vgaWidth).foldlM (fun video x =>
        Screen.setCell video (y * vgaWidth + x) (vgaEntry space t.color)) video) t.video =
      .ok (terminalClear t).video := by
    simp only [terminalClear]
    refine Outcome.foldlM_eq_foldl (fun y hy video => ?_) t.video
    refine Outcome.foldlM_eq_foldl (fun x hx video => ?_) video
    exact setCell_of_lt (index_lt (List.mem_range.1 hy) (List.mem_range.1 hx)) _
  unfold Screen.terminalClear
  rw [show Terminal.screen t = ⟨t.video, t.row, t.column, t.color⟩ from rfl, hloop]
  rfl

theorem scroll_screen (s : Screen) :
    s.scroll = .ok (clearLastRow (rowsUp s.videoMemory) s.terminalColor) := by
  have hrows : (List.range (vgaHeight - 1)).foldlM (fun video y =>
      (List.range vgaWidth).foldlM (fun video x => do
        let entry ← Screen.cell video ((y + 1) * vgaWidth + x)
        Screen.setCell video (y * vgaWidth + x) entry) video) s.videoMemory =
      .ok (rowsUp s.videoMemory) := by
    refine Outcome.foldlM_eq_foldl (fun y hy video => ?_) s.videoMemory
    refine Outcome.foldlM_eq_foldl (fun x hx video => ?_) video
    have hbelow : y + 1 < vgaHeight := Nat.add_lt_of_lt_sub (List.mem_range.1 hy)
    have hx := List.mem_range.1 hx
    rw [cell_of_lt (index_lt hbelow hx), Outcome.ok_bind]
    exact setCell_of_lt (index_lt (Nat.lt_of_succ_lt hbelow) hx) _
  rw [Screen.scroll, hrows, Outcome.ok_bind]
  refine Outcome.foldlM_eq_foldl (fun x hx video => ?_) _
  exact setCell_of_lt (index_lt (show vgaHeight - 1 < vgaHeight by decide) (List.mem_range.1 hx)) _

theorem terminalPutchar_screen (t : Terminal) (c : UInt8) :
    t.screen.terminalPutchar c = .ok (terminalPutchar t c).screen := by
  have hrow : (t.row : Int) + 1 = (vgaHeight : Int) ↔ t.row + 1 = vgaHeight := by omega
  have hcolumn : (t.column : Int) + 1 = (vgaWidth : Int) ↔ t.column + 1 = vgaWidth := by omega
  unfold Screen.terminalPutchar terminalPutchar
  by_cases hc : c = newline
  · rw [if_pos hc, if_pos hc]
    simp only [Terminal.screen, hrow]
    by_cases hlast : t.row + 1 = vgaHeight
    · rw [if_pos hlast, dif_pos hlast, scroll_screen]
      rfl
    · rw [if_neg hlast, dif_neg hlast]
      rfl
  · rw [if_neg hc, if_neg hc]
    change (Screen.setCell t.video t.screen.cursorIndex (vgaEntry c t.color) >>= _) = _
    rw [setCell_cursor, Outcome.ok_bind]
    simp only [Terminal.screen, hrow, hcolumn]
    by_cases hend : (t.store c).column + 1 = vgaWidth
    · rw [dif_pos hend, if_pos (show t.column + 1 = vgaWidth from hend)]
      by_cases hlast : (t.store c).row + 1 = vgaHeight
      · rw [dif_pos hlast, if_pos (show t.row + 1 = vgaHeight from hlast)]
        rfl
      · rw [dif_neg hlast, if_neg (show ¬ t.row + 1 = vgaHeight from hlast)]
        rfl
    · rw [dif_neg hend, if_neg (show ¬ t.column + 1 = vgaWidth from hend)]
      rfl

theorem eraseCell_screen (t : Terminal) : t.screen.eraseCell = .ok (t.store space).screen := by
  rw [Screen.eraseCell]
  change (Screen.setCell t.video t.screen.cursorIndex (vgaEntry space t.color) >>= _) = _
  rw [setCell_cursor]
  rfl

/-- A blank in the cell that the cursor has moved to. -/
theorem eraseCell_moveTo (t : Terminal) {row column : Nat} (hrow : row < vgaHeight)
    (hcolumn : column < vgaWidth) :
    Screen.eraseCell ⟨t.video, row, column, t.color⟩ =
      .ok ((t.moveTo row column hrow hcolumn).store space).screen :=
  eraseCell_screen (t.moveTo row column hrow hcolumn)

theorem terminalBackspace_screen (t : Terminal) :
    t.screen.terminalBackspace = .ok (terminalBackspace t).screen := by
  have hcolumn : (0 : Int) < (t.column : Int) ↔ 0 < t.column := Int.natCast_pos
  have hrow : (0 : Int) < (t.row : Int) ↔ 0 < t.row := Int.natCast_pos
  unfold Screen.terminalBackspace terminalBackspace
  simp only [Terminal.screen, hcolumn, hrow]
  by_cases hpos : 0 < t.column
  · rw [if_pos hpos, if_pos hpos, ← Int.ofNat_one, ← Int.ofNat_sub hpos]
    exact eraseCell_moveTo t ..
  · rw [if_neg hpos, if_neg hpos]
    by_cases hup : 0 < t.row
    · rw [if_pos hup, if_pos hup, ← Int.ofNat_one, ← Int.ofNat_sub hup]
      exact eraseCell_moveTo t ..
    · rw [if_neg hup, if_neg hup]

/-- **One call** on the variables of a terminal leaves the variables of a terminal. -/
theorem call_screen (t : Terminal) (call : TerminalCall) :
    ∃ t' : Terminal, call.run t.screen = .ok t'.screen := by
  cases call with
  | clear => exact ⟨_, terminalClear_screen t⟩
  | putchar c => exact ⟨_, terminalPutchar_screen t c⟩
  | backspace => exact ⟨_, terminalBackspace_screen t⟩

theorem runAll_screen (t : Terminal) (calls : List TerminalCall) :
    ∃ t' : Terminal, t.screen.runAll calls = .ok t'.screen := by
  induction calls generalizing t with
  | nil => exact ⟨t, rfl⟩
  | cons call calls ih =>
      obtain ⟨t₁, hcall⟩ := call_screen t call
      obtain ⟨t', hcalls⟩ := ih t₁
      refine ⟨t', ?_⟩
      rw [Screen.runAll, List.foldlM_cons, hcall]
      exact hcalls

/-- **The cursor stays on the screen.** Whatever calls are made after the start, each of them
returns, so every cell it reads or writes is one of the 2000; and the cursor is on the screen. -/
theorem cursor_on_screen (videoMemory : Nat → UInt16) (calls : List TerminalCall) :
    ∃ s, (Screen.initial videoMemory).runAll calls = .ok s ∧
      0 ≤ s.terminalRow ∧ s.terminalRow < 25 ∧ 0 ≤ s.terminalColumn ∧ s.terminalColumn < 80 := by
  obtain ⟨t, hcalls⟩ := runAll_screen
    ⟨videoMemory, 0, 0, 7, show 0 < vgaHeight by decide, show 0 < vgaWidth by decide⟩ calls
  refine ⟨t.screen, hcalls, Int.natCast_nonneg _, ?_, Int.natCast_nonneg _, ?_⟩
  · exact Int.ofNat_lt.2 t.row_lt
  · exact Int.ofNat_lt.2 t.column_lt

end Refine

end Munux.Drivers
