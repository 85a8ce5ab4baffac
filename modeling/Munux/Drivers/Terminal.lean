import Mathlib.Logic.Function.Basic
import Munux.Lib.Lines
import Munux.Lib.Runs

/-!
# The terminal

The text screen of `kernel/kernel.c`: 25 rows of 80 cells, and a cursor that is on the screen in
every state. `terminal_putchar` moves on to the next row in two places. After a newline it scrolls;
after a character in the last column it does so with code of its own, which goes from the last row
back to the first one.

**What should be there.** The text since the screen was cleared, broken into lines (`lines`), of
which the last 25 are shown (`Terminal.Shows`).

**One character** shows the text with that character, except for a character in the last cell of the
screen (`shows_putchar`). So the screen is right all along exactly if no line but the first 24 is
ever full.

Main result: `terminal_wrap_iff`.
-/

namespace Munux.Drivers

/-- `VGA_WIDTH` -/
def vgaWidth : Nat := 80

/-- `VGA_HEIGHT` -/
def vgaHeight : Nat := 25

theorem vgaWidth_pos : 0 < vgaWidth := by decide

theorem vgaHeight_pos : 0 < vgaHeight := by decide

/-- `'\n'` -/
def newline : UInt8 := 10

/-- `' '` -/
def space : UInt8 := 32

/-- `vga_entry` -/
def vgaEntry (uc color : UInt8) : UInt16 := uc.toUInt16 ||| color.toUInt16 <<< 8

/-- The state of the terminal: `video_memory`, the cursor and the color. -/
@[ext] structure Terminal where
  video : Nat → UInt16
  row : Nat
  column : Nat
  color : UInt8
  row_lt : row < vgaHeight
  column_lt : column < vgaWidth

/-- `terminal_clear` -/
def terminalClear (t : Terminal) : Terminal where
  video := (List.range vgaHeight).foldl (fun video y =>
    (List.range vgaWidth).foldl (fun video x =>
      Function.update video (y * vgaWidth + x) (vgaEntry space t.color)) video) t.video
  row := 0
  column := 0
  color := t.color
  row_lt := by decide
  column_lt := by decide

/-- The first loops of the scrolling: all rows move up. -/
def rowsUp (video : Nat → UInt16) : Nat → UInt16 :=
  (List.range (vgaHeight - 1)).foldl (fun video y =>
    (List.range vgaWidth).foldl (fun video x =>
      Function.update video (y * vgaWidth + x) (video ((y + 1) * vgaWidth + x))) video) video

/-- The last loop of the scrolling: the last row is cleared. -/
def clearLastRow (video : Nat → UInt16) (color : UInt8) : Nat → UInt16 :=
  (List.range vgaWidth).foldl (fun video x =>
    Function.update video ((vgaHeight - 1) * vgaWidth + x) (vgaEntry space color)) video

/-- A character in the cell of the cursor. -/
def Terminal.store (t : Terminal) (c : UInt8) : Terminal :=
  { t with video := Function.update t.video (t.row * vgaWidth + t.column) (vgaEntry c t.color) }

/-- `terminal_putchar` -/
def terminalPutchar (t : Terminal) (c : UInt8) : Terminal :=
  if c = newline then
    if h : t.row + 1 = vgaHeight then
      { t with
        video := clearLastRow (rowsUp t.video) t.color
        row := vgaHeight - 1
        column := 0
        row_lt := by decide
        column_lt := by decide }
    else
      { t with
        row := t.row + 1
        column := 0
        row_lt := lt_of_le_of_ne t.row_lt h
        column_lt := by decide }
  else
    let t := t.store c
    if h : t.column + 1 = vgaWidth then
      if h' : t.row + 1 = vgaHeight then
        { t with row := 0, column := 0, row_lt := by decide, column_lt := by decide }
      else
        { t with
          row := t.row + 1
          column := 0
          row_lt := lt_of_le_of_ne t.row_lt h'
          column_lt := by decide }
    else
      { t with column := t.column + 1, column_lt := lt_of_le_of_ne t.column_lt h }

/-- `terminal_write` -/
def terminalWrite (t : Terminal) (data : List UInt8) : Terminal := data.foldl terminalPutchar t

/-! ## What should be there -/

/-- The lines on the screen: the last 25 of a text that is broken at column 80. -/
def shownLines (text : List UInt8) : List (List UInt8) :=
  (lines newline vgaWidth text).drop ((lines newline vgaWidth text).length - vgaHeight)

/-- The character of some lines in a cell; there are blanks after the lines and below them. -/
def glyph (ls : List (List UInt8)) (row column : Nat) : UInt8 :=
  ((ls[row]?.getD [])[column]?).getD space

/-- The screen shows the last lines of the text, and the cursor is at its end. -/
structure Terminal.Shows (t : Terminal) (text : List UInt8) : Prop where
  row : t.row + 1 = (shownLines text).length
  column : t.column = ((shownLines text).getLast?.getD []).length
  cell : ∀ row < vgaHeight, ∀ column < vgaWidth,
    t.video (row * vgaWidth + column) = vgaEntry (glyph (shownLines text) row column) t.color

/-! ## The loops -/

section Loops

variable {video : Nat → UInt16} {color : UInt8} {t : Terminal}

theorem terminalClear_video (i : Nat) (hi : i < vgaHeight * vgaWidth) :
    (terminalClear t).video i = vgaEntry space t.color := by
  have hloop := foldl_grid (s := t.video)
    (I := fun k video => ∀ i < k, video i = vgaEntry space t.color)
    (f := fun video y x => Function.update video (y * vgaWidth + x) (vgaEntry space t.color))
    vgaHeight vgaWidth (fun i hi => absurd hi i.not_lt_zero) fun y x video _ _ ih i hi => by
      by_cases hlast : i = y * vgaWidth + x
      · rw [hlast, Function.update_self]
      · rw [Function.update_of_ne hlast]
        exact ih i (by omega)
  exact hloop i hi

theorem rowsUp_eq (i : Nat) :
    rowsUp video i = if i < (vgaHeight - 1) * vgaWidth then video (i + vgaWidth) else video i := by
  have hloop := foldl_grid (s := video)
    (I := fun k moved => ∀ i, moved i = if i < k then video (i + vgaWidth) else video i)
    (f := fun video y x =>
      Function.update video (y * vgaWidth + x) (video ((y + 1) * vgaWidth + x)))
    (vgaHeight - 1) vgaWidth (fun i => (if_neg i.not_lt_zero).symm) fun y x moved _ _ ih i => by
      have hbelow : (y + 1) * vgaWidth + x = y * vgaWidth + x + vgaWidth := by
        rw [Nat.succ_mul, Nat.add_right_comm]
      by_cases hlast : i = y * vgaWidth + x
      · -- the cell below has not been overwritten yet
        rw [hlast, Function.update_self, hbelow, ih, if_neg (by omega), if_pos (by omega)]
      · rw [Function.update_of_ne hlast, ih]
        exact if_congr (by omega) rfl rfl
  exact hloop i

theorem clearLastRow_eq (i : Nat) (hi : i < vgaHeight * vgaWidth) :
    clearLastRow video color i =
      if i < (vgaHeight - 1) * vgaWidth then video i else vgaEntry space color := by
  have hloop := foldl_range (s := video)
    (I := fun k cleared => ∀ i < (vgaHeight - 1) * vgaWidth + k,
      cleared i = if i < (vgaHeight - 1) * vgaWidth then video i else vgaEntry space color)
    (f := fun video x =>
      Function.update video ((vgaHeight - 1) * vgaWidth + x) (vgaEntry space color))
    vgaWidth (fun i hi => (if_pos hi).symm) fun x cleared _ ih i hi => by
      by_cases hlast : i = (vgaHeight - 1) * vgaWidth + x
      · rw [hlast, Function.update_self, if_neg (by omega)]
      · rw [Function.update_of_ne hlast]
        exact ih i (by omega)
  exact hloop i hi

/-- **Scrolling** moves all rows up, and the last one is blank. -/
theorem scroll_eq (i : Nat) (hi : i < vgaHeight * vgaWidth) :
    clearLastRow (rowsUp video) color i =
      if i < (vgaHeight - 1) * vgaWidth then video (i + vgaWidth) else vgaEntry space color := by
  rw [clearLastRow_eq i hi, rowsUp_eq]
  split_ifs <;> rfl

end Loops

/-! ## Lines on the screen -/

/-- The last 25 lines are in the video memory. -/
def Displays (video : Nat → UInt16) (color : UInt8) (ls : List (List UInt8)) : Prop :=
  ∀ row < vgaHeight, ∀ column < vgaWidth, video (row * vgaWidth + column) =
    vgaEntry (glyph ls (row + (ls.length - vgaHeight)) column) color

/-- The last 25 lines are on the screen, and the cursor is somewhere in the last one. -/
structure Terminal.Holds (t : Terminal) (init : List (List UInt8)) (line : List UInt8) : Prop where
  row : t.row + (init.length + 1 - vgaHeight) = init.length
  displays : Displays t.video t.color (init ++ [line])

section Screen

variable {t : Terminal} {c : UInt8} {text line : List UInt8} {init ls : List (List UInt8)}

theorem length_concat_line (init : List (List UInt8)) (line : List UInt8) :
    (init ++ [line]).length = init.length + 1 := by
  rw [List.length_append, List.length_singleton]

theorem glyph_drop (ls : List (List UInt8)) (d row column : Nat) :
    glyph (ls.drop d) row column = glyph ls (row + d) column := by
  rw [glyph, List.getElem?_drop, Nat.add_comm d row]
  rfl

theorem glyph_of_le {row : Nat} (h : ls.length ≤ row) (column : Nat) :
    glyph ls row column = space := by
  rw [glyph, List.getElem?_eq_none h]
  rfl

/-- A new line is blank. -/
theorem glyph_newline (ls : List (List UInt8)) (row column : Nat) :
    glyph (ls ++ [[]]) row column = glyph ls row column := by
  by_cases hrow : row < ls.length
  · rw [glyph, List.getElem?_append_left hrow]
    rfl
  · rw [glyph_of_le (Nat.not_lt.1 hrow), glyph, List.getElem?_append_right (Nat.not_lt.1 hrow)]
    cases row - ls.length <;> rfl

/-- One character more in the last line. -/
theorem glyph_char (init : List (List UInt8)) (line : List UInt8) (c : UInt8) (row column : Nat) :
    glyph (init ++ [line ++ [c]]) row column =
      if row = init.length ∧ column = line.length then c
      else glyph (init ++ [line]) row column := by
  rcases Nat.lt_trichotomy row init.length with hrow | hrow | hrow
  · rw [if_neg fun h => hrow.ne h.1, glyph, glyph, List.getElem?_append_left hrow,
      List.getElem?_append_left hrow]
  · rw [glyph, glyph, hrow, List.getElem?_concat_length, List.getElem?_concat_length]
    simp only [Option.getD_some, true_and]
    split_ifs with hcolumn
    · rw [hcolumn, List.getElem?_concat_length]
      rfl
    · rcases Nat.lt_or_gt_of_ne hcolumn with hlt | hgt
      · rw [List.getElem?_append_left hlt]
      · rw [List.getElem?_eq_none hgt.le, List.getElem?_eq_none]
        rw [List.length_append, List.length_singleton]
        exact hgt
  · have hlen : ∀ l : List UInt8, (init ++ [l]).length ≤ row := by
      intro l
      rwa [length_concat_line]
    rw [if_neg fun h => hrow.ne' h.1, glyph_of_le (hlen _), glyph_of_le (hlen _)]

/-- A line on the screen below the others. -/
theorem Displays.append_newline {video : Nat → UInt16} {color : UInt8}
    (h : Displays video color ls) (hlt : ls.length < vgaHeight) :
    Displays video color (ls ++ [[]]) := by
  intro row hrow column hcolumn
  have hlength : (ls ++ [[]]).length - vgaHeight = ls.length - vgaHeight := by
    rw [length_concat_line]
    omega
  rw [hlength, glyph_newline]
  exact h row hrow column hcolumn

/-- A line on a full screen. -/
theorem Displays.scroll {video : Nat → UInt16} {color : UInt8}
    (h : Displays video color ls) (hle : vgaHeight ≤ ls.length) :
    Displays (clearLastRow (rowsUp video) color) color (ls ++ [[]]) := by
  intro row hrow column hcolumn
  have hlength : (ls ++ [[]]).length - vgaHeight = ls.length - vgaHeight + 1 := by
    rw [length_concat_line]
    omega
  have hindex : row * vgaWidth + column < vgaHeight * vgaWidth ∧
      (row * vgaWidth + column < (vgaHeight - 1) * vgaWidth ↔ row + 1 < vgaHeight) := by
    unfold vgaHeight vgaWidth at *
    omega
  rw [hlength, glyph_newline, scroll_eq _ hindex.1, if_congr hindex.2 rfl rfl]
  by_cases hlast : row + 1 < vgaHeight
  · rw [if_pos hlast, Nat.add_right_comm, ← Nat.succ_mul, h (row + 1) hlast column hcolumn,
      Nat.add_right_comm]
    rfl
  · rw [if_neg hlast, glyph_of_le (by omega)]

/-- The cursor writes the next character of its line. -/
theorem Terminal.Holds.store (h : t.Holds init line) (hcolumn : t.column = line.length) :
    (t.store c).Holds init (line ++ [c]) := by
  refine ⟨h.row, fun row hrow column hlt => ?_⟩
  have hcell := h.displays row hrow column hlt
  rw [length_concat_line] at hcell ⊢
  rw [glyph_char]
  have hcursor := h.row
  have hwidth := t.column_lt
  simp only [Terminal.store]
  by_cases heq : row * vgaWidth + column = t.row * vgaWidth + t.column
  · have hhere : row = t.row ∧ column = t.column := by
      unfold vgaWidth at heq hlt hwidth
      omega
    rw [heq, Function.update_self, if_pos]
    omega
  · rw [Function.update_of_ne heq, hcell, if_neg]
    intro hhere
    refine heq ?_
    rw [hhere.2, hcolumn, show row = t.row by omega]

/-- **A newline** goes to a new line, and the screen follows. -/
theorem Terminal.Holds.newline (h : t.Holds init line) :
    (terminalPutchar t newline).Holds (init ++ [line]) [] := by
  have hlength := length_concat_line init line
  have hrow := h.row
  have hlt := t.row_lt
  rw [terminalPutchar, if_pos rfl]
  split_ifs with hlast
  · refine ⟨?_, h.displays.scroll (by omega)⟩
    rw [hlength]
    show vgaHeight - 1 + _ = _
    omega
  · refine ⟨?_, h.displays.append_newline (by omega)⟩
    rw [hlength]
    show t.row + 1 + _ = _
    omega

theorem putchar_newline_column (t : Terminal) : (terminalPutchar t newline).column = 0 := by
  rw [terminalPutchar, if_pos rfl]
  split_ifs <;> rfl

/-! ## One character -/

/-- **The end of a row:** it is like a newline, except in the last row. -/
theorem putchar_wrap_iff (hc : c ≠ newline) (hcolumn : t.column + 1 = vgaWidth) :
    terminalPutchar t c = terminalPutchar (t.store c) newline ↔ t.row + 1 ≠ vgaHeight := by
  rw [terminalPutchar, terminalPutchar, if_neg hc, if_pos rfl]
  simp only []
  rw [dif_pos (show (t.store c).column + 1 = vgaWidth from hcolumn)]
  by_cases hlast : t.row + 1 = vgaHeight
  · refine iff_of_false (fun heq => ?_) (not_not_intro hlast)
    rw [dif_pos (show (t.store c).row + 1 = vgaHeight from hlast),
      dif_pos (show (t.store c).row + 1 = vgaHeight from hlast)] at heq
    have hrow : 0 = vgaHeight - 1 := congrArg Terminal.row heq
    exact absurd hrow (by decide)
  · refine iff_of_true ?_ hlast
    rw [dif_neg (show ¬(t.store c).row + 1 = vgaHeight from hlast),
      dif_neg (show ¬(t.store c).row + 1 = vgaHeight from hlast)]

/-- The last cell of the screen: the cursor goes back to the first row. -/
theorem putchar_last (hc : c ≠ newline) (hcolumn : t.column + 1 = vgaWidth)
    (hrow : t.row + 1 = vgaHeight) : (terminalPutchar t c).row = 0 := by
  rw [terminalPutchar, if_neg hc]
  simp only []
  rw [dif_pos (show (t.store c).column + 1 = vgaWidth from hcolumn),
    dif_pos (show (t.store c).row + 1 = vgaHeight from hrow)]

/-- A character in the middle of a row. -/
theorem putchar_char (hc : c ≠ newline) (hcolumn : t.column + 1 ≠ vgaWidth) :
    terminalPutchar t c = { t.store c with
      column := t.column + 1
      column_lt := lt_of_le_of_ne t.column_lt hcolumn } := by
  rw [terminalPutchar, if_neg hc]
  exact dif_neg hcolumn

/-- The lines that are shown, by the last of all lines. -/
theorem shows_iff (h : lines newline vgaWidth text = init ++ [line]) :
    t.Shows text ↔ t.Holds init line ∧ t.column = line.length := by
  have hlength := length_concat_line init line
  have hshown : shownLines text = (init ++ [line]).drop (init.length + 1 - vgaHeight) := by
    rw [shownLines, h, hlength]
  have hlast : (shownLines text).getLast?.getD [] = line := by
    rw [hshown, List.drop_append_of_le_length (by unfold vgaHeight; omega), List.getLast?_concat]
    rfl
  have hcells : (∀ row < vgaHeight, ∀ column < vgaWidth, t.video (row * vgaWidth + column) =
      vgaEntry (glyph (shownLines text) row column) t.color) ↔
      Displays t.video t.color (init ++ [line]) := by
    rw [hshown, Displays, hlength]
    simp only [glyph_drop]
  have hrow : t.row + 1 = (shownLines text).length ↔
      t.row + (init.length + 1 - vgaHeight) = init.length := by
    have hlt := t.row_lt
    rw [hshown, List.length_drop, hlength]
    omega
  constructor
  · intro hshows
    exact ⟨⟨hrow.1 hshows.row, hcells.1 hshows.cell⟩, hshows.column.trans (by rw [hlast])⟩
  · rintro ⟨hholds, hcolumn⟩
    exact ⟨hrow.2 hholds.row, hcolumn.trans (by rw [hlast]), hcells.2 hholds.displays⟩

/-- After `terminal_clear` the screen shows the empty text. -/
theorem shows_clear (t : Terminal) : (terminalClear t).Shows [] := by
  have hlines : lines newline vgaWidth [] = [] ++ [[]] := rfl
  refine (shows_iff hlines).2 ⟨⟨rfl, fun row hrow column hcolumn => ?_⟩, rfl⟩
  rw [terminalClear_video _ (by unfold vgaHeight vgaWidth at *; omega)]
  cases row <;> rfl

/-- The character that goes to the last cell of the screen. -/
def Overruns (text : List UInt8) (c : UInt8) : Prop :=
  c ≠ newline ∧ vgaHeight ≤ (lines newline vgaWidth text).length ∧
    endColumn newline vgaWidth 0 text + 1 = vgaWidth

/-- **One character more** is shown, except in the last cell of the screen. -/
theorem shows_putchar (h : t.Shows text) :
    (terminalPutchar t c).Shows (text ++ [c]) ↔ ¬Overruns text c := by
  obtain ⟨init, line, hlines, -, hend⟩ := exists_lines (show 0 < vgaWidth by decide)
    newline text
  obtain ⟨hholds, hcolumn⟩ := (shows_iff hlines).1 h
  rw [Overruns, hlines, hend, ← hcolumn, length_concat_line]
  by_cases hc : c = newline
  · refine iff_of_true ?_ fun hover => hover.1 hc
    subst hc
    rw [shows_iff ((lines_newline text).trans (congrArg (· ++ [[]]) hlines))]
    exact ⟨hholds.newline, putchar_newline_column t⟩
  by_cases hfull : t.column + 1 = vgaWidth
  · have hlines' := lines_full hc hlines (by rw [hend, ← hcolumn, hfull])
    have hrow := hholds.row
    rw [shows_iff hlines']
    by_cases hlast : t.row + 1 = vgaHeight
    · refine iff_of_false (fun hwrong => ?_) (not_not_intro ⟨hc, by omega, hfull⟩)
      have hback := hwrong.1.row
      rw [putchar_last hc hfull hlast, length_concat_line] at hback
      unfold vgaHeight at *
      omega
    · refine iff_of_true ?_ fun hover => ?_
      · rw [(putchar_wrap_iff hc hfull).2 hlast]
        exact ⟨(hholds.store hcolumn).newline, putchar_newline_column _⟩
      · have hlt := t.row_lt
        omega
  · refine iff_of_true ?_ fun hover => hfull hover.2.2
    rw [shows_iff (lines_char hc hlines (by rw [hend, ← hcolumn]; exact hfull)),
      putchar_char hc hfull]
    refine ⟨⟨hholds.row, (hholds.store hcolumn).displays⟩, ?_⟩
    rw [List.length_append, List.length_singleton, ← hcolumn]

/-- No line from the 25th on is full. -/
def ShortBelow (text : List UInt8) : Prop :=
  ∀ line ∈ (lines newline vgaWidth text).drop (vgaHeight - 1), line.length < vgaWidth

theorem shortBelow_concat (text : List UInt8) (c : UInt8) :
    ShortBelow (text ++ [c]) ↔ ShortBelow text ∧ ¬Overruns text c := by
  obtain ⟨init, line, hlines, hshort, hend⟩ := exists_lines (show 0 < vgaWidth by decide)
    newline text
  rw [ShortBelow, ShortBelow, Overruns, hend, hlines, length_concat_line]
  by_cases hc : c = newline
  · subst hc
    rw [(lines_newline text).trans (congrArg (· ++ [[]]) hlines), forall_mem_drop_concat]
    exact ⟨fun h => ⟨h.1, fun hover => hover.1 rfl⟩, fun h => ⟨h.1, fun _ => by decide⟩⟩
  by_cases hfull : line.length + 1 = vgaWidth
  · rw [lines_full hc hlines (by rw [hend, hfull]), forall_mem_drop_concat, forall_mem_drop_concat,
      forall_mem_drop_concat]
    constructor
    · rintro ⟨⟨h, hline⟩, -⟩
      refine ⟨⟨h, fun _ => hshort⟩, fun hover => ?_⟩
      have hlt := hline (by have := hover.2.1; unfold vgaHeight at *; omega)
      rw [List.length_append, List.length_singleton, hfull] at hlt
      exact absurd hlt (lt_irrefl _)
    · rintro ⟨⟨h, -⟩, hover⟩
      refine ⟨⟨h, fun hle => absurd ⟨hc, ?_, hfull⟩ hover⟩, fun _ => by decide⟩
      unfold vgaHeight at *
      omega
  · rw [lines_char hc hlines (by rwa [hend]), forall_mem_drop_concat, forall_mem_drop_concat]
    refine ⟨fun h => ⟨⟨h.1, fun _ => hshort⟩, fun hover => hfull hover.2.2⟩, fun h => ⟨h.1.1, ?_⟩⟩
    intro _
    rw [List.length_append, List.length_singleton]
    omega

theorem ShortBelow.of_append {before : List UInt8} (h : ShortBelow text)
    (hbefore : before <+: text) : ShortBelow before := by
  obtain ⟨rest, rfl⟩ := hbefore
  induction rest using List.reverseRecOn with
  | nil => rwa [List.append_nil] at h
  | append_singleton rest c ih =>
      rw [← List.append_assoc] at h
      exact ih ((shortBelow_concat _ c).1 h).1

/-- **Whole texts:** the screen is right all along exactly if no line below the 24th is full. -/
theorem shows_write_iff (t : Terminal) (text : List UInt8) :
    (∀ before, before <+: text → (terminalWrite (terminalClear t) before).Shows before) ↔
      ShortBelow text := by
  have hstep : ∀ before c, (terminalWrite (terminalClear t) before).Shows before →
      ((terminalWrite (terminalClear t) (before ++ [c])).Shows (before ++ [c]) ↔
        ¬Overruns before c) := by
    intro before c h
    rw [terminalWrite, List.foldl_concat]
    exact shows_putchar h
  have hshort : ∀ before c, ShortBelow before →
      (ShortBelow (before ++ [c]) ↔ ¬Overruns before c) := by
    intro before c h
    rw [shortBelow_concat, and_iff_right h]
  have hempty : ShortBelow [] := List.forall_mem_nil _
  calc (∀ before, before <+: text → (terminalWrite (terminalClear t) before).Shows before)
      ↔ ∀ before c, before ++ [c] <+: text → ¬Overruns before c :=
        forall_prefix_iff (P := fun before => (terminalWrite (terminalClear t) before).Shows before)
          (shows_clear t) hstep text
    _ ↔ ∀ before, before <+: text → ShortBelow before :=
        (forall_prefix_iff hempty hshort text).symm
    _ ↔ ShortBelow text := ⟨fun h => h text List.prefix_rfl, fun h _ hbefore => h.of_append hbefore⟩

end Screen

/-- **The end of a row** is like a newline exactly if it is not the last row. After
`terminal_clear`, the screen shows the last 25 lines of a text all along exactly if no line below
the 24th is full. -/
theorem terminal_wrap_iff (t : Terminal) (c : UInt8) (text : List UInt8) :
    (t.column = vgaWidth - 1 → c ≠ newline →
      (terminalPutchar t c = terminalPutchar (t.store c) newline ↔ t.row ≠ vgaHeight - 1)) ∧
    ((∀ before, before <+: text → (terminalWrite (terminalClear t) before).Shows before) ↔
      ShortBelow text) := by
  refine ⟨fun hcolumn hc => ?_, shows_write_iff t text⟩
  rw [putchar_wrap_iff hc (by rw [hcolumn]; rfl)]
  unfold vgaHeight
  omega

/-- The terminal at the start. -/
def Terminal.init (video : Nat → UInt16) : Terminal where
  video := video
  row := 0
  column := 0
  color := 7
  row_lt := by decide
  column_lt := by decide

/-- Some newlines, and a row that is full up to the last column. -/
def longLine (rows : Nat) : List UInt8 := List.replicate rows newline ++ List.replicate 79 65

/-- After `terminal_clear` and a long line. -/
def atEnd (rows : Nat) : Terminal :=
  terminalWrite (terminalClear (.init fun _ => 0)) (longLine rows)

theorem terminal_wrap_third :
    (atEnd 3).column = vgaWidth - 1 ∧ (65 : UInt8) ≠ newline ∧
      terminalPutchar (atEnd 3) 65 = terminalPutchar ((atEnd 3).store 65) newline := by
  have hcolumn : (atEnd 3).column = vgaWidth - 1 := by decide +kernel
  have hc : (65 : UInt8) ≠ newline := by decide
  exact ⟨hcolumn, hc, ((terminal_wrap_iff (atEnd 3) 65 []).1 hcolumn hc).2 (by decide +kernel)⟩

/-- A long line at the bottom of the screen: the cursor goes to the top, and nothing scrolls. -/
theorem terminal_wrap_bottom :
    (atEnd 24).column = vgaWidth - 1 ∧ (65 : UInt8) ≠ newline ∧
      terminalPutchar (atEnd 24) 65 ≠ terminalPutchar ((atEnd 24).store 65) newline ∧
      ¬(terminalPutchar (atEnd 24) 65).Shows (longLine 24 ++ [65]) := by
  refine ⟨by decide +kernel, by decide, fun heq => ?_, fun hshows => ?_⟩
  · have hrow : (terminalPutchar (atEnd 24) 65).row =
        (terminalPutchar ((atEnd 24).store 65) newline).row := congrArg Terminal.row heq
    revert hrow
    decide +kernel
  · have hrow := hshows.row
    revert hrow
    decide +kernel

end Munux.Drivers
