import Munux.Shell.Session

/-!
# What is seen of a line

The echo of `shell_run`: a character is written at the cursor, and backspace takes the cursor back
by one cell and puts a blank there. Backspace knows nothing of the prompt, and goes up from the
first column to the end of the row above, whatever is there.

**The invariant** (`BlankBehind`). There is no character behind the cursor. Everything that the
shell puts out keeps it, as long as no character goes to the last cell of the screen
(`blankBehind_put`).

**Main result.**

* `editing_shows`: while a line is edited, the screen shows what was there before the line, then the
  line as it is in the buffer, and then nothing.
-/

namespace Munux.Shell

open Drivers

/-- The number of the cell of the cursor. -/
def pos (t : Terminal) : Nat := t.row * vgaWidth + t.column

/-- There is no character behind the cursor. -/
def BlankBehind (t : Terminal) : Prop :=
  ∀ i, pos t ≤ i → i < vgaHeight * vgaWidth → (t.video i).toUInt8 = space

/-- No character of the text goes to the last cell of the screen. -/
def TextFits : Terminal → List UInt8 → Prop
  | _, [] => True
  | t, c :: s =>
      (c = newline ∨ pos t + 1 < vgaHeight * vgaWidth) ∧ TextFits (terminalPutchar t c) s

/-- No character of the output does. -/
def AllFit : Console → List Output → Prop
  | _, [] => True
  | k, .text s :: out => TextFits k.screen s ∧ AllFit (k.put (.text s)) out
  | k, o :: out => AllFit (k.put o) out

instance decidableTextFits : (t : Terminal) → (s : List UInt8) → Decidable (TextFits t s)
  | _, [] => isTrue trivial
  | t, c :: s =>
      have := decidableTextFits (terminalPutchar t c) s
      inferInstanceAs (Decidable (_ ∧ _))

instance decidableAllFit : (k : Console) → (out : List Output) → Decidable (AllFit k out)
  | _, [] => isTrue trivial
  | k, .text s :: out =>
      have := decidableAllFit (k.put (.text s)) out
      inferInstanceAs (Decidable (_ ∧ _))
  | k, .erase :: out => decidableAllFit (k.put .erase) out
  | k, .color c :: out => decidableAllFit (k.put (.color c)) out
  | k, .clear :: out => decidableAllFit (k.put .clear) out

/-- The line is on the screen behind what was there before. -/
structure Edited (t₀ : Terminal) (text : List UInt8) (t : Terminal) : Prop where
  color : t.color = t₀.color
  pos : pos t = pos t₀ + text.length
  before : ∀ i < Shell.pos t₀, t.video i = t₀.video i
  line : ∀ i c, text[i]? = some c → t.video (Shell.pos t₀ + i) = vgaEntry c t₀.color

/-- The line and the output of some keys, from an empty line on. -/
def echo (keys : List (UInt8 × Moment)) : List UInt8 × List Output :=
  keys.foldl (fun (line, out) (c, now) =>
    ((edit line c now.ticks).1, out ++ (edit line c now.ticks).2)) ([], [])

/-! ## One character -/

section Character

variable {t t₀ : Terminal} {c : UInt8} {line s : List UInt8} {k : Console} {o : Output}
  {out : List Output}

theorem vgaEntry_toUInt8 (c color : UInt8) : (vgaEntry c color).toUInt8 = c := by
  rw [← UInt8.toNat_inj]
  simp [vgaEntry, Nat.shiftLeft_eq]

theorem video_store (t : Terminal) (c : UInt8) :
    (t.store c).video = Function.update t.video (pos t) (vgaEntry c t.color) := rfl

/-- A character that is not the last one goes to the cell of the cursor. -/
theorem putchar_fits (hc : c ≠ newline) (h : pos t + 1 < vgaHeight * vgaWidth) :
    pos (terminalPutchar t c) = pos t + 1 ∧
      (terminalPutchar t c).video = (t.store c).video ∧ (terminalPutchar t c).color = t.color := by
  have hcolumn := t.column_lt
  by_cases hfull : t.column + 1 = vgaWidth
  · have hrow : t.row + 1 ≠ vgaHeight := by
      intro hrow
      simp only [pos, vgaHeight, vgaWidth] at *
      omega
    rw [terminalPutchar, if_neg hc]
    simp only []
    rw [dif_pos (show (t.store c).column + 1 = vgaWidth from hfull),
      dif_neg (show ¬(t.store c).row + 1 = vgaHeight from hrow)]
    refine ⟨?_, rfl, rfl⟩
    change (t.row + 1) * vgaWidth + 0 = t.row * vgaWidth + t.column + 1
    rw [Nat.succ_mul, Nat.add_assoc _ t.column, hfull, Nat.add_zero]
  · rw [putchar_char hc hfull]
    exact ⟨rfl, rfl, rfl⟩

/-- Backspace takes the cursor to the cell before, whatever is there. -/
theorem backspace_pos (h : 0 < pos t) :
    pos (terminalBackspace t) = pos t - 1 ∧
      (terminalBackspace t).video = Function.update t.video (pos t - 1) (vgaEntry space t.color) ∧
      (terminalBackspace t).color = t.color := by
  have hmove : ∀ row column hrow hcolumn, row * vgaWidth + column = pos t - 1 →
      pos ((t.moveTo row column hrow hcolumn).store space) = pos t - 1 ∧
        ((t.moveTo row column hrow hcolumn).store space).video =
          Function.update t.video (pos t - 1) (vgaEntry space t.color) ∧
        ((t.moveTo row column hrow hcolumn).store space).color = t.color := by
    intro row column hrow hcolumn hpos
    rw [← hpos]
    exact ⟨rfl, rfl, rfl⟩
  rw [terminalBackspace]
  split_ifs with hcolumn hrow
  · exact hmove _ _ _ _ (Nat.add_sub_assoc hcolumn _).symm
  · refine hmove _ _ _ _ ?_
    simp only [pos, vgaWidth] at *
    omega
  · simp only [pos, vgaWidth] at h
    omega

/-- A newline goes to a row with nothing behind it. -/
theorem BlankBehind.newline (h : BlankBehind t) : BlankBehind (terminalPutchar t newline) := by
  have hcolumn := t.column_lt
  rw [terminalPutchar, if_pos rfl]
  split_ifs with hlast
  · intro i hlo hhi
    change (vgaHeight - 1) * vgaWidth + 0 ≤ i at hlo
    change (clearLastRow (rowsUp t.video) t.color i).toUInt8 = space
    rw [scroll_eq i hhi, if_neg (by omega), vgaEntry_toUInt8]
  · intro i hlo hhi
    change (t.row + 1) * vgaWidth + 0 ≤ i at hlo
    refine h i ?_ hhi
    rw [Nat.succ_mul] at hlo
    exact (Nat.add_le_add_left hcolumn.le _).trans hlo

theorem BlankBehind.putchar (h : BlankBehind t)
    (hfit : c = Drivers.newline ∨ pos t + 1 < vgaHeight * vgaWidth) :
    BlankBehind (terminalPutchar t c) := by
  by_cases hc : c = Drivers.newline
  · exact hc ▸ h.newline
  · obtain ⟨hpos, hvideo, -⟩ := putchar_fits hc (hfit.resolve_left hc)
    intro i hlo hhi
    rw [hpos] at hlo
    rw [hvideo, video_store, Function.update_of_ne (by omega)]
    exact h i (by omega) hhi

theorem BlankBehind.write (h : BlankBehind t) (hfit : TextFits t s) :
    BlankBehind (terminalWrite t s) := by
  induction s generalizing t with
  | nil => exact h
  | cons c s ih => exact ih (h.putchar hfit.1) hfit.2

theorem BlankBehind.backspace (h : BlankBehind t) : BlankBehind (terminalBackspace t) := by
  by_cases hpos : 0 < pos t
  · obtain ⟨hpos', hvideo, -⟩ := backspace_pos hpos
    intro i hlo hhi
    rw [hpos'] at hlo
    by_cases hi : i = pos t - 1
    · rw [hvideo, hi, Function.update_self, vgaEntry_toUInt8]
    · rw [hvideo, Function.update_of_ne hi]
      exact h i (by omega) hhi
  · have hfirst : t.column = 0 ∧ t.row = 0 := by
      simp only [pos, vgaWidth] at hpos
      omega
    rw [terminalBackspace, if_neg (by omega), if_neg (by omega)]
    exact h

theorem blankBehind_clear (t : Terminal) : BlankBehind (terminalClear t) := by
  intro i _ hhi
  rw [terminalClear_video i hhi, vgaEntry_toUInt8]

/-- **The invariant.** -/
theorem blankBehind_put (h : BlankBehind k.screen) (hfit : AllFit k out) :
    BlankBehind (out.foldl Console.put k).screen := by
  induction out generalizing k with
  | nil => exact h
  | cons o out ih =>
      cases o with
      | text s => exact ih (h.write hfit.1) hfit.2
      | erase => exact ih h.backspace hfit
      | color c => exact ih (k := k.setcolor c) h hfit
      | clear => exact ih (blankBehind_clear _) hfit

theorem allFit_append {out' : List Output} :
    AllFit k (out ++ out') ↔ AllFit k out ∧ AllFit (out.foldl Console.put k) out' := by
  induction out generalizing k with
  | nil => simp [AllFit]
  | cons o out ih =>
      cases o with
      | text s => simp [AllFit, ih, and_assoc]
      | erase | color _ | clear => simp [AllFit, ih]

end Character

/-! ## One line -/

section Line

variable {t t₀ : Terminal} {c : UInt8} {line : List UInt8} {k k₀ : Console} {ticks : UInt32}

theorem Edited.refl (t : Terminal) : Edited t [] t := ⟨rfl, rfl, fun _ _ => rfl, by simp⟩

theorem Edited.char (h : Edited t₀ line t) (hc : c ≠ newline)
    (hfit : Shell.pos t + 1 < vgaHeight * vgaWidth) :
    Edited t₀ (line ++ [c]) (terminalPutchar t c) := by
  obtain ⟨hpos, hvideo, hcolor⟩ := putchar_fits hc hfit
  have hend := h.pos
  refine ⟨hcolor.trans h.color, ?_, fun i hi => ?_, fun i d hd => ?_⟩
  · rw [hpos, hend, List.length_append, List.length_singleton, Nat.add_assoc]
  · rw [hvideo, video_store, Function.update_of_ne (by omega)]
    exact h.before i hi
  · rw [hvideo, video_store, hend, ← h.color]
    by_cases hi : i = line.length
    · subst hi
      rw [List.getElem?_concat_length] at hd
      rw [Function.update_self, Option.some.inj hd]
    · obtain ⟨hlt, -⟩ := List.getElem?_eq_some_iff.1 hd
      rw [List.length_append, List.length_singleton] at hlt
      rw [List.getElem?_append_left (by omega)] at hd
      rw [Function.update_of_ne (by omega), h.color]
      exact h.line i d hd

theorem Edited.erase (h : Edited t₀ line t) (hline : line ≠ []) :
    Edited t₀ line.dropLast (terminalBackspace t) := by
  have hlen := List.length_pos_iff.2 hline
  have hend := h.pos
  obtain ⟨hpos, hvideo, hcolor⟩ := backspace_pos (t := t) (by omega)
  refine ⟨hcolor.trans h.color, ?_, fun i hi => ?_, fun i d hd => ?_⟩
  · rw [hpos, hend, List.length_dropLast]
    omega
  · rw [hvideo, Function.update_of_ne (by omega)]
    exact h.before i hi
  · obtain ⟨hlt, -⟩ := List.getElem?_eq_some_iff.1 hd
    rw [List.length_dropLast] at hlt
    rw [List.getElem?_dropLast, if_pos hlt] at hd
    rw [hvideo, Function.update_of_ne (by omega)]
    exact h.line i d hd

/-- A key that does not end the line. -/
theorem Edited.key (h : Edited t₀ line k.screen) (hc : c ≠ newline)
    (hfit : AllFit k (edit line c ticks).2) :
    Edited t₀ (edit line c ticks).1 ((edit line c ticks).2.foldl Console.put k).screen := by
  rw [edit, if_neg hc] at hfit ⊢
  by_cases hback : c = backspace
  · rw [if_pos hback] at hfit ⊢
    by_cases hline : line = []
    · rw [if_pos hline]
      exact hline ▸ h
    · rw [if_neg hline]
      exact h.erase hline
  · rw [if_neg hback] at hfit ⊢
    by_cases hprint : 32 ≤ c ∧ c < 127 ∧ line.length < 127
    · rw [if_pos hprint] at hfit ⊢
      exact h.char hc (hfit.1.1.resolve_left hc)
    · rw [if_neg hprint]
      exact h

theorem echo_append (keys : List (UInt8 × Moment)) (c : UInt8) (now : Moment) :
    echo (keys ++ [(c, now)]) = ((edit (echo keys).1 c now.ticks).1,
      (echo keys).2 ++ (edit (echo keys).1 c now.ticks).2) := by
  simp [echo]

/-- Where the line is empty, the keys that follow are echoed as on a new one. -/
theorem after_echo {before : List (UInt8 × Moment)} (hbefore : (after before).1 = [])
    (keys : List (UInt8 × Moment)) :
    after (before ++ keys) = ((echo keys).1, (after before).2 ++ (echo keys).2) := by
  induction keys using List.reverseRecOn with
  | nil =>
      rw [List.append_nil]
      exact Prod.ext hbefore (List.append_nil _).symm
  | append_singleton keys x ih =>
      obtain ⟨c, now⟩ := x
      rw [← List.append_assoc, after_append, ih, echo_append, List.append_assoc]

/-- The line is at the place where it was begun. -/
theorem Edited.echo (k : Console) {keys : List (UInt8 × Moment)}
    (hfit : AllFit k (Shell.echo keys).2) (hkeys : ∀ x ∈ keys, x.1 ≠ newline) :
    Edited k.screen (Shell.echo keys).1 ((Shell.echo keys).2.foldl Console.put k).screen := by
  induction keys using List.reverseRecOn with
  | nil => exact .refl k.screen
  | append_singleton keys x ih =>
      obtain ⟨c, now⟩ := x
      rw [echo_append] at hfit ⊢
      obtain ⟨hfit, hlast⟩ := allFit_append.1 hfit
      rw [List.forall_mem_append] at hkeys
      rw [List.foldl_append]
      exact (ih hfit hkeys.1).key (hkeys.2 (c, now) (List.mem_singleton_self _)) hlast

/-- **Editing.** From any moment at which the line is empty, up to the end of the line, as long as
no character of the line goes to the last cell: the screen shows what it showed then, and behind it
the line. Behind the cursor there is nothing if there was nothing when the line was begun, or when
the shell started and nothing that it has put out since went to the last cell. -/
theorem editing_shows {before keys : List (UInt8 × Moment)} (hbefore : (after before).1 = [])
    (hkeys : ∀ x ∈ keys, x.1 ≠ newline)
    (hfit : AllFit ((after before).2.foldl Console.put k₀) (echo keys).2) :
    let k := (after before).2.foldl Console.put k₀
    let k' := (after (before ++ keys)).2.foldl Console.put k₀
    Edited k.screen (after (before ++ keys)).1 k'.screen ∧
      (BlankBehind k.screen ∨ BlankBehind k₀.screen ∧ AllFit k₀ (after before).2 →
        BlankBehind k'.screen) := by
  intro k k'
  have hk' : k' = (echo keys).2.foldl Console.put k := by
    rw [← List.foldl_append]
    exact congrArg (fun out => out.foldl Console.put k₀) (congrArg Prod.snd (after_echo hbefore keys))
  rw [hk', after_echo hbefore]
  refine ⟨.echo k hfit hkeys, fun hblank => blankBehind_put ?_ hfit⟩
  exact hblank.elim id fun ⟨hstart, hall⟩ => blankBehind_put hstart hall

/-- Three characters, and one of them erased. -/
def threeErased : List (UInt8 × Moment) :=
  [104, 105, 106, backspace].map fun c => (c, bootMoment)

theorem editing_shows_erased :
    Edited (started.foldl Console.put blankConsole).screen [104, 105]
      ((after threeErased).2.foldl Console.put blankConsole).screen ∧
      BlankBehind ((after threeErased).2.foldl Console.put blankConsole).screen := by
  have hout : (echo threeErased).2 = [.text [104], .text [105], .text [106], .erase] := by
    simp [threeErased, echo, edit, newline, backspace]
  have hfit : AllFit ((after []).2.foldl Console.put blankConsole) (echo threeErased).2 := by
    rw [hout]
    decide +kernel
  have hall : AllFit blankConsole (after []).2 := by decide +kernel
  have hblank : BlankBehind blankConsole.screen := fun _ _ _ => vgaEntry_toUInt8 _ _
  have hnone : (after []).1 = [] := rfl
  obtain ⟨hedited, hbehind⟩ := editing_shows hnone (by simp [threeErased]; decide) hfit
  exact ⟨hedited, hbehind (.inr ⟨hblank, hall⟩)⟩

end Line

end Munux.Shell
