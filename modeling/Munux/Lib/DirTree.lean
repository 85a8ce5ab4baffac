import Mathlib.Data.List.Basic
import Mathlib.Logic.Function.Basic

/-!
# Trees of directories

A tree of files and directories, as its user sees it: a path is the list of the names on the way
from the root, and leads to a file, to a directory or to nothing. The fields of `DirTree` say that
it is a tree, so no operation can lose a directory that something is in.
-/

namespace Munux

/-- What a path leads to. -/
inductive Entry (β : Type) where
  | file (content : β)
  | dir
  deriving DecidableEq, Repr

/-- A tree over names `ν`, with contents `β`. What is not the root is in a directory. -/
@[ext] structure DirTree (ν β : Type) where
  get : List ν → Option (Entry β)
  root : get [] = some .dir
  parent : ∀ p x, get (p ++ [x]) ≠ none → get p = some .dir

namespace DirTree

variable {ν β : Type}

/-- The root, and nothing in it. -/
def empty : DirTree ν β where
  get
    | [] => some .dir
    | _ :: _ => none
  root := rfl
  parent p x h := by cases p <;> exact absurd rfl h

theorem get_empty (p : List ν) :
    (empty : DirTree ν β).get p = if p = [] then some .dir else none := by
  cases p <;> rfl

variable [DecidableEq ν] {t : DirTree ν β} {p : List ν} {x : ν}

/-- The tree with an entry that is new in the directory `p`. -/
def add (t : DirTree ν β) (p : List ν) (x : ν) (e : Entry β) (hdir : t.get p = some .dir)
    (hnone : t.get (p ++ [x]) = none) : DirTree ν β where
  get := Function.update t.get (p ++ [x]) (some e)
  root := by
    rw [Function.update_of_ne (List.concat_ne_nil x p).symm]
    exact t.root
  parent q y h := by
    have hne : ∀ r, t.get r = some .dir → r ≠ p ++ [x] := by
      rintro r hr rfl
      rw [hnone] at hr
      cases hr
    by_cases hq : q ++ [y] = p ++ [x]
    · obtain ⟨rfl, -⟩ := List.append_inj' hq rfl
      rw [Function.update_of_ne (hne q hdir)]
      exact hdir
    · rw [Function.update_of_ne hq] at h
      rw [Function.update_of_ne (hne q (t.parent q y h))]
      exact t.parent q y h

/-- The tree with another content in the file at `p`. -/
def overwrite (t : DirTree ν β) (p : List ν) (b : β) (hfile : ∃ old, t.get p = some (.file old)) :
    DirTree ν β where
  get := Function.update t.get p (some (.file b))
  root := by
    have hne : [] ≠ p := by
      rintro rfl
      obtain ⟨old, hold⟩ := hfile
      rw [t.root] at hold
      cases hold
    rw [Function.update_of_ne hne]
    exact t.root
  parent q y h := by
    have hold : t.get (q ++ [y]) ≠ none := by
      by_cases hq : q ++ [y] = p
      · obtain ⟨old, hold⟩ := hfile
        rw [hq, hold]
        exact Option.some_ne_none _
      · rwa [Function.update_of_ne hq] at h
    have hdir := t.parent q y hold
    have hne : q ≠ p := by
      rintro rfl
      obtain ⟨old, hold⟩ := hfile
      rw [hdir] at hold
      cases hold
    rw [Function.update_of_ne hne]
    exact hdir

theorem get_add (e : Entry β) (hdir : t.get p = some .dir) (hnone : t.get (p ++ [x]) = none)
    (q : List ν) : (t.add p x e hdir hnone).get q = if q = p ++ [x] then some e else t.get q :=
  Function.update_apply ..

theorem get_overwrite (b : β) (hfile : ∃ old, t.get p = some (.file old)) (q : List ν) :
    (t.overwrite p b hfile).get q = if q = p then some (.file b) else t.get q :=
  Function.update_apply ..

end DirTree

end Munux
