import Mathlib.Logic.Function.Iterate
import Munux.Lib.Word

/-!
# The in-memory file system

`TmpFs` of `munux-rs/src/vfs.rs`: a flat map from absolute paths to nodes. There is no tree in the
data; it is in the paths. `create` and `write` keep it: the parent of every path is a directory, up
to the root.

A path is the list of its characters. Slices cut at a slash, which is one byte and one character,
so positions in bytes and in characters agree where the code uses them. The calls return their
result together with the file system after the call, whether they fail or not.
-/

namespace Munux.Fs

/-- A path. -/
abbrev Path := List Char

/-- `VfsError` -/
inductive VfsError where
  | notFound
  | alreadyExists
  | notADirectory
  | isADirectory
  | invalidPath
  deriving DecidableEq, Repr

/-- `NodeKind` -/
inductive NodeKind where
  | file
  | dir
  deriving DecidableEq, Repr

/-- `Node` -/
inductive Node where
  | file (buf : List UInt8)
  | dir
  deriving DecidableEq, Repr

def Node.kind : Node → NodeKind
  | file _ => .file
  | dir => .dir

/-- `TmpFs` -/
structure TmpFs where
  nodes : Std.ExtTreeMap Path Node

/-- The path of the root. -/
def root : Path := ['/']

/-- `TmpFs::new` -/
def TmpFs.new : TmpFs := ⟨(∅ : Std.ExtTreeMap Path Node).insert root .dir⟩

/-- `clean`: an absolute path, without its final slash. -/
def clean (path : Path) : Except VfsError Path :=
  if path.head? ≠ some '/' then .error .invalidPath
  else if 1 < path.length ∧ path.getLast? = some '/' then .ok path.dropLast
  else .ok path

/-- The position of the last slash. -/
def rfind (path : Path) : Option Nat :=
  (path.reverse.findIdx? (· = '/')).map fun i => path.length - 1 - i

/-- `parent_of` -/
def parentOf (path : Path) : Path :=
  match rfind path with
  | some 0 => root
  | none => root
  | some i => path.take i

namespace TmpFs

/-- `create` -/
def create (fs : TmpFs) (path : Path) (kind : NodeKind) : Except VfsError Unit × TmpFs :=
  match clean path with
  | .error e => (.error e, fs)
  | .ok path =>
      if fs.nodes.contains path then (.error .alreadyExists, fs)
      else
        match fs.nodes[parentOf path]? with
        | some .dir =>
            let node := match kind with
              | .file => Node.file []
              | .dir => Node.dir
            (.ok (), ⟨fs.nodes.insert path node⟩)
        | some (.file _) => (.error .notADirectory, fs)
        | none => (.error .notFound, fs)

/-- `write` -/
def write (fs : TmpFs) (path : Path) (data : List UInt8) : Except VfsError Nat × TmpFs :=
  match clean path with
  | .error e => (.error e, fs)
  | .ok path =>
      match fs.nodes[path]? with
      | some (.file _) => (.ok data.length, ⟨fs.nodes.insert path (.file data)⟩)
      | some .dir => (.error .isADirectory, fs)
      | none => (.error .notFound, fs)

/-- `contents`: a copy of a file, or `none` if the path names no file. -/
def contents (fs : TmpFs) (path : Path) : Option (List UInt8) :=
  match clean path with
  | .error _ => none
  | .ok path =>
      match fs.nodes[path]? with
      | some (.file buf) => some buf
      | _ => none

end TmpFs

/-! ## What a call does -/

/-- The two calls that change the file system. -/
inductive FsOp where
  | create (path : Path) (kind : NodeKind)
  | write (path : Path) (data : List UInt8)
  deriving DecidableEq, Repr

/-- One call: the error, if it fails, and the file system after it. -/
def FsOp.step (fs : TmpFs) : FsOp → Option VfsError × TmpFs
  | create path kind =>
      match fs.create path kind with
      | (.error e, fs') => (some e, fs')
      | (.ok _, fs') => (none, fs')
  | write path data =>
      match fs.write path data with
      | (.error e, fs') => (some e, fs')
      | (.ok _, fs') => (none, fs')

/-- A sequence of calls. -/
def FsOp.run (fs : TmpFs) (ops : List FsOp) : TmpFs := ops.foldl (fun fs op => (op.step fs).2) fs

/-- The change that a successful call makes: a new node whose parent is a directory, or new contents
for a file. -/
inductive Change (fs : TmpFs) : TmpFs → Prop
  | create (path : Path) (node : Node) :
      path.head? = some '/' → fs.nodes[path]? = none → fs.nodes[parentOf path]? = some .dir →
      Change fs ⟨fs.nodes.insert path node⟩
  | write (path : Path) (old new : List UInt8) :
      fs.nodes[path]? = some (.file old) → Change fs ⟨fs.nodes.insert path (.file new)⟩

section Step

variable {fs fs' : TmpFs} {path path' : Path} {node : Node}

theorem nodes_insert (nodes : Std.ExtTreeMap Path Node) (path path' : Path) (node : Node) :
    (nodes.insert path node)[path']? = if path = path' then some node else nodes[path']? := by
  rw [Std.ExtTreeMap.getElem?_insert]
  simp only [Std.LawfulEqCmp.compare_eq_iff_eq]

/-- A cleaned path is absolute. -/
theorem head?_of_clean (h : clean path = .ok path') : path'.head? = some '/' := by
  unfold clean at h
  split_ifs at h with hhead hslash
  · obtain rfl := Except.ok.inj h
    obtain ⟨c, rest, rfl⟩ : ∃ c rest, path = c :: rest := by
      cases path with
      | nil => simp at hslash
      | cons c rest => exact ⟨c, rest, rfl⟩
    cases rest with
    | nil => simp at hslash
    | cons d rest => simpa using hhead
  · obtain rfl := Except.ok.inj h
    simpa using hhead

/-- What `create` puts at a path. -/
def emptyNode : NodeKind → Node
  | .file => .file []
  | .dir => .dir

/-- `create` fails, or adds an empty node below a directory. -/
theorem create_cases (fs : TmpFs) (path : Path) (kind : NodeKind) :
    (∃ e, fs.create path kind = (.error e, fs)) ∨
      ∃ p, clean path = .ok p ∧ fs.nodes[p]? = none ∧ fs.nodes[parentOf p]? = some .dir ∧
        fs.create path kind = (.ok (), ⟨fs.nodes.insert p (emptyNode kind)⟩) := by
  unfold TmpFs.create
  cases hclean : clean path with
  | error e => exact .inl ⟨e, rfl⟩
  | ok p =>
      by_cases hin : fs.nodes.contains p = true
      · refine .inl ⟨.alreadyExists, ?_⟩
        simp only [hin, if_true]
      · have hnone : fs.nodes[p]? = none :=
          Std.ExtTreeMap.getElem?_eq_none_of_contains_eq_false (Bool.eq_false_iff.2 hin)
        simp only [hin, Bool.false_eq_true, if_false]
        cases hparent : fs.nodes[parentOf p]? with
        | none => exact .inl ⟨.notFound, rfl⟩
        | some node =>
            cases node with
            | file buf => exact .inl ⟨.notADirectory, rfl⟩
            | dir => exact .inr ⟨p, rfl, hnone, hparent, by cases kind <;> rfl⟩

/-- `write` fails, or replaces the content of a file. -/
theorem write_cases (fs : TmpFs) (path : Path) (data : List UInt8) :
    (∃ e, fs.write path data = (.error e, fs)) ∨
      ∃ p old, clean path = .ok p ∧ fs.nodes[p]? = some (.file old) ∧
        fs.write path data = (.ok data.length, ⟨fs.nodes.insert p (.file data)⟩) := by
  unfold TmpFs.write
  cases hclean : clean path with
  | error e => exact .inl ⟨e, rfl⟩
  | ok p =>
      simp only
      cases hnode : fs.nodes[p]? with
      | none => exact .inl ⟨.notFound, rfl⟩
      | some node =>
          cases node with
          | dir => exact .inl ⟨.isADirectory, rfl⟩
          | file old => exact .inr ⟨p, old, rfl, hnode, rfl⟩

/-- **A call fails and changes nothing, or succeeds and makes its change.** -/
theorem step_cases (fs : TmpFs) (op : FsOp) :
    ((op.step fs).1 ≠ none ∧ (op.step fs).2 = fs) ∨
      ((op.step fs).1 = none ∧ Change fs (op.step fs).2) := by
  cases op with
  | create path kind =>
      rcases create_cases fs path kind with ⟨e, hcall⟩ | ⟨p, hclean, hnone, hparent, hcall⟩
      · left
        simp [FsOp.step, hcall]
      · right
        simp only [FsOp.step, hcall]
        exact ⟨trivial, .create p _ (head?_of_clean hclean) hnone hparent⟩
  | write path data =>
      rcases write_cases fs path data with ⟨e, hcall⟩ | ⟨p, old, -, hold, hcall⟩
      · left
        simp [FsOp.step, hcall]
      · right
        simp only [FsOp.step, hcall]
        exact ⟨trivial, .write p old data hold⟩

end Step

/-! ## The tree -/

/-- The paths form a tree: the root is a directory, all paths are absolute, and from each of them
the parents lead through directories to the root. -/
structure Tree (fs : TmpFs) : Prop where
  rootDir : fs.nodes[root]? = some .dir
  absolute : ∀ path : Path, fs.nodes[path]? ≠ none → path.head? = some '/'
  rooted : ∀ path : Path, fs.nodes[path]? ≠ none → ∃ n, parentOf^[n] path = root ∧
    ∀ k, 0 < k → k ≤ n → fs.nodes[parentOf^[k] path]? = some .dir

/-- Every node of `fs` is there in `fs'`, with the same kind. -/
def Grows (fs fs' : TmpFs) : Prop :=
  ∀ (path : Path) (node : Node), fs.nodes[path]? = some node →
    ∃ node' : Node, fs'.nodes[path]? = some node' ∧ node'.kind = node.kind

section Tree

variable {fs fs' fs'' : TmpFs} {path : Path}

theorem Grows.refl (fs : TmpFs) : Grows fs fs := fun _ node h => ⟨node, h, rfl⟩

theorem Grows.trans (h : Grows fs fs') (h' : Grows fs' fs'') : Grows fs fs'' := by
  intro path node hget
  obtain ⟨node', hget', hkind'⟩ := h path node hget
  obtain ⟨node'', hget'', hkind''⟩ := h' path node' hget'
  exact ⟨node'', hget'', hkind''.trans hkind'⟩

/-- A directory has nothing but its kind, so it stays as it is. -/
theorem Grows.dir (h : Grows fs fs') (hdir : fs.nodes[path]? = some .dir) :
    fs'.nodes[path]? = some .dir := by
  obtain ⟨node', hget, hkind⟩ := h path .dir hdir
  cases node' with
  | dir => exact hget
  | file buf => cases hkind

theorem Change.grows (h : Change fs fs') : Grows fs fs' := by
  intro path node hget
  cases h with
  | create path' node' _ hnone _ =>
      have hne : path' ≠ path := by
        rintro rfl
        rw [hnone] at hget
        cases hget
      exact ⟨node, by rw [nodes_insert, if_neg hne, hget], rfl⟩
  | write path' old new hold =>
      by_cases hpath : path' = path
      · subst hpath
        rw [hold] at hget
        obtain rfl := Option.some.inj hget
        exact ⟨.file new, by rw [nodes_insert, if_pos rfl], rfl⟩
      · exact ⟨node, by rw [nodes_insert, if_neg hpath, hget], rfl⟩

/-- A path of the new file system was there before, or is the new one. -/
theorem Change.mem (h : Change fs fs') (hpath : fs'.nodes[path]? ≠ none) :
    fs.nodes[path]? ≠ none ∨
      path.head? = some '/' ∧ fs.nodes[parentOf path]? = some .dir := by
  cases h with
  | create path' node' habs _ hparent =>
      rw [nodes_insert] at hpath
      by_cases heq : path' = path
      · subst heq
        exact Or.inr ⟨habs, hparent⟩
      · rw [if_neg heq] at hpath
        exact Or.inl hpath
  | write path' old new hold =>
      rw [nodes_insert] at hpath
      by_cases heq : path' = path
      · subst heq
        exact Or.inl (by simp [hold])
      · rw [if_neg heq] at hpath
        exact Or.inl hpath

/-- **A change keeps the tree.** The parents of a new path are those of its parent, and one more. -/
theorem Tree.change (h : Tree fs) (hchange : Change fs fs') : Tree fs' := by
  have hgrows := hchange.grows
  refine ⟨hgrows.dir h.rootDir, ?_, ?_⟩
  · intro path hpath
    rcases hchange.mem hpath with hold | ⟨habs, -⟩
    · exact h.absolute path hold
    · exact habs
  · intro path hpath
    rcases hchange.mem hpath with hold | ⟨-, hparent⟩
    · obtain ⟨n, hroot, hdirs⟩ := h.rooted path hold
      exact ⟨n, hroot, fun k hpos hle => hgrows.dir (hdirs k hpos hle)⟩
    · obtain ⟨n, hroot, hdirs⟩ := h.rooted (parentOf path) (by simp [hparent])
      refine ⟨n + 1, by rwa [Function.iterate_succ_apply], ?_⟩
      intro k hpos hle
      obtain ⟨k, rfl⟩ : ∃ j, k = j + 1 := ⟨k - 1, by omega⟩
      rw [Function.iterate_succ_apply]
      by_cases hk : k = 0
      · subst hk
        exact hgrows.dir hparent
      · exact hgrows.dir (hdirs k (by omega) (by omega))

theorem tree_new : Tree TmpFs.new := by
  have hget : ∀ path : Path, TmpFs.new.nodes[path]? = if root = path then some .dir else none := by
    intro path
    rw [TmpFs.new, nodes_insert]
    simp
  have hmem : ∀ path : Path, TmpFs.new.nodes[path]? ≠ none → path = root := by
    intro path hpath
    by_contra hne
    rw [hget, if_neg (Ne.symm hne)] at hpath
    exact hpath rfl
  refine ⟨by rw [hget, if_pos rfl], ?_, ?_⟩
  · intro path hpath
    rw [hmem path hpath]
    rfl
  · intro path hpath
    refine ⟨0, hmem path hpath, ?_⟩
    intro k hpos hle
    omega

theorem Tree.step (h : Tree fs) (op : FsOp) : Tree (op.step fs).2 := by
  rcases step_cases fs op with ⟨-, hsame⟩ | ⟨-, hchange⟩
  · rwa [hsame]
  · exact h.change hchange

theorem step_grows (fs : TmpFs) (op : FsOp) : Grows fs (op.step fs).2 := by
  rcases step_cases fs op with ⟨-, hsame⟩ | ⟨-, hchange⟩
  · rw [hsame]
    exact Grows.refl fs
  · exact hchange.grows

theorem Tree.run (h : Tree fs) (ops : List FsOp) : Tree (FsOp.run fs ops) := by
  induction ops generalizing fs with
  | nil => exact h
  | cons op ops ih => exact ih (h.step op)

theorem run_grows (fs : TmpFs) (ops : List FsOp) : Grows fs (FsOp.run fs ops) := by
  induction ops generalizing fs with
  | nil => exact Grows.refl fs
  | cons op ops ih => exact (step_grows fs op).trans (ih _)

/-- **The file system is a tree at all times.** After any calls the paths form a tree, any further
calls keep every node and its kind, and a call that fails changes nothing. -/
theorem tmpfs_tree (before after : List FsOp) :
    Tree (FsOp.run TmpFs.new before) ∧
      Grows (FsOp.run TmpFs.new before) (FsOp.run TmpFs.new (before ++ after)) ∧
      ∀ op : FsOp, (op.step (FsOp.run TmpFs.new before)).1 ≠ none →
        (op.step (FsOp.run TmpFs.new before)).2 = FsOp.run TmpFs.new before := by
  refine ⟨tree_new.run before, ?_, ?_⟩
  · rw [FsOp.run, FsOp.run, List.foldl_append]
    exact run_grows _ after
  · intro op herr
    rcases step_cases (FsOp.run TmpFs.new before) op with ⟨-, hsame⟩ | ⟨hok, -⟩
    · exact hsame
    · exact absurd hok herr

end Tree

end Munux.Fs
