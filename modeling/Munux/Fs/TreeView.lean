import Munux.Fs.Listing
import Munux.Lib.DirTree

/-!
# The file system as a tree

`TmpFs` keeps its files in one flat map, under their paths as strings, and finds parents and
children by the last slash. Its callers see a tree: `DirTree`, over paths that are lists of names.
`Serves` says what each call of the trait `Filesystem` should do to the tree, with the errors of the
source, and leaves nothing open (`Serves.unique`).

A path of names is written with a slash before each name, and may end with one more. Of other paths,
which have an empty component or do not begin at the root, nothing is said here.

*The simulation* (`Holds`). The map has what the tree has, and no other keys. One call keeps it
(`Holds.serve`): the parent of a path is found by its last slash (`parentOf_render`), and the
children of a directory come out of the map in the order of their names (`Holds.children`).

Main result: `tmpfs_serves`.
-/

namespace Munux.Fs

/-! ## The code -/

/-- `Metadata` -/
structure Metadata where
  kind : NodeKind
  size : Nat
  deriving DecidableEq, Repr

namespace TmpFs

/-- `read`: the result, and what is in `out` after it. -/
def read (fs : TmpFs) (path : Path) (out : List UInt8) : Except VfsError Nat × List UInt8 :=
  match clean path with
  | .error e => (.error e, out)
  | .ok path =>
      match fs.nodes[path]? with
      | some (.file buf) =>
          let n := min buf.length out.length
          (.ok n, buf.take n ++ out.drop n)
      | some .dir => (.error .isADirectory, out)
      | none => (.error .notFound, out)

/-- `stat` -/
def stat (fs : TmpFs) (path : Path) : Except VfsError Metadata :=
  match clean path with
  | .error e => .error e
  | .ok path =>
      match fs.nodes[path]? with
      | some (.file buf) => .ok { kind := .file, size := buf.length }
      | some .dir => .ok { kind := .dir, size := 0 }
      | none => .error .notFound

end TmpFs

/-! ## Paths and names -/

/-- The name of a file or a directory. -/
abbrev Name := {x : Path // x ≠ [] ∧ '/' ∉ x}

/-- The path that leads from the root over these names. -/
def render (p : List Name) : Path :=
  if p = [] then root else p.flatMap fun x => '/' :: x.1

/-- A path may be written with one more slash at its end. -/
def spell (p : List Name) (slash : Bool) : Path := if slash then render p ++ ['/'] else render p

section Paths

variable {p q : List Name} {x y : Name}

theorem render_concat (p : List Name) (x : Name) :
    render (p ++ [x]) = (p.flatMap fun x => '/' :: x.1) ++ '/' :: x.1 := by
  rw [render, if_neg (List.concat_ne_nil x p), List.flatMap_append, List.flatMap_singleton]

theorem parentOf_render (p : List Name) (x : Name) : parentOf (render (p ++ [x])) = render p := by
  rw [render_concat, parentOf_append x.2.2, render]
  cases p with
  | nil => rfl
  | cons y p => rw [if_neg (List.cons_ne_nil y p), if_neg (by simp)]

theorem basename_render (p : List Name) (x : Name) : basename (render (p ++ [x])) = x.1 := by
  rw [render_concat, basename_append x.2.2]

theorem render_ne_root (p : List Name) (x : Name) : render (p ++ [x]) ≠ root := by
  intro h
  have hname := basename_render p x
  rw [h] at hname
  exact x.2.1 hname.symm

theorem render_injective : Function.Injective render := by
  intro p
  induction p using List.reverseRecOn with
  | nil =>
      intro q h
      cases q using List.reverseRecOn with
      | nil => rfl
      | append_singleton q y => exact absurd h.symm (render_ne_root q y)
  | append_singleton p x ih =>
      intro q h
      cases q using List.reverseRecOn with
      | nil => exact absurd h (render_ne_root p x)
      | append_singleton q y =>
          have hparent := congrArg parentOf h
          have hname := congrArg basename h
          rw [parentOf_render, parentOf_render] at hparent
          rw [basename_render, basename_render] at hname
          rw [ih hparent, Subtype.ext hname]

theorem head?_render (p : List Name) : (render p).head? = some '/' := by
  cases p <;> rfl

theorem getLast?_render (p : List Name) (h : (render p).getLast? = some '/') : render p = root := by
  cases p using List.reverseRecOn with
  | nil => rfl
  | append_singleton p x =>
      rw [render_concat] at h
      exact absurd h (getLast?_name x.2.2 x.2.1 _)

theorem clean_spell (p : List Name) (slash : Bool) : clean (spell p slash) = .ok (render p) := by
  rw [clean_eq_ok, spell]
  cases slash with
  | false => exact ⟨head?_render p, .inl ⟨rfl, getLast?_render p⟩⟩
  | true =>
      have hne : render p ≠ [] := fun hnil => by
        have hhead := head?_render p
        rw [hnil] at hhead
        cases hhead
      refine ⟨?_, .inr ⟨rfl, hne⟩⟩
      rw [if_pos rfl, List.head?_append_of_ne_nil _ hne]
      exact head?_render p

end Paths

/-! ## Requests -/

/-- A call of the trait `Filesystem`, on a path made of names. -/
inductive Request where
  | create (p : List Name) (slash : Bool) (kind : NodeKind)
  | write (p : List Name) (slash : Bool) (data : List UInt8)
  | read (p : List Name) (slash : Bool) (out : List UInt8)
  | list (p : List Name) (slash : Bool)
  | exists (p : List Name) (slash : Bool)
  | stat (p : List Name) (slash : Bool)

/-- What the caller gets. -/
inductive Reply where
  | created (result : Except VfsError Unit)
  | wrote (result : Except VfsError Nat)
  | got (result : Except VfsError Nat) (out : List UInt8)
  | listed (result : Except VfsError (List Path))
  | found (result : Bool)
  | status (result : Except VfsError Metadata)

/-- The call. -/
def TmpFs.serve (fs : TmpFs) : Request → Reply × TmpFs
  | .create p slash kind =>
      let (result, fs) := fs.create (spell p slash) kind
      (.created result, fs)
  | .write p slash data =>
      let (result, fs) := fs.write (spell p slash) data
      (.wrote result, fs)
  | .read p slash out =>
      let (result, out) := fs.read (spell p slash) out
      (.got result out, fs)
  | .list p slash => (.listed (fs.list (spell p slash)), fs)
  | .exists p slash => (.found (fs.exists (spell p slash)), fs)
  | .stat p slash => (.status (fs.stat (spell p slash)), fs)

/-- A file system as its callers should see it. -/
abbrev FileTree := DirTree Name (List UInt8)

/-- A new entry. -/
def freshEntry : NodeKind → Entry (List UInt8)
  | .file => .file []
  | .dir => .dir

/-- The names in a directory, each of them once, in their order. -/
structure Children (t : FileTree) (p : List Name) (names : List Path) : Prop where
  sorted : names.Pairwise fun x y => compare x y = .lt
  mem_iff : ∀ x, x ∈ names ↔ ∃ y : Name, y.1 = x ∧ t.get (p ++ [y]) ≠ none

/-- What each call should do. -/
inductive Serves (t : FileTree) : Request → Reply → FileTree → Prop
  | createAgain {q slash kind} (h : t.get q ≠ none) :
      Serves t (.create q slash kind) (.created (.error .alreadyExists)) t
  | createNowhere {q p x slash kind} (hq : q = p ++ [x]) (h : t.get p = none) :
      Serves t (.create q slash kind) (.created (.error .notFound)) t
  | createInFile {q p x slash kind b} (hq : q = p ++ [x]) (h : t.get p = some (.file b)) :
      Serves t (.create q slash kind) (.created (.error .notADirectory)) t
  | create {q p x slash kind} (hq : q = p ++ [x]) (hdir : t.get p = some .dir)
      (hnone : t.get (p ++ [x]) = none) :
      Serves t (.create q slash kind) (.created (.ok ())) (t.add p x (freshEntry kind) hdir hnone)
  | write {p slash data} (h : ∃ old, t.get p = some (.file old)) :
      Serves t (.write p slash data) (.wrote (.ok data.length)) (t.overwrite p data h)
  | writeDir {p slash data} (h : t.get p = some .dir) :
      Serves t (.write p slash data) (.wrote (.error .isADirectory)) t
  | writeNothing {p slash data} (h : t.get p = none) :
      Serves t (.write p slash data) (.wrote (.error .notFound)) t
  | read {p slash out b} (h : t.get p = some (.file b)) :
      Serves t (.read p slash out) (.got (.ok (min b.length out.length))
        (b.take out.length ++ out.drop b.length)) t
  | readDir {p slash out} (h : t.get p = some .dir) :
      Serves t (.read p slash out) (.got (.error .isADirectory) out) t
  | readNothing {p slash out} (h : t.get p = none) :
      Serves t (.read p slash out) (.got (.error .notFound) out) t
  | list {p slash names} (h : t.get p = some .dir) (hnames : Children t p names) :
      Serves t (.list p slash) (.listed (.ok names)) t
  | listFile {p slash b} (h : t.get p = some (.file b)) :
      Serves t (.list p slash) (.listed (.error .notADirectory)) t
  | listNothing {p slash} (h : t.get p = none) :
      Serves t (.list p slash) (.listed (.error .notFound)) t
  | exists {p slash} : Serves t (.exists p slash) (.found (t.get p).isSome) t
  | statFile {p slash b} (h : t.get p = some (.file b)) :
      Serves t (.stat p slash) (.status (.ok ⟨.file, b.length⟩)) t
  | statDir {p slash} (h : t.get p = some .dir) :
      Serves t (.stat p slash) (.status (.ok ⟨.dir, 0⟩)) t
  | statNothing {p slash} (h : t.get p = none) :
      Serves t (.stat p slash) (.status (.error .notFound)) t

/-- An entry in the map. -/
def toNode : Entry (List UInt8) → Node
  | .file b => .file b
  | .dir => .dir

/-- The map holds the tree: its keys are the paths, as strings. -/
structure Holds (fs : TmpFs) (t : FileTree) : Prop where
  nodes : ∀ p, fs.nodes[render p]? = (t.get p).map toNode
  keys : ∀ path : Path, fs.nodes[path]? ≠ none → ∃ p, path = render p

section Step

variable {fs : TmpFs} {t : FileTree} {p q : List Name} {x : Name} {path : Path}

theorem holds_new : Holds TmpFs.new DirTree.empty where
  nodes p := by
    rw [TmpFs.new, nodes_insert, DirTree.get_empty]
    by_cases hp : p = []
    · subst hp
      rfl
    · have hne : root ≠ render p := fun h => hp (render_injective h.symm)
      rw [if_neg hne, if_neg hp]
      rfl
  keys path h := by
    rw [TmpFs.new, nodes_insert] at h
    split_ifs at h with hroot
    · exact ⟨[], hroot.symm⟩
    · exact absurd rfl h

/-- A change at one path. -/
theorem Holds.insert {t' : FileTree} {e : Entry (List UInt8)} (h : Holds fs t)
    (hget : ∀ q, t'.get q = if q = p then some e else t.get q) :
    Holds ⟨fs.nodes.insert (render p) (toNode e)⟩ t' where
  nodes q := by
    rw [nodes_insert, hget]
    by_cases hq : q = p
    · rw [hq, if_pos rfl, if_pos rfl]
      rfl
    · have hne : render p ≠ render q := fun heq => hq (render_injective heq.symm)
      rw [if_neg hne, if_neg hq, h.nodes]
  keys path hpath := by
    rw [nodes_insert] at hpath
    split_ifs at hpath with heq
    · exact ⟨p, heq.symm⟩
    · exact h.keys path hpath

theorem Holds.contains (h : Holds fs t) (p : List Name) :
    fs.nodes.contains (render p) = (t.get p).isSome := by
  rw [Std.ExtTreeMap.contains_eq_isSome_getElem?, h.nodes, Option.isSome_map]

/-- Two names behind the same directory compare as the paths do. -/
theorem compare_append (l x y : Path) : compare (l ++ x) (l ++ y) = compare x y := by
  induction l with
  | nil => rfl
  | cons c l ih =>
      have hcons : compare (c :: (l ++ x)) (c :: (l ++ y)) =
          (compare c c).then (compare (l ++ x) (l ++ y)) := List.compareLex_cons_cons ..
      rw [List.cons_append, List.cons_append, hcons, ih, Std.ReflOrd.compare_self]
      rfl

/-- A child of a directory is at the directory and a name. -/
theorem Holds.child (h : Holds fs t) (hkey : fs.nodes[path]? ≠ none) (hne : path ≠ render p)
    (hparent : parentOf path = render p) :
    ∃ x : Name, path = render (p ++ [x]) ∧ t.get (p ++ [x]) ≠ none := by
  obtain ⟨q, rfl⟩ := h.keys path hkey
  cases q using List.reverseRecOn with
  | nil => exact absurd hparent hne
  | append_singleton q x =>
      rw [parentOf_render] at hparent
      obtain rfl := render_injective hparent
      refine ⟨x, rfl, fun hnone => hkey ?_⟩
      rw [h.nodes, hnone]
      rfl

/-- **Listings.** -/
theorem Holds.children (h : Holds fs t) (p : List Name) :
    Children t p (childNames fs (render p)) where
  sorted := by
    rw [childNames, List.pairwise_map]
    refine (Std.ExtTreeMap.ordered_keys.sublist List.filter_sublist).imp_of_mem ?_
    intro k l hk hl hlt
    rw [List.mem_filter, mem_keys, decide_eq_true_eq] at hk hl
    obtain ⟨x, rfl, -⟩ := h.child hk.1 hk.2.1 hk.2.2
    obtain ⟨y, rfl, -⟩ := h.child hl.1 hl.2.1 hl.2.2
    rw [basename_render, basename_render]
    rwa [render_concat, render_concat, compare_append] at hlt
  mem_iff x := by
    rw [mem_childNames]
    constructor
    · rintro ⟨key, hkey, hne, hparent, rfl⟩
      obtain ⟨y, rfl, hy⟩ := h.child hkey hne hparent
      exact ⟨y, (basename_render p y).symm, hy⟩
    · rintro ⟨y, rfl, hy⟩
      refine ⟨render (p ++ [y]), ?_, ?_, parentOf_render p y, basename_render p y⟩
      · rw [h.nodes]
        exact fun hnone => hy (Option.map_eq_none_iff.1 hnone)
      · exact fun heq => absurd (render_injective heq) (by simp)

/-- **`create`.** What is at the path already comes first, then what is at its parent. -/
theorem Holds.create (h : Holds fs t) (p : List Name) (slash : Bool) (kind : NodeKind) :
    ∃ t', Serves t (.create p slash kind) (fs.serve (.create p slash kind)).1 t' ∧
      Holds (fs.serve (.create p slash kind)).2 t' := by
  simp only [TmpFs.serve, TmpFs.create, clean_spell, h.contains]
  cases hp : t.get p with
  | some e => exact ⟨t, .createAgain (by rw [hp]; exact Option.some_ne_none _), h⟩
  | none =>
      cases p using List.reverseRecOn with
      | nil => rw [t.root] at hp; cases hp
      | append_singleton p x =>
          simp only [parentOf_render, h.nodes, Option.isSome_none, Bool.false_eq_true, if_false]
          cases hparent : t.get p with
          | none => exact ⟨t, .createNowhere rfl hparent, h⟩
          | some e =>
              cases e with
              | file b => exact ⟨t, .createInFile rfl hparent, h⟩
              | dir =>
                  refine ⟨_, .create rfl hparent hp, ?_⟩
                  cases kind with
                  | file => exact h.insert (DirTree.get_add (freshEntry .file) hparent hp)
                  | dir => exact h.insert (DirTree.get_add (freshEntry .dir) hparent hp)

/-- **One call.** -/
theorem Holds.serve (h : Holds fs t) (r : Request) :
    ∃ t', Serves t r (fs.serve r).1 t' ∧ Holds (fs.serve r).2 t' := by
  cases r with
  | create p slash kind => exact h.create p slash kind
  | write p slash data =>
      simp only [TmpFs.serve, TmpFs.write, clean_spell, h.nodes]
      cases hp : t.get p with
      | none => exact ⟨t, .writeNothing hp, h⟩
      | some e =>
          cases e with
          | file b => exact ⟨_, .write ⟨b, hp⟩, h.insert (DirTree.get_overwrite data ⟨b, hp⟩)⟩
          | dir => exact ⟨t, .writeDir hp, h⟩
  | read p slash out =>
      simp only [TmpFs.serve, TmpFs.read, clean_spell, h.nodes]
      cases hp : t.get p with
      | none => exact ⟨t, .readNothing hp, h⟩
      | some e =>
          cases e with
          | file b =>
              have htake : b.take (min b.length out.length) = b.take out.length := by
                rw [Nat.min_comm, ← List.take_take, List.take_length]
              have hdrop : out.drop (min b.length out.length) = out.drop b.length := by
                obtain hle | hle := le_total b.length out.length
                · rw [min_eq_left hle]
                · rw [min_eq_right hle, List.drop_length, List.drop_eq_nil_of_le hle]
              refine ⟨t, ?_, h⟩
              simp only [Option.map_some, toNode, htake, hdrop]
              exact .read hp
          | dir => exact ⟨t, .readDir hp, h⟩
  | list p slash =>
      simp only [TmpFs.serve, TmpFs.list, clean_spell, h.nodes]
      cases hp : t.get p with
      | none => exact ⟨t, .listNothing hp, h⟩
      | some e =>
          cases e with
          | file b => exact ⟨t, .listFile hp, h⟩
          | dir => exact ⟨t, .list hp (h.children p), h⟩
  | «exists» p slash =>
      refine ⟨t, ?_, h⟩
      simp only [TmpFs.serve, TmpFs.exists, clean_spell, h.contains]
      exact .exists
  | stat p slash =>
      simp only [TmpFs.serve, TmpFs.stat, clean_spell, h.nodes]
      cases hp : t.get p with
      | none => exact ⟨t, .statNothing hp, h⟩
      | some e =>
          cases e with
          | file b => exact ⟨t, .statFile hp, h⟩
          | dir => exact ⟨t, .statDir hp, h⟩

theorem Children.unique {names names' : List Path} (h : Children t p names)
    (h' : Children t p names') : names = names' := by
  have hnodup : ∀ {l : List Path}, (l.Pairwise fun x y => compare x y = .lt) → l.Nodup :=
    fun hl => hl.imp fun hlt heq => by
      rw [heq, Std.ReflOrd.compare_self] at hlt
      cases hlt
  have hperm : names.Perm names' :=
    (List.perm_ext_iff_of_nodup (hnodup h.sorted) (hnodup h'.sorted)).2 fun x =>
      (h.mem_iff x).trans (h'.mem_iff x).symm
  refine hperm.eq_of_pairwise (fun x y _ _ hxy hyx => ?_) h.sorted h'.sorted
  rw [Std.OrientedOrd.eq_swap, hyx] at hxy
  cases hxy

/-- What a call should do is one thing. -/
theorem Serves.unique {r : Request} {a b : Reply} {u v : FileTree} (h : Serves t r a u)
    (h' : Serves t r b v) : a = b ∧ u = v := by
  cases r with
  | create q slash kind =>
      have hup := t.parent
      have hsplit : ∀ {p p' : List Name} {x x' : Name}, p ++ [x] = p' ++ [x'] → p = p' ∧ x = x' := by
        simp
      cases h <;> cases h' <;> grind
  | list p slash =>
      cases h <;> cases h'
      case list.list hnames _ _ hnames' => exact ⟨by rw [hnames.unique hnames'], rfl⟩
      all_goals simp_all
  | write p slash data => cases h <;> cases h' <;> grind
  | read p slash out => cases h <;> cases h' <;> simp_all
  | «exists» p slash =>
      cases h
      cases h'
      exact ⟨rfl, rfl⟩
  | stat p slash => cases h <;> cases h' <;> simp_all

end Step

/-! ## Runs -/

/-- Calls one after another, with their replies. -/
def TmpFs.serveAll (fs : TmpFs) : List Request → List Reply × TmpFs
  | [] => ([], fs)
  | r :: rs =>
      let (a, fs) := fs.serve r
      let (as, fs) := fs.serveAll rs
      (a :: as, fs)

/-- What a sequence of calls should do. -/
inductive ServesAll : FileTree → List Request → List Reply → FileTree → Prop
  | nil {t} : ServesAll t [] [] t
  | cons {t u v r rs a as} : Serves t r a u → ServesAll u rs as v →
      ServesAll t (r :: rs) (a :: as) v

section Runs

variable {fs : TmpFs} {t u v : FileTree} {rs : List Request} {as bs : List Reply}

theorem Holds.serveAll (h : Holds fs t) (rs : List Request) :
    ∃ t', ServesAll t rs (fs.serveAll rs).1 t' ∧ Holds (fs.serveAll rs).2 t' := by
  induction rs generalizing fs t with
  | nil => exact ⟨t, .nil, h⟩
  | cons r rs ih =>
      obtain ⟨u, hu, hheld⟩ := h.serve r
      obtain ⟨v, hv, hheld'⟩ := ih hheld
      exact ⟨v, .cons hu hv, hheld'⟩

theorem ServesAll.unique (h : ServesAll t rs as u) (h' : ServesAll t rs bs v) : as = bs ∧ u = v := by
  induction h generalizing bs with
  | nil =>
      cases h'
      exact ⟨rfl, rfl⟩
  | cons hone _ ih =>
      cases h' with
      | cons hone' hrest =>
          obtain ⟨rfl, rfl⟩ := hone.unique hone'
          obtain ⟨rfl, rfl⟩ := ih hrest
          exact ⟨rfl, rfl⟩

/-- **The file system is a tree.** Whatever is asked of a new file system, in whatever order, each
reply is what the tree of directories gives, and nothing else. -/
theorem tmpfs_serves (rs : List Request) :
    ∃ t, ServesAll DirTree.empty rs (TmpFs.new.serveAll rs).1 t ∧
      Holds (TmpFs.new.serveAll rs).2 t ∧
      ∀ as t', ServesAll DirTree.empty rs as t' → as = (TmpFs.new.serveAll rs).1 ∧ t' = t := by
  obtain ⟨t, hserves, hholds⟩ := holds_new.serveAll rs
  exact ⟨t, hserves, hholds, fun as t' h => h.unique hserves⟩

end Runs

end Munux.Fs
