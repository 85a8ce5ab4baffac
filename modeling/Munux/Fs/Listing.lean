import Mathlib.Data.List.Chain
import Munux.Fs.TmpFs
import Munux.Lib.Runs

/-!
# Directory listings

`TmpFs::list` finds the children of a directory by their parents, and names them by what follows
their last slash. `clean` takes off one final slash and leaves the others, so `//a` and `/a` are two
paths with the same parent and the same name, and `/a//` is cleaned to a path with the empty name.

- *Tidiness*: no path of the file system has an empty component (`Tidy`). Then a path is its parent,
  a slash and its name, and listings are faithful (`faithful_iff_tidy`).
- *Runs*: a file system stays tidy as long as no path with two slashes in a row is added, and is
  never tidy again after that (`list_faithful_iff`).
-/

namespace Munux.Fs

/-- `basename` -/
def basename (path : Path) : Path :=
  match rfind path with
  | some i => path.drop (i + 1)
  | none => path

namespace TmpFs

/-- `list` -/
def list (fs : TmpFs) (path : Path) : Except VfsError (List Path) :=
  match clean path with
  | .error e => .error e
  | .ok path =>
      match fs.nodes[path]? with
      | some .dir =>
          .ok ((fs.nodes.keys.filter fun key => key ≠ path ∧ parentOf key = path).map basename)
      | some (.file _) => .error .notADirectory
      | none => .error .notFound

end TmpFs

/-- `exists` -/
def TmpFs.exists (fs : TmpFs) (path : Path) : Bool :=
  match clean path with
  | .ok p => fs.nodes.contains p
  | .error _ => false

/-- A directory and a name, with a single slash between them. -/
def join (dir name : Path) : Path :=
  if dir.getLast? = some '/' then dir ++ name else dir ++ '/' :: name

/-- These are the names of the children of `dir`. -/
structure Listed (fs : TmpFs) (dir : Path) (names : List Path) : Prop where
  nodup : names.Nodup
  name : ∀ x ∈ names, x ≠ [] ∧ '/' ∉ x
  mem_iff : ∀ x, x ≠ [] → '/' ∉ x → (x ∈ names ↔ fs.exists (join dir x) = true)

/-- Every directory is listed faithfully. -/
def Faithful (fs : TmpFs) : Prop :=
  ∀ dir : Path, fs.nodes[dir]? = some .dir → ∃ names, fs.list dir = .ok names ∧ Listed fs dir names

/-- No two slashes in a row. -/
def SingleSlashes (path : Path) : Prop := path.IsChain fun a b => ¬(a = '/' ∧ b = '/')

/-- No component of the path is empty. -/
def Proper (path : Path) : Prop :=
  SingleSlashes path ∧ (path.getLast? = some '/' → path = root)

/-- No path of the file system has an empty component. -/
def Tidy (fs : TmpFs) : Prop := ∀ path : Path, fs.nodes[path]? ≠ none → Proper path

variable {fs : TmpFs} {path p q x dir : Path}

/-! ## Last slashes -/

theorem rfind_append (hx : '/' ∉ x) (q : Path) : rfind (q ++ '/' :: x) = some q.length := by
  have hnone : x.reverse.findIdx? (· = '/') = none := by
    rw [List.findIdx?_eq_none_iff]
    intro c hc
    rw [List.mem_reverse] at hc
    exact decide_eq_false fun h => hx (h ▸ hc)
  have hfind : (q ++ '/' :: x).reverse.findIdx? (· = '/') = some x.length := by
    rw [List.reverse_append, List.reverse_cons, List.append_assoc, List.findIdx?_append, hnone]
    simp [List.findIdx?_cons]
  rw [rfind, hfind, Option.map_some, List.length_append, List.length_cons]
  congr 1
  omega

/-- An absolute path is what is before its last slash, the slash, and a name. -/
theorem exists_lastSlash (habs : path.head? = some '/') :
    ∃ q x, path = q ++ '/' :: x ∧ '/' ∉ x := by
  have hmem : '/' ∈ path.reverse := List.mem_reverse.2 (List.mem_of_head? habs)
  obtain ⟨x, q, hsplit, hx⟩ := List.eq_append_cons_of_mem hmem
  refine ⟨q.reverse, x.reverse, ?_, ?_⟩
  · rw [← List.reverse_reverse path, hsplit]
    simp
  · rwa [List.mem_reverse]

theorem parentOf_append (hx : '/' ∉ x) (q : Path) :
    parentOf (q ++ '/' :: x) = if q = [] then root else q := by
  rw [parentOf, rfind_append hx]
  cases q with
  | nil => rfl
  | cons c q =>
      rw [if_neg (List.cons_ne_nil c q)]
      exact List.take_left

theorem basename_append (hx : '/' ∉ x) (q : Path) : basename (q ++ '/' :: x) = x := by
  rw [basename, rfind_append hx]
  simp

/-! ## Empty components -/

theorem singleSlashes_cons (hx : '/' ∉ x) : SingleSlashes ('/' :: x) := by
  have hchain : ∀ l : Path, '/' ∉ l → SingleSlashes l := by
    intro l hl
    induction l with
    | nil => exact .nil
    | cons c l ih =>
        rw [List.mem_cons, not_or] at hl
        exact List.isChain_cons.2 ⟨fun d _ h => hl.1 h.1.symm, ih hl.2⟩
  refine List.isChain_cons.2 ⟨fun d hd h => hx ?_, hchain x hx⟩
  rw [← h.2]
  exact List.mem_of_head? hd

theorem singleSlashes_append (hx : '/' ∉ x) :
    SingleSlashes (q ++ '/' :: x) ↔ SingleSlashes q ∧ q.getLast? ≠ some '/' := by
  unfold SingleSlashes
  rw [List.isChain_append]
  constructor
  · rintro ⟨hq, -, hlast⟩
    exact ⟨hq, fun h => hlast '/' h '/' rfl ⟨rfl, rfl⟩⟩
  · rintro ⟨hq, hlast⟩
    refine ⟨hq, singleSlashes_cons hx, fun c hc d _ h => hlast ?_⟩
    rw [← h.1]
    exact hc

theorem getLast?_name (hx : '/' ∉ x) (hne : x ≠ []) (q : Path) :
    (q ++ '/' :: x).getLast? ≠ some '/' := by
  intro h
  rw [List.getLast?_append_cons, List.getLast?_cons_of_ne_nil hne] at h
  exact hx (List.mem_of_getLast? h)

/-- A path below the root is proper. -/
theorem proper_top (hx : '/' ∉ x) : Proper ('/' :: x) := by
  refine ⟨singleSlashes_cons hx, fun hlast => ?_⟩
  by_cases hne : x = []
  · rw [hne]
    rfl
  · exact absurd hlast (getLast?_name hx hne [])

/-- A path below another directory is proper if the directory is, and is not empty, and the name is
not empty. -/
theorem proper_append (hx : '/' ∉ x) (hq : q ≠ []) :
    Proper (q ++ '/' :: x) ↔ SingleSlashes q ∧ q.getLast? ≠ some '/' ∧ x ≠ [] := by
  rw [Proper, singleSlashes_append hx, and_assoc]
  refine and_congr_right fun _ => and_congr_right fun _ => ⟨fun hlast hnil => ?_, fun hne h => ?_⟩
  · subst hnil
    have hroot : (q ++ ['/']).length = 1 := congrArg List.length (hlast (by simp))
    rw [List.length_append, List.length_singleton] at hroot
    exact hq (List.length_eq_zero_iff.1 (by omega))
  · exact absurd h (getLast?_name hx hne q)

/-! ## Cleaning -/

/-- `clean` keeps a path or takes off its final slash. -/
theorem clean_eq_ok : clean path = .ok p ↔ path.head? = some '/' ∧
    (path = p ∧ (p.getLast? = some '/' → p = root) ∨ path = p ++ ['/'] ∧ p ≠ []) := by
  unfold clean
  by_cases habs : path.head? = some '/'
  · rw [if_neg (not_not.2 habs)]
    by_cases hslash : 1 < path.length ∧ path.getLast? = some '/'
    · rw [if_pos hslash, Except.ok.injEq]
      have hconcat : path.dropLast ++ ['/'] = path := List.dropLast_append_getLast? '/' hslash.2
      constructor
      · rintro rfl
        refine ⟨habs, .inr ⟨hconcat.symm, fun hnil => ?_⟩⟩
        have hlen := congrArg List.length hnil
        rw [List.length_dropLast, List.length_nil] at hlen
        omega
      · rintro ⟨-, ⟨rfl, hroot⟩ | ⟨rfl, -⟩⟩
        · have hlong := hslash.1
          rw [hroot hslash.2] at hlong
          exact absurd hlong (by decide)
        · exact List.dropLast_concat
    · rw [if_neg hslash, Except.ok.injEq]
      constructor
      · rintro rfl
        refine ⟨habs, .inl ⟨rfl, fun hlast => ?_⟩⟩
        obtain ⟨c, rest, rfl⟩ : ∃ c rest, path = c :: rest := by
          cases path with
          | nil => cases habs
          | cons c rest => exact ⟨c, rest, rfl⟩
        cases rest with
        | nil =>
            obtain rfl := Option.some.inj habs
            rfl
        | cons d rest => exact absurd ⟨by simp, hlast⟩ hslash
      · rintro ⟨-, ⟨rfl, -⟩ | ⟨rfl, hne⟩⟩
        · rfl
        · have hpos := List.length_pos_iff.2 hne
          exact absurd ⟨by simpa using hpos, by simp⟩ hslash
  · rw [if_pos habs]
    constructor
    · intro h
      cases h
    · intro h
      exact absurd h.1 habs

/-- A proper path is clean. -/
theorem clean_of_proper (habs : p.head? = some '/') (hp : Proper p) : clean p = .ok p :=
  clean_eq_ok.2 ⟨habs, .inl ⟨rfl, hp.2⟩⟩

/-- Except for the root, `clean` gives a proper path when the slashes are single. -/
theorem proper_iff_of_clean (hclean : clean path = .ok p) (hp : p ≠ root) :
    Proper p ↔ SingleSlashes path := by
  obtain ⟨-, ⟨rfl, hlast⟩ | ⟨rfl, -⟩⟩ := clean_eq_ok.1 hclean
  · exact and_iff_left hlast
  · rw [singleSlashes_append List.not_mem_nil]
    exact and_congr_right fun _ => imp_iff_not hp

/-! ## Tidy file systems -/

theorem mem_keys : path ∈ fs.nodes.keys ↔ fs.nodes[path]? ≠ none := by
  rw [Std.ExtTreeMap.mem_keys, Std.ExtTreeMap.mem_iff_isSome_getElem?, Option.isSome_iff_ne_none]

/-- The names that `list` gives for a clean path. -/
def childNames (fs : TmpFs) (dir : Path) : List Path :=
  (fs.nodes.keys.filter fun key => key ≠ dir ∧ parentOf key = dir).map basename

theorem list_dir (hclean : clean dir = .ok dir) (hdir : fs.nodes[dir]? = some .dir) :
    fs.list dir = .ok (childNames fs dir) := by
  simp only [TmpFs.list, hclean, hdir, childNames]

theorem mem_childNames : x ∈ childNames fs dir ↔
    ∃ key : Path, fs.nodes[key]? ≠ none ∧ key ≠ dir ∧ parentOf key = dir ∧ basename key = x := by
  simp only [childNames, List.mem_map, List.mem_filter, mem_keys, decide_eq_true_eq, and_assoc]

/-- A proper path is its parent and its name. -/
theorem join_parentOf (habs : p.head? = some '/') (hp : Proper p) (hroot : p ≠ root) :
    join (parentOf p) (basename p) = p ∧ basename p ≠ [] ∧ '/' ∉ basename p := by
  obtain ⟨q, x, rfl, hx⟩ := exists_lastSlash habs
  rw [parentOf_append hx, basename_append hx]
  by_cases hq : q = []
  · subst hq
    rw [if_pos rfl]
    refine ⟨rfl, fun hnil => hroot ?_, hx⟩
    rw [hnil]
    rfl
  · obtain ⟨-, hlast, hne⟩ := (proper_append hx hq).1 hp
    rw [if_neg hq, join, if_neg hlast]
    exact ⟨rfl, hne, hx⟩

/-- A proper directory and a name make a proper path, with that parent and that name. -/
theorem proper_join (habs : dir.head? = some '/') (hp : Proper dir) (hne : x ≠ []) (hx : '/' ∉ x) :
    (join dir x).head? = some '/' ∧ Proper (join dir x) ∧ join dir x ≠ dir ∧
      parentOf (join dir x) = dir ∧ basename (join dir x) = x := by
  have hdir : dir ≠ [] := by
    rintro rfl
    cases habs
  unfold join
  by_cases hlast : dir.getLast? = some '/'
  · obtain rfl := hp.2 hlast
    rw [if_pos hlast]
    exact ⟨rfl, proper_top hx, by simp [root, hne], parentOf_append hx [], basename_append hx []⟩
  · rw [if_neg hlast, parentOf_append hx, basename_append hx, if_neg hdir]
    refine ⟨?_, (proper_append hx hdir).2 ⟨hp.1, hlast, hne⟩, by simp, rfl, rfl⟩
    rw [List.head?_append_of_ne_nil _ hdir, habs]

theorem exists_join (habs : dir.head? = some '/') (hp : Proper dir) (hne : x ≠ []) (hx : '/' ∉ x) :
    fs.exists (join dir x) = true ↔ fs.nodes[join dir x]? ≠ none := by
  obtain ⟨habs', hproper', -⟩ := proper_join habs hp hne hx
  simp only [TmpFs.exists, clean_of_proper habs' hproper']
  rw [Std.ExtTreeMap.contains_iff_mem, ← mem_keys, Std.ExtTreeMap.mem_keys]

/-- **A tidy tree is listed faithfully.** -/
theorem faithful_of_tidy (htree : Tree fs) (htidy : Tidy fs) : Faithful fs := by
  intro dir hdir
  have hkey : fs.nodes[dir]? ≠ none := by simp [hdir]
  have habs := htree.absolute dir hkey
  have hclean := clean_of_proper habs (htidy dir hkey)
  have hchild : ∀ key : Path, fs.nodes[key]? ≠ none → key ≠ dir → parentOf key = dir →
      join dir (basename key) = key ∧ basename key ≠ [] ∧ '/' ∉ basename key := by
    intro key hin hne hparent
    have hroot : key ≠ root := by
      rintro rfl
      exact hne hparent
    rw [← hparent]
    exact join_parentOf (htree.absolute key hin) (htidy key hin) hroot
  refine ⟨_, list_dir hclean hdir, ?_, ?_, ?_⟩
  · -- A child is found by its name.
    refine (List.Nodup.filter _ Std.ExtTreeMap.nodup_keys).map_on fun key hk key' hk' hname => ?_
    simp only [List.mem_filter, mem_keys, decide_eq_true_eq] at hk hk'
    rw [← (hchild key hk.1 hk.2.1 hk.2.2).1, hname, (hchild key' hk'.1 hk'.2.1 hk'.2.2).1]
  · intro x hx
    obtain ⟨key, hin, hne, hparent, rfl⟩ := mem_childNames.1 hx
    exact (hchild key hin hne hparent).2
  · intro x hne hslash
    obtain ⟨-, -, hne', hparent, hname⟩ := proper_join habs (htidy dir hkey) hne hslash
    rw [exists_join habs (htidy dir hkey) hne hslash, mem_childNames]
    constructor
    · rintro ⟨key, hin, hne'', hparent', rfl⟩
      rwa [(hchild key hin hne'' hparent').1]
    · intro hin
      exact ⟨join dir x, hin, hne', hparent, hname⟩

/-- Below some proper directory an untidy tree has a path that is not proper. -/
theorem exists_improper_child (htree : Tree fs) (huntidy : ¬Tidy fs) :
    ∃ key : Path, fs.nodes[key]? ≠ none ∧ ¬Proper key ∧ Proper (parentOf key) ∧
      fs.nodes[parentOf key]? = some .dir := by
  simp only [Tidy, not_forall] at huntidy
  obtain ⟨key, hin, himproper⟩ := huntidy
  obtain ⟨n, hroot, hdirs⟩ := htree.rooted key hin
  induction n generalizing key with
  | zero =>
      obtain rfl : key = root := hroot
      exact absurd (proper_top List.not_mem_nil) himproper
  | succ n ih =>
      have hparent : fs.nodes[parentOf key]? = some .dir := hdirs 1 Nat.one_pos (by omega)
      by_cases hproper : Proper (parentOf key)
      · exact ⟨key, hin, himproper, hproper, hparent⟩
      · refine ih (parentOf key) (by simp [hparent]) hproper hroot fun k hpos hle => ?_
        rw [← Function.iterate_succ_apply]
        exact hdirs (k + 1) k.succ_pos (by omega)

/-- **An untidy tree is not:** a directory lists an empty name, or a name twice. -/
theorem tidy_of_faithful (htree : Tree fs) (hfaithful : Faithful fs) : Tidy fs := by
  by_contra huntidy
  obtain ⟨key, hin, himproper, hproper, hdir⟩ := exists_improper_child htree huntidy
  obtain ⟨q, x, rfl, hx⟩ := exists_lastSlash (htree.absolute key hin)
  have hq : q ≠ [] := by
    rintro rfl
    exact himproper (proper_top hx)
  rw [parentOf_append hx, if_neg hq] at hproper hdir
  have habs := htree.absolute q (by simp [hdir])
  obtain ⟨names, hlist, hnames⟩ := hfaithful q hdir
  obtain rfl := Except.ok.inj ((list_dir (clean_of_proper habs hproper) hdir).symm.trans hlist)
  have hparent : parentOf (q ++ '/' :: x) = q := by rw [parentOf_append hx, if_neg hq]
  have hmem : x ∈ childNames fs q :=
    mem_childNames.2 ⟨_, hin, by simp, hparent, basename_append hx q⟩
  have hne := (hnames.name x hmem).1
  have hroot : q = root := by
    rw [proper_append hx hq] at himproper
    refine hproper.2 ?_
    by_contra hlast
    exact himproper ⟨hproper.1, hlast, hne⟩
  subst hroot
  -- The name is also that of the path with a single slash.
  have hin' := (exists_join habs hproper hne hx).1 ((hnames.mem_iff x hne hx).1 hmem)
  obtain ⟨-, -, hne', hparent', hname'⟩ := proper_join habs hproper hne hx
  have hinj := List.inj_on_of_nodup_map hnames.nodup
  have hsame : root ++ '/' :: x = join root x := by
    refine hinj ?_ ?_ ((basename_append hx root).trans hname'.symm)
    · simpa only [List.mem_filter, mem_keys, decide_eq_true_eq] using ⟨hin, by simp, hparent⟩
    · simpa only [List.mem_filter, mem_keys, decide_eq_true_eq] using ⟨hin', hne', hparent'⟩
  have hlen := congrArg List.length hsame
  simp [join, root] at hlen

theorem faithful_iff_tidy (htree : Tree fs) : Faithful fs ↔ Tidy fs :=
  ⟨tidy_of_faithful htree, faithful_of_tidy htree⟩

/-! ## Runs -/

/-- The call adds no path with two slashes in a row. -/
def Regular (fs : TmpFs) : FsOp → Prop
  | .create path _ => ∀ p, clean path = .ok p → fs.nodes[p]? = none →
      fs.nodes[parentOf p]? = some .dir → SingleSlashes path
  | .write _ _ => True

/-- A path that is not there, below a directory, is added. -/
theorem create_eq (hclean : clean path = .ok p) (hnone : fs.nodes[p]? = none)
    (hparent : fs.nodes[parentOf p]? = some .dir) (kind : NodeKind) :
    fs.create path kind = (.ok (), ⟨fs.nodes.insert p (emptyNode kind)⟩) := by
  have hin : fs.nodes.contains p = false := by
    rw [Std.ExtTreeMap.contains_eq_isSome_getElem?, hnone]
    rfl
  simp only [TmpFs.create, hclean, hin, Bool.false_eq_true, if_false, hparent]
  cases kind <;> rfl

theorem tidy_insert {node : Node} (htidy : Tidy fs) :
    Tidy ⟨fs.nodes.insert p node⟩ ↔ Proper p := by
  constructor
  · intro h
    exact h p (by simp)
  · intro hp path hpath
    rw [nodes_insert] at hpath
    split_ifs at hpath with heq
    · exact heq ▸ hp
    · exact htidy path hpath

/-- **One call** keeps the file system tidy exactly when it is regular. -/
theorem tidy_step (hroot : fs.nodes[root]? = some .dir) (htidy : Tidy fs) (op : FsOp) :
    Tidy (op.step fs).2 ↔ Regular fs op := by
  cases op with
  | create path kind =>
      rcases create_cases fs path kind with ⟨e, hcall⟩ | ⟨p, hclean, hnone, hparent, hcall⟩
      · refine iff_of_true (by simpa only [FsOp.step, hcall] using htidy) ?_
        intro p hclean hnone hparent
        rw [create_eq hclean hnone hparent] at hcall
        cases hcall
      · have hne : p ≠ root := by
          rintro rfl
          rw [hroot] at hnone
          cases hnone
        simp only [FsOp.step, hcall, tidy_insert htidy, proper_iff_of_clean hclean hne, Regular,
          hclean, Except.ok.injEq]
        constructor
        · rintro h p rfl _ _
          exact h
        · exact fun h => h p rfl hnone hparent
  | write path data =>
      refine iff_of_true ?_ trivial
      rcases write_cases fs path data with ⟨e, hcall⟩ | ⟨p, old, -, hold, hcall⟩
      · simpa only [FsOp.step, hcall] using htidy
      · simp only [FsOp.step, hcall]
        exact (tidy_insert htidy).2 (htidy p (by simp [hold]))

theorem tidy_new : Tidy TmpFs.new := by
  intro path hpath
  rw [TmpFs.new, nodes_insert] at hpath
  split_ifs at hpath with heq
  · rw [← heq]
    exact proper_top List.not_mem_nil
  · simp at hpath

theorem run_concat (fs : TmpFs) (ops : List FsOp) (op : FsOp) :
    FsOp.run fs (ops ++ [op]) = (op.step (FsOp.run fs ops)).2 := by
  rw [FsOp.run, FsOp.run, List.foldl_concat]

/-- **Listings are faithful throughout a run** exactly when none of its calls adds a path with two
slashes in a row: call by call, with the file system tidy so far. -/
theorem list_faithful_iff (ops : List FsOp) :
    (∀ before, before <+: ops → Faithful (FsOp.run TmpFs.new before)) ↔
      ∀ before op, before ++ [op] <+: ops → Regular (FsOp.run TmpFs.new before) op := by
  have htree : ∀ before, Tree (FsOp.run TmpFs.new before) := tree_new.run
  have hstep : ∀ before op, Tidy (FsOp.run TmpFs.new before) →
      (Tidy (FsOp.run TmpFs.new (before ++ [op])) ↔ Regular (FsOp.run TmpFs.new before) op) := by
    intro before op hbefore
    rw [run_concat]
    exact tidy_step (htree before).rootDir hbefore op
  simp only [faithful_iff_tidy (htree _)]
  exact forall_prefix_iff (P := fun before => Tidy (FsOp.run TmpFs.new before)) tidy_new hstep ops

/-- **The root lists `a` twice,** once for the path with two slashes. -/
theorem list_root_twice :
    (FsOp.run TmpFs.new [.create "/a".toList .file, .create "//a".toList .file]).list root =
        .ok ["a".toList, "a".toList] ∧
      ¬Faithful (FsOp.run TmpFs.new [.create "/a".toList .file, .create "//a".toList .file]) := by
  have hlist : (FsOp.run TmpFs.new
      [.create "/a".toList .file, .create "//a".toList .file]).list root =
      .ok ["a".toList, "a".toList] := by decide
  refine ⟨hlist, fun hfaithful => ?_⟩
  obtain ⟨names, hnames, hlisted⟩ := hfaithful root (tree_new.run _).rootDir
  obtain rfl := Except.ok.inj (hlist.symm.trans hnames)
  exact absurd hlisted.nodup (by decide)

end Munux.Fs
