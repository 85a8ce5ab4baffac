import Munux.Fs.Descriptors

/-!
# Files with offsets

What the descriptor layer is *for*: a file that one reads from front to back. The specification is
written over the history of calls, the latest first. `contentOf` is the data of the last successful
write to a file, under any of its names; `openedPath` and `offsetOf` are the path a descriptor was
opened with and the sum of the counts read from it since. `Refines` says that the two tables hold
just that, and every call keeps it.
-/

namespace Munux.Fs

/-- A call and what it returned. For `fd_read` this is the count and the bytes. -/
inductive Event where
  | create (path : Path) (kind : NodeKind) (result : Except VfsError Unit)
  | write (path : Path) (data : List UInt8) (result : Except VfsError Nat)
  | opened (path : Path) (fd : Int)
  | read (fd : Int) (count : Int) (bytes : List UInt8)
  | closed (fd : Int) (result : Int)

/-! ## The specification -/

/-- The content that a call gives to the file with the clean path `p`. -/
def Event.sets (p : Path) : Event → Option (List UInt8)
  | .create path .file (.ok _) => if clean path = .ok p then some [] else none
  | .write path data (.ok _) => if clean path = .ok p then some data else none
  | _ => none

/-- The content of the file with the clean path `p`: the data of the last successful write, or
nothing yet. -/
def contentOf (p : Path) (es : List Event) : Option (List UInt8) := es.findSome? fun e => e.sets p

/-- The content of the file that a path names. -/
def fileAt (path : Path) (es : List Event) : Option (List UInt8) :=
  match clean path with
  | .error _ => none
  | .ok p => contentOf p es

/-- The path that an open descriptor was opened with. -/
def openedPath (fd : Int) : List Event → Option Path
  | [] => none
  | .opened path fd' :: es => if fd' = fd ∧ fd' ≠ -1 then some path else openedPath fd es
  | .closed fd' _ :: es => if fd' = fd then none else openedPath fd es
  | _ :: es => openedPath fd es

/-- The sum of the counts returned on a descriptor since it was opened. -/
def offsetOf (fd : Int) : List Event → Nat
  | [] => 0
  | .opened _ fd' :: es => if fd' = fd ∧ fd' ≠ -1 then 0 else offsetOf fd es
  | .read fd' count _ :: es =>
      if fd' = fd then offsetOf fd es + count.toNat else offsetOf fd es
  | _ :: es => offsetOf fd es

/-- The bytes returned on a descriptor since it was opened. -/
def delivered (fd : Int) : List Event → List UInt8
  | [] => []
  | .opened _ fd' :: es => if fd' = fd ∧ fd' ≠ -1 then [] else delivered fd es
  | .read fd' _ bytes :: es => if fd' = fd then delivered fd es ++ bytes else delivered fd es
  | _ :: es => delivered fd es

/-- No write to the file `p` succeeded since the descriptor was opened. -/
def Undisturbed (fd : Int) (p : Path) : List Event → Prop
  | [] => True
  | .opened _ fd' :: es => (fd' = fd ∧ fd' ≠ -1) ∨ Undisturbed fd p es
  | .write path _ (.ok _) :: es => clean path ≠ .ok p ∧ Undisturbed fd p es
  | _ :: es => Undisturbed fd p es

/-! ## Runs -/

/-- The calls of `init_default`. -/
def bootEvents : List Event :=
  let fs₀ := TmpFs.new
  let fs₁ := (fs₀.create etc .dir).2
  let fs₂ := (fs₁.create etcMotd .file).2
  [.write etcMotd motd (fs₂.write etcMotd motd).1,
    .create etcMotd .file (fs₁.create etcMotd .file).1,
    .create etc .dir (fs₀.create etc .dir).1]

/-- A sequence of calls after `init_default`. -/
inductive Run : List Event → Vfs → Prop
  | boot : Run bootEvents Vfs.initDefault
  | create {es : List Event} {fs : TmpFs} {fds : Option FdTable} (hrun : Run es ⟨some fs, fds⟩)
      (path : Path) (kind : NodeKind) :
      Run (.create path kind (fs.create path kind).1 :: es) ⟨some (fs.create path kind).2, fds⟩
  | write {es : List Event} {fs : TmpFs} {fds : Option FdTable} (hrun : Run es ⟨some fs, fds⟩)
      (path : Path) (data : List UInt8) :
      Run (.write path data (fs.write path data).1 :: es) ⟨some (fs.write path data).2, fds⟩
  | fdOpen {es : List Event} {v v' : Vfs} {path : Path} {fd : Int} (hrun : Run es v)
      (hcall : v.fdOpen path = .ok (fd, v')) : Run (.opened path fd :: es) v'
  | fdRead {es : List Event} {v v' : Vfs} {fd count : Int} {out out' : List UInt8} (hrun : Run es v)
      (hcall : v.fdRead fd out = (count, out', v')) :
      Run (.read fd count (out'.take count.toNat) :: es) v'
  | fdClose {es : List Event} {v v' : Vfs} {fd result : Int} (hrun : Run es v)
      (hcall : v.fdClose fd = (result, v')) : Run (.closed fd result :: es) v'

/-! ## The refinement -/

/-- The two tables hold what the history says. -/
structure Refines (es : List Event) (fs : TmpFs) (table : FdTable) : Prop where
  files : ∀ p c, fs.nodes[p]? = some (.file c) ↔ contentOf p es = some c
  entries : ∀ fd, table[fd]? = (openedPath fd es).map fun path => (path, offsetOf fd es)
  named : ∀ fd path, openedPath fd es = some path → (fileAt path es).isSome
  low : ∀ fd path, openedPath fd es = some path → 3 ≤ fd
  received : ∀ fd path p c, openedPath fd es = some path → clean path = .ok p →
    contentOf p es = some c → Undisturbed fd p es →
    offsetOf fd es ≤ c.length ∧ delivered fd es = c.take (offsetOf fd es)

section Files

variable {es : List Event} {fs : TmpFs} {table : FdTable} {path p : Path} {kind : NodeKind}
  {data c : List UInt8}

theorem Refines.contents (h : Refines es fs table) (path : Path) :
    fs.contents path = fileAt path es := by
  unfold TmpFs.contents fileAt
  cases clean path with
  | error e => rfl
  | ok p =>
      simp only
      cases hc : contentOf p es with
      | some c => rw [(h.files p c).2 hc]
      | none =>
          cases hnode : fs.nodes[p]? with
          | none => rfl
          | some node =>
              cases node with
              | dir => rfl
              | file c =>
                  rw [(h.files p c).1 hnode] at hc
                  cases hc

theorem contentOf_cons (p : Path) (e : Event) (es : List Event) :
    contentOf p (e :: es) = (e.sets p).or (contentOf p es) := by
  unfold contentOf
  rw [List.findSome?_cons]
  cases e.sets p <;> rfl

/-- A call that sets no content. -/
theorem contentOf_cons_none (p : Path) {e : Event} (he : e.sets p = none) (es : List Event) :
    contentOf p (e :: es) = contentOf p es := by
  rw [contentOf_cons, he, Option.none_or]

/-- **`create`** adds an empty file, if it succeeds for a file; other contents stay. -/
theorem create_files (h : ∀ p c, fs.nodes[p]? = some (.file c) ↔ contentOf p es = some c)
    (path : Path) (kind : NodeKind) (p : Path) (c : List UInt8) :
    (fs.create path kind).2.nodes[p]? = some (.file c) ↔
      contentOf p (.create path kind (fs.create path kind).1 :: es) = some c := by
  rcases create_cases fs path kind with ⟨e, hcall⟩ | ⟨p', hclean, hnone, -, hcall⟩
  · rw [hcall, contentOf_cons_none p (by cases kind <;> rfl)]
    exact h p c
  have hnew : ∀ c, contentOf p' es ≠ some c := by
    intro c hc
    rw [(h p' c).2 hc] at hnone
    cases hnone
  rw [hcall, contentOf_cons]
  simp only [nodes_insert]
  by_cases hp : p' = p
  · subst hp
    rw [if_pos rfl]
    cases kind with
    | file => simp [emptyNode, Event.sets, hclean]
    | dir => simp [emptyNode, Event.sets, hnew c]
  · rw [if_neg hp, h p c]
    cases kind with
    | file => simp [Event.sets, hclean, hp]
    | dir => simp [Event.sets]

/-- **`write`** replaces the content of its file, if it succeeds; other contents stay. -/
theorem write_files (h : ∀ p c, fs.nodes[p]? = some (.file c) ↔ contentOf p es = some c)
    (path : Path) (data : List UInt8) (p : Path) (c : List UInt8) :
    (fs.write path data).2.nodes[p]? = some (.file c) ↔
      contentOf p (.write path data (fs.write path data).1 :: es) = some c := by
  rcases write_cases fs path data with ⟨e, hcall⟩ | ⟨p', old, hclean, -, hcall⟩
  · rw [hcall, contentOf_cons_none p rfl]
    exact h p c
  rw [hcall, contentOf_cons]
  simp only [nodes_insert]
  by_cases hp : p' = p
  · subst hp
    simp [Event.sets, hclean]
  · rw [if_neg hp, h p c]
    simp [Event.sets, hclean, hp]

/-- Files do not go away. -/
theorem contentOf_isSome (e : Event) (h : (contentOf p es).isSome) :
    (contentOf p (e :: es)).isSome := by
  rw [contentOf_cons]
  cases e.sets p with
  | none => exact h
  | some c => rfl

theorem fileAt_cons (e : Event) (h : (fileAt path es).isSome) : (fileAt path (e :: es)).isSome := by
  unfold fileAt at h ⊢
  cases hclean : clean path with
  | error e =>
      rw [hclean] at h
      cases h
  | ok p =>
      rw [hclean] at h
      exact contentOf_isSome e h

end Files

/-! ## Calls on the file system -/

section Calls

variable {es : List Event} {fs fs' : TmpFs} {table : FdTable} {path p : Path} {c : List UInt8}
  {fd : Int} {e : Event}

/-- A call that is not about descriptors. -/
structure OnFiles (e : Event) : Prop where
  opened : ∀ fd es, openedPath fd (e :: es) = openedPath fd es
  offset : ∀ fd es, offsetOf fd (e :: es) = offsetOf fd es
  delivered : ∀ fd es, delivered fd (e :: es) = delivered fd es

/-- A call on the file system keeps the refinement, if it sets no content that counts as
undisturbed. -/
theorem Refines.onFiles (h : Refines es fs table) (he : OnFiles e)
    (hfiles : ∀ p c, fs'.nodes[p]? = some (.file c) ↔ contentOf p (e :: es) = some c)
    (hquiet : ∀ fd p, (contentOf p es).isSome → Undisturbed fd p (e :: es) →
      Undisturbed fd p es ∧ e.sets p = none) : Refines (e :: es) fs' table := by
  refine ⟨hfiles, ?_, ?_, ?_, ?_⟩
  · intro fd
    rw [he.opened, he.offset]
    exact h.entries fd
  · intro fd path hopen
    rw [he.opened] at hopen
    exact fileAt_cons e (h.named fd path hopen)
  · intro fd path hopen
    rw [he.opened] at hopen
    exact h.low fd path hopen
  · intro fd path p c hopen hclean hcontent hund
    rw [he.opened] at hopen
    have hold := h.named fd path hopen
    simp only [fileAt, hclean] at hold
    obtain ⟨hund, hsets⟩ := hquiet fd p hold hund
    rw [contentOf_cons_none p hsets] at hcontent
    rw [he.offset, he.delivered]
    exact h.received fd path p c hopen hclean hcontent hund

theorem Refines.create (h : Refines es fs table) (path : Path) (kind : NodeKind) :
    Refines (.create path kind (fs.create path kind).1 :: es) (fs.create path kind).2 table := by
  refine h.onFiles ⟨fun _ _ => rfl, fun _ _ => rfl, fun _ _ => rfl⟩ (create_files h.files path kind)
    fun fd p hold hund => ⟨hund, ?_⟩
  rcases create_cases fs path kind with ⟨e, hcall⟩ | ⟨p', hclean, hnone, -, hcall⟩
  · rw [hcall]
    cases kind <;> rfl
  · rw [hcall]
    cases kind with
    | dir => rfl
    | file =>
        -- A file that has content is there, so it is not created.
        obtain ⟨c, hc⟩ := Option.isSome_iff_exists.1 hold
        have hne : p' ≠ p := by
          rintro rfl
          rw [(h.files p' c).2 hc] at hnone
          cases hnone
        refine if_neg fun heq => hne ?_
        exact Except.ok.inj (hclean.symm.trans heq)

theorem Refines.write (h : Refines es fs table) (path : Path) (data : List UInt8) :
    Refines (.write path data (fs.write path data).1 :: es) (fs.write path data).2 table := by
  refine h.onFiles ⟨fun _ _ => rfl, fun _ _ => rfl, fun _ _ => rfl⟩ (write_files h.files path data)
    ?_
  intro fd p _ hund
  rcases write_cases fs path data with ⟨e, hcall⟩ | ⟨p', old, -, -, hcall⟩
  · rw [hcall] at hund ⊢
    exact ⟨hund, rfl⟩
  · rw [hcall] at hund ⊢
    exact ⟨hund.2, if_neg hund.1⟩

theorem refines_new : Refines [] TmpFs.new ∅ := by
  have hclosed : ∀ {fd path}, openedPath fd [] ≠ some path := fun h => Option.some_ne_none _ h.symm
  refine ⟨?_, fun fd => rfl, fun fd path h => absurd h hclosed,
    fun fd path h => absurd h hclosed, fun fd path p c h => absurd h hclosed⟩
  intro p c
  rw [TmpFs.new, nodes_insert]
  by_cases hroot : root = p
  · simp [hroot, contentOf]
  · simp [hroot, contentOf]

/-- The tables after `init_default`. -/
theorem refines_boot : ∃ fs, Vfs.initDefault = ⟨some fs, some ∅⟩ ∧ Refines bootEvents fs ∅ :=
  ⟨_, rfl, ((refines_new.create etc .dir).create etcMotd .file).write etcMotd motd⟩

end Calls

/-! ## Calls on descriptors -/

section Fds

variable {es : List Event} {fs : TmpFs} {table : FdTable} {path : Path} {fd : Int}
  {out : List UInt8}

/-- **`fd_open`** fails if the path names no file, and gives out the lowest descriptor from 3 on
that is not open otherwise. -/
theorem Refines.fdOpen (h : Refines es fs table) (path : Path) :
    (fileAt path es = none ∧
      Vfs.fdOpen ⟨some fs, some table⟩ path = .ok (-1, ⟨some fs, some table⟩)) ∨
    ((fileAt path es).isSome ∧ ∃ fd, 3 ≤ fd ∧ openedPath fd es = none ∧
      (∀ k, 3 ≤ k → k < fd → openedPath k es ≠ none) ∧
      Vfs.fdOpen ⟨some fs, some table⟩ path =
        .ok (fd, ⟨some fs, some (table.insert fd (path, 0))⟩)) := by
  unfold Vfs.fdOpen
  simp only [Option.bind_some, h.contents]
  cases hfile : fileAt path es with
  | none => exact .inl ⟨rfl, rfl⟩
  | some c =>
      obtain ⟨fd, hscan⟩ := firstFree_returns table 3
      obtain ⟨hle, hnone, hbelow⟩ := firstFree_eq_ok hscan
      refine .inr ⟨rfl, fd, hle, ?_, ?_, ?_⟩
      · rwa [h.entries, Option.map_eq_none_iff] at hnone
      · intro k hk hlt
        have hk' := hbelow k hk hlt
        rwa [h.entries, ne_eq, Option.map_eq_none_iff] at hk'
      · simp [hscan]

theorem Refines.opened_fail (h : Refines es fs table) (path : Path) :
    Refines (.opened path (-1) :: es) fs table := by
  have hcond : ∀ fd : Int, ¬((-1 : Int) = fd ∧ (-1 : Int) ≠ -1) := fun fd hand => hand.2 rfl
  refine ⟨h.files, ?_, ?_, ?_, ?_⟩
  · intro fd
    simp only [openedPath, offsetOf, if_neg (hcond fd)]
    exact h.entries fd
  · intro fd path' hopen
    simp only [openedPath, if_neg (hcond fd)] at hopen
    exact h.named fd path' hopen
  · intro fd path' hopen
    simp only [openedPath, if_neg (hcond fd)] at hopen
    exact h.low fd path' hopen
  · intro fd path' p c hopen hclean hcontent hund
    simp only [openedPath, if_neg (hcond fd)] at hopen
    simp only [offsetOf, delivered, if_neg (hcond fd)]
    exact h.received fd path' p c hopen hclean hcontent (hund.resolve_left (hcond fd))

theorem Refines.opened (h : Refines es fs table) (hfile : (fileAt path es).isSome) (hfd : 3 ≤ fd) :
    Refines (.opened path fd :: es) fs (table.insert fd (path, 0)) := by
  have hne : fd ≠ -1 := by omega
  refine ⟨h.files, ?_, ?_, ?_, ?_⟩
  · intro fd'
    rw [fds_insert]
    by_cases hsame : fd = fd'
    · simp only [openedPath, offsetOf, hsame, hsame ▸ hne, ne_eq, not_false_eq_true, and_self,
        if_true, Option.map_some]
    · simp only [openedPath, offsetOf, if_neg hsame, if_neg fun hand : fd = fd' ∧ _ => hsame hand.1]
      exact h.entries fd'
  · intro fd' path' hopen
    by_cases hsame : fd = fd'
    · simp only [openedPath, if_pos (And.intro hsame hne), Option.some.injEq] at hopen
      rw [← hopen]
      exact fileAt_cons _ hfile
    · simp only [openedPath, if_neg fun hand : fd = fd' ∧ _ => hsame hand.1] at hopen
      exact h.named fd' path' hopen
  · intro fd' path' hopen
    by_cases hsame : fd = fd'
    · omega
    · simp only [openedPath, if_neg fun hand : fd = fd' ∧ _ => hsame hand.1] at hopen
      exact h.low fd' path' hopen
  · intro fd' path' p c hopen hclean hcontent hund
    by_cases hsame : fd = fd'
    · simp [offsetOf, delivered, if_pos (And.intro hsame hne)]
    · have hcond : ¬(fd = fd' ∧ fd ≠ -1) := fun hand => hsame hand.1
      simp only [openedPath, if_neg hcond] at hopen
      simp only [offsetOf, delivered, if_neg hcond]
      exact h.received fd' path' p c hopen hclean hcontent (hund.resolve_left hcond)

/-- A descriptor that is not open cannot be read. -/
theorem Refines.fdRead_closed (h : Refines es fs table) (hclosed : openedPath fd es = none)
    (out : List UInt8) :
    Vfs.fdRead ⟨some fs, some table⟩ fd out = (-1, out, ⟨some fs, some table⟩) := by
  simp [Vfs.fdRead, Vfs.lookupFd, h.entries fd, hclosed]

/-- **`fd_read`** copies what is left of the current content, as far as the buffer reaches, and
moves the offset on. -/
theorem Refines.fdRead_open (h : Refines es fs table) (hopen : openedPath fd es = some path)
    {c : List UInt8} (hc : fileAt path es = some c) (out : List UInt8) {n : Nat}
    (hn : n = min out.length (c.length - offsetOf fd es)) :
    ∃ table', Vfs.fdRead ⟨some fs, some table⟩ fd out =
        ((n : Int), (c.drop (offsetOf fd es)).take n ++ out.drop n, ⟨some fs, some table'⟩) ∧
      ∀ fd', table'[fd']? = if fd = fd' then some (path, offsetOf fd es + n) else table[fd']? := by
  have hentry : table[fd]? = some (path, offsetOf fd es) := by
    rw [h.entries fd, hopen, Option.map_some]
  have hlookup : Vfs.lookupFd ⟨some fs, some table⟩ fd = some (path, offsetOf fd es) := hentry
  unfold Vfs.fdRead
  simp only [hlookup, Option.bind_some, h.contents, hc]
  by_cases hend : c.length ≤ offsetOf fd es
  · have hzero : n = 0 := by omega
    refine ⟨table, ?_, ?_⟩
    · rw [if_pos hend, hzero]
      simp
    · intro fd'
      by_cases hsame : fd = fd'
      · rw [if_pos hsame, ← hsame, hentry, hzero, Nat.add_zero]
      · rw [if_neg hsame]
  · refine ⟨table.insert fd (path, offsetOf fd es + n), ?_, fun fd' => fds_insert table fd fd' _⟩
    rw [if_neg hend, ← hn, Vfs.advanceFd]
    simp only [hentry]

theorem Refines.read (h : Refines es fs table) {table' : FdTable} {count : Int} {bytes : List UInt8}
    (htable : ∀ fd', table'[fd']? =
      (openedPath fd' es).map fun path => (path, offsetOf fd' (.read fd count bytes :: es)))
    (hbytes : ∀ path c, openedPath fd es = some path → fileAt path es = some c →
      bytes = (c.drop (offsetOf fd es)).take count.toNat ∧
        count.toNat ≤ c.length - offsetOf fd es) :
    Refines (.read fd count bytes :: es) fs table' := by
  refine ⟨h.files, htable, h.named, h.low, ?_⟩
  intro fd' path p c hopen hclean hcontent hund
  obtain ⟨hle, hold⟩ := h.received fd' path p c hopen hclean hcontent hund
  by_cases hsame : fd = fd'
  · subst hsame
    have hfile : fileAt path es = some c := by
      simp only [fileAt, hclean]
      exact hcontent
    obtain ⟨rfl, hcount⟩ := hbytes path c hopen hfile
    simp only [offsetOf, delivered, if_true, hold]
    exact ⟨by omega, (List.take_add ..).symm⟩
  · simp only [offsetOf, delivered, if_neg hsame]
    exact ⟨hle, hold⟩

/-- **`fd_close`** succeeds on an open descriptor. -/
theorem Refines.fdClose (h : Refines es fs table) (fd : Int) :
    ∃ table', Vfs.fdClose ⟨some fs, some table⟩ fd =
        (if openedPath fd es = none then -1 else 0, ⟨some fs, some table'⟩) ∧
      ∀ fd', table'[fd']? = if fd = fd' then none else table[fd']? := by
  have hentry := h.entries fd
  unfold Vfs.fdClose
  simp only [Std.ExtTreeMap.contains_eq_isSome_getElem?, hentry]
  cases hopen : openedPath fd es with
  | none =>
      refine ⟨table, rfl, ?_⟩
      intro fd'
      by_cases hsame : fd = fd'
      · rw [if_pos hsame, ← hsame, hentry, hopen, Option.map_none]
      · rw [if_neg hsame]
  | some path => exact ⟨table.erase fd, rfl, fds_erase table fd⟩

theorem Refines.closed (h : Refines es fs table) {table' : FdTable} {result : Int}
    (htable : ∀ fd', table'[fd']? = if fd = fd' then none else table[fd']?) :
    Refines (.closed fd result :: es) fs table' := by
  have hopen' : ∀ {fd' path}, openedPath fd' (.closed fd result :: es) = some path →
      openedPath fd' es = some path := by
    intro fd' path hopen
    by_cases hsame : fd = fd'
    · simp only [openedPath, if_pos hsame] at hopen
      cases hopen
    · simpa only [openedPath, if_neg hsame] using hopen
  refine ⟨h.files, ?_,
    fun fd' path hopen => fileAt_cons _ (h.named fd' path (hopen' hopen)),
    fun fd' path hopen => h.low fd' path (hopen' hopen),
    fun fd' path p c hopen hclean hcontent hund =>
      h.received fd' path p c (hopen' hopen) hclean hcontent hund⟩
  intro fd'
  rw [htable]
  by_cases hsame : fd = fd'
  · simp only [openedPath, if_pos hsame, Option.map_none]
  · simp only [openedPath, if_neg hsame]
    exact h.entries fd'

end Fds

/-! ## Whole runs -/

/-- Files, and all descriptors but one, are as before. -/
structure SameBut (fd : Int) (v v' : Vfs) : Prop where
  root : v'.root = v.root
  fds : ∀ fd', fd' ≠ fd → v'.lookupFd fd' = v.lookupFd fd'

/-- Every call on descriptors returns what the history says. -/
structure Agrees (es : List Event) (v : Vfs) : Prop where
  fdOpen : ∀ path, ∃ fd v', v.fdOpen path = .ok (fd, v') ∧ SameBut fd v v' ∧
    (fd = -1 ↔ fileAt path es = none) ∧
    (fd ≠ -1 → 3 ≤ fd ∧ openedPath fd es = none ∧ ∀ k, 3 ≤ k → k < fd → openedPath k es ≠ none)
  fdRead : ∀ fd path (out : List UInt8), openedPath fd es = some path →
    ∃ (c : List UInt8) (n : Nat) (v' : Vfs), fileAt path es = some c ∧
      n = min out.length (c.length - offsetOf fd es) ∧
      v.fdRead fd out = ((n : Int), (c.drop (offsetOf fd es)).take n ++ out.drop n, v') ∧
      SameBut fd v v'
  fdRead_closed : ∀ fd out, openedPath fd es = none → v.fdRead fd out = (-1, out, v)
  fdClose : ∀ fd, ∃ v', v.fdClose fd = (if openedPath fd es = none then -1 else 0, v') ∧
    SameBut fd v v'
  prefix_of_file : ∀ fd path p c, openedPath fd es = some path → clean path = .ok p →
    contentOf p es = some c → Undisturbed fd p es → delivered fd es <+: c

section Runs

variable {es : List Event} {v : Vfs} {fs : TmpFs} {table : FdTable}

theorem refines_run (hrun : Run es v) :
    ∃ fs table, v = ⟨some fs, some table⟩ ∧ Refines es fs table := by
  induction hrun with
  | boot =>
      obtain ⟨fs, hboot, h⟩ := refines_boot
      exact ⟨fs, ∅, hboot, h⟩
  | create _ path kind ih =>
      obtain ⟨fs, table, heq, h⟩ := ih
      obtain ⟨rfl, rfl⟩ : _ = fs ∧ _ = some table := by simpa using heq
      exact ⟨_, table, rfl, h.create path kind⟩
  | write _ path data ih =>
      obtain ⟨fs, table, heq, h⟩ := ih
      obtain ⟨rfl, rfl⟩ : _ = fs ∧ _ = some table := by simpa using heq
      exact ⟨_, table, rfl, h.write path data⟩
  | @fdOpen es v v' path fd _ hcall ih =>
      obtain ⟨fs, table, rfl, h⟩ := ih
      rcases h.fdOpen path with ⟨-, hopen⟩ | ⟨hfile, fd', hlow, -, -, hopen⟩
      · obtain ⟨rfl, rfl⟩ := Prod.mk.inj (Outcome.ok.inj (hopen.symm.trans hcall))
        exact ⟨fs, table, rfl, h.opened_fail path⟩
      · obtain ⟨rfl, rfl⟩ := Prod.mk.inj (Outcome.ok.inj (hopen.symm.trans hcall))
        exact ⟨fs, _, rfl, h.opened hfile hlow⟩
  | @fdRead es v v' fd count out out' _ hcall ih =>
      obtain ⟨fs, table, rfl, h⟩ := ih
      cases hopen : openedPath fd es with
      | none =>
          obtain ⟨rfl, hrest⟩ := Prod.mk.inj ((h.fdRead_closed hopen out).symm.trans hcall)
          obtain ⟨rfl, rfl⟩ := Prod.mk.inj hrest
          refine ⟨fs, table, rfl, h.read ?_ ?_⟩
          · intro fd'
            rw [h.entries fd', offsetOf]
            split_ifs <;> rfl
          · intro path c hopen'
            rw [hopen] at hopen'
            cases hopen'
      | some path =>
          obtain ⟨c, hc⟩ := Option.isSome_iff_exists.1 (h.named fd path hopen)
          obtain ⟨table', hread, htable⟩ := h.fdRead_open hopen hc out rfl
          obtain ⟨rfl, hrest⟩ := Prod.mk.inj (hread.symm.trans hcall)
          obtain ⟨rfl, rfl⟩ := Prod.mk.inj hrest
          refine ⟨fs, table', rfl, h.read ?_ ?_⟩
          · intro fd'
            rw [htable fd', offsetOf]
            by_cases hsame : fd = fd'
            · rw [if_pos hsame, if_pos hsame, ← hsame, hopen, Option.map_some, Int.toNat_natCast]
            · rw [if_neg hsame, if_neg hsame, h.entries fd']
          · intro path' c' hopen' hc'
            obtain rfl : path = path' := Option.some.inj (hopen.symm.trans hopen')
            obtain rfl : c = c' := Option.some.inj (hc.symm.trans hc')
            rw [Int.toNat_natCast]
            refine ⟨?_, Nat.min_le_right _ _⟩
            rw [List.take_append_of_le_length (by
              rw [List.length_take, List.length_drop]; omega), List.take_take, Nat.min_self]
  | @fdClose es v v' fd result _ hcall ih =>
      obtain ⟨fs, table, rfl, h⟩ := ih
      obtain ⟨table', hclose, htable⟩ := h.fdClose fd
      obtain ⟨rfl, rfl⟩ := Prod.mk.inj (hclose.symm.trans hcall)
      exact ⟨fs, table', rfl, h.closed htable⟩

/-- **Descriptors are files with an offset**, over any sequence of calls. -/
theorem descriptors_refine (hrun : Run es v) : Agrees es v := by
  obtain ⟨fs, table, rfl, h⟩ := refines_run hrun
  refine ⟨?_, ?_, fun fd out hclosed =>
    h.fdRead_closed hclosed out, ?_, ?_⟩
  · intro path
    rcases h.fdOpen path with ⟨hnone, hopen⟩ | ⟨hsome, fd, hlow, hclosed, hbelow, hopen⟩
    · exact ⟨-1, _, hopen, ⟨rfl, fun _ _ => rfl⟩, iff_of_true rfl hnone, fun h => absurd rfl h⟩
    · refine ⟨fd, _, hopen, ⟨rfl, ?_⟩, ?_, fun _ => ⟨hlow, hclosed, hbelow⟩⟩
      · intro fd' hne
        exact (fds_insert table fd fd' _).trans (if_neg hne.symm)
      · exact iff_of_false (by omega) (Option.isSome_iff_ne_none.1 hsome)
  · intro fd path out hopen
    obtain ⟨c, hc⟩ := Option.isSome_iff_exists.1 (h.named fd path hopen)
    obtain ⟨table', hread, htable⟩ := h.fdRead_open hopen hc out rfl
    exact ⟨c, _, _, hc, rfl, hread, rfl, fun fd' hne => (htable fd').trans (if_neg hne.symm)⟩
  · intro fd
    obtain ⟨table', hclose, htable⟩ := h.fdClose fd
    exact ⟨_, hclose, rfl, fun fd' hne => (htable fd').trans (if_neg hne.symm)⟩
  · intro fd path p c hopen hclean hcontent hund
    rw [(h.received fd path p c hopen hclean hcontent hund).2]
    exact List.take_prefix _ _

/-- After boot, and after the first nine bytes of `/etc/motd` were read. -/
theorem descriptors_refine_boot :
    Agrees bootEvents Vfs.initDefault ∧
      ∃ v, Run (.read 3 9 (motd.take 9) :: .opened etcMotd 3 :: bootEvents) v ∧
        Agrees (.read 3 9 (motd.take 9) :: .opened etcMotd 3 :: bootEvents) v := by
  have hcalls : (Vfs.initDefault.fdOpen etcMotd >>= fun r =>
      .ok (r.1, (r.2.fdRead 3 (List.replicate 9 0)).1, (r.2.fdRead 3 (List.replicate 9 0)).2.1)) =
      .ok (3, 9, motd.take 9) := by
    decide +kernel
  obtain ⟨⟨fd, v⟩, hopen, hcalls⟩ := Outcome.bind_eq_ok.1 hcalls
  obtain ⟨rfl, hcalls⟩ := Prod.mk.inj (Outcome.ok.inj hcalls)
  obtain ⟨hcount, hout⟩ := Prod.mk.inj hcalls
  have hread : v.fdRead 3 (List.replicate 9 0) =
      (9, motd.take 9, (v.fdRead 3 (List.replicate 9 0)).2.2) :=
    Prod.ext hcount (Prod.ext hout rfl)
  have hrun := Run.fdRead (.fdOpen .boot hopen) hread
  rw [show (9 : Int).toNat = 9 from rfl, List.take_take, Nat.min_self] at hrun
  exact ⟨descriptors_refine .boot, _, hrun, descriptors_refine hrun⟩

end Runs

end Munux.Fs
