import Munux.Fs.Descriptors
import Munux.Lib.Ranges
import Mathlib.Logic.Relation

/-!
# File descriptors under preemption

`fd_open` and `fd_read` of `munux-rs/src/vfs.rs` lock `ROOT` and `FDS` several times, and other
contexts run in between. `fd_open` looks for a free number and takes it in one section; `fd_read`
reads the offset in one section, copies in a second, and moves the offset in a third.

**The state** (`FdSys`). The two tables, and for each context the call it is in. The rest is
bookkeeping: which call of `fd_open` a descriptor is of (`Opening`), and the reads that have
completed, each with its range of the file.

**The invariant** (`ReadsInv`). As long as no descriptor is read by two calls at once, and none is
handed out while a call still reads an older one of the same number, the offset that a call has read
is still that of the table when it moves it. So the ranges delivered for each opening lie end to end
from the start of the file.

Main results: `reads_once`, for such runs, and `reads_twice`, two runs that are not.
-/

namespace Munux.Fs

/-- `fs.contents(path)` under the lock of `ROOT`. -/
def Vfs.fileContents (v : Vfs) (path : Path) : Option (List UInt8) :=
  v.root.bind fun fs => fs.contents path

/-- One call of `fd_open` that succeeded: the how-manieth it was, and what it returned. -/
structure Opening where
  number : Nat
  fd : Int
  path : Path
  deriving DecidableEq

/-- A call between two of its sections. `opening` is what the descriptor of a read was at the start
of the call. -/
inductive FdCall where
  | toOpen (path : Path)
  | found (fd : Int) (path : Path) (offset len : Nat) (opening : Opening)
  | copied (fd : Int) (offset n : Nat) (opening : Opening)

/-- A read that has completed. -/
structure Delivery where
  opening : Opening
  offset : Nat
  count : Nat
  deriving DecidableEq

/-- The tables, the calls under way by context, and the bookkeeping. -/
structure FdSys where
  vfs : Vfs
  calls : Nat → Option FdCall
  openingOf : Int → Opening
  openings : Nat
  log : List Delivery

namespace FdSys

def setCall (s : FdSys) (c : Nat) (call : Option FdCall) : FdSys :=
  { s with calls := Function.update s.calls c call }

/-- No descriptor is open. -/
def boot (root : Option TmpFs) : FdSys :=
  ⟨⟨root, some ∅⟩, fun _ => none, fun fd => ⟨0, fd, []⟩, 0, []⟩

end FdSys

/-- The sections, each with the context that runs it. -/
inductive FdAct where
  | openRoot (c : Nat) (path : Path)
  | openTable (c : Nat)
  | readTable (c : Nat) (fd : Int) (len : Nat)
  | readRoot (c : Nat)
  | readAdvance (c : Nat)
  | close (c : Nat) (fd : Int)

/-- One section, if the context is where it can run it. -/
def FdAct.step (s : FdSys) : FdAct → Option FdSys
  | openRoot c path =>
      if (s.calls c).isSome then none
      else if (s.vfs.fileContents path).isNone then some s
      else some (s.setCall c (some (.toOpen path)))
  | openTable c =>
      match s.calls c with
      | some (.toOpen path) =>
          match s.vfs.fds with
          | none => some (s.setCall c none)
          | some table =>
              match Vfs.firstFree table (table.size + 1) 3 with
              | .ok fd => some
                  { s.setCall c none with
                    vfs := { s.vfs with fds := some (table.insert fd (path, 0)) }
                    openingOf := Function.update s.openingOf fd ⟨s.openings, fd, path⟩
                    openings := s.openings + 1 }
              | _ => none
      | _ => none
  | readTable c fd len =>
      if (s.calls c).isSome then none
      else
        match s.vfs.lookupFd fd with
        | none => some s
        | some (path, offset) =>
            some (s.setCall c (some (.found fd path offset len (s.openingOf fd))))
  | readRoot c =>
      match s.calls c with
      | some (.found fd path offset len o) =>
          match s.vfs.fileContents path with
          | none => some (s.setCall c none)
          | some content =>
              if content.length ≤ offset then some (s.setCall c none)
              else
                let n := min len (content.length - offset)
                some (s.setCall c (some (.copied fd offset n o)))
      | _ => none
  | readAdvance c =>
      match s.calls c with
      | some (.copied fd offset n o) => some
          { s.setCall c none with
            vfs := s.vfs.advanceFd fd n
            log := s.log ++ [⟨o, offset, n⟩] }
      | _ => none
  | close c fd =>
      if (s.calls c).isSome then none else some { s with vfs := (s.vfs.fdClose fd).2 }

/-- Several sections, one after the other. -/
def FdAct.runAll (s : FdSys) (acts : List FdAct) : Option FdSys :=
  acts.foldlM (fun s act => act.step s) s

/-- Who runs the section. -/
def FdAct.context : FdAct → Nat
  | openRoot c _ => c
  | openTable c => c
  | readTable c _ _ => c
  | readRoot c => c
  | readAdvance c => c
  | close c _ => c

/-- What a section can do: nothing, end the call, or take it one section further. -/
inductive Did (s : FdSys) : FdAct → FdSys → Prop
  | nothing (act : FdAct) : Did s act s
  | ended (act : FdAct) : Did s act (s.setCall act.context none)
  | toOpen {c : Nat} {path : Path} : Did s (.openRoot c path) (s.setCall c (some (.toOpen path)))
  | inserted {c : Nat} {path : Path} {table : FdTable} {fd : Int} (hfds : s.vfs.fds = some table)
      (hcall : s.calls c = some (.toOpen path))
      (hscan : Vfs.firstFree table (table.size + 1) 3 = .ok fd) :
      Did s (.openTable c) { s.setCall c none with
        vfs := { s.vfs with fds := some (table.insert fd (path, 0)) }
        openingOf := Function.update s.openingOf fd ⟨s.openings, fd, path⟩
        openings := s.openings + 1 }
  | found {c : Nat} {fd : Int} {path : Path} {offset len : Nat} (hidle : s.calls c = none)
      (hlookup : s.vfs.lookupFd fd = some (path, offset)) :
      Did s (.readTable c fd len) (s.setCall c (some (.found fd path offset len (s.openingOf fd))))
  | copied {c : Nat} {fd : Int} {path : Path} {offset len : Nat} {o : Opening}
      {content : List UInt8} (hcall : s.calls c = some (.found fd path offset len o))
      (hcontent : s.vfs.fileContents path = some content) (hmore : offset < content.length) :
      Did s (.readRoot c)
        (s.setCall c (some (.copied fd offset (min len (content.length - offset)) o)))
  | advanced {c : Nat} {fd : Int} {offset n : Nat} {o : Opening}
      (hcall : s.calls c = some (.copied fd offset n o)) :
      Did s (.readAdvance c) { s.setCall c none with
        vfs := s.vfs.advanceFd fd n, log := s.log ++ [⟨o, offset, n⟩] }
  | closed {c : Nat} {fd : Int} : Did s (.close c fd) { s with vfs := (s.vfs.fdClose fd).2 }

theorem FdAct.did {s s' : FdSys} {act : FdAct} (h : act.step s = some s') : Did s act s' := by
  cases act with
  | openRoot c path =>
      simp only [FdAct.step] at h
      split_ifs at h
      · exact Option.some.inj h ▸ .nothing _
      · exact Option.some.inj h ▸ .toOpen
  | openTable c =>
      simp only [FdAct.step] at h
      split at h
      · rename_i path hcall
        split at h
        · exact Option.some.inj h ▸ .ended (.openTable c)
        · rename_i table hfds
          split at h
          · rename_i fd hscan
            exact Option.some.inj h ▸ .inserted hfds hcall hscan
          · cases h
      · cases h
  | readTable c fd len =>
      simp only [FdAct.step] at h
      split_ifs at h with hidle
      rw [Bool.not_eq_true, Option.isSome_eq_false_iff, Option.isNone_iff_eq_none] at hidle
      split at h
      · exact Option.some.inj h ▸ .nothing _
      · rename_i path offset hlookup
        exact Option.some.inj h ▸ .found hidle hlookup
  | readRoot c =>
      simp only [FdAct.step] at h
      split at h
      · rename_i fd path offset len o hcall
        split at h
        · exact Option.some.inj h ▸ .ended (.readRoot c)
        · rename_i content hcontent
          split_ifs at h with hend
          · exact Option.some.inj h ▸ .ended (.readRoot c)
          · exact Option.some.inj h ▸ .copied hcall hcontent (Nat.lt_of_not_le hend)
      · cases h
  | readAdvance c =>
      simp only [FdAct.step] at h
      split at h
      · rename_i fd offset n o hcall
        exact Option.some.inj h ▸ .advanced hcall
      · cases h
  | close c fd =>
      simp only [FdAct.step] at h
      split_ifs at h
      exact Option.some.inj h ▸ .closed

/-! ## Reads under way -/

/-- The descriptor that the call reads, the opening it began on, and the offset it found. -/
def FdCall.reading : FdCall → Option (Int × Opening × Nat)
  | toOpen _ => none
  | found fd _ offset _ o => some (fd, o, offset)
  | copied fd offset _ o => some (fd, o, offset)

def FdSys.reading (s : FdSys) (c : Nat) : Option (Int × Opening × Nat) :=
  (s.calls c).bind FdCall.reading

/-- Some call reads the descriptor. -/
def FdSys.Busy (s : FdSys) (fd : Int) : Prop := ∃ c o offset, s.reading c = some (fd, o, offset)

/-- No read begins on a descriptor that another call reads, and none such is handed out. -/
def FdAct.Clear (s : FdSys) : FdAct → Prop
  | readTable _ fd _ => ¬s.Busy fd
  | openTable _ => ∀ table fd, s.vfs.fds = some table →
      Vfs.firstFree table (table.size + 1) 3 = .ok fd → ¬s.Busy fd
  | _ => True

/-- The states of the runs whose sections satisfy `P`. -/
def FdRun (P : FdSys → FdAct → Prop) (root : Option TmpFs) (s : FdSys) : Prop :=
  Relation.ReflTransGen (fun s s' => ∃ act : FdAct, P s act ∧ act.step s = some s') (.boot root) s

/-- The ranges that were delivered for one opening, in order. -/
def rangesOf (log : List Delivery) (o : Opening) : List (Nat × Nat) :=
  (log.filter fun d => d.opening = o).map fun d => (d.offset, d.count)

/-- The length of the file. -/
def fileLength (root : Option TmpFs) (path : Path) : Nat :=
  ((root.bind fun fs => fs.contents path).getD []).length

/-- The ranges delivered for the opening lie end to end, from the start of the file to `hi`. -/
def Delivered (log : List Delivery) (o : Opening) (hi : Nat) : Prop :=
  EndToEnd 0 (rangesOf log o) hi

/-- The table and the calls under way agree on what has been delivered. -/
structure ReadsInv (root : Option TmpFs) (s : FdSys) : Prop where
  sameRoot : s.vfs.root = root
  opened : ∀ fd path offset, s.vfs.lookupFd fd = some (path, offset) →
    (s.openingOf fd).fd = fd ∧ (s.openingOf fd).path = path ∧
      (s.openingOf fd).number < s.openings ∧ Delivered s.log (s.openingOf fd) offset
  reading : ∀ c fd o offset, s.reading c = some (fd, o, offset) →
    o.fd = fd ∧ o.number < s.openings ∧ Delivered s.log o offset ∧
      ∀ path offset', s.vfs.lookupFd fd = some (path, offset') →
        s.openingOf fd = o ∧ offset' = offset
  alone : ∀ c c' fd o o' offset offset', s.reading c = some (fd, o, offset) →
    s.reading c' = some (fd, o', offset') → c = c'
  path : ∀ c fd path offset len o, s.calls c = some (.found fd path offset len o) → o.path = path
  inside : ∀ c fd offset n o, s.calls c = some (.copied fd offset n o) →
    offset + n ≤ fileLength root o.path
  logged : ∀ d ∈ s.log, d.opening.number < s.openings
  delivered : ∀ o, ∃ hi ≤ fileLength root o.path, Delivered s.log o hi

section Tables

variable {v : Vfs} {fd fd' : Int} {n : Nat}

theorem lookupFd_advanceFd :
    (v.advanceFd fd n).lookupFd fd' =
      if fd = fd' then (v.lookupFd fd).map fun e => (e.1, e.2 + n) else v.lookupFd fd' := by
  unfold Vfs.advanceFd Vfs.lookupFd
  cases hfds : v.fds with
  | none => simp [hfds]
  | some table =>
      cases hget : table[fd]? with
      | none =>
          by_cases hfd : fd = fd'
          · subst hfd
            simp [hfds, hget]
          · simp [hfds, hget, hfd]
      | some e =>
          simp only [Option.bind_some, fds_insert, hget, Option.map_some]

theorem root_advanceFd : (v.advanceFd fd n).root = v.root := by
  unfold Vfs.advanceFd
  cases v.fds with
  | none => rfl
  | some table => cases hget : table[fd]? <;> simp [hget]

theorem lookupFd_fdClose :
    (v.fdClose fd).2.lookupFd fd' = if fd = fd' then none else v.lookupFd fd' := by
  unfold Vfs.fdClose Vfs.lookupFd
  cases hfds : v.fds with
  | none => simp [hfds]
  | some table =>
      by_cases hin : table.contains fd = true
      · simp only [if_pos hin, Option.bind_some, fds_erase]
      · simp only [hin, Bool.false_eq_true, if_false, hfds, Option.bind_some]
        by_cases hfd : fd = fd'
        · subst hfd
          rw [if_pos rfl]
          exact Std.ExtTreeMap.getElem?_eq_none_of_contains_eq_false (Bool.eq_false_iff.2 hin)
        · rw [if_neg hfd]

theorem root_fdClose : (v.fdClose fd).2.root = v.root := by
  unfold Vfs.fdClose
  cases v.fds with
  | none => rfl
  | some table => by_cases hin : table.contains fd = true <;> simp [hin]

end Tables

section Delivered

variable {log : List Delivery} {o o' : Opening} {hi offset n : Nat}

theorem rangesOf_append :
    rangesOf (log ++ [⟨o, offset, n⟩]) o = rangesOf log o ++ [(offset, n)] := by
  simp [rangesOf]

theorem rangesOf_append_ne (h : o' ≠ o) :
    rangesOf (log ++ [⟨o, offset, n⟩]) o' = rangesOf log o' := by
  simp [rangesOf, Ne.symm h]

theorem Delivered.append (h : Delivered log o hi) (n : Nat) :
    Delivered (log ++ [⟨o, hi, n⟩]) o (hi + n) := by
  unfold Delivered
  rw [rangesOf_append]
  exact EndToEnd.concat h n

theorem Delivered.append_ne (h : Delivered log o' hi) (hne : o' ≠ o) (offset n : Nat) :
    Delivered (log ++ [⟨o, offset, n⟩]) o' hi := by
  unfold Delivered
  rw [rangesOf_append_ne hne]
  exact h

/-- Nothing has been delivered for an opening that is new. -/
theorem delivered_new (h : ∀ d ∈ log, d.opening.number < o.number) : Delivered log o 0 := by
  have hnone : rangesOf log o = [] := by
    unfold rangesOf
    rw [List.filter_eq_nil_iff.2, List.map_nil]
    intro d hd hdo
    rw [decide_eq_true_eq] at hdo
    exact absurd (h d hd) (by rw [hdo]; exact lt_irrefl _)
  unfold Delivered
  rw [hnone]
  rfl

end Delivered

/-! ## What each section preserves -/

section Steps

variable {root : Option TmpFs} {s s' : FdSys} {c c' : Nat} {call : Option FdCall} {fd fd' : Int}
variable {o o' : Opening} {offset n : Nat} {path : Path} {act : FdAct} {v : Vfs}

theorem reading_setCall : (s.setCall c call).reading c' =
    if c' = c then call.bind FdCall.reading else s.reading c' := by
  unfold FdSys.reading FdSys.setCall
  by_cases hc : c' = c
  · simp [hc]
  · simp [hc]

theorem calls_setCall : (s.setCall c call).calls c' = if c' = c then call else s.calls c' := by
  unfold FdSys.setCall
  by_cases hc : c' = c
  · simp [hc]
  · simp [hc]

/-- A read of another context goes on as before. -/
theorem reading_of_ne (hcall : call.bind FdCall.reading = none) {r : Int × Opening × Nat}
    (h : (s.setCall c call).reading c' = some r) : c' ≠ c ∧ s.reading c' = some r := by
  rw [reading_setCall] at h
  split_ifs at h with hc
  · rw [hcall] at h
    cases h
  · exact ⟨hc, h⟩

theorem calls_of_ne (hcall : call.bind FdCall.reading = none) {x : FdCall}
    (hx : x.reading ≠ none) (h : (s.setCall c call).calls c' = some x) :
    s.calls c' = some x := by
  rw [calls_setCall] at h
  split_ifs at h with hc
  · rw [h] at hcall
    exact absurd hcall hx
  · exact h

/-- A context that reads nothing does no harm. -/
theorem ReadsInv.quit (h : ReadsInv root s) (hcall : call.bind FdCall.reading = none) :
    ReadsInv root (s.setCall c call) where
  sameRoot := h.sameRoot
  opened := h.opened
  reading c' fd o offset hr := h.reading c' fd o offset (reading_of_ne hcall hr).2
  alone c₁ c₂ fd o o' offset offset' h₁ h₂ := h.alone c₁ c₂ fd o o' offset offset'
    (reading_of_ne hcall h₁).2 (reading_of_ne hcall h₂).2
  path c' fd path offset len o hc := h.path c' fd path offset len o
    (calls_of_ne hcall (by simp [FdCall.reading]) hc)
  inside c' fd offset n o hc := h.inside c' fd offset n o
    (calls_of_ne hcall (by simp [FdCall.reading]) hc)
  logged := h.logged
  delivered := h.delivered

/-- Closing descriptors does no harm. -/
theorem ReadsInv.fewer (h : ReadsInv root s) (hroot : v.root = s.vfs.root)
    (hv : ∀ fd e, v.lookupFd fd = some e → s.vfs.lookupFd fd = some e) :
    ReadsInv root { s with vfs := v } where
  sameRoot := hroot.trans h.sameRoot
  opened fd path offset he := h.opened fd path offset (hv fd _ he)
  reading c fd o offset hr := by
    obtain ⟨hfd, hnumber, hdel, hsame⟩ := h.reading c fd o offset hr
    exact ⟨hfd, hnumber, hdel, fun path offset' he => hsame path offset' (hv fd _ he)⟩
  alone := h.alone
  path := h.path
  inside := h.inside
  logged := h.logged
  delivered := h.delivered

/-- A read that begins has found the offset up to which its opening has been delivered. -/
theorem ReadsInv.begin (h : ReadsInv root s) (hlookup : s.vfs.lookupFd fd = some (path, offset))
    (hfree : ¬s.Busy fd) (len : Nat) :
    ReadsInv root (s.setCall c (some (.found fd path offset len (s.openingOf fd)))) := by
  obtain ⟨hfd, hpath, hnumber, hdel⟩ := h.opened fd path offset hlookup
  -- The read is the new one, or it goes on as before.
  have hcases : ∀ {c' fd' o offset'},
      (s.setCall c (some (.found fd path offset len (s.openingOf fd)))).reading c' =
        some (fd', o, offset') →
      (c' = c ∧ fd' = fd ∧ o = s.openingOf fd ∧ offset' = offset) ∨
        (c' ≠ c ∧ s.reading c' = some (fd', o, offset')) := by
    intro c' fd' o offset' hr
    rw [reading_setCall] at hr
    split_ifs at hr with hc
    · simp only [Option.bind_some, FdCall.reading, Option.some.injEq, Prod.mk.injEq] at hr
      exact Or.inl ⟨hc, hr.1.symm, hr.2.1.symm, hr.2.2.symm⟩
    · exact Or.inr ⟨hc, hr⟩
  refine ⟨h.sameRoot, h.opened, ?_,
    ?_, ?_,
    ?_, h.logged, h.delivered⟩
  · intro c' fd' o offset' hr
    rcases hcases hr with ⟨-, rfl, rfl, rfl⟩ | ⟨-, hr⟩
    · refine ⟨hfd, hnumber, hdel, fun path' offset'' he => ⟨rfl, ?_⟩⟩
      exact (Prod.mk.inj (Option.some.inj (he.symm.trans hlookup))).2
    · exact h.reading c' fd' o offset' hr
  · intro c₁ c₂ fd' o₁ o₂ off₁ off₂ h₁ h₂
    rcases hcases h₁ with ⟨hc₁, hfd₁, -, -⟩ | ⟨-, hr₁⟩
    · rcases hcases h₂ with ⟨hc₂, -, -, -⟩ | ⟨-, hr₂⟩
      · rw [hc₁, hc₂]
      · exact absurd ⟨_, _, _, hfd₁ ▸ hr₂⟩ hfree
    · rcases hcases h₂ with ⟨-, hfd₂, -, -⟩ | ⟨-, hr₂⟩
      · exact absurd ⟨_, _, _, hfd₂ ▸ hr₁⟩ hfree
      · exact h.alone c₁ c₂ fd' o₁ o₂ off₁ off₂ hr₁ hr₂
  · intro c' fd' path' offset' len' o hc
    rw [calls_setCall] at hc
    split_ifs at hc
    · simp only [Option.some.injEq, FdCall.found.injEq] at hc
      obtain ⟨-, rfl, -, -, rfl⟩ := hc
      exact hpath
    · exact h.path c' fd' path' offset' len' o hc
  · intro c' fd' offset' n o hc
    rw [calls_setCall] at hc
    split_ifs at hc
    · simp at hc
    · exact h.inside c' fd' offset' n o hc

/-- Copying changes nothing of what the call has found. -/
theorem ReadsInv.copy {len : Nat} {content : List UInt8} (h : ReadsInv root s)
    (hcall : s.calls c = some (.found fd path offset len o))
    (hcontent : s.vfs.fileContents path = some content) (hshort : offset < content.length) :
    ReadsInv root
      (s.setCall c (some (.copied fd offset (min len (content.length - offset)) o))) := by
  have hsame : ∀ c', (s.setCall c
      (some (.copied fd offset (min len (content.length - offset)) o))).reading c' =
        s.reading c' := by
    intro c'
    rw [reading_setCall]
    split_ifs with hc
    · rw [hc, FdSys.reading, hcall]
      rfl
    · rfl
  refine ⟨h.sameRoot, h.opened, ?_,
    ?_, ?_,
    ?_, h.logged, h.delivered⟩
  · intro c' fd' o' offset' hr
    exact h.reading c' fd' o' offset' (hsame c' ▸ hr)
  · intro c₁ c₂ fd' o₁ o₂ off₁ off₂ h₁ h₂
    exact h.alone c₁ c₂ fd' o₁ o₂ off₁ off₂ (hsame c₁ ▸ h₁) (hsame c₂ ▸ h₂)
  · intro c' fd' path' offset' len' o' hc
    rw [calls_setCall] at hc
    split_ifs at hc
    · simp at hc
    · exact h.path c' fd' path' offset' len' o' hc
  · intro c' fd' offset' n o' hc
    rw [calls_setCall] at hc
    split_ifs at hc
    · simp only [Option.some.injEq, FdCall.copied.injEq] at hc
      obtain ⟨-, rfl, rfl, rfl⟩ := hc
      have hlength : fileLength root o.path = content.length := by
        rw [h.path c fd path offset len o hcall, fileLength, ← h.sameRoot]
        exact congrArg (fun x => (Option.getD x []).length) hcontent
      rw [hlength]
      omega
    · exact h.inside c' fd' offset' n o' hc

/-- A new descriptor has not been read, and nobody reads its number. -/
theorem ReadsInv.insert {table : FdTable} (h : ReadsInv root s) (hfds : s.vfs.fds = some table)
    (hfree : ¬s.Busy fd) (path : Path) :
    ReadsInv root { s with
      vfs := { s.vfs with fds := some (table.insert fd (path, 0)) }
      openingOf := Function.update s.openingOf fd ⟨s.openings, fd, path⟩
      openings := s.openings + 1 } := by
  have hlookup : ∀ fd', Vfs.lookupFd ⟨s.vfs.root, some (table.insert fd (path, 0))⟩ fd' =
      if fd = fd' then some (path, 0) else s.vfs.lookupFd fd' := by
    intro fd'
    simp only [Vfs.lookupFd, Option.bind_some, fds_insert, hfds]
  refine ⟨h.sameRoot, ?_, ?_, h.alone, h.path,
    h.inside, fun d hd => (h.logged d hd).trans (Nat.lt_succ_self _), h.delivered⟩
  · intro fd' path' offset he
    simp only [hlookup] at he
    split_ifs at he with hfd
    · subst hfd
      obtain ⟨rfl, rfl⟩ := Prod.mk.inj (Option.some.inj he)
      simp only [Function.update_self]
      exact ⟨trivial, trivial, Nat.lt_succ_self _, delivered_new h.logged⟩
    · simp only [Function.update_of_ne (Ne.symm hfd)]
      obtain ⟨h1, h2, h3, h4⟩ := h.opened fd' path' offset he
      exact ⟨h1, h2, h3.trans (Nat.lt_succ_self _), h4⟩
  · intro c fd' o offset hr
    obtain ⟨h1, h2, h3, h4⟩ := h.reading c fd' o offset hr
    refine ⟨h1, h2.trans (Nat.lt_succ_self _), h3, ?_⟩
    intro path' offset' he
    have hne : fd ≠ fd' := fun hfd => hfree ⟨c, o, offset, hfd ▸ hr⟩
    simp only [hlookup, if_neg hne] at he
    simp only [Function.update_of_ne (Ne.symm hne)]
    exact h4 path' offset' he

/-- A read that completes moves the offset of its own opening, or of none. -/
theorem ReadsInv.advance (h : ReadsInv root s) (hcall : s.calls c = some (.copied fd offset n o)) :
    ReadsInv root { s.setCall c none with
      vfs := s.vfs.advanceFd fd n, log := s.log ++ [⟨o, offset, n⟩] } := by
  have hown : s.reading c = some (fd, o, offset) := by
    rw [FdSys.reading, hcall]
    rfl
  obtain ⟨hofd, hnumber, hdel, hsame⟩ := h.reading c fd o offset hown
  have hother : ∀ {c' r}, (s.setCall c none).reading c' = some r → c' ≠ c ∧ s.reading c' = some r :=
    fun hr => reading_of_ne rfl hr
  refine ⟨root_advanceFd.trans h.sameRoot, ?_,
    ?_, ?_,
    ?_, ?_, ?_,
    ?_⟩
  · intro fd' path offset' he
    simp only [lookupFd_advanceFd] at he
    split_ifs at he with hfd
    · subst hfd
      obtain ⟨⟨path', offset''⟩, he', heq⟩ := Option.map_eq_some_iff.1 he
      obtain ⟨rfl, rfl⟩ := Prod.mk.inj heq
      obtain ⟨h1, h2, h3, -⟩ := h.opened fd path' offset'' he'
      obtain ⟨hcur, rfl⟩ := hsame path' offset'' he'
      refine ⟨h1, h2, h3, ?_⟩
      change Delivered _ (s.openingOf fd) _
      rw [hcur]
      exact hdel.append n
    · obtain ⟨h1, h2, h3, h4⟩ := h.opened fd' path offset' he
      refine ⟨h1, h2, h3, h4.append_ne (fun heq => hfd ?_) _ _⟩
      rw [← hofd, ← h1, ← heq]
  · intro c' fd' o' offset' hr
    obtain ⟨hne, hr⟩ := hother hr
    obtain ⟨h1, h2, h3, h4⟩ := h.reading c' fd' o' offset' hr
    have hfd : fd ≠ fd' := fun hfd => hne (h.alone c' c fd o' o offset' offset (hfd ▸ hr) hown)
    refine ⟨h1, h2, h3.append_ne (fun heq => hfd ?_) _ _, ?_⟩
    · rw [← hofd, ← h1, heq]
    · intro path offset'' he
      simp only [lookupFd_advanceFd, if_neg hfd] at he
      exact h4 path offset'' he
  · intro c₁ c₂ fd' o₁ o₂ off₁ off₂ h₁ h₂
    exact h.alone c₁ c₂ fd' o₁ o₂ off₁ off₂ (hother h₁).2 (hother h₂).2
  · intro c' fd' path offset' len o' hc
    exact h.path c' fd' path offset' len o' (calls_of_ne rfl (by simp [FdCall.reading]) hc)
  · intro c' fd' offset' n' o' hc
    exact h.inside c' fd' offset' n' o' (calls_of_ne rfl (by simp [FdCall.reading]) hc)
  · intro d hd
    rcases List.mem_append.1 hd with hd | hd
    · exact h.logged d hd
    · rw [List.mem_singleton.1 hd]
      exact hnumber
  · intro o'
    by_cases ho : o' = o
    · subst ho
      exact ⟨offset + n, h.inside c fd offset n o' hcall, hdel.append n⟩
    · obtain ⟨hi, hle, hdel'⟩ := h.delivered o'
      exact ⟨hi, hle, hdel'.append_ne ho _ _⟩

/-- **Every section keeps the invariant**, when it is clear. -/
theorem ReadsInv.step (h : ReadsInv root s) (hclear : act.Clear s) (hstep : act.step s = some s') :
    ReadsInv root s' := by
  cases FdAct.did hstep with
  | nothing act => exact h
  | ended act => exact h.quit rfl
  | toOpen => exact h.quit rfl
  | @inserted c path table fd hfds hcall hscan =>
      have hfree : ¬(s.setCall c none).Busy fd := by
        rintro ⟨c', o, offset, hr⟩
        exact hclear table fd hfds hscan ⟨c', o, offset, (reading_of_ne rfl hr).2⟩
      have hquit : ReadsInv root (s.setCall c none) := h.quit rfl
      exact hquit.insert hfds hfree path
  | found hidle hlookup => exact h.begin hlookup hclear _
  | copied hcall hcontent hmore => exact h.copy hcall hcontent hmore
  | advanced hcall => exact h.advance hcall
  | closed =>
      apply h.fewer root_fdClose
      intro fd' e he
      rw [lookupFd_fdClose] at he
      split_ifs at he
      exact he

theorem readsInv_boot (root : Option TmpFs) : ReadsInv root (.boot root) where
  sameRoot := rfl
  opened fd path offset he := by simp [FdSys.boot, Vfs.lookupFd] at he
  reading c fd o offset hr := by cases hr
  alone c c' fd o o' offset offset' hr := by cases hr
  path c fd path offset len o hc := by cases hc
  inside c fd offset n o hc := by cases hc
  logged d hd := by cases hd
  delivered o := ⟨0, Nat.zero_le _, rfl⟩

theorem readsInv_run (hrun : FdRun (fun s act => act.Clear s) root s) : ReadsInv root s := by
  induction hrun with
  | refl => exact readsInv_boot root
  | tail _ hstep ih =>
      obtain ⟨act, hclear, hstep⟩ := hstep
      exact ih.step hclear hstep

/-- **Each byte once.** In every run in which no read begins on a descriptor that is being read, and
no descriptor is handed out under a number that is being read, the ranges delivered for each opening
are disjoint and together are the start of the file, and a read that completes moves the offset of
no descriptor but the one it began on. -/
theorem reads_once (hrun : FdRun (fun s act => act.Clear s) root s) :
    (∀ o, ((rangesOf s.log o).Pairwise fun r r' => Disjoint (rangeSet r) (rangeSet r')) ∧
      ∃ total ≤ fileLength root o.path,
        ⋃ r ∈ rangesOf s.log o, rangeSet r = Set.Ico 0 total) ∧
    ∀ c s', (FdAct.readAdvance c).step s = some s' → ∀ fd,
      s'.vfs.lookupFd fd ≠ s.vfs.lookupFd fd →
        ∃ offset n, s.calls c = some (.copied fd offset n (s.openingOf fd)) := by
  have hinv := readsInv_run hrun
  constructor
  · intro o
    obtain ⟨total, hle, hdel⟩ := hinv.delivered o
    exact ⟨EndToEnd.disjoint hdel, total, hle, EndToEnd.iUnion hdel⟩
  · intro c s' hstep fd hne
    cases FdAct.did hstep with
    | nothing act => exact absurd rfl hne
    | ended act => exact absurd rfl hne
    | @advanced c fd' offset n o hcall =>
        have hown : s.reading c = some (fd', o, offset) := by
          rw [FdSys.reading, hcall]
          rfl
        simp only [lookupFd_advanceFd] at hne
        split_ifs at hne with hfd
        · subst hfd
          cases hlookup : s.vfs.lookupFd fd' with
          | none => simp [hlookup] at hne
          | some e =>
              obtain ⟨hcur, -⟩ := (hinv.reading c fd' o offset hown).2.2.2 e.1 e.2 hlookup
              exact ⟨offset, n, by rw [hcur, hcall]⟩
        · exact absurd rfl hne

/-! ## A single context -/

/-- The three sections of a read, one right after the other, are `fd_read`. -/
theorem fdRead_sections {content : List UInt8} (hidle : s.calls c = none)
    (hlookup : s.vfs.lookupFd fd = some (path, offset))
    (hcontent : s.vfs.fileContents path = some content) (hmore : offset < content.length)
    (out : List UInt8) :
    ∃ s' : FdSys, ∃ n : Nat,
      FdAct.runAll s [.readTable c fd out.length, .readRoot c, .readAdvance c] = some s' ∧
        (s.vfs.fdRead fd out).1 = n ∧ s'.vfs = (s.vfs.fdRead fd out).2.2 ∧
        s'.log = s.log ++ [⟨s.openingOf fd, offset, n⟩] := by
  let n := min out.length (content.length - offset)
  let s₁ := s.setCall c (some (.found fd path offset out.length (s.openingOf fd)))
  let s₂ := s₁.setCall c (some (.copied fd offset n (s.openingOf fd)))
  have h₁ : (FdAct.readTable c fd out.length).step s = some s₁ := by
    simp only [FdAct.step, hidle, hlookup, Option.isSome_none, Bool.false_eq_true, if_false, s₁]
  have h₂ : (FdAct.readRoot c).step s₁ = some s₂ := by
    have hcall : s₁.calls c = some (.found fd path offset out.length (s.openingOf fd)) :=
      calls_setCall.trans (if_pos rfl)
    have hsame : s₁.vfs.fileContents path = some content := hcontent
    simp only [FdAct.step, hcall, hsame, if_neg (Nat.not_le.2 hmore), s₂, n]
  have h₃ : (FdAct.readAdvance c).step s₂ = some { s₂.setCall c none with
      vfs := s.vfs.advanceFd fd n, log := s.log ++ [⟨s.openingOf fd, offset, n⟩] } := by
    have hcall : s₂.calls c = some (.copied fd offset n (s.openingOf fd)) :=
      calls_setCall.trans (if_pos rfl)
    simp only [FdAct.step, hcall]
    rfl
  have hread : s.vfs.fdRead fd out = ((n : Int), (content.drop offset).take n ++ out.drop n,
      s.vfs.advanceFd fd n) := by
    unfold Vfs.fileContents at hcontent
    simp only [Vfs.fdRead, hlookup, hcontent, if_neg (Nat.not_le.2 hmore), n]
  rw [hread]
  have hall : FdAct.runAll s [.readTable c fd out.length, .readRoot c, .readAdvance c] =
      (FdAct.readAdvance c).step s₂ := by
    simp only [FdAct.runAll, List.foldlM_cons, List.foldlM_nil, h₁, h₂, Option.bind_eq_bind,
      Option.bind_some]
    exact Option.bind_fun_some _
  exact ⟨_, n, hall.trans h₃, rfl, rfl, rfl⟩

/-- A section is nobody else's business. -/
theorem calls_other (hstep : act.step s = some s') (hne : c' ≠ act.context) :
    s'.calls c' = s.calls c' := by
  cases FdAct.did hstep with
  | nothing act => rfl
  | closed => rfl
  | _ => exact Function.update_of_ne hne ..

/-- A context that is alone is never in its own way. -/
theorem clear_of_alone (hidle : ∀ c', c' ≠ act.context → s.calls c' = none)
    (hstep : act.step s = some s') : act.Clear s := by
  have hfree : ∀ fd, (s.calls act.context).bind FdCall.reading = none → ¬s.Busy fd := by
    rintro fd hown ⟨c', o, offset, hr⟩
    by_cases hc : c' = act.context
    · rw [FdSys.reading, hc, hown] at hr
      cases hr
    · rw [FdSys.reading, hidle c' hc] at hr
      cases hr
  cases act with
  | openTable c =>
      intro table fd _ _
      refine hfree fd ?_
      simp only [FdAct.step] at hstep
      split at hstep
      · rename_i path hcall
        rw [FdAct.context, hcall]
        rfl
      · cases hstep
  | readTable c fd len =>
      refine hfree fd ?_
      simp only [FdAct.step] at hstep
      split_ifs at hstep with hbusy
      rw [Bool.not_eq_true, Option.isSome_eq_false_iff, Option.isNone_iff_eq_none] at hbusy
      rw [FdAct.context, hbusy]
      rfl
  | _ => trivial

theorem fdRun_alone {acts : List FdAct} (hacts : ∀ act ∈ acts, act.context = c)
    (hidle : ∀ c', c' ≠ c → s.calls c' = none) (hs : FdRun (fun s act => act.Clear s) root s)
    (h : FdAct.runAll s acts = some s') : FdRun (fun s act => act.Clear s) root s' := by
  induction acts generalizing s with
  | nil => exact Option.some.inj h ▸ hs
  | cons act acts ih =>
      obtain ⟨t, hstep, hrest⟩ := Option.bind_eq_some_iff.1 h
      have hact := hacts act List.mem_cons_self
      have hclear : act.Clear s := clear_of_alone (fun c' hc' => hidle c' (hact ▸ hc')) hstep
      refine ih (fun act' hmem => hacts act' (List.mem_cons_of_mem _ hmem)) ?_
        (hs.tail ⟨act, hclear, hstep⟩) hrest
      intro c' hc'
      rw [calls_other hstep (hact ▸ hc')]
      exact hidle c' hc'

theorem fdRun_of_runAll {acts : List FdAct} (hs : FdRun (fun _ _ => True) root s)
    (h : FdAct.runAll s acts = some s') : FdRun (fun _ _ => True) root s' := by
  induction acts generalizing s with
  | nil => exact Option.some.inj h ▸ hs
  | cons act acts ih =>
      obtain ⟨t, hstep, hrest⟩ := Option.bind_eq_some_iff.1 h
      exact ih (hs.tail ⟨act, trivial, hstep⟩) hrest

end Steps

/-! ## Runs on the files of the boot -/

/-- The kernel after `init_default`. -/
def bootSys : FdSys := .boot Vfs.initDefault.root

/-- Two reads of one descriptor by one context. -/
theorem reads_once_twoReads :
    ∃ s : FdSys, rangesOf s.log ⟨0, 3, etcMotd⟩ = [(0, 4), (4, 7)] ∧
      ∃ total ≤ fileLength Vfs.initDefault.root etcMotd,
        ⋃ r ∈ rangesOf s.log ⟨0, 3, etcMotd⟩, rangeSet r = Set.Ico 0 total := by
  have hall : (FdAct.runAll bootSys [.openRoot 0 etcMotd, .openTable 0, .readTable 0 3 4,
      .readRoot 0, .readAdvance 0, .readTable 0 3 64, .readRoot 0, .readAdvance 0]).map
        (fun s => rangesOf s.log ⟨0, 3, etcMotd⟩) = some [(0, 4), (4, 7)] := by decide +kernel
  obtain ⟨s, hs, hranges⟩ := Option.map_eq_some_iff.1 hall
  have hrun := fdRun_alone (c := 0) (by decide) (fun _ _ => rfl)
    (.refl : FdRun _ Vfs.initDefault.root bootSys) hs
  exact ⟨s, hranges, ((reads_once hrun).1 ⟨0, 3, etcMotd⟩).2⟩

/-- Two contexts read a descriptor at the same time. -/
def sameBytes : List FdAct :=
  [.openRoot 0 etcMotd, .openTable 0, .readTable 1 3 4, .readTable 2 3 4, .readRoot 1, .readRoot 2,
    .readAdvance 1, .readAdvance 2]

/-- A descriptor is closed and its number handed out again while a context reads it. -/
def recycled : List FdAct :=
  [.openRoot 0 etcMotd, .openTable 0, .readTable 1 3 4, .readRoot 1, .close 0 3,
    .openRoot 0 etcMotd, .openTable 0, .readAdvance 1]

/-- **Reads that cross.** Two reads of one descriptor deliver the same four bytes; and a read moves
the offset of a descriptor that was opened after it began, from which nothing has been read. -/
theorem reads_twice :
    (∃ s, FdRun (fun _ _ => True) Vfs.initDefault.root s ∧
      rangesOf s.log ⟨0, 3, etcMotd⟩ = [(0, 4), (0, 4)] ∧
      ¬(rangesOf s.log ⟨0, 3, etcMotd⟩).Pairwise fun r r' => Disjoint (rangeSet r) (rangeSet r')) ∧
    ∃ s, FdRun (fun _ _ => True) Vfs.initDefault.root s ∧ s.openingOf 3 = ⟨1, 3, etcMotd⟩ ∧
      rangesOf s.log ⟨1, 3, etcMotd⟩ = [] ∧ s.vfs.lookupFd 3 = some (etcMotd, 4) := by
  constructor
  · have hlog : (FdAct.runAll bootSys sameBytes).map (fun s => rangesOf s.log ⟨0, 3, etcMotd⟩) =
        some [(0, 4), (0, 4)] := by decide +kernel
    obtain ⟨s, hs, hranges⟩ := Option.map_eq_some_iff.1 hlog
    refine ⟨s, fdRun_of_runAll .refl hs, hranges, ?_⟩
    intro hdisjoint
    rw [hranges] at hdisjoint
    have hboth := List.rel_of_pairwise_cons hdisjoint (List.mem_singleton_self _)
    have hzero : 0 ∈ rangeSet (0, 4) := ⟨le_rfl, by decide⟩
    exact Set.disjoint_left.1 hboth hzero hzero
  · have hfinal : (FdAct.runAll bootSys recycled).map (fun s =>
        (s.openingOf 3, rangesOf s.log ⟨1, 3, etcMotd⟩, s.vfs.lookupFd 3)) =
        some (⟨1, 3, etcMotd⟩, [], some (etcMotd, 4)) := by decide +kernel
    obtain ⟨s, hs, heq⟩ := Option.map_eq_some_iff.1 hfinal
    simp only [Prod.mk.injEq] at heq
    exact ⟨s, fdRun_of_runAll .refl hs, heq⟩

end Munux.Fs
