import Munux.Fs.TmpFs
import Mathlib.Data.List.Perm.Subperm

/-!
# File descriptors

The descriptor layer of `munux-rs/src/vfs.rs`: a table from descriptors to a path, as it was given
to `fd_open`, and a read offset. The contents are not in the table; each read looks them up by the
path. `fd_read` locks the table, the file system, and the table again, one after the other.

A `Vec` holds at most `isize::MAX` bytes, so the casts of counts to `i32` are exact; running out of
memory is left out, and with it a table of `2 ^ 31` descriptors.
-/

namespace Munux.Fs

/-- The table of open descriptors. -/
abbrev FdTable := Std.ExtTreeMap Int (Path × Nat)

/-- `ROOT` and `FDS`. -/
structure Vfs where
  root : Option TmpFs
  fds : Option FdTable

/-- `/etc` -/
def etc : Path := "/etc".toList

/-- `/etc/motd` -/
def etcMotd : Path := "/etc/motd".toList

/-- `b"Munux v0.4\n"` -/
def motd : List UInt8 := "Munux v0.4\n".toUTF8.toList

namespace Vfs

/-- `init_default`. The results of the three calls are ignored. -/
def initDefault : Vfs :=
  let fs := (TmpFs.new.create etc .dir).2
  let fs := (fs.create etcMotd .file).2
  let fs := (fs.write etcMotd motd).2
  { root := some fs, fds := some ∅ }

/-- The loop of `fd_open`, for at most `fuel` turns. -/
def firstFree (table : FdTable) : (fuel : Nat) → Int → Outcome Int
  | 0, _ => .diverge
  | fuel + 1, fd => if table.contains fd then firstFree table fuel (fd + 1) else .ok fd

/-- `fd_open` -/
def fdOpen (v : Vfs) (path : Path) : Outcome (Int × Vfs) := do
  if (v.root.bind fun fs => fs.contents path).isNone then
    return (-1, v)
  match v.fds with
  | none => return (-1, v)
  | some table =>
      let fd ← firstFree table (table.size + 1) 3
      return (fd, { v with fds := some (table.insert fd (path, 0)) })

/-- The first section of `fd_read`. -/
def lookupFd (v : Vfs) (fd : Int) : Option (Path × Nat) := v.fds.bind fun t => t[fd]?

/-- The last section of `fd_read`. -/
def advanceFd (v : Vfs) (fd : Int) (n : Nat) : Vfs :=
  match v.fds with
  | none => v
  | some table =>
      match table[fd]? with
      | none => v
      | some (path, offset) => { v with fds := some (table.insert fd (path, offset + n)) }

/-- `fd_read`: the count, the buffer after the call, and the state. -/
def fdRead (v : Vfs) (fd : Int) (out : List UInt8) : Int × List UInt8 × Vfs :=
  match v.lookupFd fd with
  | none => (-1, out, v)
  | some (path, offset) =>
      match v.root.bind fun fs => fs.contents path with
      | none => (-1, out, v)
      | some content =>
          if content.length ≤ offset then (0, out, v)
          else
            let n := min out.length (content.length - offset)
            (n, (content.drop offset).take n ++ out.drop n, v.advanceFd fd n)

/-- `fd_close` -/
def fdClose (v : Vfs) (fd : Int) : Int × Vfs :=
  match v.fds with
  | none => (-1, v)
  | some table =>
      if table.contains fd then (0, { v with fds := some (table.erase fd) }) else (-1, v)

end Vfs

/-! ## The lowest free descriptor -/

section FirstFree

variable {table : FdTable} {fuel : Nat} {fd r : Int}

theorem fds_insert (table : FdTable) (fd fd' : Int) (e : Path × Nat) :
    (table.insert fd e)[fd']? = if fd = fd' then some e else table[fd']? := by
  rw [Std.ExtTreeMap.getElem?_insert]
  simp only [Std.LawfulEqCmp.compare_eq_iff_eq]

theorem fds_erase (table : FdTable) (fd fd' : Int) :
    (table.erase fd)[fd']? = if fd = fd' then none else table[fd']? := by
  rw [Std.ExtTreeMap.getElem?_erase]
  simp only [Std.LawfulEqCmp.compare_eq_iff_eq]

/-- The scan that returns found the lowest descriptor from `fd` on that is not open. -/
theorem firstFree_eq_ok (h : Vfs.firstFree table fuel fd = .ok r) :
    fd ≤ r ∧ table[r]? = none ∧ ∀ k, fd ≤ k → k < r → table[k]? ≠ none := by
  induction fuel generalizing fd with
  | zero => cases h
  | succ fuel ih =>
      unfold Vfs.firstFree at h
      by_cases hin : table.contains fd = true
      · rw [if_pos hin] at h
        obtain ⟨hle, hnone, hbelow⟩ := ih h
        refine ⟨by omega, hnone, ?_⟩
        intro k hk hlt
        by_cases hkfd : k = fd
        · rw [hkfd]
          rw [Std.ExtTreeMap.contains_eq_isSome_getElem?] at hin
          exact Option.isSome_iff_ne_none.1 hin
        · exact hbelow k (by omega) hlt
      · rw [if_neg hin] at h
        obtain rfl := Outcome.ok.inj h
        refine ⟨le_rfl, ?_, fun k hk hlt => by omega⟩
        exact Std.ExtTreeMap.getElem?_eq_none_of_contains_eq_false (Bool.eq_false_iff.2 hin)

/-- The scan goes on for ever only over open descriptors. -/
theorem firstFree_diverges (h : ∀ r, Vfs.firstFree table fuel fd ≠ .ok r) {k : Nat}
    (hk : k < fuel) : fd + k ∈ table := by
  induction fuel generalizing fd k with
  | zero => omega
  | succ fuel ih =>
      have hin : table.contains fd = true := by
        by_contra hout
        refine h fd ?_
        unfold Vfs.firstFree
        rw [if_neg hout]
      have hnext : ∀ r, Vfs.firstFree table fuel (fd + 1) ≠ .ok r := by
        intro r hr
        refine h r ?_
        unfold Vfs.firstFree
        rw [if_pos hin, hr]
      cases k with
      | zero =>
          have hzero : fd + ((0 : Nat) : Int) = fd := by omega
          rw [hzero]
          exact Std.ExtTreeMap.mem_iff_contains.2 hin
      | succ k =>
          have hmem := ih hnext (show k < fuel by omega)
          have hadd : fd + 1 + (k : Int) = fd + ((k + 1 : Nat) : Int) := by omega
          rwa [hadd] at hmem

/-- **The scan returns**: there are more candidates than open descriptors. -/
theorem firstFree_returns (table : FdTable) (fd : Int) :
    ∃ r, Vfs.firstFree table (table.size + 1) fd = .ok r := by
  by_contra hnone
  have hall := fun k (hk : k < table.size + 1) =>
    firstFree_diverges (fun r hr => hnone ⟨r, hr⟩) hk
  let candidates := (List.range (table.size + 1)).map fun k : Nat => fd + (k : Int)
  have hnodup : candidates.Nodup := by
    refine List.nodup_range.map fun a b hab => ?_
    omega
  have hsub : candidates ⊆ table.keys := by
    intro x hx
    obtain ⟨k, hk, rfl⟩ := List.mem_map.1 hx
    exact Std.ExtTreeMap.mem_keys.2 (hall k (List.mem_range.1 hk))
  have hle := (List.subperm_of_subset hnodup hsub).length_le
  rw [Std.ExtTreeMap.length_keys, List.length_map, List.length_range] at hle
  omega

end FirstFree

end Munux.Fs
