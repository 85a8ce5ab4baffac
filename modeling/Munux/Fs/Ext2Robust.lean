import Munux.Fs.Ext2Layout

/-!
# Arbitrary images

What the ext2 reader does with an image that nobody has checked. Mounting it, listing the root and
reading every file that is listed is the use the kernel makes of the reader. `robust_iff` says for
which images that goes through: none of the sizes and pointers on the way is validated, so every
one of them is a condition on the image.

The records of a directory block are an exception: the walk over them copes with any bytes
(`readRecords_garbage`).
-/

namespace Munux.Fs

/-- There is no ext2 file system, or mounting it, listing the root and reading every file in it
return. -/
def Robust (disk : Disk) : Prop :=
  readSuper disk = .ok none ∨
    ∃ fs root entries, readSuper disk = .ok (some fs) ∧ readInode disk fs rootIno = .ok root ∧
      readDir disk fs root = .ok entries ∧
      ∀ e ∈ entries, ∃ inode data, readInode disk fs e.2 = .ok inode ∧
        readFile disk fs inode = .ok data

/-- The sizes and pointers that lead from the superblock to the files of the root directory. -/
structure ImageReadable (m : ByteMem) : Prop where
  blockSize : logBlockSize m < 32
  root : InodeReadable m (params m) rootIno
  dir : ∀ k, DirBlockReadable (params m)
    ((inodeAt m (inodeOff m (params m) rootIno)).blocks k)
  files : ∀ k e, IsEntry m (params m) ((inodeAt m (inodeOff m (params m) rootIno)).blocks k) e →
    InodeReadable m (params m) e.2 ∧
      FileReadable m (params m) (inodeAt m (inodeOff m (params m) e.2))

/-- **The images that the reader survives**: those without the magic number, and those on which
every size and pointer it follows is in range. -/
theorem robust_iff (disk : Disk) :
    Robust disk ↔ (magic (bytes disk) = ext2Magic → ImageReadable (bytes disk)) := by
  unfold Robust
  by_cases hmagic : magic (bytes disk) = ext2Magic
  · by_cases hk : logBlockSize (bytes disk) < 32
    · have hsuper : readSuper disk = .ok (some (params (bytes disk))) := by
        rw [readSuper_eq, if_neg (not_not.2 hmagic), if_pos hk]
      have hfs := params_sized hk
      simp only [hsuper, hmagic, true_imp_iff, Outcome.ok.injEq, reduceCtorEq, false_or,
        Option.some.injEq]
      constructor
      · rintro ⟨_, root, entries, rfl, hroot, hdir, hfiles⟩
        obtain ⟨hrootOk, rfl⟩ := (readInode_eq_ok hfs).1 hroot
        refine ⟨hk, hrootOk, (readDir_returns hfs).1 ⟨_, hdir⟩, ?_⟩
        intro k e he
        obtain ⟨inode, data, hinode, hdata⟩ := hfiles e ((mem_readDir hfs hdir).2 ⟨k, he⟩)
        obtain ⟨hinodeOk, rfl⟩ := (readInode_eq_ok hfs).1 hinode
        exact ⟨hinodeOk, (readFile_returns hfs.tabular).1 ⟨_, hdata⟩⟩
      · intro h
        obtain ⟨entries, hdir⟩ : ∃ entries, readDir disk _ _ = .ok entries :=
          (readDir_returns hfs).2 h.dir
        refine ⟨_, _, entries, rfl, (readInode_eq_ok hfs).2 ⟨h.root, rfl⟩, hdir, ?_⟩
        intro e he
        obtain ⟨k, hentry⟩ := (mem_readDir hfs hdir).1 he
        obtain ⟨hinodeOk, hfile⟩ := h.files k e hentry
        obtain ⟨data, hdata⟩ := (readFile_returns hfs.tabular).2 hfile
        exact ⟨_, data, (readInode_eq_ok hfs).2 ⟨hinodeOk, rfl⟩, hdata⟩
    · have hsuper : readSuper disk = .panic := by
        rw [readSuper_eq, if_neg (not_not.2 hmagic), if_neg hk]
      simp only [hsuper, hmagic, reduceCtorEq, false_and, exists_false, or_false, true_imp_iff,
        false_iff]
      exact fun h => hk h.blockSize
  · simp [readSuper_eq, hmagic]

/-- A superblock that asks for blocks of `1024 << 32` bytes. -/
def hugeBlocks : ByteMem := fun a =>
  if a = 1048 then 32 else if a = 1080 then 0x53 else if a = 1081 then 0xEF else 0

theorem huge_blocks_panic :
    readSuper (ofBytes hugeBlocks) = .panic ∧ ¬Robust (ofBytes hugeBlocks) := by
  have hmagic : magic (bytes (ofBytes hugeBlocks)) = ext2Magic :=
    (load16_ofBytes hugeBlocks (by decide)).trans (by decide)
  have hlog : logBlockSize (bytes (ofBytes hugeBlocks)) = 32 :=
    (load32_ofBytes hugeBlocks (by decide)).trans (by decide)
  have hpanic : readSuper (ofBytes hugeBlocks) = .panic := by
    rw [readSuper_eq, if_neg (not_not.2 hmagic), if_neg (by omega)]
  refine ⟨hpanic, ?_⟩
  rintro (h | ⟨fs, root, entries, h, _⟩)
  · simp [hpanic] at h
  · simp [hpanic] at h
/-! ## One block of a directory -/

section Block

open ByteMem

variable {data : List UInt8} {m : ByteMem} {base size pos : Nat} {e : String × Nat}

/-- A block on its own, as a memory. -/
theorem slice_getD (data : List UInt8) : slice (fun i => data.getD i 0) 0 data.length = data := by
  refine List.ext_getElem? fun i => ?_
  rw [getElem?_slice, Nat.zero_add]
  split_ifs with hi
  · rw [List.getD_eq_getElem?_getD, List.getElem?_eq_getElem hi, Option.getD_some]
  · rw [List.getElem?_eq_none (Nat.le_of_not_lt hi)]

/-- A name that decodes has the bytes it was decoded from. -/
theorem toByteArray_of_fromUtf8 {b : List UInt8} {name : String} (h : fromUtf8 b = some name) :
    name.toByteArray.data.toList = b := by
  rw [fromUtf8, String.fromUTF8?] at h
  split_ifs at h
  rw [← Option.some.inj h]
  change b.toByteArray.data.toList = b
  rw [List.data_toByteArray]

/-- An entry has an inode, and its name is a part of the block that is not empty. -/
theorem entryAt_eq_some (h : entryAt m base size pos = some e) :
    e.2 ≠ 0 ∧ e.1 ≠ "" ∧ e.1.toByteArray.data.toList <:+: slice m base size := by
  unfold entryAt at h
  split_ifs at h with hlive
  obtain ⟨hino, hname, hfits⟩ := hlive
  obtain ⟨name, hutf8, rfl⟩ := Option.map_eq_some_iff.1 h
  have hbytes := toByteArray_of_fromUtf8 hutf8
  refine ⟨hino, ?_, ?_⟩
  · rintro rfl
    have hlen := congrArg List.length hbytes
    rw [length_slice] at hlen
    exact hname.ne hlen
  · rw [hbytes]
    refine ⟨slice m base (pos + 8),
      slice m (base + (pos + 8 + nameLen m base pos)) (size - (pos + 8 + nameLen m base pos)), ?_⟩
    rw [slice_append, slice_append, Nat.add_sub_cancel' hfits]

/-- What `read_dir` lists is as good as the entries of its blocks. -/
theorem readDir_entries {disk : Disk} {fs : Params} {inode : Inode} {out : List (String × Nat)}
    (hfs : fs.Sized) (h : readDir disk fs inode = .ok out) (he : e ∈ out) :
    e.2 ≠ 0 ∧ e.1 ≠ "" ∧ ∃ k, e.1.toByteArray.data.toList <:+:
      slice (bytes disk) (inode.blocks k * fs.blockSize) fs.blockSize := by
  obtain ⟨k, -, p, -, -, hentry⟩ := (mem_readDir hfs h).1 he
  obtain ⟨hino, hname, hpart⟩ := entryAt_eq_some hentry
  exact ⟨hino, hname, k, hpart⟩

/-- **The walk over a block is safe on garbage.** Whatever the bytes of the block are, the loop ends
without an access outside of it, and what it lists are inodes under names that the block holds. No
block size is larger than the bound (`params_sized`), and no `Vec` is longer. -/
theorem readRecords_garbage (h : data.length ≤ 2 ^ 31) (out : List (String × Nat)) :
    ∃ l, readRecords data (data.length + 1) 0 out = .ok (out ++ l) ∧
      ∀ e ∈ l, e.2 ≠ 0 ∧ e.1 ≠ "" ∧ e.1.toByteArray.data.toList <:+: data := by
  obtain ⟨l, hcall, hmem⟩ := readRecords_spec (fun i => data.getD i 0) 0 out h
    (show 0 < 2 ^ 31 + 2 ^ 16 by decide) (Nat.succ_pos data.length) (by omega)
  rw [slice_getD] at hcall
  refine ⟨l, hcall, fun e he => ?_⟩
  obtain ⟨p, -, -, hentry⟩ := (hmem e).1 he
  have hspec := entryAt_eq_some hentry
  rwa [slice_getD] at hspec

/-- Inode 5 under the name `a`, and behind it a record of one byte whose name would end far outside
of the block. -/
def garbageBlock : List UInt8 :=
  [5, 0, 0, 0, 12, 0, 1, 0, 0x61, 0xFF, 0xFF, 0xFF, 7, 0, 0, 0, 1, 0, 200, 0]

theorem readRecords_garbageBlock : ∃ l, readRecords garbageBlock 21 0 [] = .ok ([] ++ l) ∧
    ∀ e ∈ l, e.2 ≠ 0 ∧ e.1 ≠ "" ∧ e.1.toByteArray.data.toList <:+: garbageBlock :=
  readRecords_garbage (by decide) []

end Block

end Munux.Fs
