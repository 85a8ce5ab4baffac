import Munux.Fs.Ext2Layout

/-!
# What `read_file` returns

An inode roots a tree of pointers: twelve leaves of its own, a table of leaves, and a table of
tables. `leaves` lists the leaves in order and `paths` the blocks on the way to each of them, with
no word about where in a table a leaf stands.

* `readFile_leaves`: if no pointer on the way to a block is null, the file is the bytes of its leaves.
* `sparse_iff`: an absent block should read as zeros (`fileBytes`). `read_file` stops there instead,
  so it returns the file exactly when no block is absent.
-/

namespace Munux.Fs

open ByteMem

/-- Block `blk` as a table of pointers. -/
def table (m : ByteMem) (fs : Params) (blk : Nat) : List Nat :=
  (List.range fs.ppb).map fun i => load32 m (blk * fs.blockSize + i * 4)

/-- The leaves of the pointer tree. -/
def leaves (m : ByteMem) (fs : Params) (inode : Inode) : List Nat :=
  List.ofFn inode.blocks ++ table m fs inode.indirect ++
    (table m fs inode.doubleIndirect).flatMap (table m fs)

/-- The pointers on the way to each leaf, the leaf last. -/
def paths (m : ByteMem) (fs : Params) (inode : Inode) : List (List Nat) :=
  (List.ofFn inode.blocks).map (fun b => [b]) ++
    (table m fs inode.indirect).map (fun b => [inode.indirect, b]) ++
    (table m fs inode.doubleIndirect).flatMap fun o =>
      (table m fs o).map fun b => [inode.doubleIndirect, o, b]

/-- Block `n` of a file, by its pointers. -/
def pathTo (m : ByteMem) (fs : Params) (inode : Inode) (n : Nat) : List Nat :=
  (paths m fs inode).getD n []

/-- The number of leaves. -/
def Params.capacity (fs : Params) : Nat := 12 + fs.ppb + fs.ppb * fs.ppb

/-- The bytes of a file: those of its leaves, and zeros where a pointer on the way is null. -/
def fileBytes (m : ByteMem) (fs : Params) (inode : Inode) : List UInt8 :=
  (List.range inode.size).map fun i =>
    if 0 ∈ pathTo m fs inode (i / fs.blockSize) then 0
    else m ((leaves m fs inode).getD (i / fs.blockSize) 0 * fs.blockSize + i % fs.blockSize)

variable {disk : Disk} {m : ByteMem} {fs : Params} {inode : Inode} {n k : Nat} {b out : List UInt8}

/-! ## The tree -/

section Tree

theorem leaves_eq (m : ByteMem) (fs : Params) (inode : Inode) :
    leaves m fs inode = (paths m fs inode).map fun path => path.getLast?.getD 0 := by
  simp [leaves, paths, List.map_flatMap, Function.comp_def]

/-- Where the way to block `n` goes. -/
theorem pathTo_eq (hn : n < fs.capacity) :
    pathTo m fs inode n =
      if h : n < 12 then [inode.blocks ⟨n, h⟩]
      else if n < 12 + fs.ppb then
        [inode.indirect, load32 m (inode.indirect * fs.blockSize + (n - 12) * 4)]
      else [inode.doubleIndirect, outer m fs inode n,
        load32 m (outer m fs inode n * fs.blockSize + (n - 12 - fs.ppb) % fs.ppb * 4)] := by
  unfold pathTo paths
  rw [List.getD_eq_getElem?_getD]
  by_cases hdirect : n < 12
  · rw [dif_pos hdirect, List.append_assoc, List.getElem?_append_left (by simpa using hdirect),
      List.getElem?_map, List.getElem?_ofFn, dif_pos hdirect]
    rfl
  rw [dif_neg hdirect]
  by_cases hsingle : n < 12 + fs.ppb
  · have hlt : n - 12 < fs.ppb := by omega
    rw [if_pos hsingle, List.getElem?_append_left (by simp [table]; omega),
      List.getElem?_append_right (by simp; omega)]
    simp [table, hlt]
  · have hlt : n - (12 + fs.ppb) < fs.ppb * fs.ppb := by
      unfold Params.capacity at hn
      omega
    have hlen : ((List.ofFn inode.blocks).map (fun b => [b]) ++
        (table m fs inode.indirect).map fun b => [inode.indirect, b]).length = 12 + fs.ppb := by
      simp only [table, List.length_append, List.length_map, List.length_ofFn, List.length_range]
    rw [if_neg hsingle, List.getElem?_append_right (by omega), hlen]
    simp only [table, List.flatMap_map, List.map_map, Function.comp_def]
    rw [flatMap_grid (fun q r =>
      [inode.doubleIndirect, load32 m (inode.doubleIndirect * fs.blockSize + q * 4),
        load32 m (load32 m (inode.doubleIndirect * fs.blockSize + q * 4) * fs.blockSize + r * 4)])
      fs.ppb fs.ppb, List.getElem?_map, List.getElem?_range hlt, outer, Nat.sub_sub]
    rfl

/-- A block is absent when the walk meets a null pointer. -/
theorem pointer_eq_zero_iff (hn : n < fs.capacity) :
    pointer m fs inode n = 0 ↔ 0 ∈ pathTo m fs inode n := by
  rw [pathTo_eq hn, pointer]
  split_ifs with hdirect hsingle hnull hnull
  · simp [eq_comm]
  · simp [hnull]
  · simp [eq_comm, hnull]
  · rcases hnull with hnull | hnull <;> simp [hnull]
  · rw [not_or] at hnull
    simp [Ne.symm hnull.1, Ne.symm hnull.2, eq_comm]

/-- Otherwise the walk ends at the leaf. -/
theorem getLast?_pathTo (hn : n < fs.capacity) (hpresent : 0 ∉ pathTo m fs inode n) :
    (pathTo m fs inode n).getLast? = some (pointer m fs inode n) := by
  rw [pathTo_eq hn] at hpresent ⊢
  rw [pointer]
  split_ifs at hpresent ⊢ with hdirect hsingle hnull hnull
  · rfl
  · simp [hnull] at hpresent
  · rfl
  · rcases hnull with hnull | hnull <;> simp [hnull] at hpresent
  · rfl

theorem leaves_getD (hn : n < fs.capacity) (hpresent : 0 ∉ pathTo m fs inode n) :
    (leaves m fs inode).getD n 0 = pointer m fs inode n := by
  have hlast : (leaves m fs inode).getD n 0 = (pathTo m fs inode n).getLast?.getD 0 := by
    rw [leaves_eq, pathTo, List.getD_eq_getElem?_getD, List.getD_eq_getElem?_getD,
      List.getElem?_map]
    cases (paths m fs inode)[n]? <;> rfl
  rw [hlast, getLast?_pathTo hn hpresent, Option.getD_some]

/-- If all blocks on the way end below 4 GiB, block `n` can be read. -/
theorem blockReadable_of_pathTo (hn : n < fs.capacity)
    (hbelow : ∀ blk ∈ pathTo m fs inode n, blk ≠ 0 ∧ blk * fs.blockSize + fs.blockSize < wordCount) :
    BlockReadable m fs inode n := by
  have hpresent : 0 ∉ pathTo m fs inode n := fun hzero => (hbelow 0 hzero).1 rfl
  have hleaf := hbelow _ (List.mem_of_getLast? (getLast?_pathTo hn hpresent))
  rw [pathTo_eq hn] at hbelow
  refine ⟨⟨?_, ?_⟩, ?_⟩
  · intro hge hlt _
    rw [dif_neg (by omega), if_pos hlt] at hbelow
    exact (hbelow _ (by simp)).2
  · intro hge _
    rw [dif_neg (by omega), if_neg (by omega)] at hbelow
    exact ⟨(hbelow _ (by simp)).2, hn, fun _ => (hbelow _ (by simp)).2⟩
  · intro _
    have hle : blockLen fs inode n ≤ fs.blockSize := Nat.min_le_right ..
    omega

end Tree

/-! ## The loop -/

section Loop

variable {count remaining : Nat}

/-- **The blocks of a file,** one after another, when none of them is absent: induction over the
number of blocks that are left. -/
theorem readBlocks_eq_ok (hfs : fs.Tabular) (hrem : remaining = inode.size - n * fs.blockSize)
    (hcount : ∀ k, k < n + count → k * fs.blockSize < inode.size)
    (hall : ∀ k, n ≤ k → k < n + count →
      BlockReadable (bytes disk) fs inode k ∧ pointer (bytes disk) fs inode k ≠ 0)
    (out : List UInt8) :
    readBlocks disk fs inode count n remaining out =
      .ok (out ++ (List.range' n count).flatMap fun k =>
        slice (bytes disk) (pointer (bytes disk) fs inode k * fs.blockSize)
          (blockLen fs inode k)) := by
  induction count generalizing n remaining out with
  | zero => simp [readBlocks]
  | succ count ih =>
      obtain ⟨hread, hpointer⟩ := hall n le_rfl (by omega)
      refine (readBlocks_succ hfs hrem (hcount n (by omega))).2 ⟨hread, ?_⟩
      rw [if_neg hpointer, ih rfl (fun k hk => hcount k (by omega))
        (fun k hk hk' => hall k (by omega) (by omega)), List.range'_succ, List.flatMap_cons,
        List.append_assoc]

/-- A file that comes out in full length had no absent block. -/
theorem readBlocks_full (hfs : fs.Tabular) (hrem : remaining = inode.size - n * fs.blockSize)
    (hcount : ∀ k, k < n + count → k * fs.blockSize < inode.size)
    (hcall : readBlocks disk fs inode count n remaining out = .ok b)
    (hlen : out.length + (inode.size - n * fs.blockSize) ≤ b.length) :
    ∀ k, n ≤ k → k < n + count →
      BlockReadable (bytes disk) fs inode k ∧ pointer (bytes disk) fs inode k ≠ 0 := by
  induction count generalizing n remaining out with
  | zero => exact fun k hk hk' => by omega
  | succ count ih =>
      have hlt := hcount n (by omega)
      obtain ⟨hread, hcall⟩ := (readBlocks_succ hfs hrem hlt).1 hcall
      split_ifs at hcall with hzero
      · -- The loop has ended at a hole, with bytes still to come.
        rw [← hcall] at hlen
        omega
      intro k hk hk'
      rcases Nat.eq_or_lt_of_le hk with rfl | hlt'
      · exact ⟨hread, hzero⟩
      · refine ih rfl (fun k hk => hcount k (by omega)) hcall ?_ k hlt' (by omega)
        rw [List.length_append, length_slice, Nat.succ_mul]
        unfold blockLen
        omega

/-- Every block of the file can be found, and is there. -/
def Complete (m : ByteMem) (fs : Params) (inode : Inode) : Prop :=
  ∀ n, n * fs.blockSize < inode.size → BlockReadable m fs inode n ∧ pointer m fs inode n ≠ 0

theorem readFile_complete (hfs : fs.Tabular) (hbs : fs.blockSize ≠ 0)
    (h : Complete (bytes disk) fs inode) :
    readFile disk fs inode = .ok ((List.range inode.size).map fun i =>
      bytes disk (pointer (bytes disk) fs inode (i / fs.blockSize) * fs.blockSize +
        i % fs.blockSize)) := by
  have hcover : inode.size ≤ (inode.size + fs.blockSize - 1) / fs.blockSize * fs.blockSize := by
    refine Nat.le_of_not_lt fun hlt => ?_
    exact absurd ((mul_lt_size_iff hbs).2 hlt) (Nat.lt_irrefl _)
  simp only [readFile, checkedDivCeil, hbs, if_false, Outcome.ok_bind]
  rw [readBlocks_eq_ok hfs (by simp) (fun k => block_lt_size hbs)
    (fun k _ hk => h k (block_lt_size hbs hk)), List.nil_append, ← List.range_eq_range']
  simp only [slice_eq_map, blockLen]
  rw [flatMap_chunks fun k i =>
    bytes disk (pointer (bytes disk) fs inode k * fs.blockSize + i), Nat.min_eq_left hcover]

theorem complete_of_full (hfs : fs.Tabular) (hbs : fs.blockSize ≠ 0)
    (hcall : readFile disk fs inode = .ok b) (hlen : inode.size ≤ b.length) :
    Complete (bytes disk) fs inode := by
  intro n hn
  simp only [readFile, checkedDivCeil, hbs, if_false, Outcome.ok_bind] at hcall
  refine readBlocks_full hfs (by simp) (fun k => block_lt_size hbs) hcall (by simpa using hlen) n
    n.zero_le ?_
  rw [Nat.zero_add]
  exact (mul_lt_size_iff hbs).2 hn

end Loop

/-! ## Whole files -/

section Whole

theorem tabular_of_pow (hbs : fs.blockSize = 1024 * 2 ^ k) (hk : k ≤ 6) :
    fs.Tabular ∧ fs.blockSize ≠ 0 := by
  have hpow : 2 ^ k ≤ 2 ^ 6 := Nat.pow_le_pow_right (by decide) hk
  have hpos : 0 < 2 ^ k := Nat.two_pow_pos k
  refine ⟨⟨by omega, ?_⟩, by omega⟩
  rw [hbs]
  exact Dvd.dvd.mul_right (by decide) _

/-- A block of a file that the tree can hold is one of its leaves. -/
theorem lt_capacity (hsize : inode.size ≤ fs.capacity * fs.blockSize)
    (hn : n * fs.blockSize < inode.size) : n < fs.capacity :=
  Nat.lt_of_mul_lt_mul_right (hn.trans_le hsize)

theorem complete_iff (hsize : inode.size ≤ fs.capacity * fs.blockSize) :
    Complete m fs inode ↔ ∀ n, n * fs.blockSize < inode.size →
      0 ∉ pathTo m fs inode n ∧ BlockReadable m fs inode n := by
  refine forall₂_congr fun n hn => ?_
  rw [← pointer_eq_zero_iff (lt_capacity hsize hn)]
  exact and_comm

/-- Without an absent block, the bytes of a file are those of its leaves. -/
theorem fileBytes_complete (hsize : inode.size ≤ fs.capacity * fs.blockSize)
    (h : Complete m fs inode) :
    fileBytes m fs inode = (List.range inode.size).map fun i =>
      m (pointer m fs inode (i / fs.blockSize) * fs.blockSize + i % fs.blockSize) := by
  refine List.map_congr_left fun i hi => ?_
  have hn : i / fs.blockSize * fs.blockSize < inode.size :=
    (Nat.div_mul_le_self i _).trans_lt (List.mem_range.1 hi)
  obtain ⟨hpresent, -⟩ := (complete_iff hsize).1 h _ hn
  rw [if_neg hpresent, leaves_getD (lt_capacity hsize hn) hpresent]

theorem readFile_fileBytes (hfs : fs.Tabular) (hbs : fs.blockSize ≠ 0)
    (hsize : inode.size ≤ fs.capacity * fs.blockSize) (h : Complete (bytes disk) fs inode) :
    readFile disk fs inode = .ok (fileBytes (bytes disk) fs inode) := by
  rw [readFile_complete hfs hbs h, fileBytes_complete hsize h]

/-- **A file is the bytes of its leaves,** if no pointer on the way to its blocks is null and every
block on the way ends below 4 GiB. -/
theorem readFile_leaves (hbs : fs.blockSize = 1024 * 2 ^ k) (hk : k ≤ 6)
    (hsize : inode.size ≤ fs.capacity * fs.blockSize)
    (hpath : ∀ n, n * fs.blockSize < inode.size → ∀ blk ∈ pathTo (bytes disk) fs inode n,
      blk ≠ 0 ∧ blk * fs.blockSize + fs.blockSize < wordCount) :
    ∃ b, readFile disk fs inode = .ok b ∧ b.length = inode.size ∧
      ∀ i < inode.size, b[i]? = some (bytes disk
        ((leaves (bytes disk) fs inode).getD (i / fs.blockSize) 0 * fs.blockSize +
          i % fs.blockSize)) := by
  obtain ⟨hfs, hne⟩ := tabular_of_pow hbs hk
  have hpresent : ∀ n, n * fs.blockSize < inode.size → 0 ∉ pathTo (bytes disk) fs inode n :=
    fun n hn hzero => (hpath n hn 0 hzero).1 rfl
  have hcomplete : Complete (bytes disk) fs inode := (complete_iff hsize).2 fun n hn =>
    ⟨hpresent n hn, blockReadable_of_pathTo (lt_capacity hsize hn) (hpath n hn)⟩
  refine ⟨_, readFile_fileBytes hfs hne hsize hcomplete, by simp [fileBytes], ?_⟩
  intro i hi
  have hn : i / fs.blockSize * fs.blockSize < inode.size :=
    (Nat.div_mul_le_self i _).trans_lt hi
  rw [fileBytes, List.getElem?_map, List.getElem?_range hi, Option.map_some,
    if_neg (hpresent _ hn)]

/-- A disk whose block 20 is a table with the pointer 14. -/
def tableDisk : Disk := ofBytes fun a => if a = 20480 then 14 else 0

def tableFs : Params := ⟨1024, 16, 128, 2048⟩

/-- A file of 13 blocks: the blocks 1 to 12, and the one that the table in block 20 points at. -/
def thirteenBlocks : Inode := ⟨13212, fun k => k + 1, 20, 0⟩

theorem pathTo_thirteenBlocks (hn : n * tableFs.blockSize < thirteenBlocks.size) :
    ∀ blk ∈ pathTo (bytes tableDisk) tableFs thirteenBlocks n,
      blk ≠ 0 ∧ blk * tableFs.blockSize + tableFs.blockSize < wordCount := by
  have hbs : tableFs.blockSize = 1024 := rfl
  have hppb : tableFs.ppb = 256 := rfl
  rw [hbs] at hn
  change n * 1024 < 13212 at hn
  rw [pathTo_eq (by rw [Params.capacity, hppb]; omega), hppb, hbs]
  intro blk hblk
  have hbound : blk ≠ 0 ∧ blk ≤ 20 := by
    split_ifs at hblk with hdirect hsingle
    · obtain rfl := List.mem_singleton.1 hblk
      exact ⟨Nat.succ_ne_zero n, by change n + 1 ≤ 20; omega⟩
    · obtain rfl : n = 12 := by omega
      have hleaf : load32 (bytes tableDisk) (20 * 1024 + (12 - 12) * 4) = 14 :=
        (load32_ofBytes _ (by decide)).trans (by decide)
      rcases List.mem_pair.1 hblk with htable | hlast
      · rw [htable]
        decide
      · rw [hlast.trans hleaf]
        decide
    · omega
  have hlast : blk * 1024 + 1024 ≤ 20 * 1024 + 1024 :=
    Nat.add_le_add_right (Nat.mul_le_mul_right 1024 hbound.2) 1024
  exact ⟨hbound.1, hlast.trans_lt (by decide)⟩

/-- The file of 13 blocks comes out whole. -/
theorem readFile_leaves_thirteen :
    ∃ b, readFile tableDisk tableFs thirteenBlocks = .ok b ∧ b.length = thirteenBlocks.size ∧
      ∀ i < thirteenBlocks.size, b[i]? = some (bytes tableDisk
        ((leaves (bytes tableDisk) tableFs thirteenBlocks).getD (i / tableFs.blockSize) 0 *
          tableFs.blockSize + i % tableFs.blockSize)) :=
  readFile_leaves (k := 0) rfl (by decide) (by decide) fun n hn => pathTo_thirteenBlocks hn

/-- **Sparse files are cut off.** The file comes out, with zeros for its absent blocks, exactly when
it has no absent block and the others can be read. -/
theorem sparse_iff (hbs : fs.blockSize = 1024 * 2 ^ k) (hk : k ≤ 6)
    (hsize : inode.size ≤ fs.capacity * fs.blockSize) :
    readFile disk fs inode = .ok (fileBytes (bytes disk) fs inode) ↔
      ∀ n, n * fs.blockSize < inode.size →
        0 ∉ pathTo (bytes disk) fs inode n ∧ BlockReadable (bytes disk) fs inode n := by
  obtain ⟨hfs, hne⟩ := tabular_of_pow hbs hk
  rw [← complete_iff hsize]
  constructor
  · exact fun hcall => complete_of_full hfs hne hcall (by simp [fileBytes])
  · exact readFile_fileBytes hfs hne hsize

/-- The file of 13 blocks has no hole. -/
theorem sparse_iff_thirteen :
    readFile tableDisk tableFs thirteenBlocks =
      .ok (fileBytes (bytes tableDisk) tableFs thirteenBlocks) := by
  refine (sparse_iff (k := 0) rfl (by decide) (by decide)).2 fun n hn => ?_
  have hpath := pathTo_thirteenBlocks hn
  exact ⟨fun hzero => (hpath 0 hzero).1 rfl,
    blockReadable_of_pathTo (lt_capacity (by decide) hn) hpath⟩

/-- One group with 16 inodes. Inode 12 is a file of two blocks: the first is a hole, the second is
block 8. -/
def sparseImage : ByteMem := fun a =>
  if a = 1064 then 16
  else if a = 1080 then 0x53
  else if a = 1081 then 0xEF
  else if a = 2056 then 5
  else if a = 6528 then 0xA4
  else if a = 6529 then 0x81
  else if a = 6533 then 8
  else if a = 6572 then 8
  else if 8192 ≤ a ∧ a < 9216 then 7
  else 0

theorem load32_sparse {a v : Nat} (ha : a + 4 ≤ wordCount) (h : load32 sparseImage a = v) :
    load32 (bytes (ofBytes sparseImage)) a = v :=
  (load32_ofBytes _ ha).trans h

/-- A superblock of the first revision, with blocks of 1 KiB and groups of 16 inodes. -/
theorem readSuper_tableFs (hmagic : magic (bytes disk) = ext2Magic)
    (hlog : logBlockSize (bytes disk) = 0) (hgroup : load32 (bytes disk) (1024 + 40) = 16)
    (hrevision : load32 (bytes disk) (1024 + 76) = 0) :
    readSuper disk = .ok (some tableFs) := by
  have hparams : params (bytes disk) = tableFs := by
    simp only [params, hlog, hgroup, hrevision]
    rfl
  rw [readSuper_eq, if_neg (not_not.2 hmagic), hlog, if_pos (by decide), hparams]

/-- An inode of the first group, whose table is in block 5. -/
theorem readInode_tableFs {ino : Nat} (hlo : 1 ≤ ino) (hhi : ino ≤ 16)
    (htable : load32 (bytes disk) 2056 = 5) :
    readInode disk tableFs ino = .ok (inodeAt (bytes disk) (5120 + (ino - 1) * 128)) := by
  have hfs : tableFs.Sized := ⟨by decide, by decide, by decide⟩
  have hword : wordCount = 4294967296 := rfl
  have hdesc : descOff tableFs ino = 2048 := by
    change 2048 + (ino - 1) / 16 * 32 = 2048
    omega
  have hoff : inodeOff (bytes disk) tableFs ino = 5120 + (ino - 1) * 128 := by
    rw [inodeOff, hdesc, htable]
    change 5 * 1024 + (ino - 1) % 16 * 128 = 5120 + (ino - 1) * 128
    omega
  refine (readInode_eq_ok hfs).2 ⟨⟨hlo, by decide, ?_, ?_, by decide⟩, by rw [hoff]⟩
  · rw [hdesc]
    decide
  · rw [hoff]
    change 5120 + (ino - 1) * 128 + 128 < wordCount
    omega

theorem readSuper_sparse : readSuper (ofBytes sparseImage) = .ok (some tableFs) :=
  readSuper_tableFs ((load16_ofBytes sparseImage (by decide)).trans (by decide))
    (load32_sparse (by decide) (by decide)) (load32_sparse (by decide) (by decide))
    (load32_sparse (by decide) (by decide))

theorem readInode_sparse :
    ∃ inode, readInode (ofBytes sparseImage) tableFs 12 = .ok inode ∧ inode.size = 2048 ∧
      inode.blocks 0 = 0 ∧ inode.blocks 1 = 8 :=
  ⟨_, readInode_tableFs (by decide) (by decide) (load32_sparse (by decide) (by decide)),
    load32_sparse (by decide) (by decide), load32_sparse (by decide) (by decide),
    load32_sparse (by decide) (by decide)⟩

/-- **A hole ends the file.** Nothing is read of it. -/
theorem hole_ends_file :
    ∃ fs inode, readSuper (ofBytes sparseImage) = .ok (some fs) ∧ fs.blockSize = 1024 ∧
      readInode (ofBytes sparseImage) fs 12 = .ok inode ∧ inode.size = 2048 ∧
      inode.blocks 1 = 8 ∧ readFile (ofBytes sparseImage) fs inode = .ok [] ∧
      readFile (ofBytes sparseImage) fs inode ≠
        .ok (fileBytes (bytes (ofBytes sparseImage)) fs inode) := by
  obtain ⟨inode, hinode, hsize, hfirst, hsecond⟩ := readInode_sparse
  have hempty : readFile (ofBytes sparseImage) tableFs inode = .ok [] := by
    simp [readFile, readBlocks, blockAt, checkedDivCeil, tableFs, hsize, hfirst]
  refine ⟨tableFs, inode, readSuper_sparse, rfl, hinode, hsize, hsecond, hempty, ?_⟩
  intro hfull
  have hlen := congrArg List.length (Outcome.ok.inj (hempty.symm.trans hfull))
  simp [fileBytes, hsize] at hlen

end Whole

end Munux.Fs
