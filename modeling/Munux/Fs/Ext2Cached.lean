import Mathlib.Tactic.Ring
import Munux.Fs.CachedReads
import Munux.Fs.Ext2Dirs
import Munux.Fs.Storage

/-!
# The ext2 reader on the cache

The functions of `munux-rs/src/ext2.rs` with the calls of `bcache::read_sector` in them, as programs
that ask for sectors. Answered by a disk they are the functions of `Munux.Fs.Ext2`
(`answer_fetchFile` and its like); the self tests that the kernel runs at boot are added here.

**Main results.**

* `onCache_coherent`: what a program computes through a coherent cache is what it computes from the
  disk, panics included, as long as the counters of the cache do not overflow.
* `storageChecks_iff`: from the first use of the cache, the kernel passes its checks exactly when
  the self test passes on the disk itself. The self test reads fewer sectors than a counter can
  hold.
* `storageChecks_drive_iff`: the same through the disk driver, for any timing of the drive.
* `bcacheSelftest_eq`: the self test of the cache passes exactly when sector 2 is not cached,
  whatever the disk does.
-/

namespace Munux.Fs

open Queries ByteMem Drivers

/-- A computation that reads sectors. -/
abbrev Reads := Queries UInt32 Block

/-- The loop body of `read_range`. -/
def fetchSector (raw : List UInt8) (sec : Nat) : Reads (List UInt8) := do
  let sbuf ← query (UInt32.ofNat sec)
  return raw ++ sbuf.toList

/-- `read_range` -/
def fetchRange (byteOff len : Nat) : Reads (List UInt8) := do
  let start := byteOff / 512
  let stop ← checkedDivCeil (← checkedAdd byteOff len) 512
  let sectors ← checkedSub stop start
  let _capacity ← checkedMul sectors 512
  let raw ← (List.range' start sectors).foldlM fetchSector []
  let skip := byteOff % 512
  subrange raw skip (← checkedAdd skip len)

/-- The parameters in a superblock. -/
def parseSuper (sb : List UInt8) : Outcome (Option Params) := do
  if (← rdU16 sb 56) ≠ ext2Magic then return none
  let blockSize ← checkedShl 1024 (← rdU32 sb 24)
  let inodesPerGroup ← rdU32 sb 40
  let rev ← rdU32 sb 76
  let inodeSize ← (if 1 ≤ rev then rdU16 sb 88 else pure 128 : Outcome Nat)
  let bgdtBlock := if blockSize = 1024 then 2 else 1
  let bgdtOff ← checkedMul bgdtBlock blockSize
  return some { blockSize, inodesPerGroup, inodeSize, bgdtOff }

/-- `read_super` -/
def fetchSuper : Reads (Option Params) := do
  let sb ← fetchRange 1024 1024
  parseSuper sb

/-- The fields of an inode. -/
def parseInode (raw : List UInt8) : Outcome Inode := do
  let blocks ← Outcome.collect 12 fun k => rdU32 raw (40 + 4 * k)
  let size ← rdU32 raw 4
  let indirect ← rdU32 raw 88
  let doubleIndirect ← rdU32 raw 92
  return { size, blocks, indirect, doubleIndirect }

/-- `read_inode` -/
def fetchInode (fs : Params) (ino : Nat) : Reads Inode := do
  let group ← checkedDiv (← checkedSub ino 1) fs.inodesPerGroup
  let index ← checkedMod (← checkedSub ino 1) fs.inodesPerGroup
  let desc ← fetchRange (← checkedAdd fs.bgdtOff (← checkedMul group 32)) 32
  let inodeTable ← rdU32 desc 8
  let off ← checkedAdd (← checkedMul inodeTable fs.blockSize) (← checkedMul index fs.inodeSize)
  let raw ← fetchRange off fs.inodeSize
  parseInode raw

/-- The range of a block, or the beginning of one. -/
def fetchBlock (fs : Params) (blk len : Nat) : Reads (List UInt8) := do
  let off ← checkedMul blk fs.blockSize
  fetchRange off len

/-- Entry `i` of the table in block `blk`. -/
def fetchEntry (fs : Params) (blk : Nat) (i : Outcome Nat) : Reads Nat := do
  let tbl ← fetchBlock fs blk fs.blockSize
  rdU32 tbl (← checkedMul (← i) 4)

/-- `block_at` -/
def fetchBlockAt (fs : Params) (inode : Inode) (n : Nat) : Reads Nat :=
  if h : n < 12 then return inode.blocks ⟨n, h⟩
  else do
    let n ← checkedSub n 12
    if n < fs.ppb then
      if inode.indirect = 0 then return 0
      else fetchEntry fs inode.indirect (.ok n)
    else do
      let n ← checkedSub n fs.ppb
      if inode.doubleIndirect = 0 then return 0
      else do
        let outer ← fetchEntry fs inode.doubleIndirect (checkedDiv n fs.ppb)
        if outer = 0 then return 0
        else fetchEntry fs outer (checkedMod n fs.ppb)

/-- What `read_dir` does with one of the direct pointers. -/
def fetchDirBlock (fs : Params) (out : List (String × Nat)) (blk : Nat) :
    Reads (List (String × Nat)) :=
  if blk = 0 then return out
  else do
    let data ← fetchBlock fs blk fs.blockSize
    readRecords data (data.length + 1) 0 out

/-- `read_dir` -/
def fetchDir (fs : Params) (inode : Inode) : Reads (List (String × Nat)) :=
  (List.ofFn inode.blocks).foldlM (fetchDirBlock fs) []

/-- The loop of `read_file` over the next `count` blocks, from block `n` on. -/
def fetchBlocks (fs : Params) (inode : Inode) (count n remaining : Nat) (out : List UInt8) :
    Reads (List UInt8) :=
  match count with
  | 0 => return out
  | count + 1 =>
      if remaining = 0 then return out
      else do
        let blk ← fetchBlockAt fs inode n
        if blk = 0 then return out
        else do
          let take := min remaining fs.blockSize
          let data ← fetchBlock fs blk take
          let left ← checkedSub remaining take
          fetchBlocks fs inode count (n + 1) left (out ++ data)

/-- `read_file` -/
def fetchFile (fs : Params) (inode : Inode) : Reads (List UInt8) := do
  let nblocks ← checkedDivCeil inode.size fs.blockSize
  fetchBlocks fs inode nblocks 0 inode.size []

/-! ## Answered by a disk -/

section Answer

variable {disk : Disk} {fs : Params} {inode : Inode}

@[simp] theorem answer_fetchRange (off len : Nat) :
    answer disk (fetchRange off len) = readRange disk off len := by
  have hloop : ∀ (l : List Nat) raw, l.foldlM (fun raw sec => answer disk (fetchSector raw sec)) raw =
      .ok (raw ++ l.flatMap fun sec => (disk (UInt32.ofNat sec)).toList) :=
    fun l raw => Outcome.foldlM_append (fun _ _ _ => rfl) raw
  simp only [fetchRange, readRange, answer_bind, answer_lift, answer_foldlM, hloop, Outcome.ok_bind,
    List.nil_append]

@[simp] theorem answer_fetchSuper : answer disk fetchSuper = readSuper disk := by
  simp [fetchSuper, readSuper, parseSuper]

@[simp] theorem answer_fetchInode (ino : Nat) :
    answer disk (fetchInode fs ino) = readInode disk fs ino := by
  simp [fetchInode, readInode, parseInode]

theorem answer_fetchEntry (blk : Nat) (i : Outcome Nat) :
    answer disk (fetchEntry fs blk i) = (do
      let tbl ← readRange disk (← checkedMul blk fs.blockSize) fs.blockSize
      rdU32 tbl (← checkedMul (← i) 4)) := by
  simp [fetchEntry, fetchBlock, Outcome.bind_assoc]

@[simp] theorem answer_fetchBlockAt (n : Nat) :
    answer disk (fetchBlockAt fs inode n) = blockAt disk fs inode n := by
  unfold fetchBlockAt blockAt
  by_cases hdirect : n < 12
  · simp [hdirect]
  · simp [hdirect, answer_fetchEntry, Outcome.bind_assoc]

@[simp] theorem answer_fetchDirBlock (out : List (String × Nat)) (blk : Nat) :
    answer disk (fetchDirBlock fs out blk) = readDirBlock disk fs out blk := by
  simp [fetchDirBlock, readDirBlock, fetchBlock, Outcome.bind_assoc]

@[simp] theorem answer_fetchDir : answer disk (fetchDir fs inode) = readDir disk fs inode := by
  simp only [fetchDir, readDir, answer_foldlM, answer_fetchDirBlock]

@[simp] theorem answer_fetchBlocks (count n remaining : Nat) (out : List UInt8) :
    answer disk (fetchBlocks fs inode count n remaining out) =
      readBlocks disk fs inode count n remaining out := by
  induction count generalizing n remaining out with
  | zero => rfl
  | succ count ih => simp [fetchBlocks, readBlocks, fetchBlock, Outcome.bind_assoc, ih]

@[simp] theorem answer_fetchFile : answer disk (fetchFile fs inode) = readFile disk fs inode := by
  simp [fetchFile, readFile]

end Answer

/-! ## The self test of the reader -/

/-- `entries.iter().find(|(name, _)| name == …)` -/
def findEntry (entries : List (String × Nat)) (name : String) : Option Nat :=
  (entries.find? fun e => e.1 = name).map Prod.snd

/-- `b"Hello from Munux ext2!\n"` -/
def helloText : List UInt8 := "Hello from Munux ext2!\n".toUTF8.toList

/-- The check of `big.bin`: `byte[i] = i & 0xFF`. -/
def bigOk (data : List UInt8) : Bool :=
  data.length = 20480 && data.zipIdx.all fun e => e.1 = UInt8.ofNat (e.2 &&& 0xFF)

/-- `selftest`, with the files and directories by the functions that read them. -/
def selftestWith {M : Type → Type} [Monad M] (readSuper : M (Option Params))
    (readInode : Params → Nat → M Inode) (readDir : Params → Inode → M (List (String × Nat)))
    (readFile : Params → Inode → M (List UInt8)) : M Bool := do
  match ← readSuper with
  | none => return false
  | some fs =>
      let root ← readInode fs rootIno
      let entries ← readDir fs root
      match findEntry entries "hello.txt" with
      | none => return false
      | some ino =>
          let hello ← readFile fs (← readInode fs ino)
          if hello ≠ helloText then return false
          else match findEntry entries "big.bin" with
            | none => return true
            | some big => return bigOk (← readFile fs (← readInode fs big))

/-- `selftest` of the reader, on the sectors of a disk and on the cache. -/
def selftest (disk : Disk) : Outcome Bool :=
  selftestWith (readSuper disk) (readInode disk) (readDir disk) (readFile disk)

def fetchSelftest : Reads Bool := selftestWith fetchSuper fetchInode fetchDir fetchFile

theorem answer_fetchSelftest (disk : Disk) : answer disk fetchSelftest = selftest disk := by
  unfold fetchSelftest selftest selftestWith
  simp only [answer_bind, answer_fetchSuper]
  congr 1
  funext fs?
  cases fs? with
  | none => rfl
  | some fs =>
      simp only [answer_bind, answer_fetchInode, answer_fetchDir]
      congr 1
      funext root
      congr 1
      funext entries
      cases findEntry entries "hello.txt" with
      | none => rfl
      | some ino =>
          simp only [answer_bind, answer_ite, answer_fetchInode, answer_fetchFile]
          cases findEntry entries "big.bin" with
          | none => rfl
          | some big => simp

/-! ## How many sectors are read -/

section Cost

variable {disk : Disk} {fs : Params} {inode : Inode}

theorem cost_fetchRange_le (off len : Nat) : cost disk (fetchRange off len) ≤ len / 512 + 2 := by
  refine cost_lift_bind_le fun last hlast => cost_lift_bind_le fun stop hstop =>
    cost_lift_bind_le fun sectors hsectors => cost_lift_bind_le fun _ _ => ?_
  have hloop : cost disk ((List.range' (off / 512) sectors).foldlM fetchSector []) ≤ sectors := by
    have hstep : ∀ b, ∀ a ∈ List.range' (off / 512) sectors, cost disk (fetchSector b a) ≤ 1 :=
      fun _ _ _ => Nat.le_refl 1
    have hle := cost_foldlM_le hstep []
    simpa using hle
  have hcount : sectors ≤ len / 512 + 2 := by
    obtain ⟨rfl, -⟩ := checkedAdd_eq_ok.1 hlast
    obtain ⟨rfl, -⟩ := checkedDivCeil_eq_ok.1 hstop
    obtain ⟨rfl, -⟩ := checkedSub_eq_ok.1 hsectors
    omega
  exact (cost_bind_le (n := 0) hloop fun _ _ =>
    cost_lift_bind_le fun _ _ => (cost_lift _).le).trans hcount

/-- The sectors of a block, when it does not start with one. -/
def Params.span (fs : Params) : Nat := fs.blockSize / 512 + 2

theorem cost_fetchBlock_le (blk : Nat) {len : Nat} (hlen : len ≤ fs.blockSize) :
    cost disk (fetchBlock fs blk len) ≤ fs.span := by
  refine cost_lift_bind_le fun off _ => (cost_fetchRange_le off len).trans ?_
  exact Nat.add_le_add_right (Nat.div_le_div_right hlen) 2

theorem cost_fetchEntry_le (blk : Nat) (i : Outcome Nat) :
    cost disk (fetchEntry fs blk i) ≤ fs.span :=
  cost_bind_le (n := 0) (cost_fetchBlock_le blk le_rfl) fun _ _ =>
    cost_lift_bind_le fun _ _ => cost_lift_bind_le fun _ _ => (cost_lift _).le

/-- At most two tables. -/
theorem cost_fetchBlockAt_le (n : Nat) :
    cost disk (fetchBlockAt fs inode n) ≤ fs.span + fs.span := by
  unfold fetchBlockAt
  split
  · exact Nat.zero_le _
  refine cost_lift_bind_le fun n _ => ?_
  split
  · split
    · exact Nat.zero_le _
    · exact (cost_fetchEntry_le _ _).trans (Nat.le_add_right _ _)
  refine cost_lift_bind_le fun n _ => ?_
  split
  · exact Nat.zero_le _
  refine cost_bind_le (cost_fetchEntry_le _ _) fun outer _ => ?_
  split
  · exact Nat.zero_le _
  · exact cost_fetchEntry_le _ _

theorem cost_fetchDirBlock_le (out : List (String × Nat)) (blk : Nat) :
    cost disk (fetchDirBlock fs out blk) ≤ fs.span := by
  unfold fetchDirBlock
  split_ifs
  · exact Nat.zero_le _
  · exact cost_bind_le (n := 0) (cost_fetchBlock_le blk le_rfl) fun _ _ => (cost_lift _).le

theorem cost_fetchDir_le : cost disk (fetchDir fs inode) ≤ 12 * fs.span := by
  have hstep : ∀ out, ∀ blk ∈ List.ofFn inode.blocks,
      cost disk (fetchDirBlock fs out blk) ≤ fs.span :=
    fun out blk _ => cost_fetchDirBlock_le out blk
  have hle := cost_foldlM_le hstep []
  rwa [List.length_ofFn] at hle

/-- Every block of a file takes two tables and itself. -/
theorem cost_fetchBlocks_le (count n remaining : Nat) (out : List UInt8) :
    cost disk (fetchBlocks fs inode count n remaining out) ≤ count * (3 * fs.span) := by
  induction count generalizing n remaining out with
  | zero => exact Nat.zero_le _
  | succ count ih =>
      rw [fetchBlocks]
      split_ifs
      · exact Nat.zero_le _
      have hturn : cost disk (fetchBlockAt fs inode n >>= fun blk =>
          if blk = 0 then return out
          else do
            let data ← fetchBlock fs blk (min remaining fs.blockSize)
            let left ← checkedSub remaining (min remaining fs.blockSize)
            fetchBlocks fs inode count (n + 1) left (out ++ data)) ≤
          fs.span + fs.span + (fs.span + count * (3 * fs.span)) := by
        refine cost_bind_le (cost_fetchBlockAt_le n) fun blk _ => ?_
        split_ifs
        · exact Nat.zero_le _
        · exact cost_bind_le (cost_fetchBlock_le blk (Nat.min_le_right ..)) fun data _ =>
            cost_lift_bind_le fun left _ => ih _ _ _
      refine hturn.trans ?_
      rw [Nat.succ_mul count]
      omega

theorem cost_fetchFile_le (hbs : fs.blockSize ≠ 0 → 1024 ≤ fs.blockSize) :
    cost disk (fetchFile fs inode) ≤ 3 * (inode.size + fs.blockSize) / 256 := by
  refine cost_lift_bind_le fun nblocks hblocks => ?_
  obtain ⟨rfl, hne⟩ := checkedDivCeil_eq_ok.1 hblocks
  refine (cost_fetchBlocks_le _ _ _ _).trans ?_
  have hspan : fs.span * 256 ≤ fs.blockSize := by
    have := hbs hne
    unfold Params.span
    omega
  have hcover : (inode.size + fs.blockSize - 1) / fs.blockSize * fs.blockSize ≤
      inode.size + fs.blockSize := (Nat.div_mul_le_self _ _).trans (Nat.sub_le _ _)
  rw [Nat.le_div_iff_mul_le (by decide)]
  calc (inode.size + fs.blockSize - 1) / fs.blockSize * (3 * fs.span) * 256
      = 3 * ((inode.size + fs.blockSize - 1) / fs.blockSize * (fs.span * 256)) := by ring
    _ ≤ 3 * ((inode.size + fs.blockSize - 1) / fs.blockSize * fs.blockSize) :=
        Nat.mul_le_mul_left 3 (Nat.mul_le_mul_left _ hspan)
    _ ≤ 3 * (inode.size + fs.blockSize) := Nat.mul_le_mul_left 3 hcover

theorem cost_fetchInode_le (hisz : fs.inodeSize < 2 ^ 16) (ino : Nat) :
    cost disk (fetchInode fs ino) ≤ 2 ^ 8 := by
  refine cost_lift_bind_le fun _ _ => cost_lift_bind_le fun _ _ => cost_lift_bind_le fun _ _ =>
    cost_lift_bind_le fun _ _ => cost_lift_bind_le fun _ _ => cost_lift_bind_le fun _ _ => ?_
  have hrest : 32 / 512 + 2 + (fs.inodeSize / 512 + 2) ≤ 2 ^ 8 := by omega
  refine (cost_bind_le (cost_fetchRange_le _ 32) fun desc _ => cost_lift_bind_le fun _ _ =>
    cost_lift_bind_le fun _ _ => cost_lift_bind_le fun _ _ => cost_lift_bind_le fun off _ => ?_).trans
    hrest
  exact cost_bind_le (n := 0) (cost_fetchRange_le off fs.inodeSize) fun _ _ => (cost_lift _).le

/-- What is known of the parameters of an image. -/
theorem readSuper_sized (h : readSuper disk = .ok (some fs)) :
    fs.Sized ∧ (fs.blockSize ≠ 0 → 1024 ≤ fs.blockSize) := by
  rw [readSuper_eq] at h
  split_ifs at h with hmagic hlog
  · cases h
  obtain rfl := Option.some.inj (Outcome.ok.inj h)
  refine ⟨params_sized hlog, fun hne => ?_⟩
  have hdvd : 1024 ∣ (params (bytes disk)).blockSize :=
    (Nat.dvd_mod_iff (show 1024 ∣ wordCount by decide)).2 (Nat.dvd_mul_right 1024 _)
  exact Nat.le_of_dvd (Nat.pos_of_ne_zero hne) hdvd

theorem readInode_size_lt {ino : Nat} (hfs : fs.Sized) (h : readInode disk fs ino = .ok inode) :
    inode.size < wordCount := by
  obtain ⟨-, rfl⟩ := (readInode_eq_ok hfs).1 h
  exact load32_lt _ _

/-- The inode and the contents of a file. -/
theorem cost_fetchInodeFile_le (hfs : fs.Sized) (hbs : fs.blockSize ≠ 0 → 1024 ≤ fs.blockSize)
    {α : Type} {g : List UInt8 → Reads α} {n : Nat} (ino : Nat)
    (hg : ∀ data, cost disk (g data) ≤ n) :
    cost disk (fetchInode fs ino >>= fun inode => fetchFile fs inode >>= g) ≤
      2 ^ 8 + (2 ^ 27 + n) := by
  refine cost_bind_le (cost_fetchInode_le hfs.inodeSize_le ino) fun inode hinode =>
    cost_bind_le ((cost_fetchFile_le hbs).trans ?_) fun data _ => hg data
  have hsize := readInode_size_lt hfs ((answer_fetchInode ino).symm.trans hinode)
  have hblock := hfs.blockSize_le
  have hword : wordCount = 2 ^ 32 := rfl
  omega

/-- The self test reads fewer sectors than a counter can hold. -/
theorem cost_fetchSelftest_le (disk : Disk) : cost disk fetchSelftest ≤ 2 ^ 29 := by
  have hsuper : cost disk fetchSuper ≤ 4 :=
    cost_bind_le (n := 0) (cost_fetchRange_le 1024 1024) fun _ _ => (cost_lift _).le
  refine (cost_bind_le (n := 2 ^ 29 - 4) hsuper fun fs? hfs? => ?_).trans (by decide)
  rw [answer_fetchSuper] at hfs?
  cases fs? with
  | none => exact Nat.zero_le _
  | some fs =>
      obtain ⟨hfs, hbs⟩ := readSuper_sized hfs?
      have hspan : 12 * fs.span ≤ 2 ^ 27 := by
        have := hfs.blockSize_le
        unfold Params.span
        omega
      refine (cost_bind_le (n := 2 ^ 27 + 2 ^ 28 + 2 ^ 10)
        (cost_fetchInode_le hfs.inodeSize_le rootIno) fun root _ => ?_).trans (by decide)
      refine (cost_bind_le (n := 2 ^ 28 + 2 ^ 10) (cost_fetchDir_le.trans hspan)
        fun entries _ => ?_).trans (by decide)
      cases findEntry entries "hello.txt" with
      | none => exact Nat.zero_le _
      | some ino =>
          refine (cost_fetchInodeFile_le (n := 2 ^ 8 + (2 ^ 27 + 0)) hfs hbs ino fun hello =>
            ?_).trans (by decide)
          split
          · exact Nat.zero_le _
          · cases findEntry entries "big.bin" with
            | none => exact Nat.zero_le _
            | some big => exact cost_fetchInodeFile_le hfs hbs big fun data => Nat.zero_le _

end Cost

/-! ## A small image -/

section Image

variable {disk : Disk} {inode : Inode}

/-- An image with 1 KiB blocks. The superblock is block 1, the descriptor of the only group is in
block 2, and the inode table starts at block 5. The root directory is block 7, and `hello.txt` is
block 8. -/
def helloBlocks (blk : Nat) : List UInt8 :=
  if blk = 1 then List.replicate 40 0 ++ 16 :: List.replicate 15 0 ++ [0x53, 0xEF]
  else if blk = 2 then List.replicate 8 0 ++ [5]
  else if blk = 5 then List.replicate 133 0 ++ 4 :: List.replicate 34 0 ++ [7]
  else if blk = 6 then List.replicate 388 0 ++ 23 :: List.replicate 35 0 ++ [8]
  else if blk = 7 then [deletedRecord, fileRecord].flatMap Record.encode
  else if blk = 8 then helloText
  else []

def helloImage : ByteMem := fun a => (helloBlocks (a / 1024)).getD (a % 1024) 0

theorem load32_hello (himage : Agree helloImage (bytes disk) 0 wordCount) {a v : Nat}
    (ha : a + 4 ≤ wordCount) (h : load32 helloImage a = v) : load32 (bytes disk) a = v :=
  (load32_congr (himage.mono (Nat.zero_le a) ha)).trans h

theorem readSuper_hello (himage : Agree helloImage (bytes disk) 0 wordCount) :
    readSuper disk = .ok (some tableFs) := by
  have hmagic : magic (bytes disk) = ext2Magic := by
    rw [magic, load16, himage _ (Nat.zero_le _) (by decide), himage _ (Nat.zero_le _) (by decide)]
    decide +kernel
  exact readSuper_tableFs hmagic (load32_hello himage (by decide) (by decide +kernel))
    (load32_hello himage (by decide) (by decide +kernel))
    (load32_hello himage (by decide) (by decide +kernel))

theorem readInode_hello_root (himage : Agree helloImage (bytes disk) 0 wordCount) :
    ∃ inode, readInode disk tableFs rootIno = .ok inode ∧
      ∀ i, inode.blocks i = if i = 0 then 7 else 0 := by
  refine ⟨_, readInode_tableFs (by decide) (by decide)
    (load32_hello himage (by decide) (by decide +kernel)), fun i => ?_⟩
  refine load32_hello himage (by have := i.isLt; unfold wordCount rootIno; omega) ?_
  revert i
  decide +kernel

theorem readInode_hello_file (himage : Agree helloImage (bytes disk) 0 wordCount) :
    ∃ inode, readInode disk tableFs 12 = .ok inode ∧ inode.size = 23 ∧ inode.blocks 0 = 8 :=
  ⟨_, readInode_tableFs (by decide) (by decide) (load32_hello himage (by decide) (by decide +kernel)),
    load32_hello himage (by decide) (by decide +kernel),
    load32_hello himage (by decide) (by decide +kernel)⟩

theorem readDir_hello (himage : Agree helloImage (bytes disk) 0 wordCount)
    (hroot : ∀ i, inode.blocks i = if i = 0 then 7 else 0) :
    readDir disk tableFs inode = .ok [("hello.txt", 12)] := by
  have hstored : ∀ i : Fin 12, Stored (bytes disk) tableFs (inode.blocks i)
      (if i = 0 then [deletedRecord, fileRecord] else []) := by
    intro i
    rw [hroot]
    by_cases hi : i = 0
    · have hlen : (helloBlocks 7).length = tableFs.blockSize := length_two
      rw [if_pos hi, if_pos hi, Stored, if_neg (by decide),
        slice_congr (himage.mono (Nat.zero_le _) (by decide))]
      exact ⟨by decide, slice_blocks hlen⟩
    · rw [if_neg hi, if_neg hi, Stored, if_pos rfl]
  exact readDir_stored ⟨by decide, by decide⟩ hstored

theorem readFile_hello (himage : Agree helloImage (bytes disk) 0 wordCount)
    (hsize : inode.size = 23) (hfirst : inode.blocks 0 = 8) :
    readFile disk tableFs inode = .ok helloText := by
  have htext : readRange disk 8192 23 = .ok helloText := by
    refine (readRange_eq_ok (by decide)).2 ⟨by decide, ?_⟩
    rw [slice_congr (himage.mono (Nat.zero_le _) (by decide))]
    decide +kernel
  have hmul : checkedMul 8 1024 = .ok 8192 := by decide
  have hsub : checkedSub 23 23 = .ok 0 := by decide
  simp [readFile, readBlocks, blockAt, checkedDivCeil, tableFs, hsize, hfirst, hmul, hsub, htext]

/-- The self test passes on every disk that starts with the image. -/
theorem selftest_hello (himage : Agree helloImage (bytes disk) 0 wordCount) :
    selftest disk = .ok true := by
  obtain ⟨root, hroot, hblocks⟩ := readInode_hello_root himage
  obtain ⟨file, hfile, hsize, hfirst⟩ := readInode_hello_file himage
  have hfound : findEntry [("hello.txt", 12)] "hello.txt" = some 12 ∧
      findEntry [("hello.txt", 12)] "big.bin" = none := by decide
  simp [selftest, selftestWith, readSuper_hello himage, hroot, readDir_hello himage hblocks, hfile,
    hfound, readFile_hello himage hsize hfirst]

end Image

/-! ## On the cache -/

section Cached

variable {D α : Type} {drv : Driver D}

/-- A program that reads through the cache. -/
def onCache (drv : Driver D) (p : Reads α) (s : Store D) : Outcome (α × Store D) :=
  p.run (fun lba s => readSector drv s lba) s

/-- A range is read as `read_range` reads it. -/
theorem onCache_fetchRange (s : Store D) (off len : Nat) :
    onCache drv (fetchRange off len) s = cachedReadRange drv s off len := by
  have hloop : ∀ (l : List Nat) raw s, run (fun lba s => readSector drv s lba)
      (l.foldlM fetchSector raw) s = l.foldlM (readInto drv) (raw, s) := by
    intro l
    induction l with
    | nil => exact fun _ _ => rfl
    | cons sec l ih =>
        intro raw s
        simp only [List.foldlM_cons, run_bind, ih]
        rfl
  simp only [onCache, fetchRange, cachedReadRange, run_bind, run_lift, Outcome.bind_assoc,
    Outcome.ok_bind, hloop, Outcome.pure_eq]

/-- **On a coherent cache** a program computes what it computes from the disk, as long as the
counters do not overflow. -/
theorem onCache_coherent {s : Store Disk} (h : Coherent s) (p : Reads α)
    (hcount : s.theCache.hits + s.theCache.misses + cost s.disk p < wordCount) :
    ∃ s', onCache arrayDriver p s = (answer s.disk p >>= fun a => .ok (a, s')) ∧
      Coherent s' ∧ s'.disk = s.disk := by
  obtain ⟨s', hrun, hco, hdisk, -⟩ := run_eq_answer (f := s.disk)
    (h := fun lba t => readSector arrayDriver t lba)
    (I := fun n t => Coherent t ∧ t.disk = s.disk ∧
      t.theCache.hits + t.theCache.misses + n < wordCount) (fun n lba t ⟨hco, hdisk, hn⟩ => by
        obtain ⟨t', hcall, hco', hdisk', hsum⟩ := readSector_spec hco lba (by omega)
        exact ⟨t', hdisk ▸ hcall, hco', hdisk'.trans hdisk, by omega⟩)
    p (n := 0) ⟨h, rfl, hcount⟩
  exact ⟨s', hrun, hco, hdisk⟩

end Cached

/-! ## The checks at boot -/

section Boot

variable {D : Type} {drv : Driver D} {s s' : Store D} {b : Bool}

/-- `selftest` of `munux-rs/src/bcache.rs`. -/
def bcacheSelftest (drv : Driver D) (s : Store D) : Outcome (Bool × Store D) := do
  let (h0, m0) := stats s
  let (a, s) ← readSector drv s 2
  let (b, s) ← readSector drv s 2
  let (h1, m1) := stats s
  return (a = b && h0 < h1 && m0 < m1, s)

/-- The checks that `kernel_main` makes when there is a disk; a check that fails stops the
kernel. -/
def storageChecks (drv : Driver D) (s : Store D) : Outcome (Store D) := do
  let (cacheOk, s) ← bcacheSelftest drv s
  if cacheOk then
    let (readerOk, s) ← onCache drv fetchSelftest s
    if readerOk then return s else .panic
  else .panic

/-- A second read of a sector is a hit. -/
theorem readSector_again {lba : UInt32} {block : Block} (h : readSector drv s lba = .ok (block, s')) :
    s'.theCache.map[lba]? = some block := by
  rcases readSector_cases h with ⟨hget, hmap, -⟩ | ⟨-, -, hmap⟩
  · rw [hmap, hget]
  · rw [hmap, getElem?_insert_eq, if_pos rfl]

/-- What a read does to the counters, on a hit -/
theorem readSector_hit {lba : UInt32} {block c : Block} (hget : s.theCache.map[lba]? = some c)
    (h : readSector drv s lba = .ok (block, s')) :
    s'.theCache.hits = s.theCache.hits + 1 ∧ s'.theCache.misses = s.theCache.misses := by
  simp only [readSector, hget, Outcome.bind_eq_ok, checkedAdd_eq_ok, Outcome.pure_eq,
    Outcome.ok.injEq, Prod.mk.injEq] at h
  obtain ⟨_, ⟨rfl, -⟩, -, rfl⟩ := h
  exact ⟨rfl, rfl⟩

/-- and on a miss. -/
theorem readSector_miss {lba : UInt32} {block : Block} (hget : s.theCache.map[lba]? = none)
    (h : readSector drv s lba = .ok (block, s')) :
    s'.theCache.hits = s.theCache.hits ∧ s'.theCache.misses = s.theCache.misses + 1 := by
  simp only [readSector, hget, Outcome.bind_eq_ok, checkedAdd_eq_ok, Outcome.pure_eq,
    Outcome.ok.injEq, Prod.mk.injEq] at h
  obtain ⟨_, ⟨rfl, -⟩, -, rfl⟩ := h
  exact ⟨rfl, rfl⟩

/-- The two reads of the self test of the cache. -/
theorem bcacheSelftest_cases (h : bcacheSelftest drv s = .ok (b, s')) :
    ∃ block s₁, readSector drv s 2 = .ok (block, s₁) ∧ readSector drv s₁ 2 = .ok (block, s') ∧
      b = (s.theCache.map[(2 : UInt32)]?).isNone := by
  obtain ⟨⟨block, s₁⟩, hread, hrest⟩ := Outcome.bind_eq_ok.1 h
  obtain ⟨⟨block', s₂⟩, hread', heq⟩ := Outcome.bind_eq_ok.1 hrest
  obtain ⟨rfl, rfl⟩ := Prod.mk.inj (Outcome.ok.inj heq)
  have hagain := readSector_again hread
  have hblock : block' = block := by
    rcases readSector_cases hread' with ⟨hget, -⟩ | ⟨hget, -⟩
    · exact Option.some.inj (hget.symm.trans hagain)
    · rw [hagain] at hget
      cases hget
  subst hblock
  refine ⟨block', s₁, hread, hread', ?_⟩
  obtain ⟨hhits, hmisses⟩ := readSector_hit hagain hread'
  simp only [hhits, hmisses]
  cases hget : s.theCache.map[(2 : UInt32)]? with
  | none =>
      obtain ⟨hhits', hmisses'⟩ := readSector_miss hget hread
      simp [hhits', hmisses']
  | some c =>
      obtain ⟨hhits', hmisses'⟩ := readSector_hit hget hread
      simp [hhits', hmisses']

/-- **The self test of the cache** passes exactly when sector 2 was not in the cache, whatever the
driver does. -/
theorem bcacheSelftest_eq (drv : Driver D) (s : Store D)
    (hcount : s.theCache.hits + s.theCache.misses + 2 < wordCount) :
    ∃ s', bcacheSelftest drv s = .ok ((s.theCache.map[(2 : UInt32)]?).isNone, s') ∧
      s'.theCache.hits + s'.theCache.misses = s.theCache.hits + s.theCache.misses + 2 := by
  obtain ⟨block, s₁, hread, hsum⟩ := readSector_returns drv s 2 (by omega)
  obtain ⟨block', s', hread', hsum'⟩ := readSector_returns drv s₁ 2 (by omega)
  obtain ⟨b, hrun⟩ : ∃ b, bcacheSelftest drv s = .ok (b, s') :=
    ⟨_, by simp only [bcacheSelftest, hread, hread', Outcome.ok_bind]; rfl⟩
  obtain ⟨-, -, -, -, rfl⟩ := bcacheSelftest_cases hrun
  exact ⟨s', hrun, by omega⟩

/-- It passes the first time, and not a second time. -/
theorem bcacheSelftest_eq_twice :
    ∃ s s', bcacheSelftest arrayDriver (Store.boot fun _ => Vector.replicate 512 0) = .ok (true, s) ∧
      bcacheSelftest arrayDriver s = .ok (false, s') := by
  obtain ⟨s, hfirst, hsum⟩ :=
    bcacheSelftest_eq arrayDriver (Store.boot fun _ => Vector.replicate 512 0) (by
      simp [Store.boot, Store.theCache, Cache.new, wordCount])
  obtain ⟨s', hsecond, -⟩ := bcacheSelftest_eq arrayDriver s (by
    rw [hsum]
    simp [Store.boot, Store.theCache, Cache.new, wordCount])
  obtain ⟨block, s₁, -, hread', -⟩ := bcacheSelftest_cases hfirst
  rw [readSector_again hread'] at hsecond
  refine ⟨s, s', ?_, hsecond⟩
  rw [hfirst]
  simp [Store.boot, Store.theCache, Cache.new]

/-- What the checks read, as one program. -/
def bootReads : Reads Bool := do
  let _ ← query 2
  let _ ← query 2
  fetchSelftest

theorem answer_bootReads (disk : Disk) : answer disk bootReads = selftest disk := by
  simp [bootReads, answer_fetchSelftest]

theorem cost_bootReads_lt (disk : Disk) : cost disk bootReads < wordCount := by
  have hcost : cost disk bootReads ≤ 1 + (1 + 2 ^ 29) :=
    cost_bind_le (cost_query 2).le fun _ _ =>
      cost_bind_le (cost_query 2).le fun _ _ => cost_fetchSelftest_le disk
  exact Nat.lt_of_le_of_lt hcost (by decide)

/-- As long as sector 2 has not been read, the checks are these reads, whatever comes of them. -/
theorem storageChecks_eq (hmiss : s.theCache.map[(2 : UInt32)]? = none) :
    storageChecks drv s =
      (onCache drv bootReads s >>= fun r => if r.1 then .ok r.2 else .panic) := by
  have hreads : onCache drv bootReads s = (readSector drv s 2 >>= fun r =>
      readSector drv r.2 2 >>= fun r => onCache drv fetchSelftest r.2) := by
    simp only [onCache, bootReads, run_bind, run_query]
  rw [hreads]
  cases hread : readSector drv s 2 with
  | panic => simp only [storageChecks, bcacheSelftest, hread]; rfl
  | diverge => simp only [storageChecks, bcacheSelftest, hread]; rfl
  | ok r =>
      cases hread' : readSector drv r.2 2 with
      | panic => simp only [storageChecks, bcacheSelftest, hread, Outcome.ok_bind, hread']; rfl
      | diverge => simp only [storageChecks, bcacheSelftest, hread, Outcome.ok_bind, hread']; rfl
      | ok r' =>
          obtain ⟨b, hcache⟩ : ∃ b, bcacheSelftest drv s = .ok (b, r'.2) :=
            ⟨_, by simp only [bcacheSelftest, hread, hread', Outcome.ok_bind]; rfl⟩
          obtain ⟨-, -, -, -, rfl⟩ := bcacheSelftest_cases hcache
          simp only [storageChecks, hcache, hmiss, hread', Option.isNone_none, if_true,
            Outcome.ok_bind]
          rfl

theorem storageChecks_eq_ok (hmiss : s.theCache.map[(2 : UInt32)]? = none) :
    storageChecks drv s = .ok s' ↔ onCache drv bootReads s = .ok (true, s') := by
  rw [storageChecks_eq hmiss, Outcome.bind_eq_ok]
  constructor
  · rintro ⟨⟨b, t⟩, hreads, h⟩
    cases b with
    | true =>
        obtain rfl : t = s' := Outcome.ok.inj h
        exact hreads
    | false => cases h
  · intro hreads
    exact ⟨_, hreads, rfl⟩

theorem boot_miss (disk : D) (lba : UInt32) : (Store.boot disk).theCache.map[lba]? = none := by
  simp [Store.boot, Store.theCache, Cache.new]

/-- **The checks on a disk that works.** From the first use of the cache, the checks end as the
reader's self test does on the disk itself: the kernel goes on if that returns `true`, stops if it
returns `false`, and otherwise panics or does not come back as it does. -/
theorem storageChecks_iff (disk : Disk) :
    ((∃ s, storageChecks arrayDriver (Store.boot disk) = .ok s) ↔ selftest disk = .ok true) ∧
      ∃ s : Store Disk, s.disk = disk ∧ Coherent s ∧
        storageChecks arrayDriver (Store.boot disk) =
          (selftest disk >>= fun b => if b then .ok s else .panic) := by
  obtain ⟨s, hrun, hco, hdisk⟩ := onCache_coherent (coherent_boot disk) bootReads (by
    have hcost := cost_bootReads_lt disk
    have hzero : (Store.boot disk).theCache.hits + (Store.boot disk).theCache.misses = 0 := rfl
    rw [hzero, Nat.zero_add]
    exact hcost)
  rw [show (Store.boot disk).disk = disk from rfl, answer_bootReads] at hrun
  have heq : storageChecks arrayDriver (Store.boot disk) =
      (selftest disk >>= fun b => if b then .ok s else .panic) := by
    rw [storageChecks_eq (boot_miss disk 2), hrun]
    cases selftest disk with
    | ok b => rfl
    | panic => rfl
    | diverge => rfl
  refine ⟨?_, s, hdisk, hco, heq⟩
  rw [heq]
  cases selftest disk with
  | ok b => cases b <;> simp
  | panic => simp
  | diverge => simp

/-- The sectors below 4 GiB have 28-bit numbers. -/
theorem bytes_driveDisk (d : AtaDrive) {a : Nat} (ha : a < wordCount) :
    bytes (driveDisk d) a = bytes d.sectors a := by
  have hword : wordCount = 4294967296 := rfl
  have hlba : UInt32.ofNat (a / 512) < 0x10000000 := by
    rw [UInt32.lt_iff_toNat_lt, UInt32.toNat_ofNat', Nat.mod_eq_of_lt (by omega)]
    change a / 512 < 268435456
    omega
  rw [bytes, driveDisk, sector28_of_lt hlba, bytes]

/-- **The checks on a drive.** Whatever an idle drive holds, the kernel can pass its checks on it
exactly when the reader's self test passes on the sectors of the drive: no timing of the drive makes
it pass on another image, and some timing makes it pass on this one. -/
theorem storageChecks_drive_iff {d : AtaDrive} (h : d.phase = .idle) :
    (∃ a s d', storageChecks ataDriver (Store.boot a) = .ok s ∧ Served d a d' s.disk) ↔
      selftest (driveDisk d) = .ok true := by
  simp only [storageChecks_eq_ok (boot_miss _ 2), ← answer_bootReads]
  constructor
  · rintro ⟨a, s, d', hrun, hserved⟩
    exact (queries_on_drive bootReads (boot_inStep (.inl h) a).1 hrun hserved).1
  · intro hanswer
    obtain ⟨a, s, d', -, hrun, hserved⟩ := queries_served bootReads (c := Cache.new) [] h hanswer
      (fun lba block hget => by simp [Cache.new] at hget)
      (by simpa [Cache.new] using cost_bootReads_lt (driveDisk d))
    exact ⟨a, s, d', hrun, hserved⟩

/-- **The checks on two drives.** The kernel goes on with the drive that holds the image, and stops
on a drive of zeros. -/
theorem storageChecks_drive_hello :
    (∃ a s d', storageChecks ataDriver (Store.boot a) = .ok s ∧
        Served { blankDrive with sectors := ofBytes helloImage } a d' s.disk) ∧
      ¬∃ a s d', storageChecks ataDriver (Store.boot a) = .ok s ∧
        Served blankDrive a d' s.disk := by
  constructor
  · refine (storageChecks_drive_iff rfl).2 (selftest_hello fun a _ ha => ?_)
    rw [bytes_driveDisk _ ha]
    exact bytes_ofBytes helloImage ha
  · have hblank : readSuper (driveDisk blankDrive) = .ok none := by
      rw [readSuper_eq, if_pos]
      simp [magic, load16, bytes, driveDisk, blankDrive, ext2Magic]
    rw [storageChecks_drive_iff rfl]
    simp [selftest, selftestWith, hblank]

end Boot

end Munux.Fs
