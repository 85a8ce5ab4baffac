import Munux.Fs.Ext2

/-!
# What the ext2 reader decodes

The functions of the reader, as facts about the bytes of the disk. Each of them returns exactly
when the places it looks at are inside the addressable 4 GiB and inside their tables, and then it
returns what is stored there:

- `readRange_eq_ok`: a range is a window of the disk;
- `readSuper_eq`, `readInode_eq_ok`, `blockAt_eq_ok`: the fields of the superblock and of an
  inode, and the pointer to a block of a file;
- `readDir_returns`: the records that the record lengths of the direct blocks lead to;
- `readFile_returns`: the blocks up to the first hole.
-/

namespace Munux.Fs

open ByteMem

/-- The disk as bytes. -/
def bytes (disk : Disk) : ByteMem := fun a => (disk (UInt32.ofNat (a / 512)))[a % 512]

/-- The disk that holds an image. -/
def ofBytes (m : ByteMem) : Disk := fun lba => Vector.ofFn fun i => m (512 * lba.toNat + i)

/-- The disk holds the image, as far as there are sectors. -/
theorem bytes_ofBytes (m : ByteMem) {a : Nat} (ha : a < wordCount) : bytes (ofBytes m) a = m a := by
  have hlba : (UInt32.ofNat (a / 512)).toNat = a / 512 := by
    rw [UInt32.toNat_ofNat', Nat.mod_eq_of_lt]
    exact (Nat.div_le_self a 512).trans_lt ha
  simp only [bytes, ofBytes, Vector.getElem_ofFn, hlba]
  rw [Nat.div_add_mod]

theorem load16_ofBytes (m : ByteMem) {a : Nat} (ha : a + 1 < wordCount) :
    load16 (bytes (ofBytes m)) a = load16 m a := by
  unfold load16
  rw [bytes_ofBytes m (by omega), bytes_ofBytes m ha]

theorem load32_ofBytes (m : ByteMem) {a : Nat} (ha : a + 4 ≤ wordCount) :
    load32 (bytes (ofBytes m)) a = load32 m a :=
  load32_congr fun _ _ hi => bytes_ofBytes m (hi.trans_le ha)

variable {disk : Disk} {m : ByteMem} {fs : Params} {inode : Inode} {off len ino n v : Nat}
  {b : List UInt8}

/-! ## Ranges -/

theorem sector_toList (disk : Disk) (sec : Nat) :
    (disk (UInt32.ofNat sec)).toList = slice (bytes disk) (512 * sec) 512 := by
  apply List.ext_getElem
  · simp
  · intro i hi _
    have hi' : i < 512 := by simpa using hi
    have hdiv : (512 * sec + i) / 512 = sec := by omega
    have hmod : (512 * sec + i) % 512 = i := by omega
    simp [slice, bytes, hdiv, hmod]

theorem sectors_flatMap (disk : Disk) (start count : Nat) :
    ((List.range' start count).flatMap fun sec => (disk (UInt32.ofNat sec)).toList) =
      slice (bytes disk) (512 * start) (512 * count) := by
  induction count generalizing start with
  | zero => rfl
  | succ count ih =>
      have hnext : 512 * (start + 1) = 512 * start + 512 := by omega
      have hcount : 512 * (count + 1) = 512 + 512 * count := by omega
      rw [List.range'_succ, List.flatMap_cons, ih, sector_toList, hnext, slice_append, hcount]

/-- **`read_range` is a window of the disk.** -/
theorem readRange_eq_ok (hlen : len ≤ 2 ^ 31) :
    readRange disk off len = .ok b ↔ off + len < wordCount ∧ slice (bytes disk) off len = b := by
  simp only [readRange, Outcome.bind_eq_ok, checkedAdd_eq_ok, checkedDivCeil_eq_ok,
    checkedSub_eq_ok, checkedMul_eq_ok, sectors_flatMap, subrange_slice]
  have hword : wordCount = 2 ^ 32 := rfl
  have hskip : 512 * (off / 512) + off % 512 = off := Nat.div_add_mod off 512
  have hwidth : off % 512 + len - off % 512 = len := by omega
  constructor
  · rintro ⟨_, ⟨rfl, hsum⟩, _, ⟨rfl, _⟩, _, ⟨rfl, _⟩, _, ⟨rfl, _⟩, _, ⟨rfl, _⟩, _, hb⟩
    rw [hskip, hwidth] at hb
    exact ⟨hsum, hb⟩
  · rintro ⟨hsum, hb⟩
    refine ⟨_, ⟨rfl, hsum⟩, _, ⟨rfl, by decide⟩, _, ⟨rfl, by omega⟩, _, ⟨rfl, by omega⟩, _,
      ⟨rfl, by omega⟩, ⟨by omega, by omega⟩, ?_⟩
    rw [hskip, hwidth]
    exact hb

/-! ## The superblock -/

/-- `s_log_block_size` -/
def logBlockSize (m : ByteMem) : Nat := load32 m (1024 + 24)

/-- `s_magic` -/
def magic (m : ByteMem) : Nat := load16 m (1024 + 56)

/-- The parameters that the superblock stores. -/
def params (m : ByteMem) : Params :=
  let blockSize := 1024 * 2 ^ logBlockSize m % wordCount
  { blockSize
    inodesPerGroup := load32 m (1024 + 40)
    inodeSize := if 1 ≤ load32 m (1024 + 76) then load16 m (1024 + 88) else 128
    bgdtOff := (if blockSize = 1024 then 2 else 1) * blockSize }

/-- What every superblock guarantees about the sizes. -/
structure Params.Sized (fs : Params) : Prop where
  blockSize_le : fs.blockSize ≤ 2 ^ 31
  blockSize_dvd : 4 ∣ fs.blockSize
  inodeSize_le : fs.inodeSize < 2 ^ 16

/-- What is needed of them to find the blocks of a file. -/
structure Params.Tabular (fs : Params) : Prop where
  blockSize_le : fs.blockSize ≤ 2 ^ 31
  blockSize_dvd : 4 ∣ fs.blockSize

theorem Params.Sized.tabular (h : fs.Sized) : fs.Tabular := ⟨h.blockSize_le, h.blockSize_dvd⟩

theorem params_sized (h : logBlockSize m < 32) : (params m).Sized := by
  have hpow : 1024 * 2 ^ logBlockSize m = 2 ^ (10 + logBlockSize m) := by
    rw [Nat.pow_add]
  have hsize : (params m).blockSize = 2 ^ (10 + logBlockSize m) % 2 ^ 32 := by
    simp only [params, hpow]
  have hinode : (params m).inodeSize < 2 ^ 16 := by
    simp only [params]
    split_ifs
    · exact load16_lt m _
    · decide
  by_cases hk : 10 + logBlockSize m < 32
  · have hle : 2 ^ (10 + logBlockSize m) ≤ 2 ^ 31 := Nat.pow_le_pow_right (by decide) (by omega)
    rw [Nat.mod_eq_of_lt (by omega)] at hsize
    refine ⟨hsize ▸ hle, ?_, hinode⟩
    rw [hsize]
    exact pow_dvd_pow 2 (show 2 ≤ 10 + logBlockSize m by omega)
  · have hdvd : 2 ^ 32 ∣ 2 ^ (10 + logBlockSize m) := pow_dvd_pow 2 (by omega)
    rw [Nat.mod_eq_zero_of_dvd hdvd] at hsize
    exact ⟨by omega, by omega, hinode⟩

theorem params_bgdtOff_lt (m : ByteMem) : (params m).bgdtOff < wordCount := by
  have hlt : 1024 * 2 ^ logBlockSize m % wordCount < wordCount := Nat.mod_lt _ (by decide)
  simp only [params]
  split_ifs with h
  · rw [h]
    decide
  · omega

/-- **`read_super`**: `None` without the magic number, and otherwise the parameters, unless the
shift overflows. -/
theorem readSuper_eq (disk : Disk) :
    readSuper disk =
      if magic (bytes disk) ≠ ext2Magic then .ok none
      else if logBlockSize (bytes disk) < 32 then .ok (some (params (bytes disk)))
      else .panic := by
  have hsb : readRange disk 1024 1024 = .ok (slice (bytes disk) 1024 1024) :=
    (readRange_eq_ok (by decide)).2 ⟨by decide, rfl⟩
  have hu16 : ∀ i, i + 1 < 1024 →
      rdU16 (slice (bytes disk) 1024 1024) i = .ok (load16 (bytes disk) (1024 + i)) :=
    fun i hi => (rdU16_slice (by decide)).2 ⟨hi, rfl⟩
  have hu32 : ∀ i, i + 3 < 1024 →
      rdU32 (slice (bytes disk) 1024 1024) i = .ok (load32 (bytes disk) (1024 + i)) :=
    fun i hi => (rdU32_slice (by decide)).2 ⟨hi, rfl⟩
  have hinode : (if 1 ≤ load32 (bytes disk) (1024 + 76) then
      rdU16 (slice (bytes disk) 1024 1024) 88 else pure 128) =
      .ok (params (bytes disk)).inodeSize := by
    simp only [params]
    split_ifs
    · exact hu16 88 (by decide)
    · rfl
  have hbgdt : checkedMul (if (params (bytes disk)).blockSize = 1024 then 2 else 1)
      (params (bytes disk)).blockSize = .ok (params (bytes disk)).bgdtOff :=
    checkedMul_eq_ok.2 ⟨rfl, params_bgdtOff_lt _⟩
  have hmagic : rdU16 (slice (bytes disk) 1024 1024) 56 = .ok (magic (bytes disk)) :=
    hu16 56 (by decide)
  have hlog : rdU32 (slice (bytes disk) 1024 1024) 24 = .ok (logBlockSize (bytes disk)) :=
    hu32 24 (by decide)
  simp only [readSuper, hsb, Outcome.ok_bind, hmagic, hlog, hu32 40 (by decide),
    hu32 76 (by decide), hinode, checkedShl]
  by_cases hmagic : magic (bytes disk) = ext2Magic
  · rw [if_neg (not_not.2 hmagic), if_neg (not_not.2 hmagic)]
    by_cases hk : logBlockSize (bytes disk) < 32
    · rw [if_pos hk, if_pos hk, Outcome.ok_bind]
      exact (congrArg (· >>= _) hbgdt).trans rfl
    · rw [if_neg hk, if_neg hk, Outcome.panic_bind]
  · rw [if_pos hmagic, if_pos hmagic, Outcome.pure_eq]

/-! ## Inodes -/

/-- Where the descriptor of the group of inode `ino` is. -/
def descOff (fs : Params) (ino : Nat) : Nat := fs.bgdtOff + (ino - 1) / fs.inodesPerGroup * 32

/-- Where inode `ino` is. -/
def inodeOff (m : ByteMem) (fs : Params) (ino : Nat) : Nat :=
  load32 m (descOff fs ino + 8) * fs.blockSize + (ino - 1) % fs.inodesPerGroup * fs.inodeSize

/-- The inode stored at `off`. -/
def inodeAt (m : ByteMem) (off : Nat) : Inode where
  size := load32 m (off + 4)
  blocks k := load32 m (off + (40 + 4 * k))
  indirect := load32 m (off + 88)
  doubleIndirect := load32 m (off + 92)

/-- Inode `ino` has a number, a group, and a record that is long enough and ends below 4 GiB. -/
structure InodeReadable (m : ByteMem) (fs : Params) (ino : Nat) : Prop where
  number : 1 ≤ ino
  group : fs.inodesPerGroup ≠ 0
  descriptor : descOff fs ino + 32 < wordCount
  record : inodeOff m fs ino + fs.inodeSize < wordCount
  fields : 96 ≤ fs.inodeSize

/-- **`read_inode`** -/
theorem readInode_eq_ok (hfs : fs.Sized) :
    readInode disk fs ino = .ok inode ↔
      InodeReadable (bytes disk) fs ino ∧
        inodeAt (bytes disk) (inodeOff (bytes disk) fs ino) = inode := by
  have hisz : fs.inodeSize ≤ 2 ^ 31 := by have := hfs.inodeSize_le; omega
  have hisz' : fs.inodeSize ≤ wordCount := hisz.trans (by decide)
  simp only [readInode, Outcome.bind_eq_ok, checkedSub_eq_ok, checkedDiv_eq_ok, checkedMod_eq_ok,
    checkedMul_eq_ok, checkedAdd_eq_ok, readRange_eq_ok (show 32 ≤ 2 ^ 31 by decide),
    readRange_eq_ok hisz, Outcome.collect_eq_ok]
  constructor
  · rintro ⟨_, ⟨rfl, hino⟩, _, ⟨rfl, hgroup⟩, _, ⟨rfl, _⟩, _, ⟨rfl, _⟩, _, ⟨rfl, _⟩, _, ⟨rfl, _⟩,
      _, ⟨hdesc, rfl⟩, table, htable, _, ⟨rfl, _⟩, _, ⟨rfl, _⟩, _, ⟨rfl, _⟩, _, ⟨hrec, rfl⟩,
      blocks, hblocks, size, hsize, single, hsingle, double, hdouble, hinode⟩
    rw [rdU32_slice (by decide)] at htable
    rw [rdU32_slice hisz'] at hsize hsingle hdouble
    simp only [rdU32_slice hisz'] at hblocks
    obtain ⟨_, rfl⟩ := htable
    refine ⟨⟨hino, hgroup, hdesc, hrec, by omega⟩, ?_⟩
    rw [← Outcome.ok.inj hinode, ← hsize.2, ← hsingle.2, ← hdouble.2,
      ← funext fun k => (hblocks k).2]
    rfl
  · rintro ⟨h, rfl⟩
    have hgroup := h.descriptor
    have hrec := h.record
    have hfields := h.fields
    unfold inodeOff at hrec
    unfold descOff at hgroup hrec
    refine ⟨_, ⟨rfl, h.number⟩, _, ⟨rfl, h.group⟩, _, ⟨rfl, h.number⟩, _, ⟨rfl, h.group⟩, _,
      ⟨rfl, by omega⟩, _, ⟨rfl, by omega⟩, _, ⟨hgroup, rfl⟩, _,
      (rdU32_slice (by decide)).2 ⟨by decide, rfl⟩, _, ⟨rfl, by omega⟩, _, ⟨rfl, by omega⟩, _,
      ⟨rfl, by omega⟩, _, ⟨hrec, rfl⟩, _, fun k => (rdU32_slice hisz').2 ⟨by omega, rfl⟩, _,
      (rdU32_slice hisz').2 ⟨by omega, rfl⟩, _, (rdU32_slice hisz').2 ⟨by omega, rfl⟩, _,
      (rdU32_slice hisz').2 ⟨by omega, rfl⟩, rfl⟩

/-! ## Blocks of a file -/

/-- The entry of the double-indirect table for block `n`. -/
def outer (m : ByteMem) (fs : Params) (inode : Inode) (n : Nat) : Nat :=
  load32 m (inode.doubleIndirect * fs.blockSize + (n - 12 - fs.ppb) / fs.ppb * 4)

/-- The pointer to block `n`, 0 if there is none. -/
def pointer (m : ByteMem) (fs : Params) (inode : Inode) (n : Nat) : Nat :=
  if h : n < 12 then inode.blocks ⟨n, h⟩
  else if n < 12 + fs.ppb then
    if inode.indirect = 0 then 0 else load32 m (inode.indirect * fs.blockSize + (n - 12) * 4)
  else if inode.doubleIndirect = 0 ∨ outer m fs inode n = 0 then 0
  else load32 m (outer m fs inode n * fs.blockSize + (n - 12 - fs.ppb) % fs.ppb * 4)

/-- The tables on the way to block `n` end below 4 GiB, and the double-indirect one reaches it. -/
structure PointerReadable (m : ByteMem) (fs : Params) (inode : Inode) (n : Nat) : Prop where
  single : 12 ≤ n → n < 12 + fs.ppb → inode.indirect ≠ 0 →
    inode.indirect * fs.blockSize + fs.blockSize < wordCount
  double : 12 + fs.ppb ≤ n → inode.doubleIndirect ≠ 0 →
    inode.doubleIndirect * fs.blockSize + fs.blockSize < wordCount ∧
      n < 12 + fs.ppb + fs.ppb * fs.ppb ∧
      (outer m fs inode n ≠ 0 → outer m fs inode n * fs.blockSize + fs.blockSize < wordCount)

theorem Params.Tabular.ppb_mul (hfs : fs.Tabular) : fs.ppb * 4 = fs.blockSize :=
  Nat.div_mul_cancel hfs.blockSize_dvd

/-- A block as a table of pointers. -/
theorem rdU32_table (hfs : fs.Tabular) {a i : Nat} :
    rdU32 (slice m a fs.blockSize) (i * 4) = .ok v ↔ i < fs.ppb ∧ load32 m (a + i * 4) = v := by
  have hbs : fs.blockSize ≤ wordCount := hfs.blockSize_le.trans (by decide)
  have hppb := hfs.ppb_mul
  have hiff : i * 4 + 3 < fs.blockSize ↔ i < fs.ppb := by omega
  rw [rdU32_slice hbs, hiff]

theorem mul4_lt (hfs : fs.Tabular) {i : Nat} (hi : i < fs.ppb) : i * 4 < wordCount := by
  have hbs := hfs.blockSize_le
  have hword : wordCount = 2 ^ 32 := rfl
  unfold Params.ppb at hi
  omega

theorem blockAt_single (hfs : fs.Tabular) (hn : 12 ≤ n) (hn' : n < 12 + fs.ppb) :
    blockAt disk fs inode n = .ok v ↔
      (inode.indirect ≠ 0 → inode.indirect * fs.blockSize + fs.blockSize < wordCount) ∧
        pointer (bytes disk) fs inode n = v := by
  have hsub : checkedSub n 12 = .ok (n - 12) := checkedSub_eq_ok.2 ⟨rfl, hn⟩
  have hlt : n - 12 < fs.ppb := by omega
  simp only [blockAt, pointer, hn', hn.not_gt, dite_false, hsub, Outcome.ok_bind, hlt, if_true]
  by_cases hz : inode.indirect = 0
  · simp [hz]
  simp only [hz, if_false, Outcome.bind_eq_ok, checkedMul_eq_ok, readRange_eq_ok hfs.blockSize_le,
    ne_eq, not_false_eq_true, true_imp_iff]
  constructor
  · rintro ⟨_, ⟨rfl, _⟩, _, ⟨hrange, rfl⟩, _, ⟨rfl, _⟩, hv⟩
    exact ⟨hrange, ((rdU32_table hfs).1 hv).2⟩
  · rintro ⟨hrange, hv⟩
    exact ⟨_, ⟨rfl, by omega⟩, _, ⟨hrange, rfl⟩, _, ⟨rfl, mul4_lt hfs hlt⟩,
      (rdU32_table hfs).2 ⟨hlt, hv⟩⟩

/-- The double-indirect table has an entry for the blocks before `12 + ppb + ppb²`. -/
theorem outer_lt_iff (hpos : 0 < fs.ppb) (hn : 12 + fs.ppb ≤ n) :
    (n - 12 - fs.ppb) / fs.ppb < fs.ppb ↔ n < 12 + fs.ppb + fs.ppb * fs.ppb := by
  rw [Nat.div_lt_iff_lt_mul hpos]
  omega

theorem blockAt_double (hfs : fs.Tabular) (hn : 12 + fs.ppb ≤ n) :
    blockAt disk fs inode n = .ok v ↔
      (inode.doubleIndirect ≠ 0 →
        inode.doubleIndirect * fs.blockSize + fs.blockSize < wordCount ∧
        n < 12 + fs.ppb + fs.ppb * fs.ppb ∧
        (outer (bytes disk) fs inode n ≠ 0 →
          outer (bytes disk) fs inode n * fs.blockSize + fs.blockSize < wordCount)) ∧
      pointer (bytes disk) fs inode n = v := by
  have hn12 : ¬n < 12 := by omega
  have hsub : checkedSub n 12 = .ok (n - 12) := checkedSub_eq_ok.2 ⟨rfl, by omega⟩
  have hlt : ¬n - 12 < fs.ppb := by omega
  have hsub' : checkedSub (n - 12) fs.ppb = .ok (n - 12 - fs.ppb) :=
    checkedSub_eq_ok.2 ⟨rfl, by omega⟩
  simp only [blockAt, pointer, hn12, hn.not_gt, dite_false, hsub, hsub', Outcome.ok_bind, hlt,
    if_false]
  by_cases hz : inode.doubleIndirect = 0
  · simp [hz]
  simp only [hz, if_false, Outcome.bind_eq_ok, checkedMul_eq_ok, checkedDiv_eq_ok,
    readRange_eq_ok hfs.blockSize_le, ne_eq, not_false_eq_true, true_imp_iff, false_or]
  constructor
  · rintro ⟨_, ⟨rfl, _⟩, _, ⟨hdbl, rfl⟩, _, ⟨rfl, hpos⟩, _, ⟨rfl, _⟩, o, ho, hv⟩
    obtain ⟨hq, ho⟩ := (rdU32_table hfs).1 ho
    change outer (bytes disk) fs inode n = o at ho
    subst ho
    have hn' := (outer_lt_iff (Nat.pos_of_ne_zero hpos) hn).1 hq
    by_cases hout : outer (bytes disk) fs inode n = 0
    · rw [if_pos hout, Outcome.pure_eq, Outcome.ok.injEq] at hv
      exact ⟨⟨hdbl, hn', fun h => absurd hout h⟩, by rw [if_pos hout, hv]⟩
    · simp only [if_neg hout, Outcome.bind_eq_ok, checkedMul_eq_ok, checkedMod_eq_ok,
        readRange_eq_ok hfs.blockSize_le] at hv
      obtain ⟨_, ⟨rfl, _⟩, _, ⟨hinner, rfl⟩, _, ⟨rfl, _⟩, _, ⟨rfl, _⟩, hv⟩ := hv
      rw [if_neg hout]
      exact ⟨⟨hdbl, hn', fun _ => hinner⟩, ((rdU32_table hfs).1 hv).2⟩
  · rintro ⟨⟨hdbl, hn', hinner⟩, hv⟩
    have hpos : 0 < fs.ppb := by
      rcases Nat.eq_zero_or_pos (fs.ppb) with h | h
      · rw [h] at hn hn'
        omega
      · exact h
    have hq := (outer_lt_iff hpos hn).2 hn'
    refine ⟨_, ⟨rfl, by omega⟩, _, ⟨hdbl, rfl⟩, _, ⟨rfl, hpos.ne'⟩, _, ⟨rfl, mul4_lt hfs hq⟩,
      outer (bytes disk) fs inode n, (rdU32_table hfs).2 ⟨hq, rfl⟩, ?_⟩
    by_cases hout : outer (bytes disk) fs inode n = 0
    · rw [if_pos hout] at hv
      rw [if_pos hout, ← hv, Outcome.pure_eq]
    · rw [if_neg hout] at hv
      have hmod : (n - 12 - fs.ppb) % fs.ppb < fs.ppb := Nat.mod_lt _ hpos
      have hinner := hinner hout
      simp only [if_neg hout, Outcome.bind_eq_ok, checkedMul_eq_ok, checkedMod_eq_ok,
        readRange_eq_ok hfs.blockSize_le]
      exact ⟨_, ⟨rfl, by omega⟩, _, ⟨hinner, rfl⟩, _, ⟨rfl, hpos.ne'⟩, _,
        ⟨rfl, mul4_lt hfs hmod⟩, (rdU32_table hfs).2 ⟨hmod, hv⟩⟩

/-- **`block_at`** -/
theorem blockAt_eq_ok (hfs : fs.Tabular) :
    blockAt disk fs inode n = .ok v ↔
      PointerReadable (bytes disk) fs inode n ∧ pointer (bytes disk) fs inode n = v := by
  by_cases hdirect : n < 12
  · have hread : PointerReadable (bytes disk) fs inode n :=
      ⟨fun _ => by omega, fun _ => by omega⟩
    simp [blockAt, pointer, hdirect, hread]
  by_cases hsingle : n < 12 + fs.ppb
  · rw [blockAt_single hfs (by omega) hsingle]
    refine and_congr_left fun _ => ⟨fun h => ⟨fun _ _ => h, fun _ => by omega⟩, ?_⟩
    intro h
    exact h.single (by omega) hsingle
  · rw [blockAt_double hfs (by omega)]
    refine and_congr_left fun _ => ⟨fun h => ⟨fun _ _ => by omega, fun _ => h⟩, ?_⟩
    intro h
    exact h.double (by omega)

/-! ## Directories -/

section Directory

variable {base size pos fuel : Nat} {out : List (String × Nat)} {e : String × Nat}

/-- The length of the record at `pos` of the block at `base`. -/
def recLen (m : ByteMem) (base pos : Nat) : Nat := load16 m (base + (pos + 4))

def nameLen (m : ByteMem) (base pos : Nat) : Nat := (m (base + (pos + 6))).toNat

/-- The entry that the record at `pos` of the block at `base` stores, if it is one. -/
def entryAt (m : ByteMem) (base size pos : Nat) : Option (String × Nat) :=
  if load32 m (base + pos) ≠ 0 ∧ 0 < nameLen m base pos ∧ pos + 8 + nameLen m base pos ≤ size then
    (fromUtf8 (slice m (base + (pos + 8)) (nameLen m base pos))).map (·, load32 m (base + pos))
  else none

/-- There is a whole record header at `pos`, and the record does not end where it starts. -/
def HasRecord (m : ByteMem) (base size pos : Nat) : Prop := pos + 8 ≤ size ∧ recLen m base pos ≠ 0

instance : Decidable (HasRecord m base size pos) := inferInstanceAs (Decidable (_ ∧ _))

/-- The record lengths lead from one place to the next. -/
def NextRecord (m : ByteMem) (base size pos pos' : Nat) : Prop :=
  HasRecord m base size pos ∧ pos' = pos + recLen m base pos

/-- `e` is the entry of a record that the lengths lead to from `pos`. -/
def EntryFrom (m : ByteMem) (base size pos : Nat) (e : String × Nat) : Prop :=
  ∃ p, Relation.ReflTransGen (NextRecord m base size) pos p ∧ HasRecord m base size p ∧
    entryAt m base size p = some e

theorem pushEntry_eq (m : ByteMem) (base : Nat) (out : List (String × Nat)) (hsize : size ≤ 2 ^ 31)
    (hpos : pos + 8 ≤ size) :
    pushEntry (slice m base size) pos (load32 m (base + pos)) (nameLen m base pos) out =
      .ok (out ++ (entryAt m base size pos).toList) := by
  have hword : wordCount = 2 ^ 32 := rfl
  have hname : nameLen m base pos < 2 ^ 8 := (m _).toNat_lt
  have hstart : checkedAdd pos 8 = .ok (pos + 8) := checkedAdd_eq_ok.2 ⟨rfl, by omega⟩
  have hstop : checkedAdd (pos + 8) (nameLen m base pos) = .ok (pos + 8 + nameLen m base pos) :=
    checkedAdd_eq_ok.2 ⟨rfl, by omega⟩
  unfold pushEntry entryAt
  by_cases hlive : load32 m (base + pos) ≠ 0 ∧ 0 < nameLen m base pos
  · by_cases hfits : pos + 8 + nameLen m base pos ≤ size
    · have hsub : subrange (slice m base size) (pos + 8) (pos + 8 + nameLen m base pos) =
          .ok (slice m (base + (pos + 8)) (nameLen m base pos)) :=
        subrange_slice.2 ⟨⟨by omega, hfits⟩, by rw [Nat.add_sub_cancel_left]⟩
      rw [if_pos hlive, if_pos ⟨hlive.1, hlive.2, hfits⟩]
      simp only [hstart, hstop, Outcome.ok_bind, length_slice, hfits, if_true, hsub]
      cases fromUtf8 (slice m (base + (pos + 8)) (nameLen m base pos)) <;> simp
    · rw [if_pos hlive, if_neg fun h => hfits h.2.2]
      simp [hstart, hstop, hfits]
  · rw [if_neg hlive, if_neg fun h => hlive ⟨h.1, h.2.1⟩]
    simp

/-- **One turn of the loop**: the record is listed if it is an entry, and its length is skipped. -/
theorem readRecords_succ (m : ByteMem) (base fuel : Nat) (out : List (String × Nat))
    (hsize : size ≤ 2 ^ 31) (hpos : pos < 2 ^ 31 + 2 ^ 16) :
    readRecords (slice m base size) (fuel + 1) pos out =
      if HasRecord m base size pos then
        readRecords (slice m base size) fuel (pos + recLen m base pos)
          (out ++ (entryAt m base size pos).toList)
      else .ok out := by
  have hword : wordCount = 2 ^ 32 := rfl
  have hrec : recLen m base pos < 2 ^ 16 := load16_lt m _
  have hadd : ∀ k, k < 2 ^ 16 → checkedAdd pos k = .ok (pos + k) := by
    intro k hk
    exact checkedAdd_eq_ok.2 ⟨rfl, by omega⟩
  simp only [readRecords, HasRecord, hadd 8 (by decide), Outcome.ok_bind, length_slice]
  by_cases hhead : pos + 8 ≤ size
  · have hino : rdU32 (slice m base size) pos = .ok (load32 m (base + pos)) :=
      (rdU32_slice (by omega)).2 ⟨by omega, rfl⟩
    have hlen : rdU16 (slice m base size) (pos + 4) = .ok (recLen m base pos) :=
      (rdU16_slice (by omega)).2 ⟨by omega, rfl⟩
    have hname : index (slice m base size) (pos + 6) = .ok (m (base + (pos + 6))) :=
      index_slice.2 ⟨by omega, rfl⟩
    have hpush := pushEntry_eq m base out hsize hhead
    unfold nameLen at hpush
    simp only [hhead, if_true, true_and, hino, hadd 4 (by decide), hlen, hadd 6 (by decide), hname,
      Outcome.ok_bind, hpush, hadd _ hrec]
    by_cases hz : recLen m base pos = 0
    · simp [hz]
    · simp [hz]
  · simp [hhead]

/-- **The records of a block.** The loop ends, and lists the entries among the records that the
lengths lead to. -/
theorem readRecords_spec (m : ByteMem) (base : Nat) (out : List (String × Nat))
    (hsize : size ≤ 2 ^ 31) (hpos : pos < 2 ^ 31 + 2 ^ 16) (hfuel : 0 < fuel)
    (henough : size < pos + fuel) :
    ∃ l, readRecords (slice m base size) fuel pos out = .ok (out ++ l) ∧
      ∀ e, e ∈ l ↔ EntryFrom m base size pos e := by
  induction fuel generalizing pos out with
  | zero => omega
  | succ fuel ih =>
      rw [readRecords_succ m base fuel out hsize hpos]
      by_cases hrec : HasRecord m base size pos
      · have hlen : recLen m base pos < 2 ^ 16 := load16_lt m _
        have hhead := hrec.1
        have hne := hrec.2
        obtain ⟨l, hl, hmem⟩ := ih (out ++ (entryAt m base size pos).toList)
          (show pos + recLen m base pos < 2 ^ 31 + 2 ^ 16 by omega) (by omega) (by omega)
        refine ⟨(entryAt m base size pos).toList ++ l, ?_, ?_⟩
        · rw [if_pos hrec, hl, List.append_assoc]
        · intro e
          rw [List.mem_append, Option.mem_toList, hmem]
          constructor
          · rintro (he | ⟨p, hp, hrest⟩)
            · exact ⟨pos, .refl, hrec, he⟩
            · exact ⟨p, .head ⟨hrec, rfl⟩ hp, hrest⟩
          · rintro ⟨p, hp, hrest⟩
            obtain rfl | ⟨_, ⟨_, rfl⟩, hp⟩ := hp.cases_head
            · exact .inl hrest.2
            · exact .inr ⟨p, hp, hrest⟩
      · refine ⟨[], ?_, ?_⟩
        · rw [if_neg hrec, List.append_nil]
        · intro e
          constructor
          · intro he
            cases he
          · rintro ⟨p, hp, hrest, _⟩
            obtain rfl | ⟨_, ⟨hrec', _⟩, _⟩ := hp.cases_head
            · exact absurd hrest hrec
            · exact absurd hrec' hrec

/-- Block `blk` of a directory, if there is one, ends below 4 GiB. -/
def DirBlockReadable (fs : Params) (blk : Nat) : Prop :=
  blk ≠ 0 → blk * fs.blockSize + fs.blockSize < wordCount

/-- `e` is an entry of block `blk` of a directory. -/
def IsEntry (m : ByteMem) (fs : Params) (blk : Nat) (e : String × Nat) : Prop :=
  blk ≠ 0 ∧ EntryFrom m (blk * fs.blockSize) fs.blockSize 0 e

/-- A block below 4 GiB is read whole. -/
theorem readDirBlock_eq (hsize : fs.blockSize ≤ 2 ^ 31) {blk : Nat} (hz : blk ≠ 0)
    (hbelow : blk * fs.blockSize + fs.blockSize < wordCount) (out : List (String × Nat)) :
    readDirBlock disk fs out blk =
      readRecords (slice (bytes disk) (blk * fs.blockSize) fs.blockSize) (fs.blockSize + 1) 0
        out := by
  have hmul : checkedMul blk fs.blockSize = .ok (blk * fs.blockSize) :=
    checkedMul_eq_ok.2 ⟨rfl, by omega⟩
  have hread : readRange disk (blk * fs.blockSize) fs.blockSize =
      .ok (slice (bytes disk) (blk * fs.blockSize) fs.blockSize) :=
    (readRange_eq_ok hsize).2 ⟨hbelow, rfl⟩
  simp only [readDirBlock, hz, if_false, hmul, hread, Outcome.ok_bind, length_slice]

theorem readDirBlock_spec (hfs : fs.Sized) {blk : Nat} (h : DirBlockReadable fs blk)
    (out : List (String × Nat)) :
    ∃ l, readDirBlock disk fs out blk = .ok (out ++ l) ∧
      ∀ e, e ∈ l ↔ IsEntry (bytes disk) fs blk e := by
  by_cases hz : blk = 0
  · refine ⟨[], by simp [readDirBlock, hz], ?_⟩
    intro e
    simp [IsEntry, hz]
  · rw [readDirBlock_eq hfs.blockSize_le hz (h hz)]
    simp only [IsEntry, ne_eq, hz, not_false_eq_true, true_and]
    exact readRecords_spec _ _ out hfs.blockSize_le (by decide) (by omega) (by omega)

theorem readDirBlock_readable (hfs : fs.Sized) {blk : Nat} {out' : List (String × Nat)}
    (h : readDirBlock disk fs out blk = .ok out') : DirBlockReadable fs blk := by
  intro hz
  simp only [readDirBlock, hz, if_false, Outcome.bind_eq_ok, checkedMul_eq_ok,
    readRange_eq_ok hfs.blockSize_le] at h
  obtain ⟨_, ⟨rfl, _⟩, _, ⟨hrange, _⟩, _⟩ := h
  exact hrange

theorem readDirBlocks_spec (hfs : fs.Sized) {blks : List Nat}
    (h : ∀ blk ∈ blks, DirBlockReadable fs blk) (out : List (String × Nat)) :
    ∃ l, blks.foldlM (readDirBlock disk fs) out = .ok (out ++ l) ∧
      ∀ e, e ∈ l ↔ ∃ blk ∈ blks, IsEntry (bytes disk) fs blk e := by
  induction blks generalizing out with
  | nil => exact ⟨[], by simp, by simp⟩
  | cons blk blks ih =>
      obtain ⟨l, hl, hmem⟩ := readDirBlock_spec hfs (h blk (List.mem_cons_self ..)) out
      obtain ⟨l', hl', hmem'⟩ := ih (fun b hb => h b (List.mem_cons_of_mem blk hb)) (out ++ l)
      refine ⟨l ++ l', ?_, ?_⟩
      · rw [List.foldlM_cons, hl, Outcome.ok_bind, hl', List.append_assoc]
      · intro e
        rw [List.mem_append, hmem, hmem', List.exists_mem_cons_iff]

theorem readDirBlocks_readable (hfs : fs.Sized) {blks : List Nat} {out' : List (String × Nat)}
    (h : blks.foldlM (readDirBlock disk fs) out = .ok out') :
    ∀ blk ∈ blks, DirBlockReadable fs blk := by
  induction blks generalizing out with
  | nil =>
      intro blk hblk
      cases hblk
  | cons blk blks ih =>
      rw [List.foldlM_cons, Outcome.bind_eq_ok] at h
      obtain ⟨mid, hmid, hrest⟩ := h
      rw [List.forall_mem_cons]
      exact ⟨readDirBlock_readable hfs hmid, ih hrest⟩

/-- **`read_dir`** returns when the direct blocks end below 4 GiB. -/
theorem readDir_returns (hfs : fs.Sized) :
    (∃ out, readDir disk fs inode = .ok out) ↔ ∀ k, DirBlockReadable fs (inode.blocks k) := by
  constructor
  · rintro ⟨out, h⟩ k
    exact readDirBlocks_readable hfs h _ (List.mem_ofFn.2 ⟨k, rfl⟩)
  · intro h
    have hblks : ∀ blk ∈ List.ofFn inode.blocks, DirBlockReadable fs blk := by
      intro blk hblk
      obtain ⟨k, rfl⟩ := List.mem_ofFn.1 hblk
      exact h k
    obtain ⟨l, hl, _⟩ := readDirBlocks_spec hfs hblks []
    exact ⟨_, hl⟩

/-- **`read_dir`** lists the entries of the direct blocks. -/
theorem mem_readDir (hfs : fs.Sized) (h : readDir disk fs inode = .ok out) :
    e ∈ out ↔ ∃ k, IsEntry (bytes disk) fs (inode.blocks k) e := by
  obtain ⟨l, hl, hmem⟩ := readDirBlocks_spec hfs (readDirBlocks_readable hfs h) []
  obtain rfl := Outcome.ok.inj (hl.symm.trans h)
  rw [List.nil_append, hmem]
  simp only [List.mem_ofFn, exists_exists_eq_and]

end Directory

/-! ## Files -/

section File

variable {count remaining : Nat} {out : List UInt8}

/-- The bytes of block `n` that belong to the file. -/
def blockLen (fs : Params) (inode : Inode) (n : Nat) : Nat :=
  min (inode.size - n * fs.blockSize) fs.blockSize

/-- Block `n` of a file can be found, and its part of the file ends below 4 GiB. -/
structure BlockReadable (m : ByteMem) (fs : Params) (inode : Inode) (n : Nat) : Prop where
  table : PointerReadable m fs inode n
  data : pointer m fs inode n ≠ 0 →
    pointer m fs inode n * fs.blockSize + blockLen fs inode n < wordCount

/-- `read_file` gets to block `n` when there is no hole before it. -/
def Reached (m : ByteMem) (fs : Params) (inode : Inode) (first n : Nat) : Prop :=
  ∀ k, first ≤ k → k < n → pointer m fs inode k ≠ 0

/-- **One turn of the loop**: a block is appended, or the first hole ends the file. -/
theorem readBlocks_succ (hfs : fs.Tabular) (hrem : remaining = inode.size - n * fs.blockSize)
    (hlt : n * fs.blockSize < inode.size) :
    readBlocks disk fs inode (count + 1) n remaining out = .ok b ↔
      BlockReadable (bytes disk) fs inode n ∧
        if pointer (bytes disk) fs inode n = 0 then out = b
        else readBlocks disk fs inode count (n + 1) (inode.size - (n + 1) * fs.blockSize)
          (out ++ slice (bytes disk) (pointer (bytes disk) fs inode n * fs.blockSize)
            (blockLen fs inode n)) = .ok b := by
  have hmul : (n + 1) * fs.blockSize = n * fs.blockSize + fs.blockSize := Nat.succ_mul ..
  have hlen : min remaining fs.blockSize = blockLen fs inode n := by
    rw [hrem]
    rfl
  have hle : blockLen fs inode n ≤ 2 ^ 31 := (Nat.min_le_right ..).trans hfs.blockSize_le
  have hsub : checkedSub remaining (blockLen fs inode n) =
      .ok (inode.size - (n + 1) * fs.blockSize) := by
    rw [← hlen]
    exact checkedSub_eq_ok.2 ⟨by omega, Nat.min_le_left ..⟩
  have hpos : remaining ≠ 0 := by omega
  simp only [readBlocks, hpos, if_false, hlen, hsub, Outcome.bind_eq_ok, blockAt_eq_ok hfs]
  by_cases hz : pointer (bytes disk) fs inode n = 0
  · rw [if_pos hz]
    constructor
    · rintro ⟨_, ⟨htable, rfl⟩, hb⟩
      rw [if_pos hz] at hb
      exact ⟨⟨htable, fun h => absurd hz h⟩, Outcome.ok.inj hb⟩
    · rintro ⟨h, rfl⟩
      exact ⟨_, ⟨h.table, rfl⟩, if_pos hz⟩
  · rw [if_neg hz]
    constructor
    · rintro ⟨_, ⟨htable, rfl⟩, hb⟩
      simp only [if_neg hz, Outcome.bind_eq_ok, checkedMul_eq_ok, readRange_eq_ok hle] at hb
      obtain ⟨_, ⟨rfl, _⟩, _, ⟨hrange, rfl⟩, _, hrem', hb⟩ := hb
      rw [← Outcome.ok.inj hrem'] at hb
      exact ⟨⟨htable, fun _ => hrange⟩, hb⟩
    · rintro ⟨h, hb⟩
      have hrange := h.data hz
      refine ⟨_, ⟨h.table, rfl⟩, ?_⟩
      simp only [if_neg hz, Outcome.bind_eq_ok, checkedMul_eq_ok, readRange_eq_ok hle]
      exact ⟨_, ⟨rfl, by omega⟩, _, ⟨hrange, rfl⟩, _, rfl, hb⟩

/-- **The blocks of a file**: induction over the number of blocks that are left. -/
theorem readBlocks_returns (hfs : fs.Tabular) (hrem : remaining = inode.size - n * fs.blockSize)
    (hcount : ∀ k, k < n + count → k * fs.blockSize < inode.size) (out : List UInt8) :
    (∃ b, readBlocks disk fs inode count n remaining out = .ok b) ↔
      ∀ k, n ≤ k → k < n + count → Reached (bytes disk) fs inode n k →
        BlockReadable (bytes disk) fs inode k := by
  induction count generalizing n remaining out with
  | zero =>
      simp only [readBlocks, Nat.add_zero]
      exact ⟨fun _ k hk hk' => by omega, fun _ => ⟨out, rfl⟩⟩
  | succ count ih =>
      have hlt : n * fs.blockSize < inode.size := hcount n (by omega)
      have hrest : ∀ out',
          (∃ b, readBlocks disk fs inode count (n + 1) (inode.size - (n + 1) * fs.blockSize) out' =
            .ok b) ↔ ∀ k, n + 1 ≤ k → k < n + 1 + count →
              Reached (bytes disk) fs inode (n + 1) k → BlockReadable (bytes disk) fs inode k :=
        ih rfl fun k hk => hcount k (by omega)
      simp only [readBlocks_succ hfs hrem hlt, exists_and_left]
      by_cases hz : pointer (bytes disk) fs inode n = 0
      · simp only [if_pos hz, exists_eq', and_true]
        constructor
        · intro hn k hk _ hreach
          by_cases hkn : k = n
          · rw [hkn]
            exact hn
          · exact absurd hz (hreach n le_rfl (by omega))
        · intro h
          exact h n le_rfl (by omega) fun j hj hj' => by omega
      · simp only [if_neg hz, hrest]
        constructor
        · rintro ⟨hn, hrest⟩ k hk hk' hreach
          by_cases hkn : k = n
          · rw [hkn]
            exact hn
          · exact hrest k (by omega) (by omega) fun j hj hj' => hreach j (by omega) hj'
        · intro h
          refine ⟨h n le_rfl (by omega) fun j hj hj' => by omega, ?_⟩
          intro k hk hk' hreach
          apply h k (by omega) (by omega)
          intro j hj hj'
          by_cases hjn : j = n
          · rw [hjn]
            exact hz
          · exact hreach j (by omega) hj'

/-- Block `n` is not past the end. -/
theorem mul_lt_size_iff (hbs : fs.blockSize ≠ 0) :
    n < (inode.size + fs.blockSize - 1) / fs.blockSize ↔ n * fs.blockSize < inode.size := by
  have hpos : 0 < fs.blockSize := Nat.pos_of_ne_zero hbs
  rw [Nat.lt_iff_add_one_le, Nat.le_div_iff_mul_le hpos, Nat.succ_mul]
  omega

theorem block_lt_size (hbs : fs.blockSize ≠ 0)
    (hn : n < 0 + (inode.size + fs.blockSize - 1) / fs.blockSize) :
    n * fs.blockSize < inode.size := by
  rw [Nat.zero_add] at hn
  exact (mul_lt_size_iff hbs).1 hn

/-- Every block of a file that `read_file` gets to is readable. -/
structure FileReadable (m : ByteMem) (fs : Params) (inode : Inode) : Prop where
  blockSize : fs.blockSize ≠ 0
  block : ∀ n, n * fs.blockSize < inode.size → Reached m fs inode 0 n → BlockReadable m fs inode n

/-- **`read_file`** -/
theorem readFile_returns (hfs : fs.Tabular) :
    (∃ b, readFile disk fs inode = .ok b) ↔ FileReadable (bytes disk) fs inode := by
  by_cases hbs : fs.blockSize = 0
  · simp only [readFile, checkedDivCeil, hbs, if_true, Outcome.panic_bind, reduceCtorEq,
      exists_false, false_iff]
    exact fun h => h.blockSize hbs
  simp only [readFile, checkedDivCeil, hbs, if_false, Outcome.ok_bind]
  rw [readBlocks_returns hfs (by simp) (fun k => block_lt_size hbs) []]
  constructor
  · intro h
    refine ⟨hbs, fun n hn hreach => h n (Nat.zero_le n) ?_ hreach⟩
    rw [Nat.zero_add]
    exact (mul_lt_size_iff hbs).2 hn
  · intro h k _ hk hreach
    exact h.block k (block_lt_size hbs hk) hreach

end File

end Munux.Fs
