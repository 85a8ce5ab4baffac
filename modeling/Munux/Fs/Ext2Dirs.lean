import Munux.Fs.Ext2Files

/-!
# Directories

A directory is stored as records, one after another, that fill its blocks (`RawRecord.encode`). A
record without an inode is deleted, and the bytes between a name and the next record say nothing. A
`Record` has a text for its name, and is listed unless it is deleted.

* `readDir_encode`: `read_dir` lists the records with an inode of the direct blocks, in order.
* `readDir_walk_iff`: the blocks of a directory are those that `block_at` finds, as they are for
  `read_file` (`walkDir`). `read_dir` looks at the direct ones only, so the two listings are the
  same exactly when nothing is listed in the others, whatever the bytes of their names are.
-/

namespace Munux.Fs

open ByteMem

/-- A directory record. `slack` is between the name and the next record. -/
structure Record where
  ino : Nat
  name : String
  fileType : UInt8
  slack : List UInt8
  ino_lt : ino < 2 ^ 32
  name_lt : name.utf8ByteSize < 2 ^ 8
  name_pos : ino ≠ 0 → 0 < name.utf8ByteSize
  aligned : 4 ∣ 8 + name.utf8ByteSize + slack.length
  length_lt : 8 + name.utf8ByteSize + slack.length < 2 ^ 16

/-- A directory record as it lies in a block, whose name is any bytes. -/
structure RawRecord where
  ino : Nat
  name : List UInt8
  fileType : UInt8
  slack : List UInt8
  ino_lt : ino < 2 ^ 32
  name_lt : name.length < 2 ^ 8
  length_lt : 8 + name.length + slack.length < 2 ^ 16

namespace RawRecord

/-- `rec_len` -/
def length (r : RawRecord) : Nat := 8 + r.name.length + r.slack.length

/-- The bytes of a record. -/
def encode (r : RawRecord) : List UInt8 :=
  le32 r.ino ++ (le16 r.length ++ ([UInt8.ofNat r.name.length, r.fileType] ++ (r.name ++ r.slack)))

/-- What is listed of a record: nothing, if its name is empty or not UTF-8. -/
def entry (r : RawRecord) : Option (String × Nat) :=
  if r.ino ≠ 0 ∧ 0 < r.name.length then (fromUtf8 r.name).map (·, r.ino) else none

@[simp] theorem length_encode (r : RawRecord) : r.encode.length = r.length := by
  simp only [encode, length, List.length_append, length_le32, length_le16, List.length_cons,
    List.length_nil]
  omega

end RawRecord

namespace Record

/-- `rec_len` -/
def length (r : Record) : Nat := 8 + r.name.utf8ByteSize + r.slack.length

/-- The bytes of a record. -/
def encode (r : Record) : List UInt8 :=
  le32 r.ino ++ (le16 r.length ++ ([UInt8.ofNat r.name.utf8ByteSize, r.fileType] ++
    (r.name.toByteArray.data.toList ++ r.slack)))

/-- What is listed of a record. -/
def entry (r : Record) : Option (String × Nat) :=
  if r.ino = 0 then none else some (r.name, r.ino)

/-- The record with the bytes of the name. -/
def raw (r : Record) : RawRecord where
  ino := r.ino
  name := r.name.toByteArray.data.toList
  fileType := r.fileType
  slack := r.slack
  ino_lt := r.ino_lt
  name_lt := r.name_lt
  length_lt := r.length_lt

theorem raw_encode (r : Record) : r.raw.encode = r.encode := rfl

@[simp] theorem length_encode (r : Record) : r.encode.length = r.length := r.raw.length_encode

end Record

theorem fromUtf8_toByteArray (name : String) :
    fromUtf8 name.toByteArray.data.toList = some name := by
  have hbytes : name.toByteArray.data.toList.toByteArray = name.toByteArray := by
    apply ByteArray.ext
    rw [List.data_toByteArray]
  rw [fromUtf8, hbytes, String.fromUTF8?, dif_pos name.isValidUTF8]
  rfl

theorem Record.raw_entry (r : Record) : r.raw.entry = r.entry := by
  rw [RawRecord.entry, Record.entry]
  by_cases hlive : r.ino = 0
  · rw [if_neg fun h => h.1 hlive, if_pos hlive]
  · rw [if_pos ⟨hlive, r.name_pos hlive⟩, if_neg hlive]
    change (fromUtf8 r.name.toByteArray.data.toList).map (·, r.ino) = some (r.name, r.ino)
    rw [fromUtf8_toByteArray]
    rfl

/-- The entries of some records. -/
def listing (rs : List Record) : List (String × Nat) := rs.filterMap Record.entry

/-- The entries of some records as they lie in a block. -/
def rawListing (rs : List RawRecord) : List (String × Nat) := rs.filterMap RawRecord.entry

theorem rawListing_map (rs : List Record) : rawListing (rs.map Record.raw) = listing rs := by
  rw [rawListing, listing, List.filterMap_map]
  exact List.filterMap_congr fun r _ => r.raw_entry

theorem flatMap_encode_map (rs : List Record) :
    (rs.map Record.raw).flatMap RawRecord.encode = rs.flatMap Record.encode := by
  rw [List.flatMap_map]
  exact List.flatMap_congr fun r _ => r.raw_encode

variable {disk : Disk} {m : ByteMem} {fs : Params} {inode : Inode} {a n k : Nat} {r : RawRecord}
  {rs : List RawRecord} {out : List (String × Nat)}

/-! ## One record -/

/-- The fields of a record, where the reader looks for them. -/
theorem fields_of_encode (h : slice m a r.length = r.encode) :
    load32 m a = r.ino ∧ load16 m (a + 4) = r.length ∧
      (m (a + 6)).toNat = r.name.length ∧ slice m (a + 8) r.name.length = r.name := by
  obtain ⟨hino, h⟩ := slice_eq_append h
  obtain ⟨hlen, h⟩ := slice_eq_append h
  obtain ⟨hhead, h⟩ := slice_eq_append h
  obtain ⟨hname, -⟩ := slice_eq_append h
  refine ⟨load32_of_slice r.ino_lt hino, load16_of_slice r.length_lt hlen, ?_, hname⟩
  have hbyte : m (a + 6) = UInt8.ofNat r.name.length := (List.cons.inj hhead).1
  rw [hbyte, UInt8.toNat_ofNat', Nat.mod_eq_of_lt r.name_lt]

theorem entryAt_of_encode {base size pos : Nat} (h : slice m (base + pos) r.length = r.encode)
    (hfits : pos + r.length ≤ size) : entryAt m base size pos = r.entry := by
  obtain ⟨hino, -, hlen, hname⟩ := fields_of_encode h
  have hnameLen : nameLen m base pos = r.name.length := hlen
  unfold RawRecord.length at hfits
  have hinside : pos + 8 + r.name.length ≤ size := by omega
  rw [entryAt, hino, hnameLen, RawRecord.entry, ← Nat.add_assoc, hname]
  simp only [hinside, and_true]

/-! ## One block -/

/-- **The records of a block,** one after another: induction over the records that are left. -/
theorem readRecords_encode {base size pos fuel : Nat} (hsize : size ≤ 2 ^ 31) (hpos : pos ≤ size)
    (hstored : slice m (base + pos) (size - pos) = rs.flatMap RawRecord.encode)
    (hfuel : size < pos + fuel) (out : List (String × Nat)) :
    readRecords (slice m base size) fuel pos out = .ok (out ++ rawListing rs) := by
  induction rs generalizing pos fuel out with
  | nil =>
      obtain ⟨fuel, rfl⟩ : ∃ f, fuel = f + 1 := ⟨fuel - 1, by omega⟩
      have hend : size - pos = 0 := by
        rw [← length_slice m (base + pos) (size - pos), hstored]
        rfl
      rw [readRecords_succ m base fuel out hsize (by omega), if_neg fun h => ?_]
      · simp [rawListing]
      · have hhead := h.1
        omega
  | cons r rs ih =>
      obtain ⟨fuel, rfl⟩ : ∃ f, fuel = f + 1 := ⟨fuel - 1, by omega⟩
      rw [List.flatMap_cons] at hstored
      have hlen := congrArg List.length hstored
      rw [length_slice, List.length_append, RawRecord.length_encode] at hlen
      obtain ⟨hrecord, hrest⟩ := slice_eq_append hstored
      rw [RawRecord.length_encode] at hrecord hrest
      have hnext : recLen m base pos = r.length := (fields_of_encode hrecord).2.1
      have hge : 8 ≤ r.length := by
        unfold RawRecord.length
        omega
      rw [readRecords_succ m base fuel out hsize (by omega), if_pos ⟨by omega, by omega⟩, hnext,
        entryAt_of_encode hrecord (by omega)]
      rw [Nat.add_assoc, Nat.sub_sub] at hrest
      rw [ih (by omega) hrest (by omega), List.append_assoc, rawListing, rawListing]
      cases hentry : r.entry <;> simp [hentry]

/-- Block `blk` consists of these records and ends below 4 GiB. Without a block there are none. -/
def Stored (m : ByteMem) (fs : Params) (blk : Nat) (rs : List Record) : Prop :=
  if blk = 0 then rs = []
  else blk * fs.blockSize + fs.blockSize < wordCount ∧
    slice m (blk * fs.blockSize) fs.blockSize = rs.flatMap Record.encode

/-- The same of records as they lie in a block. -/
def RawStored (m : ByteMem) (fs : Params) (blk : Nat) (rs : List RawRecord) : Prop :=
  if blk = 0 then rs = []
  else blk * fs.blockSize + fs.blockSize < wordCount ∧
    slice m (blk * fs.blockSize) fs.blockSize = rs.flatMap RawRecord.encode

theorem Stored.raw {blk : Nat} {rs : List Record} (h : Stored m fs blk rs) :
    RawStored m fs blk (rs.map Record.raw) := by
  unfold Stored at h
  unfold RawStored
  split_ifs with hz
  · rw [if_pos hz] at h
    rw [h, List.map_nil]
  · rw [if_neg hz] at h
    exact ⟨h.1, h.2.trans (flatMap_encode_map rs).symm⟩

theorem readDirBlock_encode (hfs : fs.Tabular) {blk : Nat} (h : RawStored (bytes disk) fs blk rs)
    (out : List (String × Nat)) : readDirBlock disk fs out blk = .ok (out ++ rawListing rs) := by
  by_cases hz : blk = 0
  · rw [RawStored, if_pos hz] at h
    rw [readDirBlock, if_pos hz, h]
    simp [rawListing]
  · rw [RawStored, if_neg hz] at h
    obtain ⟨hbelow, hstored⟩ := h
    rw [readDirBlock_eq hfs.blockSize_le hz hbelow]
    exact readRecords_encode hfs.blockSize_le (Nat.zero_le _) hstored (by omega) out

/-! ## The direct blocks -/

theorem readDir_rawStored (hfs : fs.Tabular) {records : Fin 12 → List RawRecord}
    (hstored : ∀ i, RawStored (bytes disk) fs (inode.blocks i) (records i)) :
    readDir disk fs inode = .ok ((List.ofFn records).flatMap rawListing) := by
  have hfold : readDir disk fs inode =
      (List.finRange 12).foldlM (fun out i => readDirBlock disk fs out (inode.blocks i)) [] := by
    rw [readDir, List.ofFn_eq_map, List.foldlM_map]
  rw [hfold, Outcome.foldlM_append (fun i _ => readDirBlock_encode hfs (hstored i)),
    List.nil_append, List.ofFn_eq_map, List.flatMap_map]

theorem readDir_stored (hfs : fs.Tabular) {records : Fin 12 → List Record}
    (hstored : ∀ i, Stored (bytes disk) fs (inode.blocks i) (records i)) :
    readDir disk fs inode = .ok ((List.ofFn records).flatMap listing) := by
  rw [readDir_rawStored hfs fun i => (hstored i).raw, List.ofFn_eq_map, List.ofFn_eq_map,
    List.flatMap_map, List.flatMap_map]
  simp only [rawListing_map]

/-- **Reading a directory inverts writing it.** The records that fill the direct blocks are listed
in order, without the deleted ones. -/
theorem readDir_encode (hbs : fs.blockSize = 1024 * 2 ^ k) (hk : k ≤ 6)
    (records : Fin 12 → List Record)
    (hstored : ∀ i, Stored (bytes disk) fs (inode.blocks i) (records i)) :
    readDir disk fs inode = .ok ((List.ofFn records).flatMap listing) :=
  readDir_stored (tabular_of_pow hbs hk).1 hstored

/-- A disk with these blocks. -/
def diskOf (bs : Nat) (block : Nat → List UInt8) : Disk :=
  ofBytes fun a => (block (a / bs)).getD (a % bs) 0

theorem slice_blocks {bs blk : Nat} {block : Nat → List UInt8} (hlen : (block blk).length = bs) :
    slice (fun a => (block (a / bs)).getD (a % bs) 0) (blk * bs) bs = block blk := by
  apply List.ext_getElem?
  intro i
  rw [getElem?_slice]
  by_cases hi : i < bs
  · have hdiv : (blk * bs + i) / bs = blk := by
      rw [Nat.mul_comm, Nat.mul_add_div (by omega), Nat.div_eq_of_lt hi, Nat.add_zero]
    have hmod : (blk * bs + i) % bs = i := by
      rw [Nat.mul_comm, Nat.mul_add_mod, Nat.mod_eq_of_lt hi]
    rw [if_pos hi, hdiv, hmod, List.getD_eq_getElem _ _ (hlen.symm ▸ hi),
      List.getElem?_eq_getElem (hlen.symm ▸ hi)]
  · rw [if_neg hi, List.getElem?_eq_none (by omega)]

theorem slice_diskOf {bs blk : Nat} {block : Nat → List UInt8} (hlen : (block blk).length = bs)
    (hbelow : blk * bs + bs ≤ wordCount) :
    slice (bytes (diskOf bs block)) (blk * bs) bs = block blk :=
  (slice_congr fun _ _ hi => bytes_ofBytes _ (hi.trans_le hbelow)).trans (slice_blocks hlen)

/-- A deleted record of 12 bytes. -/
def deletedRecord : Record where
  ino := 0
  name := "a"
  fileType := 1
  slack := [0, 0, 0]
  ino_lt := by decide
  name_lt := by decide
  name_pos := fun h => absurd rfl h
  aligned := by decide
  length_lt := by decide

/-- A file whose record fills the rest of a block. -/
def fileRecord : Record where
  ino := 12
  name := "hello.txt"
  fileType := 1
  slack := List.replicate 995 0
  ino_lt := by decide
  name_lt := by decide
  name_pos := fun _ => by decide
  aligned := by rw [List.length_replicate]; decide
  length_lt := by rw [List.length_replicate]; decide

theorem length_two :
    ([deletedRecord, fileRecord].flatMap Record.encode).length = tableFs.blockSize := by
  simp only [List.flatMap_cons, List.flatMap_nil, List.length_append, Record.length_encode,
    Record.length, fileRecord, List.length_replicate]
  rfl

def twoDisk : Disk :=
  diskOf tableFs.blockSize fun _ => [deletedRecord, fileRecord].flatMap Record.encode

def oneBlock : Inode := ⟨1024, fun i => if i = 0 then 21 else 0, 0, 0⟩

theorem stored_two {blk : Nat} (hblk : blk ≠ 0)
    (hbelow : blk * tableFs.blockSize + tableFs.blockSize < wordCount) :
    Stored (bytes twoDisk) tableFs blk [deletedRecord, fileRecord] := by
  rw [Stored, if_neg hblk]
  exact ⟨hbelow, slice_diskOf length_two hbelow.le⟩

/-- A directory with one block lists its file. -/
theorem readDir_encode_two : readDir twoDisk tableFs oneBlock = .ok [("hello.txt", 12)] := by
  refine readDir_encode (k := 0) rfl (by decide)
    (fun i => if i = 0 then [deletedRecord, fileRecord] else []) fun i => ?_
  by_cases hi : i = 0
  · simp only [oneBlock, hi, if_true]
    exact stored_two (by decide) (by decide)
  · simp only [oneBlock, hi, if_false, Stored, if_true]

/-! ## All blocks -/

/-- The listing of a directory by the blocks that `read_file` visits. -/
def walkDir (disk : Disk) (fs : Params) (inode : Inode) : Outcome (List (String × Nat)) := do
  let nblocks ← checkedDivCeil inode.size fs.blockSize
  (List.range nblocks).foldlM
    (fun out n => do readDirBlock disk fs out (← blockAt disk fs inode n)) []

/-- A directory: its blocks exist and consist of records, and there are no other direct blocks. -/
structure IsDirectory (disk : Disk) (fs : Params) (inode : Inode)
    (records : Nat → List RawRecord) : Prop where
  block : ∀ n, n * fs.blockSize < inode.size →
    ∃ blk, blockAt disk fs inode n = .ok blk ∧ blk ≠ 0 ∧ RawStored (bytes disk) fs blk (records n)
  unused : ∀ i : Fin 12, inode.size ≤ i * fs.blockSize → inode.blocks i = 0

variable {records : Nat → List RawRecord}

theorem walkDir_eq (hfs : fs.Tabular) (hbs : fs.blockSize ≠ 0)
    (hdir : IsDirectory disk fs inode records) :
    walkDir disk fs inode =
      .ok ((List.range ((inode.size + fs.blockSize - 1) / fs.blockSize)).flatMap
        fun n => rawListing (records n)) := by
  have hblock : ∀ n ∈ List.range ((inode.size + fs.blockSize - 1) / fs.blockSize), ∀ out,
      (do readDirBlock disk fs out (← blockAt disk fs inode n)) =
        .ok (out ++ rawListing (records n)) := by
    intro n hn out
    rw [List.mem_range, mul_lt_size_iff hbs] at hn
    obtain ⟨blk, hblk, -, hstored⟩ := hdir.block n hn
    rw [hblk, Outcome.ok_bind, readDirBlock_encode hfs hstored]
  rw [walkDir, checkedDivCeil, if_neg hbs, Outcome.ok_bind, Outcome.foldlM_append hblock,
    List.nil_append]

/-- `read_dir` lists those of the first 12 blocks. -/
theorem readDir_eq (hfs : fs.Tabular) (hdir : IsDirectory disk fs inode records) :
    readDir disk fs inode = .ok ((List.range 12).flatMap fun n =>
      if n * fs.blockSize < inode.size then rawListing (records n) else []) := by
  have hstored : ∀ i : Fin 12, RawStored (bytes disk) fs (inode.blocks i)
      (if i * fs.blockSize < inode.size then records i else []) := by
    intro i
    split_ifs with hi
    · obtain ⟨blk, hblk, -, hstored⟩ := hdir.block i hi
      rw [blockAt, dif_pos i.isLt] at hblk
      obtain rfl : inode.blocks i = blk := Outcome.ok.inj hblk
      exact hstored
    · rw [RawStored, if_pos (hdir.unused i (Nat.le_of_not_lt hi))]
  have hrange : (List.ofFn fun i : Fin 12 =>
      if i * fs.blockSize < inode.size then records i else []) =
      (List.range 12).map fun n => if n * fs.blockSize < inode.size then records n else [] := rfl
  rw [readDir_rawStored hfs hstored, hrange, List.flatMap_map]
  simp only [apply_ite rawListing]
  rfl

/-- **The two walks over a directory agree** exactly when the records behind the direct pointers
list no entry. -/
theorem readDir_walk_iff (hbs : fs.blockSize = 1024 * 2 ^ k) (hk : k ≤ 6)
    (hdir : IsDirectory disk fs inode records) :
    readDir disk fs inode = walkDir disk fs inode ↔
      ∀ n, 12 ≤ n → n * fs.blockSize < inode.size → rawListing (records n) = [] := by
  obtain ⟨hfs, hne⟩ := tabular_of_pow hbs hk
  rw [readDir_eq hfs hdir, walkDir_eq hfs hne hdir, Outcome.ok.injEq]
  simp only [← mul_lt_size_iff hne]
  generalize (inode.size + fs.blockSize - 1) / fs.blockSize = nblocks
  have hvisited : ∀ count ≤ nblocks, ((List.range count).flatMap fun n =>
      if n < nblocks then rawListing (records n) else []) =
      (List.range count).flatMap fun n => rawListing (records n) := by
    intro count hcount
    refine List.flatMap_congr fun n hn => ?_
    rw [if_pos ((List.mem_range.1 hn).trans_le hcount)]
  rcases Nat.le_total nblocks 12 with hle | hge
  · have hrest : ∀ n, nblocks ≤ n → n < 12 →
        (if n < nblocks then rawListing (records n) else []) = [] :=
      fun n hn _ => if_neg (Nat.not_lt.2 hn)
    rw [(flatMap_range_iff hle).2 hrest, hvisited nblocks le_rfl]
    exact ⟨fun _ n hn hn' => absurd (hn'.trans_le hle) (Nat.not_lt.2 hn), fun _ => rfl⟩
  · rw [hvisited 12 hge, eq_comm, flatMap_range_iff hge]

/-- One block is read by both walks. -/
theorem readDir_walk_iff_one :
    readDir twoDisk tableFs oneBlock = walkDir twoDisk tableFs oneBlock := by
  have hdir : IsDirectory twoDisk tableFs oneBlock
      fun _ => [deletedRecord, fileRecord].map Record.raw := by
    refine ⟨fun n hn => ?_, fun i hi => ?_⟩
    · obtain rfl : n = 0 := by
        change n * 1024 < 1024 at hn
        omega
      exact ⟨21, rfl, by decide, (stored_two (by decide) (by decide)).raw⟩
    · change 1024 ≤ i.val * 1024 at hi
      exact if_neg fun h => absurd (Fin.val_eq_of_eq h) (by omega)
  refine (readDir_walk_iff (k := 0) rfl (by decide) hdir).2 fun n hn hn' => ?_
  change n * 1024 < 1024 at hn'
  omega

/-- A deleted record over a whole block. -/
def emptyRecord : Record where
  ino := 0
  name := ""
  fileType := 0
  slack := List.replicate 1016 0
  ino_lt := by decide
  name_lt := by decide
  name_pos := fun h => absurd rfl h
  aligned := by rw [List.length_replicate]; decide
  length_lt := by rw [List.length_replicate]; decide

/-- The blocks 21 to 32 have deleted records, block 33 has a file, and block 20 is a table that
points to block 33. -/
def tallBlocks (blk : Nat) : List UInt8 :=
  if blk = 20 then le32 33 ++ List.replicate 1020 0
  else if blk = 33 then [deletedRecord, fileRecord].flatMap Record.encode
  else [emptyRecord].flatMap Record.encode

def tallDisk : Disk := diskOf tableFs.blockSize tallBlocks

/-- A directory of 13 blocks. -/
def tallDir : Inode := ⟨13312, fun i => 21 + i, 20, 0⟩

def tallRecords (n : Nat) : List Record :=
  if n = 12 then [deletedRecord, fileRecord] else [emptyRecord]

theorem stored_tall {n : Nat} (hn : n < 13) :
    Stored (bytes tallDisk) tableFs (21 + n) (tallRecords n) := by
  have hblock : tallBlocks (21 + n) = (tallRecords n).flatMap Record.encode := by
    unfold tallBlocks tallRecords
    rw [if_neg (by omega)]
    by_cases hlast : n = 12
    · rw [if_pos hlast, if_pos (by omega)]
    · rw [if_neg hlast, if_neg (by omega)]
  have hlen : (tallBlocks (21 + n)).length = tableFs.blockSize := by
    rw [hblock, tallRecords]
    split_ifs
    · exact length_two
    · simp only [List.flatMap_cons, List.flatMap_nil, List.append_nil, Record.length_encode,
        Record.length, emptyRecord, List.length_replicate]
      rfl
  have hbelow : (21 + n) * tableFs.blockSize + tableFs.blockSize < wordCount := by
    change (21 + n) * 1024 + 1024 < 2 ^ 32
    omega
  rw [Stored, if_neg (by omega), ← hblock]
  exact ⟨hbelow, slice_diskOf hlen hbelow.le⟩

theorem tallDir_isDirectory :
    IsDirectory tallDisk tableFs tallDir fun n => (tallRecords n).map Record.raw := by
  have htabular : tableFs.Tabular := ⟨by decide, by decide⟩
  refine ⟨fun n hn => ⟨21 + n, ?_, by omega, ?_⟩, fun i hi => ?_⟩
  · change n * 1024 < 13312 at hn
    by_cases hdirect : n < 12
    · rw [blockAt, dif_pos hdirect]
      rfl
    · obtain rfl : n = 12 := by omega
      have hentry : load32 (bytes tallDisk) (20 * 1024 + 0) = 33 := by
        have htable : slice (bytes tallDisk) (20 * tableFs.blockSize) tableFs.blockSize =
            le32 33 ++ List.replicate 1020 0 := by
          refine slice_diskOf ?_ (by decide)
          rw [tallBlocks, if_pos rfl, List.length_append, List.length_replicate]
          rfl
        exact load32_of_slice (by decide) (slice_eq_append htable).1
      refine (blockAt_eq_ok htabular).2 ⟨⟨fun _ _ _ => by decide, fun h => ?_⟩, ?_⟩
      · exact absurd h (by decide)
      · rw [pointer, dif_neg hdirect, if_pos (by decide), if_neg (by decide)]
        exact hentry
  · change n * 1024 < 13312 at hn
    exact (stored_tall (by omega)).raw
  · change 13312 ≤ i.val * 1024 at hi
    omega

/-- **The file in the thirteenth block is not listed.** -/
theorem readDir_tall :
    IsDirectory tallDisk tableFs tallDir (fun n => (tallRecords n).map Record.raw) ∧
      readDir tallDisk tableFs tallDir = .ok [] ∧
      walkDir tallDisk tableFs tallDir = .ok [("hello.txt", 12)] := by
  have hdirect := readDir_eq ⟨by decide, by decide⟩ tallDir_isDirectory
  have hall := walkDir_eq ⟨by decide, by decide⟩ (by decide) tallDir_isDirectory
  simp only [rawListing_map] at hdirect hall
  exact ⟨tallDir_isDirectory, hdirect.trans rfl, hall.trans rfl⟩

end Munux.Fs
