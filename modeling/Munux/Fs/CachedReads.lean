import Munux.Fs.Ext2Layout

/-!
# Reading through the cache

`read_range` of `munux-rs/src/ext2.rs` with the buffer cache it calls: it fetches the sectors that
cover the range, one after another, and cuts the range out of them. `readRange` is the same function
of a disk. The two agree as long as the cache is transparent, which says that its next reads return
the sectors of the disk (`Transparent`).

Main result: `cachedReadRange_bytes`, every byte of a range.
-/

namespace Munux.Fs

open ByteMem

variable {D : Type}

/-- The loop body of `read_range`: one sector more. -/
def readInto (drv : Driver D) (acc : List UInt8 × Store D) (sec : Nat) :
    Outcome (List UInt8 × Store D) := do
  let (raw, s) := acc
  let (sbuf, s) ← readSector drv s (UInt32.ofNat sec)
  return (raw ++ sbuf.toList, s)

/-- `read_range` -/
def cachedReadRange (drv : Driver D) (s : Store D) (byteOff len : Nat) :
    Outcome (List UInt8 × Store D) := do
  let start := byteOff / 512
  let stop ← checkedDivCeil (← checkedAdd byteOff len) 512
  let sectors ← checkedSub stop start
  let _capacity ← checkedMul sectors 512
  let (raw, s) ← (List.range' start sectors).foldlM (readInto drv) ([], s)
  let skip := byteOff % 512
  let data ← subrange raw skip (← checkedAdd skip len)
  return (data, s)

/-- The next `n` reads return what the disk holds, whichever sectors they are of. -/
def Transparent (drv : Driver D) (disk : Disk) : (n : Nat) → Store D → Prop
  | 0, _ => True
  | n + 1, s => ∀ lba, ∃ s', readSector drv s lba = .ok (disk lba, s') ∧ Transparent drv disk n s'

/-- The number of sectors that a range touches. -/
def sectorCount (byteOff len : Nat) : Nat := (byteOff + len + 511) / 512 - byteOff / 512

section Cached

variable {drv : Driver D} {disk : Disk} {s : Store D} {off len n m : Nat}

/-- A coherent cache on a disk that works is transparent, until its counters are full. -/
theorem transparent_of_coherent {s : Store Disk} (h : Coherent s)
    (hcount : s.theCache.hits + s.theCache.misses + n < wordCount) :
    Transparent arrayDriver s.disk n s := by
  induction n generalizing s with
  | zero => trivial
  | succ n ih =>
      intro lba
      obtain ⟨s', hcall, hcoherent, hdisk, hsum⟩ := readSector_spec h lba (by omega)
      refine ⟨s', hcall, ?_⟩
      rw [← hdisk]
      exact ih hcoherent (by omega)

/-- The loop collects the sectors of the disk. -/
theorem readInto_run (h : Transparent drv disk (n + m) s) (start : Nat) (raw : List UInt8) :
    ∃ s', (List.range' start n).foldlM (readInto drv) (raw, s) =
        .ok (raw ++ (List.range' start n).flatMap fun sec => (disk (UInt32.ofNat sec)).toList, s') ∧
      Transparent drv disk m s' := by
  induction n generalizing start raw s with
  | zero =>
      rw [Nat.zero_add] at h
      exact ⟨s, by rw [List.range'_zero, List.flatMap_nil, List.append_nil]; rfl, h⟩
  | succ n ih =>
      rw [Nat.succ_add] at h
      obtain ⟨s₁, hread, hrest⟩ := h (UInt32.ofNat start)
      obtain ⟨s', hloop, hafter⟩ := ih hrest (start + 1) (raw ++ (disk (UInt32.ofNat start)).toList)
      refine ⟨s', ?_, hafter⟩
      have hstep : readInto drv (raw, s) start =
          .ok (raw ++ (disk (UInt32.ofNat start)).toList, s₁) := by
        rw [readInto, hread]
        rfl
      rw [List.range'_succ, List.foldlM_cons, hstep, Outcome.ok_bind, hloop, List.flatMap_cons,
        List.append_assoc]

/-- **Through a transparent cache**, the range is read from the disk. -/
theorem cachedReadRange_eq (h : Transparent drv disk (sectorCount off len + m) s)
    (hoff : off + len < wordCount) : ∃ s', Transparent drv disk m s' ∧
      cachedReadRange drv s off len = (readRange disk off len >>= fun data => .ok (data, s')) := by
  have hsum : checkedAdd off len = .ok (off + len) := checkedAdd_eq_ok.2 ⟨rfl, hoff⟩
  have hstop : checkedDivCeil (off + len) 512 = .ok ((off + len + 511) / 512) :=
    checkedDivCeil_eq_ok.2 ⟨rfl, by decide⟩
  have hcount : checkedSub ((off + len + 511) / 512) (off / 512) = .ok (sectorCount off len) :=
    checkedSub_eq_ok.2 ⟨rfl, by omega⟩
  obtain ⟨s', hloop, hafter⟩ := readInto_run h (off / 512) []
  refine ⟨s', hafter, ?_⟩
  rw [cachedReadRange, readRange]
  simp only [hsum, hstop, hcount, Outcome.ok_bind, hloop, List.nil_append]
  cases checkedMul (sectorCount off len) 512 with
  | ok _ =>
      simp only [Outcome.ok_bind]
      cases checkedAdd (off % 512) len with
      | ok last => rfl
      | panic => rfl
      | diverge => rfl
  | panic => rfl
  | diverge => rfl

/-- **`read_range` is a byte slice of the disk**, for ranges of up to a block of the largest size:
it returns as many bytes as it was asked for, and each of them is the one on the disk. The cache
stays transparent for the reads that are left. -/
theorem cachedReadRange_bytes (hcache : Transparent drv disk (sectorCount off len + m) s)
    (hlen : len ≤ 65536) (hoff : off + len < 2 ^ 32) :
    ∃ data s', cachedReadRange drv s off len = .ok (data, s') ∧ data.length = len ∧
      (∀ i, i < len → data[i]? = some (bytes disk (off + i))) ∧ Transparent drv disk m s' := by
  obtain ⟨s', hafter, hread⟩ := cachedReadRange_eq hcache hoff
  have hrange : readRange disk off len = .ok (slice (bytes disk) off len) :=
    (readRange_eq_ok (hlen.trans (by decide))).2 ⟨hoff, rfl⟩
  refine ⟨slice (bytes disk) off len, s', ?_, length_slice .., fun i hi => ?_, hafter⟩
  · rw [hread, hrange, Outcome.ok_bind]
  · rw [getElem?_slice, if_pos hi]

/-- The disk whose sector `n` holds the byte `n` throughout. -/
def numberedDisk : Disk := fun lba => Vector.replicate 512 lba.toUInt8

theorem bytes_numberedDisk (a : Nat) :
    bytes numberedDisk a = (UInt32.ofNat (a / 512)).toUInt8 := Vector.getElem_replicate ..

/-- Four bytes across the end of sector 2, on the first use of the cache. -/
theorem cachedReadRange_across : ∃ s',
    cachedReadRange arrayDriver (Store.boot numberedDisk) 1534 4 = .ok ([2, 2, 3, 3], s') := by
  have hcache : Transparent arrayDriver numberedDisk (sectorCount 1534 4 + 0)
      (Store.boot numberedDisk) := transparent_of_coherent (coherent_boot numberedDisk) (by decide)
  obtain ⟨data, s', hread, hlen, hdata, -⟩ :=
    cachedReadRange_bytes hcache (by decide) (by decide)
  simp only [bytes_numberedDisk] at hdata
  have heq : data = [2, 2, 3, 3] := by
    refine List.ext_getElem? fun i => ?_
    match i with
    | 0 => exact hdata 0 (by decide)
    | 1 => exact hdata 1 (by decide)
    | 2 => exact hdata 2 (by decide)
    | 3 => exact hdata 3 (by decide)
    | i + 4 =>
        rw [List.getElem?_eq_none (by omega)]
        rfl
  exact ⟨s', heq ▸ hread⟩

end Cached

end Munux.Fs
