import Munux.Drivers.Disk
import Munux.Fs.BufferCache

/-!
# The buffer cache on a disk that fails

The driver reports a failed read or write, and the cache does not look. What a failed read left in
the buffer is cached as the sector, and data that a failed write did not store is cached as stored.

`unpoisoned_iff` says that these are the only ways in which the cache and the disk come apart.
-/

namespace Munux.Fs

open CacheOp

/-- A disk, and what happens in the calls of the driver from now on: `none` is a success. In a call
that fails, a read leaves `junk` in the buffer and a write leaves the disk alone. -/
structure FaultyDisk where
  sectors : UInt32 → Block
  faults : Nat → Option Block

/-- The disk after a call. -/
def FaultyDisk.next (d : FaultyDisk) : FaultyDisk := { d with faults := fun i => d.faults (i + 1) }

def faultyDriver : Driver FaultyDisk where
  readSector lba _ d := ((d.faults 0).getD (d.sectors lba), d.next)
  writeSector lba data d :=
    match d.faults 0 with
    | none => { d.next with sectors := Function.update d.sectors lba data }
    | some _ => d.next

/-- Every cached block is the block on the disk. -/
def Store.Agrees (s : Store FaultyDisk) : Prop :=
  ∀ lba block, s.theCache.map[lba]? = some block → block = s.disk.sectors lba

/-- And a read while the disk works returns what is there. -/
structure Store.Unpoisoned (s : Store FaultyDisk) : Prop where
  agrees : s.Agrees
  recovered : s.disk.faults 0 = none → ∀ lba block s',
    readSector faultyDriver s lba = .ok (block, s') → block = s.disk.sectors lba

/-- The next call of the driver succeeds, or its failure makes no difference: the junk is what the
disk holds, the data was there before. A read of a cached sector calls nobody. -/
def CacheOp.Harmless (s : Store FaultyDisk) : CacheOp → Prop
  | .read lba => lba ∈ s.theCache.map ∨ ∀ junk ∈ s.disk.faults 0, junk = s.disk.sectors lba
  | .write lba data => s.disk.faults 0 = none ∨ data = s.disk.sectors lba

section Faults

variable {s s' : Store FaultyDisk} {op : CacheOp} {b : Option Block} {lba : UInt32} {block : Block}

/-- With a block inserted, cache and disk agree when they agree on that block. -/
theorem agrees_insert {map : Std.ExtTreeMap UInt32 Block}
    (hmap : s'.theCache.map = map.insert lba block)
    (hold : ∀ lba' b, lba' ≠ lba → map[lba']? = some b → b = s'.disk.sectors lba') :
    s'.Agrees ↔ block = s'.disk.sectors lba := by
  unfold Store.Agrees
  simp only [hmap, getElem?_insert_eq]
  constructor
  · exact fun hall => hall lba block (if_pos rfl)
  · intro hblock lba' b hb
    by_cases hlba : lba = lba'
    · rw [if_pos hlba] at hb
      rw [← hlba, ← Option.some.inj hb, hblock]
    · rw [if_neg hlba] at hb
      exact hold lba' b (Ne.symm hlba) hb

theorem agrees_read (h : s.Agrees) (hcall : readSector faultyDriver s lba = .ok (block, s')) :
    s'.Agrees ↔ (CacheOp.read lba).Harmless s := by
  simp only [CacheOp.Harmless]
  rcases readSector_cases hcall with ⟨hget, hmap, hdisk⟩ | ⟨hget, hread, hmap⟩
  · refine iff_of_true ?_ (.inl (Std.ExtTreeMap.mem_iff_isSome_getElem?.2 (by rw [hget]; rfl)))
    rw [Store.Agrees, hmap, hdisk]
    exact h
  · obtain ⟨hblock, hdisk⟩ := Prod.mk.inj hread
    have hsectors : s'.disk.sectors = s.disk.sectors := by rw [← hdisk]; rfl
    have hmiss : lba ∉ s.theCache.map := by
      rw [Std.ExtTreeMap.mem_iff_isSome_getElem?, hget]
      exact Bool.false_ne_true
    rw [agrees_insert hmap, hsectors, or_iff_right hmiss, ← hblock]
    · cases s.disk.faults 0 <;> simp
    · intro lba' b _ hb
      rw [hsectors]
      exact h lba' b (getElem?_evict hb)

theorem agrees_write (h : s.Agrees) (lba : UInt32) (data : Block) :
    (writeSector faultyDriver s lba data).Agrees ↔ (CacheOp.write lba data).Harmless s := by
  simp only [CacheOp.Harmless]
  have hmap : (writeSector faultyDriver s lba data).theCache.map =
      s.theCache.map.insert lba data := rfl
  rw [agrees_insert hmap]
  · cases hfault : s.disk.faults 0 with
    | none => simp [writeSector, faultyDriver, hfault]
    | some junk => simp [writeSector, faultyDriver, hfault, FaultyDisk.next]
  · intro lba' b hne hb
    rw [h lba' b hb]
    cases hfault : s.disk.faults 0 with
    | none => simp [writeSector, faultyDriver, hfault, hne]
    | some junk => simp [writeSector, faultyDriver, hfault, FaultyDisk.next]

/-- A call that returns keeps cache and disk together exactly when it is harmless. -/
theorem agrees_step (h : s.Agrees) (hcall : op.step faultyDriver s = .ok (b, s')) :
    s'.Agrees ↔ op.Harmless s := by
  cases op with
  | read lba =>
      obtain ⟨⟨block, s₁⟩, hread, heq⟩ := Outcome.bind_eq_ok.1 hcall
      obtain ⟨-, rfl⟩ := Prod.mk.inj (Outcome.ok.inj heq)
      exact agrees_read h hread
  | write lba data =>
      obtain ⟨-, rfl⟩ := Prod.mk.inj (Outcome.ok.inj hcall)
      exact agrees_write h lba data

theorem Store.Agrees.unpoisoned (h : s.Agrees) : s.Unpoisoned := by
  refine ⟨h, ?_⟩
  intro hworks lba block s' hcall
  rcases readSector_cases hcall with ⟨hget, -, -⟩ | ⟨-, hread, -⟩
  · exact h lba block hget
  · rw [← (Prod.mk.inj hread).1, hworks]
    rfl

theorem agrees_boot (disk : FaultyDisk) : (Store.boot disk).Agrees := by
  intro lba block hblock
  simp [Store.boot, Store.theCache, Cache.new] at hblock

/-- **Errors poison the cache** in exactly these calls: reads of a sector that is not cached, and
writes, that fail and make a difference. -/
theorem unpoisoned_iff (disk : FaultyDisk) (ops : List CacheOp) :
    (∀ pre s, pre <+: ops → CacheOp.run faultyDriver (Store.boot disk) pre = .ok s →
      s.Unpoisoned) ↔ CacheOp.Throughout faultyDriver CacheOp.Harmless (Store.boot disk) ops := by
  rw [← run_iff agrees_step (agrees_boot disk) ops]
  constructor
  · exact fun hall pre s hpre hrun => (hall pre s hpre hrun).agrees
  · exact fun hall pre s hpre hrun => (hall pre s hpre hrun).unpoisoned

/-- **A read that failed once.** The first call of the driver leaves the buffer as it was, all later
ones succeed; the cache goes on serving zeros. -/
theorem junk_cached :
    ∃ disk s s', CacheOp.run faultyDriver (Store.boot disk) [.read 2] = .ok s ∧
      (∀ i, s.disk.faults i = none) ∧ s.disk.sectors 2 = Vector.replicate 512 7 ∧
      readSector faultyDriver s 2 = .ok (Vector.replicate 512 0, s') ∧ ¬s.Unpoisoned := by
  let zeros : Block := Vector.replicate 512 0
  let disk : FaultyDisk :=
    ⟨fun _ => Vector.replicate 512 7, fun i => if i = 0 then some zeros else none⟩
  let s : Store FaultyDisk := ⟨some ⟨(evict ∅).insert 2 zeros, 0, 1⟩, disk.next⟩
  let s' : Store FaultyDisk := ⟨some ⟨(evict ∅).insert 2 zeros, 1, 1⟩, disk.next⟩
  have hget : s.theCache.map[(2 : UInt32)]? = some zeros := by
    simp [s]
  have hread : readSector faultyDriver s 2 = .ok (zeros, s') := by
    simp only [readSector, hget]
    rfl
  refine ⟨disk, s, s', ?_, fun i => rfl, rfl, hread, ?_⟩
  · have hmiss : (Store.boot disk).theCache.map[(2 : UInt32)]? = none :=
      Std.ExtTreeMap.getElem?_empty
    simp only [CacheOp.run, CacheOp.step, readSector, hmiss]
    rfl
  · intro hclean
    have hwrong : zeros = Vector.replicate 512 7 := hclean.recovered rfl 2 zeros s' hread
    have hbyte := congrArg (fun v : Block => v[0]) hwrong
    simp [zeros] at hbyte

end Faults

/-! ## The driver of the kernel -/

/-- The cache calls the disk driver and drops its results. -/
def ataDriver : Driver Drivers.Ata where
  readSector lba buffer d := (Drivers.diskReadSector lba buffer d).2
  writeSector lba data d := (Drivers.diskWriteSector lba data d).2

/-- **What is cached after a failure.** When the controller does not answer, the cache returns and
keeps a sector of zeros. -/
theorem readSector_zeros {s s' : Store Drivers.Ata} {lba : UInt32} {block : Block}
    (hfail : ¬Drivers.Answers s.disk.status) (hmiss : s.theCache.map[lba]? = none)
    (hcall : readSector ataDriver s lba = .ok (block, s')) :
    block = Vector.replicate 512 0 ∧ s'.theCache.map[lba]? = some block := by
  rcases readSector_cases hcall with ⟨hget, -, -⟩ | ⟨-, hread, hmap⟩
  · rw [hmiss] at hget
    cases hget
  obtain ⟨r, buffer, d, hdisk, hkeeps, hreports⟩ :=
    Drivers.diskReadSector_spec lba (Vector.replicate 512 0) s.disk
  have hr : r ≠ 0 := by
    obtain ⟨trace, -, ⟨hyes, -⟩ | ⟨-, rfl, -⟩⟩ := hreports
    · exact absurd hyes hfail
    · decide
  simp only [ataDriver, hdisk, hkeeps hr, Prod.mk.injEq] at hread
  refine ⟨hread.1.symm, ?_⟩
  rw [hmap, getElem?_insert_eq, if_pos rfl]

end Munux.Fs
