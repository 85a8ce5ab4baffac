import Munux.Drivers.AtaDrive
import Munux.Fs.CacheFaults
import Munux.Lib.Queries

/-!
# From the cache to the drive

The buffer cache on the disk driver on a drive. The drive decides what the ports return; a run is
judged by the accesses that it has made when it is over (`Served`).

**Main results.**

* `storage_lastWrite`: after any calls of the cache, the drive and the cache hold the data of the
  last write to each sector, as if the whole were an array. Sector numbers must have 28 bits: two
  numbers that agree in these are one sector on the drive and two in the cache.
* `queries_on_drive`: whatever a program computes from the sectors it reads through the cache, it
  computes from the sectors of the drive.
-/

namespace Munux.Fs

open Drivers CacheOp

/-- The sectors of a drive by their numbers, of which 28 bits count. -/
def driveDisk (d : AtaDrive) : UInt32 → Block := fun lba => d.sectors (sector28 lba)

/-- The drive rests, and the cache holds sectors of the drive. -/
structure InStep (d : AtaDrive) (s : Store Ata) : Prop where
  rested : d.Rested
  cached : ∀ lba block, s.theCache.map[lba]? = some block → block = driveDisk d lba

/-- The number of a call's sector. -/
def CacheOp.lba : CacheOp → UInt32
  | .read lba => lba
  | .write lba _ => lba

/-- The cached sectors have 28-bit numbers. -/
def Store.Short (s : Store Ata) : Prop :=
  ∀ (lba : UInt32) (block : Block), s.theCache.map[lba]? = some block → lba < 0x10000000

section Calls

variable {d d' : AtaDrive} {s s' : Store Ata} {lba : UInt32} {block data : Block}

theorem sector28_of_lt (h : lba < 0x10000000) : sector28 lba = lba := by
  have hlt : lba.toNat < 2 ^ 28 := UInt32.lt_iff_toNat_lt.1 h
  rw [← UInt32.toNat_inj, sector28, UInt32.toNat_and]
  exact (Nat.and_two_pow_sub_one_eq_mod _ 28).trans (Nat.mod_eq_of_lt hlt)

theorem later_readSector (h : readSector ataDriver s lba = .ok (block, s')) :
    Later s.disk s'.disk := by
  rcases readSector_cases h with ⟨-, -, hdisk⟩ | ⟨-, hread, -⟩
  · rw [hdisk]
    exact LaterBy.refl _ _
  · rw [← (Prod.mk.inj hread).2]
    exact (later_ataWaitBsy _).trans (later_diskReadSector lba _ _)

/-- **A read** returns the sector on the drive. -/
theorem readSector_inStep (h : InStep d s) (hcall : readSector ataDriver s lba = .ok (block, s'))
    (hs : Served d s.disk d' s'.disk) :
    block = driveDisk d lba ∧ d'.sectors = d.sectors ∧ InStep d' s' := by
  rcases readSector_cases hcall with ⟨hget, hmap, hdisk⟩ | ⟨-, hread, hmap⟩
  · rw [hdisk] at hs
    obtain rfl := hs.same
    exact ⟨h.cached lba block hget, rfl, h.rested, hmap ▸ h.cached⟩
  · obtain ⟨hblock, hdisk⟩ := Prod.mk.inj hread
    rw [← hdisk] at hs
    obtain ⟨-, hbuffer, hsectors, hidle⟩ := diskReadSector_served h.rested hs
    have hnew : block = driveDisk d lba := hblock.symm.trans hbuffer
    refine ⟨hnew, hsectors, .inl hidle, ?_⟩
    intro lba' b hb
    rw [driveDisk, hsectors]
    rw [hmap, getElem?_insert_eq] at hb
    by_cases hlba : lba = lba'
    · rw [if_pos hlba] at hb
      rw [← Option.some.inj hb, hnew, hlba, driveDisk]
    · rw [if_neg hlba] at hb
      exact h.cached lba' b (getElem?_evict hb)

/-- **A write** reaches the drive. -/
theorem writeSector_inStep (h : InStep d s) (hshort : s.Short) (hlba : lba < 0x10000000)
    (hs : Served d s.disk d' (writeSector ataDriver s lba data).disk) :
    d'.sectors = Function.update d.sectors lba data ∧
      InStep d' (writeSector ataDriver s lba data) := by
  obtain ⟨-, hsectors, hidle⟩ := diskWriteSector_served h.rested hs
  rw [sector28_of_lt hlba] at hsectors
  refine ⟨hsectors, .inl hidle, ?_⟩
  intro lba' b hb
  simp only [writeSector, theCache_some, getElem?_insert_eq] at hb
  by_cases heq : lba = lba'
  · rw [if_pos heq] at hb
    rw [← Option.some.inj hb, driveDisk, hsectors, ← heq, sector28_of_lt hlba, Function.update_self]
  · rw [if_neg heq] at hb
    have hlba' := sector28_of_lt (hshort lba' b hb)
    rw [driveDisk, hsectors, hlba', Function.update_of_ne (Ne.symm heq), h.cached lba' b hb,
      driveDisk, hlba']

end Calls

/-! ## Runs -/

section Runs

variable {D : Type} {drv : Driver D} {d d' : AtaDrive} {ops : List CacheOp} {lba : UInt32}
  {block : Block}

/-- A read returns as long as the counters do not overflow, whatever the disk does. -/
theorem readSector_returns (drv : Driver D) (s : Store D) (lba : UInt32)
    (hcount : s.theCache.hits + s.theCache.misses + 1 < wordCount) :
    ∃ block s', readSector drv s lba = .ok (block, s') ∧
      s'.theCache.hits + s'.theCache.misses = s.theCache.hits + s.theCache.misses + 1 := by
  cases hget : s.theCache.map[lba]? with
  | some block =>
      have hhits : checkedAdd s.theCache.hits 1 = .ok (s.theCache.hits + 1) :=
        checkedAdd_eq_ok.2 ⟨rfl, by omega⟩
      simp only [readSector, hget, hhits, Outcome.ok_bind, Outcome.pure_eq]
      exact ⟨_, _, rfl, Nat.add_right_comm ..⟩
  | none =>
      have hmisses : checkedAdd s.theCache.misses 1 = .ok (s.theCache.misses + 1) :=
        checkedAdd_eq_ok.2 ⟨rfl, by omega⟩
      simp only [readSector, hget, hmisses, Outcome.ok_bind, Outcome.pure_eq]
      exact ⟨_, _, rfl, rfl⟩

theorem run_returns (drv : Driver D) (s : Store D) (ops : List CacheOp)
    (hcount : s.theCache.hits + s.theCache.misses + reads ops < wordCount) :
    ∃ s', CacheOp.run drv s ops = .ok s' ∧
      s'.theCache.hits + s'.theCache.misses =
        s.theCache.hits + s.theCache.misses + reads ops := by
  induction ops generalizing s with
  | nil => exact ⟨s, rfl, rfl⟩
  | cons op ops ih =>
      cases op with
      | read lba =>
          have hreads : reads (.read lba :: ops) = reads ops + 1 := List.countP_cons_of_pos rfl
          rw [hreads] at hcount ⊢
          obtain ⟨block, s₁, hread, hsum⟩ := readSector_returns drv s lba (by omega)
          obtain ⟨s', hrun, hsum'⟩ := ih s₁ (by omega)
          refine ⟨s', ?_, by omega⟩
          simp only [CacheOp.run, CacheOp.step, hread, Outcome.ok_bind, hrun]
      | write lba data =>
          have hreads : reads (.write lba data :: ops) = reads ops :=
            List.countP_cons_of_neg (by simp)
          rw [hreads] at hcount ⊢
          obtain ⟨s', hrun, hsum⟩ := ih (writeSector drv s lba data) hcount
          exact ⟨s', hrun, hsum⟩

variable {s s' : Store Ata}

theorem later_run (h : CacheOp.run ataDriver s ops = .ok s') : Later s.disk s'.disk := by
  induction ops generalizing s with
  | nil =>
      rw [← Outcome.ok.inj h]
      exact LaterBy.refl _ _
  | cons op ops ih =>
      obtain ⟨⟨b, s₁⟩, hstep, hrest⟩ := Outcome.bind_eq_ok.1 h
      refine LaterBy.trans ?_ (ih hrest)
      cases op with
      | read lba =>
          obtain ⟨⟨block, s₂⟩, hread, heq⟩ := Outcome.bind_eq_ok.1 hstep
          obtain ⟨-, rfl⟩ := Prod.mk.inj (Outcome.ok.inj heq)
          exact later_readSector hread
      | write lba data =>
          obtain ⟨-, rfl⟩ := Prod.mk.inj (Outcome.ok.inj hstep)
          exact later_diskWriteSector lba data s.disk

/-- One call of the cache. -/
theorem step_inStep {op : CacheOp} {b : Option Block} (h : InStep d s) (hshort : s.Short)
    (hlba : op.lba < 0x10000000) (hstep : op.step ataDriver s = .ok (b, s'))
    (hs : Served d s.disk d' s'.disk) :
    InStep d' s' ∧ s'.Short ∧
      ∀ lba, d'.sectors lba = (lastWrite lba [op]).getD (d.sectors lba) := by
  cases op with
  | read lba =>
      obtain ⟨⟨block, s₁⟩, hread, heq⟩ := Outcome.bind_eq_ok.1 hstep
      obtain ⟨-, rfl⟩ := Prod.mk.inj (Outcome.ok.inj heq)
      obtain ⟨-, hsectors, hin⟩ := readSector_inStep h hread hs
      refine ⟨hin, ?_, fun lba' => by rw [hsectors]; rfl⟩
      intro lba' block' hget
      rcases readSector_cases hread with ⟨-, hmap, -⟩ | ⟨-, -, hmap⟩
      · exact hshort lba' block' (hmap ▸ hget)
      · rw [hmap, getElem?_insert_eq] at hget
        split_ifs at hget with heq
        · exact heq ▸ hlba
        · exact hshort lba' block' (getElem?_evict hget)
  | write lba data =>
      obtain ⟨-, rfl⟩ := Prod.mk.inj (Outcome.ok.inj hstep)
      have hlba : lba < 0x10000000 := hlba
      obtain ⟨hsectors, hin⟩ := writeSector_inStep h hshort hlba hs
      refine ⟨hin, ?_, fun lba' => ?_⟩
      · intro lba' block' hget
        simp only [writeSector, theCache_some, getElem?_insert_eq] at hget
        split_ifs at hget with heq
        · exact heq ▸ hlba
        · exact hshort lba' block' hget
      · rw [hsectors, lastWrite]
        by_cases heq : lba = lba'
        · simp [heq, lastWrite]
        · simp [heq, lastWrite, Function.update_of_ne (Ne.symm heq)]

theorem lastWrite_cons (lba : UInt32) (op : CacheOp) (ops : List CacheOp) :
    lastWrite lba (op :: ops) = (lastWrite lba ops).or (lastWrite lba [op]) := by
  cases op with
  | read lba' => simp [lastWrite]
  | write lba' data => simp [lastWrite]

/-- The drive through a run. -/
theorem run_inStep (h : InStep d s) (hshort : s.Short) (hlba : ∀ op ∈ ops, op.lba < 0x10000000)
    (hrun : CacheOp.run ataDriver s ops = .ok s') (hs : Served d s.disk d' s'.disk) :
    InStep d' s' ∧ ∀ lba, d'.sectors lba = (lastWrite lba ops).getD (d.sectors lba) := by
  induction ops generalizing d s with
  | nil =>
      obtain rfl := Outcome.ok.inj hrun
      obtain rfl := hs.same
      exact ⟨h, fun _ => rfl⟩
  | cons op ops ih =>
      obtain ⟨⟨b, s₁⟩, hstep, hrest⟩ := Outcome.bind_eq_ok.1 hrun
      have hlater : Later s.disk s₁.disk := later_run
        (show CacheOp.run ataDriver s [op] = .ok s₁ by
          simp only [CacheOp.run, hstep, Outcome.ok_bind])
      obtain ⟨d₁, hs₁, hs₂⟩ := hs.split hlater (later_run hrest)
      obtain ⟨h₁, hshort₁, hsectors₁⟩ :=
        step_inStep h hshort (hlba op List.mem_cons_self) hstep hs₁
      obtain ⟨h', hsectors⟩ :=
        ih h₁ hshort₁ (fun op' hmem => hlba op' (List.mem_cons_of_mem op hmem)) hrest hs₂
      refine ⟨h', fun lba => ?_⟩
      rw [hsectors, hsectors₁, lastWrite_cons lba op ops]
      cases lastWrite lba ops <;> rfl

theorem boot_inStep (h : d.Rested) (a : Ata) : InStep d (Store.boot a) ∧ (Store.boot a).Short := by
  refine ⟨⟨h, ?_⟩, ?_⟩
  all_goals
    intro lba block hget
    simp [Store.boot, Store.theCache, Cache.new] at hget

/-- **The whole is an array of sectors.** Any calls of the cache on the driver return; on any drive
that serves them, every sector holds its last write or what it held at first, and that is what a
further read returns. -/
theorem storage_lastWrite (h : d.Rested) (a : Ata) (hlba : ∀ op ∈ ops, op.lba < 0x10000000)
    (hcount : reads ops + 1 < wordCount) (hn : lba < 0x10000000) :
    ∃ s block s', CacheOp.run ataDriver (Store.boot a) ops = .ok s ∧
      readSector ataDriver s lba = .ok (block, s') ∧
        ∀ d', Served d a d' s'.disk →
          block = (lastWrite lba ops).getD (d.sectors lba) ∧
            ∀ lba, d'.sectors lba = (lastWrite lba ops).getD (d.sectors lba) := by
  obtain ⟨hin, hshort⟩ := boot_inStep h a
  have hzero : (Store.boot a).theCache.hits + (Store.boot a).theCache.misses = 0 := rfl
  obtain ⟨s, hrun, hsum⟩ := run_returns ataDriver (Store.boot a) ops (by omega)
  obtain ⟨block, s', hread, -⟩ := readSector_returns ataDriver s lba (by omega)
  refine ⟨s, block, s', hrun, hread, fun d' hs => ?_⟩
  obtain ⟨d₁, hs₁, hs₂⟩ := ServedBy.split (later_run hrun) (later_readSector hread) hs
  obtain ⟨hin₁, hsectors⟩ := run_inStep hin hshort hlba hrun hs₁
  obtain ⟨hblock, hkept, -⟩ := readSector_inStep hin₁ hread hs₂
  refine ⟨?_, fun lba => by rw [hkept, hsectors]⟩
  rw [hblock, driveDisk, sector28_of_lt hn, hsectors]

/-- An idle drive of zeros, and ports of which nothing is known yet. -/
def blankDrive : AtaDrive where
  sectors := fun _ => Vector.replicate 512 0
  device := 0
  count := 0
  low := 0
  mid := 0
  high := 0
  phase := .idle

def freshPorts : Ata := ⟨fun _ => 0, fun _ => 0, []⟩

/-- A sector of sevens is written, and read back from the cache; the drive has it too. -/
theorem storage_lastWrite_sevens : ∃ s block s' d',
    CacheOp.run ataDriver (Store.boot (promptWrite freshPorts))
      [.write 2 (Vector.replicate 512 7)] = .ok s ∧
      readSector ataDriver s 2 = .ok (block, s') ∧
        Served blankDrive (promptWrite freshPorts) d' s'.disk ∧
          block = Vector.replicate 512 7 ∧ d'.sectors 2 = Vector.replicate 512 7 := by
  have hlba : ∀ op ∈ [CacheOp.write 2 (Vector.replicate 512 7)], op.lba < 0x10000000 := by
    simp [CacheOp.lba]
  obtain ⟨s, block, s', hrun, hread, hserved⟩ := storage_lastWrite (d := blankDrive) (.inl rfl)
    (promptWrite freshPorts) hlba (by decide) (show (2 : UInt32) < 0x10000000 by decide)
  obtain rfl := Outcome.ok.inj hrun
  have hdisk : s'.disk = (diskWriteSector 2 (Vector.replicate 512 7) (promptWrite freshPorts)).2 := by
    rcases readSector_cases hread with ⟨-, -, hdisk⟩ | ⟨hmiss, -⟩
    · exact hdisk
    · simp [writeSector] at hmiss
  have hprompt := diskWriteSector_prompt (d := blankDrive) rfl (Vector.replicate 512 7) freshPorts 2
  rw [← hdisk] at hprompt
  obtain ⟨hblock, hsectors⟩ := hserved _ hprompt
  exact ⟨_, block, s', _, rfl, hread, hprompt, hblock, hsectors 2⟩

/-- **Programs that read sectors** through the cache compute what they would compute from the
sectors of the drive, on any drive that serves them. -/
theorem queries_on_drive {α : Type} (p : Queries UInt32 Block α) {x : α} (h : InStep d s)
    (hrun : p.run (fun lba s => readSector ataDriver s lba) s = .ok (x, s'))
    (hs : Served d s.disk d' s'.disk) : p.answer (driveDisk d) = .ok x ∧ InStep d' s' := by
  have hobs : Queries.Observes (fun s s' : Store Ata => Later s.disk s'.disk)
      (fun d s d' s' => Served d s.disk d' s'.disk) :=
    ⟨fun s => LaterBy.refl _ _, LaterBy.trans, ServedBy.same, ServedBy.split⟩
  obtain ⟨hanswer, -, hin⟩ := Queries.run_sound hobs later_readSector
    (J := fun e t => driveDisk e = driveDisk d ∧ InStep e t)
    (fun ⟨hdisk, hin⟩ hread hserved => by
      obtain ⟨hblock, hsectors, hin'⟩ := readSector_inStep hin hread hserved
      refine ⟨hdisk ▸ hblock, ?_, hin'⟩
      rw [← hdisk]
      funext lba
      rw [driveDisk, driveDisk, hsectors])
    p ⟨rfl, h⟩ hrun hs
  exact ⟨hanswer, hin⟩

/-- A read of a sector that is cached, -/
theorem readSector_some (drv : Driver D) {c : Cache} (disk : D) (hget : c.map[lba]? = some block)
    (hcount : c.hits + 1 < wordCount) :
    readSector drv ⟨some c, disk⟩ lba = .ok (block, ⟨some { c with hits := c.hits + 1 }, disk⟩) := by
  have hhits : checkedAdd c.hits 1 = .ok (c.hits + 1) := checkedAdd_eq_ok.2 ⟨rfl, hcount⟩
  simp only [readSector, theCache_some, hget, hhits, Outcome.ok_bind, Outcome.pure_eq]

/-- and of one that is not. -/
theorem readSector_none (drv : Driver D) {c : Cache} {disk disk' : D} (hget : c.map[lba]? = none)
    (hread : drv.readSector lba (Vector.replicate 512 0) disk = (block, disk'))
    (hcount : c.misses + 1 < wordCount) :
    readSector drv ⟨some c, disk⟩ lba =
      .ok (block, ⟨some ⟨(evict c.map).insert lba block, c.hits, c.misses + 1⟩, disk'⟩) := by
  have hmisses : checkedAdd c.misses 1 = .ok (c.misses + 1) := checkedAdd_eq_ok.2 ⟨rfl, hcount⟩
  simp only [readSector, theCache_some, hget, hmisses, hread, Outcome.ok_bind, Outcome.pure_eq]

/-- **A drive that serves them exists**: an idle drive with any sectors can be ready at once
whenever it is asked, and then a program returns what it computes from the sectors. -/
theorem queries_served {α : Type} (p : Queries UInt32 Block α) {x : α} {c : Cache} (log : List Access)
    (hidle : d.phase = .idle) (hx : p.answer (driveDisk d) = .ok x)
    (hcached : ∀ lba block, c.map[lba]? = some block → block = driveDisk d lba)
    (hcount : c.hits + c.misses + p.cost (driveDisk d) < wordCount) :
    ∃ a s' d', a.log = log ∧
      p.run (fun lba s => readSector ataDriver s lba) ⟨some c, a⟩ = .ok (x, s') ∧
        Served d a d' s'.disk := by
  induction p generalizing d c log with
  | ret o =>
      obtain rfl : o = .ok x := hx
      exact ⟨⟨fun _ => 0, fun _ => 0, log⟩, _, d, rfl, rfl, ServedBy.refl _ _ d _⟩
  | ask q k ih =>
      rw [Queries.cost] at hcount
      cases hget : c.map[q]? with
      | some block =>
          obtain rfl := hcached q block hget
          obtain ⟨a, s', d', hlog, hrun, hserved⟩ := ih (driveDisk d q)
            (c := { c with hits := c.hits + 1 }) log hidle hx hcached (by
              simp only
              omega)
          refine ⟨a, s', d', hlog, ?_, hserved⟩
          rw [Queries.run_ask, readSector_some ataDriver a hget (by omega)]
          exact hrun
      | none =>
          have hcached' : ∀ lba block,
              ((evict c.map).insert q (driveDisk d q))[lba]? = some block →
                block = driveDisk d lba := by
            intro lba block hb
            rw [getElem?_insert_eq] at hb
            split_ifs at hb with hq
            · rw [← Option.some.inj hb, hq]
            · exact hcached lba block (getElem?_evict hb)
          obtain ⟨a, s', d', hlog, hrun, hserved⟩ := ih (driveDisk d q)
            (d := { d.select q with phase := .idle })
            (c := ⟨(evict c.map).insert q (driveDisk d q), c.hits, c.misses + 1⟩)
            (log ++ readTrace d q) rfl hx hcached' (by
              change c.hits + (c.misses + 1) + (k (driveDisk d q)).cost (driveDisk d) < _
              omega)
          set b : Ata := { a with log := log } with hb
          have hprompt := diskReadSector_prompt hidle (Vector.replicate 512 0) b q
          have hrest := diskReadSector_prompt_rest (Vector.replicate 512 0) d b q
          have hsector := (diskReadSector_served (.inl hidle) hprompt).2.1
          have hata : { b with log := b.log ++ readTrace d q } = a := by rw [hb, ← hlog]
          rw [hata] at hrest
          rw [hrest] at hprompt
          refine ⟨promptRead d q b, s', d', rfl, ?_, hprompt.trans hserved⟩
          rw [Queries.run_ask, readSector_none ataDriver hget (Prod.ext hsector hrest) (by omega)]
          exact hrun

end Runs

end Munux.Fs
