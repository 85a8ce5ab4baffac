import Munux.Fs.BufferCache
import Mathlib.Logic.Relation

/-!
# The buffer cache under preemption

`IrqMutex` makes the section of each call that uses the map a single step. A read does everything in
that section, the disk operation included. A write does not: it writes the disk first, and takes the
lock after that, so other calls run in between.

**The state** (`Shared`). The store, and for each sector the calls of `write_sector` that have
reached the disk and not the map yet, oldest first.

**The invariant** (`Settled`). As long as the writes to a sector reach the map in the order in which
they reached the disk, the disk holds the data of the newest call that is under way, and when there
is none the map agrees with the disk.

Main results: `cache_converges`, for runs in that order, and `writers_cross`, a run that is not.
-/

namespace Munux.Fs

/-! ## The two halves of `write_sector` -/

section Halves

variable {D : Type}

/-- The disk operation of `write_sector`. -/
def writeDisk (drv : Driver D) (s : Store D) (lba : UInt32) (data : Block) : Store D :=
  { s with disk := drv.writeSector lba data s.disk }

/-- The section of `write_sector` under the lock. -/
def writeMap (s : Store D) (lba : UInt32) (data : Block) : Store D :=
  { s with cache := some { s.theCache with map := s.theCache.map.insert lba data } }

theorem writeSector_eq (drv : Driver D) (s : Store D) (lba : UInt32) (data : Block) :
    writeSector drv s lba data = writeMap (writeDisk drv s lba data) lba data := rfl

end Halves

/-! ## Runs -/

/-- A call of `write_sector` between its two steps: who makes it, and with what data. -/
structure Writer where
  context : Nat
  data : Block
  deriving DecidableEq

/-- The store, and by sector the writes under way, in the order in which they reached the disk. -/
structure Shared where
  store : Store (UInt32 → Block)
  writers : UInt32 → List Writer

namespace Shared

/-- The context is not in the middle of a call. -/
def Idle (s : Shared) (context : Nat) : Prop := ∀ lba, ∀ w ∈ s.writers lba, w.context ≠ context

/-- Every call has completed. -/
def Quiet (s : Shared) : Prop := ∀ lba, s.writers lba = []

def boot (disk : UInt32 → Block) : Shared := ⟨Store.boot disk, fun _ => []⟩

/-- The write reaches the disk. -/
def writeDisk (s : Shared) (lba : UInt32) (w : Writer) : Shared :=
  ⟨Fs.writeDisk arrayDriver s.store lba w.data,
    Function.update s.writers lba (s.writers lba ++ [w])⟩

/-- The write reaches the map, and completes. -/
def writeMap (s : Shared) (lba : UInt32) (w : Writer) : Shared :=
  ⟨Fs.writeMap s.store lba w.data, Function.update s.writers lba ((s.writers lba).erase w)⟩

end Shared

/-- One step of one context. -/
inductive CacheAct where
  | read (context : Nat) (lba : UInt32)
  | writeDisk (lba : UInt32) (w : Writer)
  | writeMap (lba : UInt32) (w : Writer)

namespace CacheAct

/-- The step leads from `s` to `s'`. -/
def Does (s s' : Shared) : CacheAct → Prop
  | read context lba => s.Idle context ∧ ∃ block store,
      readSector arrayDriver s.store lba = .ok (block, store) ∧ s' = { s with store := store }
  | writeDisk lba w => s.Idle w.context ∧ s' = s.writeDisk lba w
  | writeMap lba w => w ∈ s.writers lba ∧ s' = s.writeMap lba w

/-- A write reaches the map after all the writes to its sector that reached the disk before it. -/
def InOrder (s : Shared) : CacheAct → Prop
  | writeMap lba w => (s.writers lba).head? = some w
  | _ => True

end CacheAct

/-- The states of the runs whose steps satisfy `P`. -/
def CacheRun (P : Shared → CacheAct → Prop) (disk : UInt32 → Block) (s : Shared) : Prop :=
  Relation.ReflTransGen (fun s s' => ∃ act : CacheAct, P s act ∧ act.Does s s') (.boot disk) s

/-! ## The invariant -/

/-- What the map and the disk hold for one sector. -/
structure Settled (s : Shared) (lba : UInt32) : Prop where
  quiet : s.writers lba = [] → ∀ block, s.store.theCache.map[lba]? = some block →
    block = s.store.disk lba
  newest : ∀ w, (s.writers lba).getLast? = some w → s.store.disk lba = w.data

section Steps

variable {s s' : Shared} {store store' : Store (UInt32 → Block)} {lba lba' : UInt32} {w : Writer}
variable {block : Block} {act : CacheAct} {disk : UInt32 → Block}

theorem writers_writeDisk : (s.writeDisk lba w).writers lba = s.writers lba ++ [w] :=
  Function.update_self ..

theorem writers_writeDisk_ne (h : lba' ≠ lba) :
    (s.writeDisk lba w).writers lba' = s.writers lba' :=
  Function.update_of_ne h ..

theorem disk_writeDisk : (s.writeDisk lba w).store.disk lba = w.data :=
  Function.update_self ..

theorem disk_writeDisk_ne (h : lba' ≠ lba) :
    (s.writeDisk lba w).store.disk lba' = s.store.disk lba' :=
  Function.update_of_ne h ..

theorem writers_writeMap : (s.writeMap lba w).writers lba = (s.writers lba).erase w :=
  Function.update_self ..

theorem writers_writeMap_ne (h : lba' ≠ lba) :
    (s.writeMap lba w).writers lba' = s.writers lba' :=
  Function.update_of_ne h ..

theorem map_writeMap :
    (s.writeMap lba w).store.theCache.map[lba']? =
      if lba = lba' then some w.data else s.store.theCache.map[lba']? :=
  getElem?_insert_eq

theorem idle_boot (disk : UInt32 → Block) (context : Nat) : (Shared.boot disk).Idle context :=
  fun _ w hw => absurd hw (List.not_mem_nil (a := w))

theorem Shared.Idle.writeDisk {context : Nat} (h : s.Idle context) (hw : w.context ≠ context) :
    (s.writeDisk lba w).Idle context := by
  intro lba' w' hw'
  by_cases hlba : lba' = lba
  · subst hlba
    rw [writers_writeDisk] at hw'
    rcases List.mem_append.1 hw' with hw' | hw'
    · exact h lba' w' hw'
    · rw [List.mem_singleton.1 hw']
      exact hw
  · rw [writers_writeDisk_ne hlba] at hw'
    exact h lba' w' hw'

/-- **A step in order keeps every sector settled.** -/
theorem Settled.step (h : ∀ lba, Settled s lba) (horder : act.InOrder s) (hdoes : act.Does s s')
    (lba : UInt32) : Settled s' lba := by
  cases act with
  | read context lba' =>
      obtain ⟨-, b, store, hread, rfl⟩ := hdoes
      obtain ⟨hdisk, hmap⟩ := readSector_map hread
      constructor
      · intro hnone b hb
        change b = store.disk lba
        rw [hdisk]
        exact (hmap lba b hb).elim ((h lba).quiet hnone b) id
      · intro w hw
        change store.disk lba = w.data
        rw [hdisk]
        exact (h lba).newest w hw
  | writeDisk lba' w =>
      obtain ⟨-, rfl⟩ := hdoes
      by_cases hlba : lba = lba'
      · subst hlba
        constructor
        · intro hnone
          rw [writers_writeDisk] at hnone
          exact absurd hnone (by simp)
        · intro w' hw'
          rw [writers_writeDisk, List.getLast?_concat] at hw'
          rw [disk_writeDisk, Option.some.inj hw']
      · constructor
        · intro hnone b hb
          rw [writers_writeDisk_ne hlba] at hnone
          rw [disk_writeDisk_ne hlba]
          exact (h lba).quiet hnone b hb
        · intro w' hw'
          rw [writers_writeDisk_ne hlba] at hw'
          rw [disk_writeDisk_ne hlba]
          exact (h lba).newest w' hw'
  | writeMap lba' w =>
      obtain ⟨-, rfl⟩ := hdoes
      by_cases hlba : lba = lba'
      · subst hlba
        -- The oldest write of the sector leaves the queue.
        obtain ⟨rest, hqueue⟩ := List.head?_eq_some_iff.1 horder
        have hnewest := (h lba).newest
        rw [hqueue] at hnewest
        constructor
        · intro hnone b hb
          rw [writers_writeMap, hqueue, List.erase_cons_head] at hnone
          rw [map_writeMap, if_pos rfl] at hb
          rw [← Option.some.inj hb]
          exact (hnewest w (by rw [hnone]; rfl)).symm
        · intro w' hw'
          rw [writers_writeMap, hqueue, List.erase_cons_head] at hw'
          exact hnewest w' (by rw [List.getLast?_cons, hw']; rfl)
      · constructor
        · intro hnone b hb
          rw [writers_writeMap_ne hlba] at hnone
          rw [map_writeMap, if_neg (Ne.symm hlba)] at hb
          exact (h lba).quiet hnone b hb
        · intro w' hw'
          rw [writers_writeMap_ne hlba] at hw'
          exact (h lba).newest w' hw'

theorem settled_boot (disk : UInt32 → Block) (lba : UInt32) : Settled (.boot disk) lba :=
  ⟨fun _ b hb => coherent_boot disk lba b hb, fun w hw => by cases hw⟩

theorem settled_run (hrun : CacheRun (fun s act => act.InOrder s) disk s) (lba : UInt32) :
    Settled s lba := by
  induction hrun generalizing lba with
  | refl => exact settled_boot disk lba
  | tail _ hstep ih =>
      obtain ⟨act, horder, hdoes⟩ := hstep
      exact Settled.step ih horder hdoes lba

/-- **Convergence, in order.** In every run in which the writes to each sector reach the map in the
order in which they reached the disk, the map agrees with the disk whenever no call is under way. -/
theorem cache_converges (hrun : CacheRun (fun s act => act.InOrder s) disk s) (hquiet : s.Quiet) :
    Coherent s.store :=
  fun lba block hblock => (settled_run hrun lba).quiet (hquiet lba) block hblock

/-- A context that writes the sector 5 with one byte all over. -/
def fills (context : Nat) (byte : UInt8) : Writer := ⟨context, Vector.replicate 512 byte⟩

/-- Two contexts have written the sector 5 of a blank disk, and neither has reached the map. -/
def twoWriters : Shared :=
  ((Shared.boot fun _ => Vector.replicate 512 0).writeDisk 5 (fills 1 1)).writeDisk 5 (fills 2 2)

theorem run_twoWriters {P : Shared → CacheAct → Prop} (h : ∀ s lba w, P s (.writeDisk lba w)) :
    CacheRun P (fun _ => Vector.replicate 512 0) twoWriters := by
  have hidle := idle_boot fun _ => Vector.replicate 512 0
  refine .tail (.single ⟨.writeDisk 5 (fills 1 1), h .., hidle 1, rfl⟩) ?_
  exact ⟨.writeDisk 5 (fills 2 2), h .., (hidle 2).writeDisk (by decide), rfl⟩

theorem writers_twoWriters : twoWriters.writers 5 = [fills 1 1, fills 2 2] := by
  rw [twoWriters, writers_writeDisk, writers_writeDisk]
  rfl

theorem disk_twoWriters : twoWriters.store.disk 5 = Vector.replicate 512 2 := disk_writeDisk

theorem fills_ne : fills 1 1 ≠ fills 2 2 := by
  intro h
  cases congrArg Writer.context h

/-- Once both have reached the map nobody is under way. -/
theorem quiet_twoWriters {w w' : Writer}
    (h : ((twoWriters.writeMap 5 w).writeMap 5 w').writers 5 = []) :
    ((twoWriters.writeMap 5 w).writeMap 5 w').Quiet := by
  intro lba
  by_cases hlba : lba = 5
  · rw [hlba, h]
  · rw [writers_writeMap_ne hlba, writers_writeMap_ne hlba, twoWriters, writers_writeDisk_ne hlba,
      writers_writeDisk_ne hlba]
    rfl

/-- The two writes reach the map in order. -/
theorem cache_converges_twoWriters :
    ∃ s, CacheRun (fun s act => act.InOrder s) (fun _ => Vector.replicate 512 0) s ∧
      s.store.disk 5 = Vector.replicate 512 2 ∧ Coherent s.store := by
  have hfirst : (twoWriters.writeMap 5 (fills 1 1)).writers 5 = [fills 2 2] := by
    rw [writers_writeMap, writers_twoWriters, List.erase_cons_head]
  have hsecond : ((twoWriters.writeMap 5 (fills 1 1)).writeMap 5 (fills 2 2)).writers 5 = [] := by
    rw [writers_writeMap, hfirst, List.erase_cons_head]
  have hstart : CacheRun (fun s act => act.InOrder s) (fun _ => Vector.replicate 512 0)
      twoWriters := run_twoWriters fun _ _ _ => trivial
  have hrun : CacheRun (fun s act => act.InOrder s) (fun _ => Vector.replicate 512 0)
      ((twoWriters.writeMap 5 (fills 1 1)).writeMap 5 (fills 2 2)) := by
    refine (hstart.tail ⟨.writeMap 5 (fills 1 1), ?_, ?_, rfl⟩).tail
      ⟨.writeMap 5 (fills 2 2), ?_, ?_, rfl⟩
    · exact List.head?_eq_some_iff.2 ⟨_, writers_twoWriters⟩
    · rw [writers_twoWriters]
      exact List.mem_cons_self
    · exact List.head?_eq_some_iff.2 ⟨_, hfirst⟩
    · rw [hfirst]
      exact List.mem_cons_self
  exact ⟨_, hrun, disk_twoWriters, cache_converges hrun (quiet_twoWriters hsecond)⟩

/-- **Writers that cross.** The second of two writes to a sector overtakes the first between the
disk and the map: when both have completed, the disk holds the data of the second, and the map those
of the first. -/
theorem writers_cross :
    ∃ s, CacheRun (fun _ _ => True) (fun _ => Vector.replicate 512 0) s ∧ s.Quiet ∧
      s.store.disk 5 = Vector.replicate 512 2 ∧
      s.store.theCache.map[(5 : UInt32)]? = some (Vector.replicate 512 1) ∧
      ¬Coherent s.store := by
  have hfirst : (twoWriters.writeMap 5 (fills 2 2)).writers 5 = [fills 1 1] := by
    rw [writers_writeMap, writers_twoWriters, List.erase_cons_tail (by simpa using fills_ne),
      List.erase_cons_head]
  have hsecond : ((twoWriters.writeMap 5 (fills 2 2)).writeMap 5 (fills 1 1)).writers 5 = [] := by
    rw [writers_writeMap, hfirst, List.erase_cons_head]
  have hstart : CacheRun (fun _ _ => True) (fun _ => Vector.replicate 512 0) twoWriters :=
    run_twoWriters fun _ _ _ => trivial
  have hrun : CacheRun (fun _ _ => True) (fun _ => Vector.replicate 512 0)
      ((twoWriters.writeMap 5 (fills 2 2)).writeMap 5 (fills 1 1)) := by
    refine (hstart.tail ⟨.writeMap 5 (fills 2 2), trivial, ?_, rfl⟩).tail
      ⟨.writeMap 5 (fills 1 1), trivial, ?_, rfl⟩
    · rw [writers_twoWriters]
      exact List.mem_cons_of_mem _ List.mem_cons_self
    · rw [hfirst]
      exact List.mem_cons_self
  have hmap : ((twoWriters.writeMap 5 (fills 2 2)).writeMap 5
      (fills 1 1)).store.theCache.map[(5 : UInt32)]? = some (Vector.replicate 512 1) := by
    rw [map_writeMap, if_pos rfl]
    rfl
  refine ⟨_, hrun, quiet_twoWriters hsecond, disk_twoWriters, hmap, ?_⟩
  intro hco
  have hsame := hco 5 _ hmap
  change Vector.replicate 512 1 = twoWriters.store.disk 5 at hsame
  rw [disk_twoWriters] at hsame
  have hbyte := congrArg (fun b : Block => b[0]) hsame
  simp at hbyte

end Steps

end Munux.Fs
