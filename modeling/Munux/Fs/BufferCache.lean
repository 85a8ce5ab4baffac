import Munux.Lib.Word

/-!
# The buffer cache

`munux-rs/src/bcache.rs`: a map from sector numbers to sectors in front of the disk. Reads are
served from the map when they can be; a miss fetches the sector, and makes room first when the map
is full. Writes go to the disk and to the map.

The disk is a `Driver`, the two C functions that the cache calls. They report success or failure,
which the cache does not look at. `cache_transparent` is about a disk that behaves as an array;
`cache_bounded_iff` says when the map stays within `MAX_ENTRIES`, whatever the disk does.
-/

namespace Munux.Fs

/-- One sector, `SECTOR` bytes. -/
abbrev Block := Vector UInt8 512

/-- `MAX_ENTRIES` -/
def maxEntries : Nat := 256

/-- `Cache` -/
structure Cache where
  map : Std.ExtTreeMap UInt32 Block
  hits : Nat
  misses : Nat

/-- The cache when it is first used. -/
def Cache.new : Cache := ⟨∅, 0, 0⟩

/-- `disk_read_sector` and `disk_write_sector` on disks of type `D`: the buffer that a read leaves
behind, given the buffer it was called with, and the disk after each call. -/
structure Driver (D : Type) where
  readSector : UInt32 → Block → D → Block × D
  writeSector : UInt32 → Block → D → D

/-- `CACHE`, and the disk behind it. -/
structure Store (D : Type) where
  cache : Option Cache
  disk : D

variable {D : Type}

/-- `with_cache`: the cache is created on first use. -/
def Store.theCache (s : Store D) : Cache := s.cache.getD Cache.new

@[simp] theorem theCache_some (c : Cache) (disk : D) : (Store.mk (some c) disk).theCache = c := rfl

/-- Make room in a full map: the smallest key goes. -/
def evict (map : Std.ExtTreeMap UInt32 Block) : Std.ExtTreeMap UInt32 Block :=
  if maxEntries ≤ map.size then
    match map.minKey? with
    | some victim => map.erase victim
    | none => map
  else map

/-- `read_sector` -/
def readSector (drv : Driver D) (s : Store D) (lba : UInt32) : Outcome (Block × Store D) :=
  let c := s.theCache
  match c.map[lba]? with
  | some block => do
      let hits ← checkedAdd c.hits 1
      return (block, { s with cache := some { c with hits := hits } })
  | none => do
      let misses ← checkedAdd c.misses 1
      let (block, disk) := drv.readSector lba (Vector.replicate 512 0) s.disk
      let map := (evict c.map).insert lba block
      return (block, { cache := some { c with map := map, misses := misses }, disk := disk })

/-- `write_sector` -/
def writeSector (drv : Driver D) (s : Store D) (lba : UInt32) (data : Block) : Store D :=
  let disk := drv.writeSector lba data s.disk
  let c := s.theCache
  { cache := some { c with map := c.map.insert lba data }, disk := disk }

/-- `stats` -/
def stats (s : Store D) : Nat × Nat := (s.theCache.hits, s.theCache.misses)

/-- The two ways a read can return: a hit, and a miss. -/
theorem readSector_cases {drv : Driver D} {s s' : Store D} {lba : UInt32} {block : Block}
    (h : readSector drv s lba = .ok (block, s')) :
    s.theCache.map[lba]? = some block ∧ s'.theCache.map = s.theCache.map ∧ s'.disk = s.disk ∨
      s.theCache.map[lba]? = none ∧
        drv.readSector lba (Vector.replicate 512 0) s.disk = (block, s'.disk) ∧
        s'.theCache.map = (evict s.theCache.map).insert lba block := by
  unfold readSector at h
  cases hget : s.theCache.map[lba]? with
  | some b =>
      simp only [hget, Outcome.bind_eq_ok, Outcome.pure_eq, Outcome.ok.injEq, Prod.mk.injEq] at h
      obtain ⟨_, -, rfl, rfl⟩ := h
      exact .inl ⟨rfl, rfl, rfl⟩
  | none =>
      simp only [hget, Outcome.bind_eq_ok, Outcome.pure_eq, Outcome.ok.injEq, Prod.mk.injEq] at h
      obtain ⟨_, -, rfl, rfl⟩ := h
      exact .inr ⟨rfl, rfl, rfl⟩

/-! ## A disk that is an array -/

/-- A disk on which every operation succeeds. -/
def arrayDriver : Driver (UInt32 → Block) where
  readSector lba _ disk := (disk lba, disk)
  writeSector lba data disk := Function.update disk lba data

/-- Every cached block is the block on the disk. -/
def Coherent (s : Store (UInt32 → Block)) : Prop :=
  ∀ lba block, s.theCache.map[lba]? = some block → block = s.disk lba

section Array

variable {s s' : Store (UInt32 → Block)} {lba lba' : UInt32} {data block : Block}
  {map : Std.ExtTreeMap UInt32 Block}

theorem getElem?_insert_eq :
    (map.insert lba data)[lba']? = if lba = lba' then some data else map[lba']? := by
  rw [Std.ExtTreeMap.getElem?_insert]
  simp only [Std.LawfulEqCmp.compare_eq_iff_eq]

/-- What is left after an eviction was there before. -/
theorem getElem?_evict (h : (evict map)[lba]? = some block) : map[lba]? = some block := by
  unfold evict at h
  split_ifs at h
  case neg => exact h
  cases hmin : map.minKey? with
  | none => simpa only [hmin] using h
  | some victim =>
      simp only [hmin, Std.ExtTreeMap.getElem?_erase] at h
      split_ifs at h
      exact h

/-- What a read leaves in the map was there before, or is on the disk. -/
theorem readSector_map
    (h : readSector arrayDriver s lba = .ok (block, s')) :
    s'.disk = s.disk ∧ ∀ lba' b, s'.theCache.map[lba']? = some b →
      s.theCache.map[lba']? = some b ∨ b = s.disk lba' := by
  rcases readSector_cases h with ⟨-, hmap, hdisk⟩ | ⟨-, hread, hmap⟩
  · rw [hmap]
    exact ⟨hdisk, fun lba' b hb => .inl hb⟩
  · obtain ⟨rfl, hdisk⟩ := Prod.mk.inj hread
    refine ⟨hdisk.symm, ?_⟩
    intro lba' b hb
    rw [hmap, getElem?_insert_eq] at hb
    by_cases hlba : lba = lba'
    · rw [if_pos hlba] at hb
      exact .inr (by rw [← Option.some.inj hb, hlba])
    · rw [if_neg hlba] at hb
      exact .inl (getElem?_evict hb)

/-- **Reading.** The call returns the block on the disk, changes nothing there, and is counted. -/
theorem readSector_spec (h : Coherent s) (lba : UInt32)
    (hcount : s.theCache.hits + s.theCache.misses + 1 < wordCount) :
    ∃ s', readSector arrayDriver s lba = .ok (s.disk lba, s') ∧ Coherent s' ∧ s'.disk = s.disk ∧
      s'.theCache.hits + s'.theCache.misses = s.theCache.hits + s.theCache.misses + 1 := by
  obtain ⟨s', hcall, hsum⟩ : ∃ s', readSector arrayDriver s lba = .ok (s.disk lba, s') ∧
      s'.theCache.hits + s'.theCache.misses =
        s.theCache.hits + s.theCache.misses + 1 := by
    cases hget : s.theCache.map[lba]? with
    | some block =>
        have hhits : checkedAdd s.theCache.hits 1 = .ok (s.theCache.hits + 1) :=
          checkedAdd_eq_ok.2 ⟨rfl, by omega⟩
        simp only [readSector, hget, hhits, Outcome.ok_bind, Outcome.pure_eq, h lba block hget]
        refine ⟨_, rfl, ?_⟩
        simp only [theCache_some]
        omega
    | none =>
        have hmisses : checkedAdd s.theCache.misses 1 = .ok (s.theCache.misses + 1) :=
          checkedAdd_eq_ok.2 ⟨rfl, by omega⟩
        simp only [readSector, hget, hmisses, Outcome.ok_bind, Outcome.pure_eq, arrayDriver]
        refine ⟨_, rfl, ?_⟩
        simp only [theCache_some]
        omega
  obtain ⟨hdisk, hmap⟩ := readSector_map hcall
  refine ⟨s', hcall, ?_, hdisk, hsum⟩
  intro lba' block hblock
  rw [hdisk]
  exact (hmap lba' block hblock).elim (h lba' block) id

/-- **Writing.** The block reaches the disk, and the map agrees with it. -/
theorem writeSector_spec (h : Coherent s) (lba : UInt32) (data : Block) :
    Coherent (writeSector arrayDriver s lba data) ∧
      (writeSector arrayDriver s lba data).disk = Function.update s.disk lba data ∧
      stats (writeSector arrayDriver s lba data) = stats s := by
  refine ⟨?_, rfl, rfl⟩
  intro lba' block hblock
  simp only [writeSector, theCache_some, getElem?_insert_eq] at hblock
  simp only [writeSector, arrayDriver]
  by_cases hlba : lba = lba'
  · rw [if_pos hlba] at hblock
    rw [← hlba, Function.update_self, Option.some.inj hblock]
  · rw [if_neg hlba] at hblock
    rw [Function.update_of_ne (Ne.symm hlba)]
    exact h lba' block hblock

end Array

/-! ## Sequences of calls -/

/-- The calls. -/
inductive CacheOp where
  | read (lba : UInt32)
  | write (lba : UInt32) (data : Block)

namespace CacheOp

/-- One call; the block is what a read returns. -/
def step (drv : Driver D) (s : Store D) : CacheOp → Outcome (Option Block × Store D)
  | read lba => readSector drv s lba >>= fun r => .ok (some r.1, r.2)
  | write lba data => .ok (none, writeSector drv s lba data)

/-- A sequence of calls. -/
def run (drv : Driver D) : Store D → List CacheOp → Outcome (Store D)
  | s, [] => .ok s
  | s, op :: ops => op.step drv s >>= fun r => run drv r.2 ops

/-- The number of reads. -/
def reads (ops : List CacheOp) : Nat :=
  ops.countP fun
    | read _ => true
    | write _ _ => false

/-- The data of the last write to `lba`, if there is one. -/
def lastWrite (lba : UInt32) : List CacheOp → Option Block
  | [] => none
  | read _ :: ops => lastWrite lba ops
  | write lba' data :: ops => (lastWrite lba ops).or (if lba' = lba then some data else none)

end CacheOp

open CacheOp

/-- From a coherent store, every sequence of calls returns, and the disk holds the last writes. -/
theorem run_coherent {s : Store (UInt32 → Block)} (h : Coherent s) {ops : List CacheOp}
    (hcount : s.theCache.hits + s.theCache.misses + reads ops < wordCount) :
    ∃ s', CacheOp.run arrayDriver s ops = .ok s' ∧ Coherent s' ∧
      s'.theCache.hits + s'.theCache.misses = s.theCache.hits + s.theCache.misses + reads ops ∧
      ∀ lba, s'.disk lba = (lastWrite lba ops).getD (s.disk lba) := by
  induction ops generalizing s with
  | nil => exact ⟨s, rfl, h, rfl, fun _ => rfl⟩
  | cons op ops ih =>
      cases op with
      | read lba =>
          have hreads : reads (read lba :: ops) = reads ops + 1 := List.countP_cons_of_pos rfl
          rw [hreads] at hcount ⊢
          obtain ⟨s₁, hread, hco, hdisk, hsum⟩ := readSector_spec h lba (by omega)
          obtain ⟨s', hrun, hco', hsum', hdisk'⟩ := ih hco (by omega)
          refine ⟨s', ?_, hco', by omega, ?_⟩
          · simp only [CacheOp.run, CacheOp.step, hread, Outcome.ok_bind, hrun]
          · intro lba'
            rw [hdisk', hdisk]
            rfl
      | write lba data =>
          have hreads : reads (write lba data :: ops) = reads ops :=
            List.countP_cons_of_neg (by simp)
          rw [hreads] at hcount ⊢
          obtain ⟨hco, hdisk, hstats⟩ := writeSector_spec h lba data
          have hsum : (writeSector arrayDriver s lba data).theCache.hits +
              (writeSector arrayDriver s lba data).theCache.misses =
              s.theCache.hits + s.theCache.misses := by
            rw [stats, stats, Prod.mk.injEq] at hstats
            rw [hstats.1, hstats.2]
          obtain ⟨s', hrun, hco', hsum', hdisk'⟩ := ih hco (by omega)
          refine ⟨s', hrun, hco', by omega, ?_⟩
          intro lba'
          rw [hdisk', hdisk, lastWrite]
          cases hlast : lastWrite lba' ops with
          | some block => rfl
          | none =>
              by_cases hlba : lba = lba'
              · subst hlba
                simp
              · rw [Function.update_of_ne (Ne.symm hlba), if_neg hlba]
                rfl

/-- The cache before its first use. -/
def Store.boot (disk : D) : Store D := ⟨none, disk⟩

theorem coherent_boot (disk : UInt32 → Block) : Coherent (Store.boot disk) := by
  intro lba block hblock
  simp [Store.boot, Store.theCache, Cache.new] at hblock

/-- **The cache is transparent.** After any calls on any disk, every cached block is the block on
the disk, the counters add up to the number of reads, and a further read returns the data of the
last write to its sector, or what the disk held at first. -/
theorem cache_transparent (disk : UInt32 → Block) (ops : List CacheOp)
    (hreads : reads ops + 1 < wordCount) :
    ∃ s, CacheOp.run arrayDriver (Store.boot disk) ops = .ok s ∧ Coherent s ∧
      s.theCache.hits + s.theCache.misses = reads ops ∧
      ∀ lba, ∃ s', readSector arrayDriver s lba =
        .ok ((lastWrite lba ops).getD (disk lba), s') := by
  have hzero : (Store.boot disk).theCache.hits + (Store.boot disk).theCache.misses = 0 := rfl
  have hops : (Store.boot disk).theCache.hits + (Store.boot disk).theCache.misses + reads ops <
      wordCount := by omega
  obtain ⟨s, hrun, hco, hsum, hdisk⟩ := run_coherent (coherent_boot disk) hops
  refine ⟨s, hrun, hco, by omega, ?_⟩
  intro lba
  obtain ⟨s', hread, -⟩ := readSector_spec hco lba (by omega)
  rw [hdisk lba] at hread
  exact ⟨s', hread⟩

/-- A miss, a write and a second read of the same sector. -/
theorem cache_transparent_after_write :
    ∃ s, CacheOp.run arrayDriver (Store.boot fun _ => Vector.replicate 512 0)
        [.read 2, .write 2 (Vector.replicate 512 7)] = .ok s ∧ Coherent s ∧
      s.theCache.hits + s.theCache.misses = 1 ∧
      ∃ s', readSector arrayDriver s 2 = .ok (Vector.replicate 512 7, s') := by
  obtain ⟨s, hrun, hco, hsum, hread⟩ := cache_transparent (fun _ => Vector.replicate 512 0)
    [.read 2, .write 2 (Vector.replicate 512 7)] (by decide)
  exact ⟨s, hrun, hco, hsum, hread 2⟩

/-- Every call of a sequence that returns was made in a state where it satisfies `ok`. -/
def CacheOp.Throughout (drv : Driver D) (ok : Store D → CacheOp → Prop) :
    Store D → List CacheOp → Prop
  | _, [] => True
  | s, op :: ops => ∀ b s', op.step drv s = .ok (b, s') → ok s op ∧ Throughout drv ok s' ops

/-- **From one call to a sequence.** A property that a call keeps exactly when it satisfies `ok`
holds all through a sequence exactly when all its calls do. -/
theorem run_iff {drv : Driver D} {P : Store D → Prop} {ok : Store D → CacheOp → Prop}
    (hstep : ∀ {s s' op b}, P s → op.step drv s = .ok (b, s') → (P s' ↔ ok s op)) {s : Store D}
    (h : P s) (ops : List CacheOp) :
    (∀ pre s', pre <+: ops → CacheOp.run drv s pre = .ok s' → P s') ↔
      CacheOp.Throughout drv ok s ops := by
  induction ops generalizing s with
  | nil =>
      refine iff_of_true ?_ trivial
      intro pre s' hpre hrun
      obtain rfl := List.prefix_nil.1 hpre
      rwa [← Outcome.ok.inj hrun]
  | cons op ops ih =>
      constructor
      · intro hall b s' hcall
        have hone : P s' := by
          refine hall [op] s' (List.prefix_append _ ops) ?_
          simp only [CacheOp.run, hcall, Outcome.ok_bind]
        refine ⟨(hstep h hcall).1 hone, (ih hone).1 ?_⟩
        intro pre s'' hpre hrun
        refine hall (op :: pre) s'' (List.cons_prefix_cons.2 ⟨rfl, hpre⟩) ?_
        simp only [CacheOp.run, hcall, Outcome.ok_bind, hrun]
      · intro hrest pre s'' hpre hrun
        cases pre with
        | nil => rwa [← Outcome.ok.inj hrun]
        | cons op' pre =>
            obtain ⟨rfl, htail⟩ := List.cons_prefix_cons.1 hpre
            obtain ⟨⟨b, s'⟩, hcall, hrun⟩ := Outcome.bind_eq_ok.1 hrun
            obtain ⟨hok, hall⟩ := hrest b s' hcall
            exact (ih ((hstep h hcall).2 hok)).2 hall pre s'' htail hrun

/-! ## How many sectors -/

/-- The map is within its limit. -/
def Store.Bounded (s : Store D) : Prop := s.theCache.map.size ≤ maxEntries

/-- A write inserts without making room first, so there must be room: its sector is cached, or the
map is not full. -/
def CacheOp.Fits (s : Store D) : CacheOp → Prop
  | .read _ => True
  | .write lba _ => lba ∈ s.theCache.map ∨ s.theCache.map.size < maxEntries

/-- Every call of a sequence finds room. -/
def CacheOp.AllFit (drv : Driver D) : Store D → List CacheOp → Prop
  | _, [] => True
  | s, op :: ops => op.Fits s ∧ ∀ b s', op.step drv s = .ok (b, s') → AllFit drv s' ops

section Size

variable {drv : Driver D} {s s' : Store D} {op : CacheOp} {ops : List CacheOp} {lba : UInt32}
  {data : Block} {map : Std.ExtTreeMap UInt32 Block} {b : Option Block} {n : Nat}

/-- An eviction makes room in a map that is within the limit. -/
theorem size_evict (h : map.size ≤ maxEntries) : (evict map).size < maxEntries := by
  unfold evict
  split_ifs with hfull
  · cases hmin : map.minKey? with
    | none =>
        have hempty : map.size = 0 := by rw [Std.ExtTreeMap.minKey?_eq_none_iff.1 hmin]; rfl
        rw [hempty] at hfull
        cases hfull
    | some victim =>
        have hpos : 0 < maxEntries := by decide
        simp only
        rw [Std.ExtTreeMap.size_erase,
          if_pos (Std.ExtTreeMap.mem_iff_contains.1 (Std.ExtTreeMap.minKey?_mem hmin))]
        omega
  · exact Nat.lt_of_not_le hfull

theorem size_writeSector (drv : Driver D) (s : Store D) (lba : UInt32) (data : Block) :
    (writeSector drv s lba data).theCache.map.size =
      if lba ∈ s.theCache.map then s.theCache.map.size else s.theCache.map.size + 1 :=
  Std.ExtTreeMap.size_insert

/-- A call that returns keeps the limit exactly when it finds room. -/
theorem bounded_step (h : s.Bounded) (hcall : op.step drv s = .ok (b, s')) :
    s'.Bounded ↔ op.Fits s := by
  unfold Store.Bounded at h ⊢
  cases op with
  | read lba =>
      refine iff_of_true ?_ trivial
      obtain ⟨⟨block, s₁⟩, hread, heq⟩ := Outcome.bind_eq_ok.1 hcall
      obtain ⟨-, rfl⟩ := Prod.mk.inj (Outcome.ok.inj heq)
      rcases readSector_cases hread with ⟨-, hmap, -⟩ | ⟨-, -, hmap⟩
      · rwa [hmap]
      · rw [hmap]
        exact Std.ExtTreeMap.size_insert_le.trans (size_evict h)
  | write lba data =>
      obtain ⟨-, rfl⟩ := Prod.mk.inj (Outcome.ok.inj hcall)
      rw [size_writeSector, CacheOp.Fits]
      by_cases hin : lba ∈ s.theCache.map
      · rw [if_pos hin]
        exact iff_of_true h (.inl hin)
      · rw [if_neg hin]
        exact ⟨fun hlt => .inr hlt, fun hfit => hfit.resolve_left hin⟩

theorem throughout_fits : CacheOp.Throughout drv CacheOp.Fits s ops ↔ CacheOp.AllFit drv s ops := by
  induction ops generalizing s with
  | nil => rfl
  | cons op ops ih =>
      rw [CacheOp.Throughout, CacheOp.AllFit]
      simp only [ih, forall_and]
      refine and_congr_left fun _ => ?_
      cases op with
      | read lba => exact iff_of_true (fun _ _ _ => trivial) trivial
      | write lba data => exact ⟨fun h => h _ _ rfl, fun h _ _ _ => h⟩

theorem bounded_run (h : s.Bounded) (ops : List CacheOp) :
    (∀ pre s', pre <+: ops → CacheOp.run drv s pre = .ok s' → s'.Bounded) ↔
      CacheOp.AllFit drv s ops :=
  (run_iff bounded_step h ops).trans throughout_fits

/-- **The cache is bounded** all through a sequence of calls exactly when every write finds its
sector cached or the map not full. -/
theorem cache_bounded_iff (drv : Driver D) (disk : D) (ops : List CacheOp) :
    (∀ pre s, pre <+: ops → CacheOp.run drv (Store.boot disk) pre = .ok s → s.Bounded) ↔
      CacheOp.AllFit drv (Store.boot disk) ops :=
  bounded_run (Nat.zero_le _) ops

theorem run_append (xs ys : List CacheOp) :
    CacheOp.run drv s (xs ++ ys) = CacheOp.run drv s xs >>= fun s' => CacheOp.run drv s' ys := by
  induction xs generalizing s with
  | nil => rfl
  | cons op xs ih =>
      rw [List.cons_append, CacheOp.run, CacheOp.run]
      cases op.step drv s with
      | ok r => exact ih
      | panic => rfl
      | diverge => rfl

/-- Writes to the first `n` sectors leave all of them in the map. -/
theorem run_writes (drv : Driver D) (disk : D) (data : Block) (hn : n ≤ 2 ^ 32) :
    ∃ s, CacheOp.run drv (Store.boot disk)
        ((List.range n).map fun i => .write (UInt32.ofNat i) data) = .ok s ∧
      s.theCache.map.size = n ∧ ∀ lba ∈ s.theCache.map, lba.toNat < n := by
  induction n with
  | zero =>
      exact ⟨Store.boot disk, rfl, rfl, fun lba hlba => absurd hlba Std.ExtTreeMap.not_mem_empty⟩
  | succ n ih =>
      obtain ⟨s, hrun, hsize, hlow⟩ := ih (Nat.le_of_succ_le hn)
      have hto : (UInt32.ofNat n).toNat = n := UInt32.toNat_ofNat_of_lt' hn
      have hout : UInt32.ofNat n ∉ s.theCache.map := fun hin => by
        have hlt := hlow _ hin
        omega
      refine ⟨writeSector drv s (UInt32.ofNat n) data, ?_, ?_, ?_⟩
      · rw [List.range_succ, List.map_append, run_append, hrun, Outcome.ok_bind]
        rfl
      · rw [size_writeSector, if_neg hout, hsize]
      · intro lba hlba
        rcases Std.ExtTreeMap.mem_insert.1 hlba with heq | hin
        · rw [← Std.LawfulEqCmp.compare_eq_iff_eq.1 heq, hto]
          exact Nat.lt_succ_self n
        · exact Nat.lt_succ_of_lt (hlow lba hin)

end Size

/-- **A cache that outgrows its limit.** Writes to 257 sectors leave 257 sectors in the map. -/
theorem cache_unbounded :
    ∃ ops s, CacheOp.run arrayDriver (Store.boot fun _ => Vector.replicate 512 0) ops = .ok s ∧
      s.theCache.map.size = 257 ∧ ¬s.Bounded := by
  obtain ⟨s, hrun, hsize, -⟩ := run_writes arrayDriver (fun _ => Vector.replicate 512 0)
    (Vector.replicate 512 7) (show 257 ≤ 2 ^ 32 by decide)
  refine ⟨_, s, hrun, hsize, ?_⟩
  rw [Store.Bounded, hsize]
  decide

end Munux.Fs
