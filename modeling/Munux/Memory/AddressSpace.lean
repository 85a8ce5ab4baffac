import Munux.Memory.Vmm
import Mathlib.Order.Interval.Finset.Nat

/-!
# The kernel's address space

After `vmm_init` the first 8 MiB are mapped to themselves, and nothing else is mapped below the
heap. All tables and the directory lie in those 8 MiB, which is what lets `vmm_map_page` follow
physical addresses with paging on; a table outside them would fault when it is cleared.

`Space` is that state of affairs, and `Paged` the part of it that does not depend on what else is
mapped. `space_vmmInit` establishes them. `Paged.mapPage_returns` says what mapping a page does when
a new table can be put into the first 8 MiB, and `Space.mapPage` what it does at or above the heap
when there is a frame for a new table at all.
-/

namespace Munux.Memory

open ByteMem PageTable

/-- The bytes that `vmm_init` maps to themselves. -/
def lowLimit : Nat := 0x800000

/-- `HEAP_START` -/
def heapStart : Nat := 0xC0000000

/-- The directory and its tables are frames of their own in the first 8 MiB, in use, and not among
the reserved ones. -/
structure Tables (s : Vm) : Prop where
  tree : Tree s.phys s.currentDirectory
  dir_ge : kernelReserved ≤ s.currentDirectory
  dir_lt : s.currentDirectory < lowLimit
  table_ge : ∀ k < 1024, Present (entry s.phys s.currentDirectory k) →
    kernelReserved ≤ frame (entry s.phys s.currentDirectory k)
  table_lt : ∀ k < 1024, Present (entry s.phys s.currentDirectory k) →
    frame (entry s.phys s.currentDirectory k) < lowLimit
  scanned : s.pmm.scanned ≤ 2 ^ 20
  reserved : ∀ g < 512, s.pmm.used g = true
  dir_used : s.pmm.used (s.currentDirectory / 4096) = true
  table_used : ∀ k < 1024, Present (entry s.phys s.currentDirectory k) →
    s.pmm.used (frame (entry s.phys s.currentDirectory k) / 4096) = true

/-- Paging is on, and the first 8 MiB are mapped to themselves. -/
structure Paged (s : Vm) : Prop extends Tables s where
  cr3 : s.cr3 = some s.currentDirectory
  low : ∀ a < lowLimit, translate s.phys s.currentDirectory a = some a

/-- The kernel's address space. -/
structure Space (s : Vm) : Prop extends Paged s where
  gap : ∀ k, 2 ≤ k → k < 768 → ¬Present (entry s.phys s.currentDirectory k)

section Tables

variable {s s' : Vm} {pmm : Pmm} {f i va pa flags page : Nat}

theorem low_page (hpage : 4096 ∣ page) (h : page < lowLimit) : page + 4096 ≤ lowLimit := by
  unfold lowLimit at *
  omega

theorem mul_pageSize_div (f : Nat) : f * pageSize / 4096 = f := Nat.mul_div_cancel f (by decide)

theorem kernelReserved_le (h : 512 ≤ f) : kernelReserved ≤ f * pageSize := by
  unfold kernelReserved pageSize
  omega

theorem Tables.took_ge (h : Tables s) (htook : Pmm.Took s.pmm pmm f) : 512 ≤ f := by
  by_contra hf
  have hclear := htook.clear
  rw [h.reserved f (by omega)] at hclear
  cases hclear

/-- A frame that was free is no table and not the directory. -/
theorem Tables.took_fresh (h : Tables s) (htook : Pmm.Took s.pmm pmm f) :
    f * pageSize ≠ s.currentDirectory ∧
      ∀ k < 1024, Present (entry s.phys s.currentDirectory k) →
        frame (entry s.phys s.currentDirectory k) ≠ f * pageSize := by
  have hclear := htook.clear
  constructor
  · intro heq
    have hused := h.dir_used
    rw [← heq, mul_pageSize_div, hclear] at hused
    cases hused
  · intro k hk hp heq
    have hused := h.table_used k hk hp
    rw [heq, mul_pageSize_div, hclear] at hused
    cases hused

theorem Tables.with_cr3 (h : Tables s) (cr3 : Option Nat) : Tables { s with cr3 := cr3 } :=
  ⟨h.tree, h.dir_ge, h.dir_lt, h.table_ge, h.table_lt, h.scanned, h.reserved, h.dir_used,
    h.table_used⟩

/-- What mapping a page did with the frames: nothing, or it took one for the table. -/
inductive TookTable (s s' : Vm) (va : Nat) : Prop
  | none (hp : Present (entry s.phys s.currentDirectory (dirIndex va))) (hpmm : s'.pmm = s.pmm)
      (hentry : entry s'.phys s.currentDirectory (dirIndex va) =
        entry s.phys s.currentDirectory (dirIndex va))
  | one (f : Nat) (habs : ¬Present (entry s.phys s.currentDirectory (dirIndex va)))
      (hlow : f * pageSize < lowLimit) (htook : Pmm.Took s.pmm s'.pmm f)
      (hframe : frame (entry s'.phys s.currentDirectory (dirIndex va)) = f * pageSize)

/-- Bits that are set stay set. -/
theorem TookTable.used (h : TookTable s s' va) {g : Nat} (hg : s.pmm.used g = true) :
    s'.pmm.used g = true := by
  cases h with
  | none _ hpmm _ => rwa [hpmm]
  | one f _ _ htook _ => exact htook.mono hg

theorem TookTable.scanned (h : TookTable s s' va) : s'.pmm.scanned = s.pmm.scanned := by
  cases h with
  | none _ hpmm _ => rw [hpmm]
  | one f _ _ htook _ => exact htook.scanned

/-- The table of the page is where a table may be, and in use. -/
theorem TookTable.table (h : TookTable s s' va) (ht : Tables s) (hva : va < 2 ^ 32) :
    kernelReserved ≤ frame (entry s'.phys s.currentDirectory (dirIndex va)) ∧
      frame (entry s'.phys s.currentDirectory (dirIndex va)) < lowLimit ∧
      s'.pmm.used (frame (entry s'.phys s.currentDirectory (dirIndex va)) / 4096) = true := by
  have hi := dirIndex_lt hva
  cases h with
  | none hp hpmm hentry =>
      rw [hentry, hpmm]
      exact ⟨ht.table_ge _ hi hp, ht.table_lt _ hi hp, ht.table_used _ hi hp⟩
  | one f _ hlow htook hframe =>
      rw [hframe, mul_pageSize_div, htook.self]
      exact ⟨kernelReserved_le (ht.took_ge htook), hlow, rfl⟩

theorem Tables.of_mapped (h : Tables s) {v : Nat} (hva : va < 2 ^ 32) (hmap : Mapped s s' va v)
    (htook : TookTable s s' va) : Tables s' := by
  obtain ⟨hres, hlow, hused⟩ := htook.table h hva
  obtain ⟨pmm, phys, dir, _⟩ := s'
  obtain rfl : dir = s.currentDirectory := hmap.dir
  -- A table is the one of `va`, or it was there before.
  have htables : ∀ P : Nat → Prop, P (frame (entry phys s.currentDirectory (dirIndex va))) →
      (∀ k < 1024, Present (entry s.phys s.currentDirectory k) →
        P (frame (entry s.phys s.currentDirectory k))) →
      ∀ k < 1024, Present (entry phys s.currentDirectory k) →
        P (frame (entry phys s.currentDirectory k)) := by
    intro P hown hbefore k hk hp
    by_cases hki : k = dirIndex va
    · rwa [hki]
    · have hentry := hmap.entries k hk hki
      rw [hentry]
      exact hbefore k hk (hentry ▸ hp)
  exact {
    tree := hmap.tree
    dir_ge := h.dir_ge
    dir_lt := h.dir_lt
    table_ge := htables (kernelReserved ≤ ·) hres h.table_ge
    table_lt := htables (· < lowLimit) hlow h.table_lt
    scanned := htook.scanned ▸ h.scanned
    reserved := fun g hg => htook.used (h.reserved g hg)
    dir_used := htook.used h.dir_used
    table_used := htables (fun f => pmm.used (f / 4096) = true) hused
      fun k hk hp => htook.used (h.table_used k hk hp) }

/-- The table for a page is there, or there is a frame for it below `limit`. -/
def TableAvailable (s : Vm) (va limit : Nat) : Prop :=
  Present (entry s.phys s.currentDirectory (dirIndex va)) ∨ 0 < s.pmm.free (limit / 4096)

/-- Mapping a page returns when the pages it has to reach are reached. -/
theorem Tables.mapPage_returns (h : Tables s) (hva : va < 2 ^ 32) (hpa : pa < 2 ^ 32)
    (hflags : flags < 4096) (havail : TableAvailable s va lowLimit)
    (hreach : ∀ page, page + 4096 ≤ lowLimit → Reaches s (dirIndex va) page) :
    ∃ s', mapPage s va pa flags = .ok s' ∧ Mapped s s' va (frame pa ||| flags) ∧
      TookTable s s' va := by
  have hi := dirIndex_lt hva
  have hdir := hreach _ (low_page h.tree.aligned h.dir_lt)
  by_cases hp : Present (entry s.phys s.currentDirectory (dirIndex va))
  · obtain ⟨s', hcall, hpmm, hmap, hentry⟩ := mapPage_present h.tree hva hpa hflags hp hdir
      (hreach _ (low_page (dvd_frame _) (h.table_lt _ hi hp)))
    exact ⟨s', hcall, hmap, .none hp hpmm hentry⟩
  · obtain ⟨f, pmm, halloc, hf, htook⟩ := Pmm.allocFrame_of_free (havail.resolve_left hp)
    obtain ⟨hne, hfresh⟩ := h.took_fresh htook
    have hlow : f * pageSize < lowLimit := by
      unfold lowLimit pageSize at *
      omega
    have hdvd : 4096 ∣ f * pageSize := Dvd.intro_left f rfl
    obtain ⟨s', hcall, hpmm, hmap, hframe⟩ := mapPage_absent h.tree hva hpa hflags hp halloc hdvd
      (hlow.trans (by decide)) hne hfresh hdir (hreach _ (low_page hdvd hlow))
    exact ⟨s', hcall, hmap, .one f hp hlow (hpmm ▸ htook) hframe⟩

end Tables

/-! ## Paging on -/

section Space

variable {s s' : Vm} {i va pa flags page : Nat}

/-- Pointers into the first 8 MiB work, whatever the entries for the heap say. -/
theorem Paged.reaches (h : Paged s) (hi : 2 ≤ i) (hpage : page + 4096 ≤ lowLimit) :
    Reaches s i page := by
  intro m hm a ha ha'
  have hlow : a < lowLimit := by omega
  have hd : dirIndex a < 2 := by
    unfold dirIndex
    unfold lowLimit at hlow
    omega
  rw [h.cr3]
  refine (translate_congr (hm.entries _ (by omega) (by omega)) ?_).trans (h.low a hlow)
  intro hp
  exact entry_congr (hm.tables _ (by omega) hp) (tableIndex_lt a)

theorem dirIndex_of_lowLimit_le (h : lowLimit ≤ va) : 2 ≤ dirIndex va := by
  unfold lowLimit at h
  unfold dirIndex
  omega

theorem dirIndex_of_heapStart_le (h : heapStart ≤ va) : 768 ≤ dirIndex va := by
  unfold heapStart at h
  unfold dirIndex
  omega

/-- An address between the first 8 MiB and the heap is not mapped. -/
theorem Space.gap_none (h : Space s) {a : Nat} {m : ByteMem} (hi : 768 ≤ i)
    (hm : ∀ k < 1024, k ≠ i → entry m s.currentDirectory k = entry s.phys s.currentDirectory k)
    (hlo : lowLimit ≤ a) (hhi : a < heapStart) : translate m s.currentDirectory a = none := by
  have hd : 2 ≤ dirIndex a ∧ dirIndex a < 768 := by
    unfold lowLimit at hlo
    unfold heapStart at hhi
    unfold dirIndex
    omega
  unfold PageTable.translate
  rw [hm _ (by omega) (by omega)]
  exact if_neg (h.gap _ hd.1 hd.2)

theorem Paged.of_mapped (h : Paged s) {v : Nat} (hva : lowLimit ≤ va) (hva' : va < 2 ^ 32)
    (hmap : Mapped s s' va v) (htook : TookTable s s' va) : Paged s' := by
  have hdir := hmap.dir
  refine ⟨h.toTables.of_mapped hva' hmap htook, ?_, ?_⟩
  · rw [hmap.cr3, hdir, h.cr3]
  · intro a ha
    have hne : a / 4096 ≠ va / 4096 := by
      unfold lowLimit at hva ha
      omega
    rw [hdir, hmap.translate a (ha.trans (by decide)), if_neg hne]
    exact h.low a ha

theorem Space.of_mapped (h : Space s) {v : Nat} (hva : heapStart ≤ va) (hva' : va < 2 ^ 32)
    (hmap : Mapped s s' va v) (htook : TookTable s s' va) : Space s' := by
  have hi := dirIndex_of_heapStart_le hva
  refine ⟨h.toPaged.of_mapped ((by decide : lowLimit ≤ heapStart).trans hva) hva' hmap htook,
    ?_⟩
  intro k hk hk'
  rw [hmap.dir, hmap.entries k (by omega) (by omega)]
  exact h.gap k hk hk'

theorem Space.of_unmapped (h : Space s) (hva : lowLimit ≤ va) (hunmap : Unmapped s s' va) :
    Space s' := by
  obtain ⟨_, phys, dir, _⟩ := s'
  obtain rfl : dir = s.currentDirectory := hunmap.dir
  obtain rfl := hunmap.pmm
  have hentries := hunmap.entries
  refine ⟨⟨⟨hunmap.tree, h.dir_ge, h.dir_lt, ?_, ?_, h.scanned,
    h.reserved, h.dir_used, ?_⟩, hunmap.cr3.trans h.cr3, ?_⟩,
    ?_⟩
  · intro k hk
    rw [hentries k hk]
    exact h.table_ge k hk
  · intro k hk
    rw [hentries k hk]
    exact h.table_lt k hk
  · intro k hk
    rw [hentries k hk]
    exact h.table_used k hk
  · intro a ha
    have hne : a / 4096 ≠ va / 4096 := by
      unfold lowLimit at hva ha
      omega
    rw [hunmap.translate a (ha.trans (by decide)), if_neg hne]
    exact h.low a ha
  · intro k hk hk'
    rw [hentries k (by omega)]
    exact h.gap k hk hk'

/-- **Mapping a page** above the first 8 MiB returns when its table is in place or can be put into
them. -/
theorem Paged.mapPage_returns (h : Paged s) (hva : lowLimit ≤ va) (hva' : va < 2 ^ 32)
    (hpa : pa < 2 ^ 32) (hflags : flags < 4096) (havail : TableAvailable s va lowLimit) :
    ∃ s', mapPage s va pa flags = .ok s' ∧ Paged s' ∧ Mapped s s' va (frame pa ||| flags) ∧
      TookTable s s' va := by
  have hi := dirIndex_of_lowLimit_le hva
  obtain ⟨s', hcall, hmap, htook⟩ := h.toTables.mapPage_returns hva' hpa hflags havail
    fun page hpage => h.reaches hi hpage
  exact ⟨s', hcall, h.of_mapped hva hva' hmap htook, hmap, htook⟩

/-- **Mapping a page at or above the heap**, when there is a frame for its table: the call faults,
or the address space has one more page. -/
theorem Space.mapPage (h : Space s) (hva : heapStart ≤ va) (hva' : va < 2 ^ 32)
    (hpa : pa < 2 ^ 32) (hflags : flags < 4096) (havail : TableAvailable s va heapStart)
    (hcall : mapPage s va pa flags = .ok s') :
    Space s' ∧ Mapped s s' va (frame pa ||| flags) ∧ TookTable s s' va := by
  have hi := dirIndex_of_heapStart_le hva
  -- The frame of a new table cannot lie outside the first 8 MiB: clearing it would fault.
  have havail' : TableAvailable s va lowLimit := by
    by_cases hp : Present (entry s.phys s.currentDirectory (dirIndex va))
    · exact .inl hp
    · obtain ⟨f, pmm, halloc, hf, htook⟩ := Pmm.allocFrame_of_free (havail.resolve_left hp)
      by_cases hlow : f * pageSize < lowLimit
      · refine .inr (Finset.card_pos.2 ⟨f, Pmm.mem_freeFrames.2 ⟨htook.inside, ?_, htook.clear⟩⟩)
        unfold lowLimit pageSize at *
        omega
      · have hgap : ∀ m, (∀ k < 1024, k ≠ dirIndex va →
            entry m s.currentDirectory k = entry s.phys s.currentDirectory k) →
            resolve s.cr3 m (f * pageSize) = none := by
          intro m hm
          rw [h.cr3]
          refine h.gap_none hi hm (by omega) ?_
          unfold heapStart pageSize at *
          omega
        rw [mapPage_fault (h.reaches (by omega) (low_page h.tree.aligned h.dir_lt)) hva' hp halloc
          hgap] at hcall
        cases hcall
  obtain ⟨s'', hcall', -, hmap, htook⟩ := h.toPaged.mapPage_returns
    ((by decide : lowLimit ≤ heapStart).trans hva) hva' hpa hflags havail'
  obtain rfl : s'' = s' := Outcome.ok.inj (hcall'.symm.trans hcall)
  exact ⟨h.of_mapped hva hva' hmap htook, hmap, htook⟩

end Space

/-! ## `vmm_init` -/

section Init

variable {s s' : Vm} {bitmap : Nat → BitVec 32} {memSize n : Nat} {base : Nat → Nat}

/-- The first `n` pages are mapped to themselves, and nothing else is. At first there were
`base limit` free frames below each `limit`. -/
structure Booting (base : Nat → Nat) (s : Vm) (n : Nat) : Prop extends Tables s where
  cr3 : s.cr3 = none
  identity : ∀ va < 2 ^ 32, translate s.phys s.currentDirectory va =
    if va < n * 4096 then some va else none
  present : ∀ k < 1024, Present (entry s.phys s.currentDirectory k) ↔ k * 1024 < n
  free : ∀ limit, base limit ≤ s.pmm.free limit + (n + 1023) / 1024

theorem reaches_off (h : s.cr3 = none) (i page : Nat) : Reaches s i page := by
  intro m _ a _ _
  rw [h]
  rfl

theorem leaf_identity {va : Nat} (h : va / 4096 = n) :
    leaf (frame (n * pageSize) ||| (pagePresent ||| pageWrite)) va = some va := by
  have hframe : frame (frame (n * pageSize) ||| (pagePresent ||| pageWrite)) = n * 4096 := by
    rw [frame_or _ (by decide), frame_of_dvd (dvd_frame _)]
    exact frame_of_dvd (Dvd.intro_left n rfl)
  have hpres : Present (frame (n * pageSize) ||| (pagePresent ||| pageWrite)) :=
    present_or.2 (.inr rfl)
  have hva : n * 4096 + va % 4096 = va := by omega
  rw [leaf, if_pos hpres, hframe, hva]

theorem TookTable.free_le {va : Nat} (h : TookTable s s' va) (limit : Nat) :
    s.pmm.free limit ≤ s'.pmm.free limit +
      if Present (entry s.phys s.currentDirectory (dirIndex va)) then 0 else 1 := by
  cases h with
  | none hp hpmm _ => rw [hpmm, if_pos hp, Nat.add_zero]
  | one f habs _ htook _ =>
      rw [if_neg habs, htook.free]
      split_ifs <;> omega

theorem TookTable.le_free {va : Nat} (h : TookTable s s' va) (limit : Nat) :
    s'.pmm.free limit ≤ s.pmm.free limit := by
  cases h with
  | none _ hpmm _ => rw [hpmm]
  | one f _ _ htook _ => exact (htook.spent limit).trans (Nat.sub_le _ _)

/-- Mapping the next page, or one of the pages again. -/
theorem Booting.mapPage (h : Booting base s n) (hbase : 2 ≤ base 2048) {k : Nat} (hkn : k ≤ n)
    (hn : n ≤ 2048) (hk : k < 2048) :
    ∃ s', mapPage s (k * pageSize) (k * pageSize) (pagePresent ||| pageWrite) = .ok s' ∧
      Booting base s' (max n (k + 1)) ∧ s'.currentDirectory = s.currentDirectory := by
  have hpage : k * pageSize = k * 4096 := rfl
  have hva : k * pageSize < 2 ^ 32 := by omega
  have hd : dirIndex (k * pageSize) = k / 1024 := by
    unfold dirIndex
    omega
  have hp : Present (entry s.phys s.currentDirectory (dirIndex (k * pageSize))) ↔
      k / 1024 * 1024 < n := by
    rw [hd, h.present _ (by omega)]
  have havail : TableAvailable s (k * pageSize) lowLimit := by
    by_cases hz : k / 1024 * 1024 < n
    · exact .inl (hp.2 hz)
    · -- Of the two tables, this one is not there yet.
      have hfree := h.free 2048
      exact .inr (show 0 < s.pmm.free 2048 by omega)
  obtain ⟨s', hcall, hmap, htook⟩ := h.toTables.mapPage_returns hva hva
    (show pagePresent ||| pageWrite < 4096 by decide) havail fun page _ => reaches_off h.cr3 _ page
  refine ⟨s', hcall, ⟨h.toTables.of_mapped hva hmap htook, ?_, ?_, ?_,
    ?_⟩, hmap.dir⟩
  · rw [hmap.cr3, h.cr3]
  · intro va hva'
    rw [hmap.dir, hmap.translate va hva', h.identity va hva']
    by_cases hsame : va / 4096 = k
    · rw [if_pos (by omega), if_pos (by omega), leaf_identity hsame]
    · rw [if_neg (by omega)]
      refine if_congr (by omega) rfl rfl
  · intro j hj
    rw [hmap.dir]
    by_cases hji : j = dirIndex (k * pageSize)
    · have hpres := hmap.present
      rw [← hji] at hpres
      exact iff_of_true hpres (by omega)
    · rw [hmap.entries j hj hji, h.present j hj]
      omega
  · intro limit
    have hle := htook.free_le limit
    have hfree := h.free limit
    by_cases hz : k / 1024 * 1024 < n
    · rw [if_pos (hp.2 hz)] at hle
      omega
    · rw [if_neg fun hpres => hz (hp.1 hpres)] at hle
      omega

theorem memset_returns (h : s.cr3 = none) (dest : Nat) (val : UInt8) (len : Nat) :
    ∃ m, memset s dest val len = .ok { s with phys := m } ∧ ∀ i < len, m (dest + i) = val := by
  have hloop := Outcome.foldlM_range_returns
    (I := fun n st => ∃ m, st = { s with phys := m } ∧ ∀ i < n, m (dest + i) = val)
    (f := fun s i => writeByte s (dest + i) val) (s := s) (n := len)
    ⟨s.phys, rfl, fun _ hi => by omega⟩ ?_
  · obtain ⟨_, hset, m, rfl, hm⟩ := hloop
    exact ⟨m, hset, hm⟩
  · rintro n _ - ⟨m, rfl, hm⟩
    refine ⟨{ s with phys := Function.update m (dest + n) val }, ?_, _, rfl, ?_⟩
    · simp only [writeByte, resolve, h]
    · intro i hi
      by_cases hin : i = n
      · rw [hin, Function.update_self]
      · rw [Function.update_of_ne (by omega)]
        exact hm i (by omega)

/-- The frames that `pmm_init` leaves free: all but the reserved ones. -/
theorem free_init (bitmap : Nat → BitVec 32) {limit : Nat} (h : limit * 4096 ≤ memSize) :
    limit - 512 ≤ (Pmm.init bitmap memSize).free limit := by
  have hscan := Pmm.scanned_init bitmap memSize
  have hsub : Finset.Ico 512 limit ⊆ (Pmm.init bitmap memSize).freeFrames limit := by
    intro f hf
    rw [Finset.mem_Ico] at hf
    have hlt : f < (Pmm.init bitmap memSize).scanned := by omega
    rw [Pmm.mem_freeFrames, Pmm.used_init bitmap memSize hlt]
    exact ⟨hlt, hf.2, decide_eq_false (by omega)⟩
  have hcard := Finset.card_le_card hsub
  rwa [Nat.card_Ico] at hcard

/-- The directory after `memset`: nothing is mapped. -/
theorem booting_zero {m : ByteMem} {pmm : Pmm} {d : Nat} (hscan : pmm.scanned ≤ 2 ^ 20)
    (hres : ∀ g < 512, pmm.used g = true) (hd' : 512 ≤ d) (hd : d < 2048)
    (hused : pmm.used d = true)
    (hzero : ∀ i < 4096, m (d * pageSize + i) = 0) :
    Booting pmm.free ⟨pmm, m, d * pageSize, none⟩ 0 := by
  have hentry : ∀ k < 1024, entry m (d * pageSize) k = 0 := by
    intro k hk
    have h0 := hzero (k * 4) (by omega)
    have h1 := hzero (k * 4 + 1) (by omega)
    have h2 := hzero (k * 4 + 2) (by omega)
    have h3 := hzero (k * 4 + 3) (by omega)
    simp only [entry, load32, Nat.add_assoc, h0, h1, h2, h3]
    rfl
  have habs : ∀ k < 1024, ¬Present (entry m (d * pageSize) k) := by
    intro k hk
    rw [hentry k hk]
    decide
  have hlow : d * pageSize < lowLimit := by
    unfold lowLimit pageSize
    omega
  refine ⟨⟨⟨Dvd.intro_left d rfl, ?_, ?_⟩, kernelReserved_le hd', hlow, ?_, ?_, hscan, hres, ?_,
    ?_⟩,
    rfl, ?_, ?_, fun limit => Nat.le_add_right _ _⟩
  · exact fun k hk hp => absurd hp (habs k hk)
  · exact fun k hk _ _ hp => absurd hp (habs k hk)
  · exact fun k hk hp => absurd hp (habs k hk)
  · exact fun k hk hp => absurd hp (habs k hk)
  · rw [mul_pageSize_div]
    exact hused
  · exact fun k hk hp => absurd hp (habs k hk)
  · intro va hva
    rw [if_neg (by omega)]
    exact if_neg (habs _ (dirIndex_lt hva))
  · exact fun k hk => iff_of_false (habs k hk) (by omega)

/-- The directory is in the first frame that a new frame allocator gives. -/
theorem booting_took {m : ByteMem} {pmm : Pmm} {d : Nat} (hmem : 0x203000 ≤ memSize)
    (hmem' : memSize < 2 ^ 32) (hd : d < 2048) (htook : (Pmm.init bitmap memSize).Took pmm d)
    (hzero : ∀ i < 4096, m (d * pageSize + i) = 0) :
    Booting pmm.free ⟨pmm, m, d * pageSize, none⟩ 0 := by
  have hscan := Pmm.scanned_init bitmap memSize
  have hd' : 512 ≤ d := by
    by_contra hlt
    have hclear := htook.clear
    rw [Pmm.used_init bitmap memSize htook.inside, decide_eq_true (Nat.lt_of_not_le hlt)] at hclear
    cases hclear
  refine booting_zero (by rw [htook.scanned]; omega) ?_ hd' hd htook.self hzero
  intro g hg
  rw [htook.used, Pmm.used_init bitmap memSize (by omega), decide_eq_true hg, Bool.or_true]

/-- The pages of the first 8 MiB, and the screen once more. -/
theorem Booting.fill (h : Booting base s 0) (hbase : 2 ≤ base 2048) :
    ∃ s₁ s₂, (List.range 2048).foldlM
        (fun s i => Memory.mapPage s (i * pageSize) (i * pageSize) (pagePresent ||| pageWrite)) s =
          .ok s₁ ∧
      Memory.mapPage s₁ 0xB8000 0xB8000 (pagePresent ||| pageWrite) = .ok s₂ ∧
      Booting base s₂ 2048 ∧ s₂.currentDirectory = s.currentDirectory := by
  obtain ⟨s₁, hloop, hboot₁, hdir₁⟩ := Outcome.foldlM_range_returns
    (f := fun s i => Memory.mapPage s (i * pageSize) (i * pageSize) (pagePresent ||| pageWrite))
    (I := fun n st => Booting base st n ∧ st.currentDirectory = s.currentDirectory) (n := 2048)
    ⟨h, rfl⟩ <| by
      intro i t hi hinv
      obtain ⟨t', hcall, ht', hdir'⟩ := hinv.1.mapPage hbase le_rfl hi.le hi
      rw [Nat.max_eq_right (Nat.le_succ i)] at ht'
      exact ⟨t', hcall, ht', hdir'.trans hinv.2⟩
  obtain ⟨s₂, hvga, hboot₂, hdir₂⟩ :=
    hboot₁.mapPage (k := 0xB8) hbase (by omega) le_rfl (by omega)
  rw [Nat.max_eq_left (by omega)] at hboot₂
  exact ⟨s₁, s₂, hloop, hvga, hboot₂, hdir₂.trans hdir₁⟩

/-- **`vmm_init`** returns, and sets the address space up with three frames: the directory, and two
tables. -/
theorem space_vmmInit (hmem : 0x203000 ≤ memSize) (hmem' : memSize < 2 ^ 32)
    (hpmm : s.pmm = Pmm.init bitmap memSize) (hcr3 : s.cr3 = none) :
    ∃ s', vmmInit s = .ok s' ∧ Space s' ∧
      (∀ limit, (Pmm.init bitmap memSize).free limit ≤ s'.pmm.free limit + 3) ∧
      ∀ k < 1024, 2 ≤ k → ¬Present (entry s'.phys s'.currentDirectory k) := by
  obtain ⟨_, phys, dir, _⟩ := s
  subst hpmm hcr3
  have hfree : 3 ≤ (Pmm.init bitmap memSize).free 2048 := by
    have hlimit := free_init bitmap (show 515 * 4096 ≤ memSize by omega)
    exact hlimit.trans (Pmm.free_mono _ (by decide))
  obtain ⟨d, pmm, halloc, hd, htook⟩ := Pmm.allocFrame_of_free
    (show 0 < (Pmm.init bitmap memSize).free 2048 by omega)
  have hbase : 2 ≤ pmm.free 2048 := by
    have hfree' := htook.free 2048
    rw [if_pos hd] at hfree'
    omega
  obtain ⟨m, hset, hzero⟩ := memset_returns (s := ⟨pmm, phys, dir, none⟩) rfl
    (d * pageSize) 0 4096
  have hboot := booting_took hmem hmem' hd htook hzero
  obtain ⟨s₁, s₂, hloop, hvga, hboot₂, hdir⟩ := hboot.fill hbase
  refine ⟨{ s₂ with cr3 := some (d * pageSize) }, ?_, ⟨⟨hboot₂.toTables.with_cr3 _, ?_, ?_⟩, ?_⟩,
    ?_, ?_⟩
  · simp only [vmmInit, halloc, hset, Outcome.ok_bind]
    rw [show 0x800000 / pageSize = 2048 from rfl, hloop, Outcome.ok_bind, hvga, Outcome.ok_bind,
      Outcome.pure_eq]
  · rw [hdir]
  · intro a ha
    have hlow : lowLimit = 2048 * 4096 := rfl
    rw [hboot₂.identity a (ha.trans (by decide)), if_pos (by omega)]
  · intro k hk hk'
    rw [hboot₂.present k (by omega)]
    omega
  · intro limit
    have hleft := hboot₂.free limit
    have htaken := htook.free limit
    simp only
    split_ifs at htaken <;> omega
  · intro k hk hk'
    rw [hboot₂.present k hk]
    omega

end Init

end Munux.Memory
