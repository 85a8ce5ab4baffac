import Munux.Lib.PageTable
import Munux.Memory.Pmm

/-!
# Virtual memory

`kernel/memory/vmm.c`. The directory and the page tables are frames of physical memory, and the
code reaches them through pointers that hold physical addresses. Until `enable_paging` such a
pointer is the address; afterwards the processor translates it like any other, and an access to
an address that is not mapped is a page fault, which stops the kernel.

`mapPage_present` and `mapPage_absent` are the two ways through `vmm_map_page`, under the
assumption that the pointers it follows reach the pages they name.
-/

namespace Munux.Memory

open ByteMem PageTable

/-- `PAGE_PRESENT` -/
def pagePresent : Nat := 0x1

/-- `PAGE_WRITE` -/
def pageWrite : Nat := 0x2

/-- The state of the memory managers: the frame bitmap, physical memory, `current_directory`, and
the directory that the processor walks once paging is on. -/
structure Vm where
  pmm : Pmm
  phys : ByteMem
  currentDirectory : Nat
  cr3 : Option Nat

/-- Where an access to the address `a` goes. -/
def resolve (cr3 : Option Nat) (phys : ByteMem) (a : Nat) : Option Nat :=
  match cr3 with
  | none => some a
  | some dir => translate phys dir a

/-- A 32-bit load. -/
def readWord (s : Vm) (a : Nat) : Outcome Nat :=
  match resolve s.cr3 s.phys a with
  | some pa => .ok (load32 s.phys pa)
  | none => .panic

/-- A 32-bit store. -/
def writeWord (s : Vm) (a v : Nat) : Outcome Vm :=
  match resolve s.cr3 s.phys a with
  | some pa => .ok { s with phys := store32 s.phys pa v }
  | none => .panic

/-- A byte store. -/
def writeByte (s : Vm) (a : Nat) (v : UInt8) : Outcome Vm :=
  match resolve s.cr3 s.phys a with
  | some pa => .ok { s with phys := Function.update s.phys pa v }
  | none => .panic

/-- `memset` -/
def memset (s : Vm) (dest : Nat) (val : UInt8) (len : Nat) : Outcome Vm :=
  (List.range len).foldlM (fun s i => writeByte s (dest + i) val) s

/-- The loop of `vmm_map_page` that clears a new page table. -/
def clearTable (s : Vm) (pt : Nat) : Outcome Vm :=
  (List.range 1024).foldlM (fun s i => writeWord s (pt + i * 4) 0) s

/-- The page table for directory entry `pdIndex`, added if there is none. -/
def ensureTable (s : Vm) (pdIndex flags : Nat) : Outcome Vm := do
  let slot := s.currentDirectory + pdIndex * 4
  if (← readWord s slot) &&& pagePresent = 0 then
    let (ptPhys, pmm) := s.pmm.allocFrame
    let s ← writeWord { s with pmm := pmm } slot (ptPhys ||| pagePresent ||| pageWrite ||| flags)
    clearTable s ptPhys
  else
    return s

/-- `vmm_map_page` -/
def mapPage (s : Vm) (virtualAddr physicalAddr flags : Nat) : Outcome Vm := do
  let pdIndex := virtualAddr >>> 22
  let ptIndex := (virtualAddr >>> 12) &&& 0x3FF
  let s ← ensureTable s pdIndex flags
  let pt := (← readWord s (s.currentDirectory + pdIndex * 4)) &&& 0xFFFFF000
  writeWord s (pt + ptIndex * 4) ((physicalAddr &&& 0xFFFFF000) ||| flags)

/-- `vmm_unmap_page`, without the `invlpg`. -/
def unmapPage (s : Vm) (virtualAddr : Nat) : Outcome Vm := do
  let pdIndex := virtualAddr >>> 22
  let ptIndex := (virtualAddr >>> 12) &&& 0x3FF
  let pde ← readWord s (s.currentDirectory + pdIndex * 4)
  if pde &&& pagePresent = 0 then
    return s
  else
    writeWord s ((pde &&& 0xFFFFF000) + ptIndex * 4) 0

/-- `vmm_get_physical_address` -/
def getPhysicalAddress (s : Vm) (virtualAddr : Nat) : Outcome Nat := do
  let pdIndex := virtualAddr >>> 22
  let ptIndex := (virtualAddr >>> 12) &&& 0x3FF
  let offset := virtualAddr &&& 0xFFF
  let pde ← readWord s (s.currentDirectory + pdIndex * 4)
  if pde &&& pagePresent = 0 then
    return 0
  let pte ← readWord s ((pde &&& 0xFFFFF000) + ptIndex * 4)
  if pte &&& pagePresent = 0 then
    return 0
  return ((pte &&& 0xFFFFF000) + offset) % wordCount

/-- `vmm_init` -/
def vmmInit (s : Vm) : Outcome Vm := do
  let (pdPhys, pmm) := s.pmm.allocFrame
  let s ← memset { s with pmm := pmm } pdPhys 0 4096
  let s := { s with currentDirectory := pdPhys }
  let s ← (List.range (0x800000 / pageSize)).foldlM
    (fun s i => mapPage s (i * pageSize) (i * pageSize) (pagePresent ||| pageWrite)) s
  let s ← mapPage s 0xB8000 0xB8000 (pagePresent ||| pageWrite)
  return { s with cr3 := some pdPhys }

/-! ## Entries -/

section Entries

variable {x flags va pa : Nat}

theorem shiftRight_pdIndex (va : Nat) : va >>> 22 = dirIndex va := Nat.shiftRight_eq_div_pow va 22

theorem shiftRight_ptIndex (va : Nat) : (va >>> 12) &&& 0x3FF = tableIndex va := by
  rw [Nat.shiftRight_eq_div_pow]
  exact Nat.and_two_pow_sub_one_eq_mod _ 10

theorem and_offset (va : Nat) : va &&& 0xFFF = va % 4096 := Nat.and_two_pow_sub_one_eq_mod _ 12

theorem and_pagePresent (e : Nat) : e &&& pagePresent = 0 ↔ ¬Present e := by
  unfold Present pagePresent
  rw [Nat.and_one_is_mod]
  omega

theorem and_frame (h : x < 2 ^ 32) : x &&& 0xFFFFF000 = frame x :=
  and_mask h (show 12 < 32 by decide)

/-- Flags do not reach the frame bits. -/
theorem frame_or (x : Nat) (hf : flags < 4096) : frame (x ||| flags) = frame x := by
  have hdiv : (x ||| flags) / 2 ^ 12 = x / 2 ^ 12 := by
    rw [Nat.or_div_two_pow, Nat.div_eq_of_lt (show flags < 2 ^ 12 by omega), Nat.or_zero]
  exact congrArg (· * 4096) hdiv

theorem frame_of_dvd (hx : 4096 ∣ x) : frame x = x := Nat.div_mul_cancel hx

theorem present_or : Present (x ||| flags) ↔ Present x ∨ Present flags := Nat.or_mod_two_eq_one

theorem or_lt (hx : x < 2 ^ 32) (hf : flags < 4096) : x ||| flags < 2 ^ 32 :=
  Nat.or_lt_two_pow hx (by omega)

/-- The directory entry for a table in the frame at `x`. -/
theorem table_entry (hdvd : 4096 ∣ x) (hx : x < 2 ^ 32) (hf : flags < 4096) :
    frame (x ||| pagePresent ||| pageWrite ||| flags) = x ∧
      Present (x ||| pagePresent ||| pageWrite ||| flags) ∧
      x ||| pagePresent ||| pageWrite ||| flags < 2 ^ 32 := by
  refine ⟨?_, present_or.2 (.inl (present_or.2 (.inl (present_or.2 (.inr rfl))))), ?_⟩
  · rw [frame_or _ hf, frame_or _ (by decide), frame_or _ (by decide), frame_of_dvd hdvd]
  · exact or_lt (or_lt (or_lt hx (by decide)) (by decide)) hf

end Entries

/-! ## Accesses -/

section Access

variable {s s' : Vm} {a v t i page : Nat}

theorem readWord_eq (h : resolve s.cr3 s.phys a = some a) :
    readWord s a = .ok (load32 s.phys a) := by
  simp only [readWord, h]

theorem writeWord_eq (h : resolve s.cr3 s.phys a = some a) (v : Nat) :
    writeWord s a v = .ok { s with phys := store32 s.phys a v } := by
  simp only [writeWord, h]

theorem readWord_eq_ok (h : readWord s a = .ok v) :
    ∃ pa, resolve s.cr3 s.phys a = some pa ∧ load32 s.phys pa = v := by
  unfold readWord at h
  split at h
  · exact ⟨_, ‹_›, Outcome.ok.inj h⟩
  · cases h

theorem writeWord_eq_ok (h : writeWord s a v = .ok s') :
    ∃ pa, resolve s.cr3 s.phys a = some pa ∧ { s with phys := store32 s.phys pa v } = s' := by
  unfold writeWord at h
  split at h
  · exact ⟨_, ‹_›, Outcome.ok.inj h⟩
  · cases h

/-- Clearing a table whose words are reached leaves it empty and touches nothing else. -/
theorem clearTable_returns
    (h : ∀ m, SameOutside s.phys m t (t + 4096) → ∀ a, t ≤ a → a < t + 4096 →
      resolve s.cr3 m a = some a) :
    ∃ m, clearTable s t = .ok { s with phys := m } ∧ SameOutside s.phys m t (t + 4096) ∧
      ∀ j < 1024, entry m t j = 0 := by
  have hloop := Outcome.foldlM_range_returns
    (I := fun n st => ∃ m, st = { s with phys := m } ∧ SameOutside s.phys m t (t + 4096) ∧
      ∀ j < n, entry m t j = 0)
    (f := fun s i => writeWord s (t + i * 4) 0) (s := s) (n := 1024)
    ⟨s.phys, rfl, fun _ _ => rfl, fun _ hj => by omega⟩ ?_
  · obtain ⟨_, hclear, m, rfl, hsame, hzero⟩ := hloop
    exact ⟨m, hclear, hsame, hzero⟩
  · rintro n _ hn ⟨m, rfl, hsame, hzero⟩
    have hres : resolve s.cr3 m (t + n * 4) = some (t + n * 4) :=
      h m hsame _ (by omega) (by omega)
    refine ⟨_, writeWord_eq (s := { s with phys := m }) hres 0, _, rfl, ?_, ?_⟩
    · exact hsame.trans (store32_sameOutside m _ 0 (by omega) (by omega))
    · intro j hj
      by_cases hjn : j = n
      · rw [hjn]
        exact entry_store32_self (by decide)
      · exact (entry_store32_ne (Ne.symm hjn)).trans (hzero j (by omega))

/-- Clearing a table that is not mapped faults. -/
theorem clearTable_fault (h : resolve s.cr3 s.phys t = none) : clearTable s t = .panic := by
  refine Outcome.foldlM_range_panic (by decide) ?_
  simp only [writeWord, Nat.zero_mul, Nat.add_zero, h]

end Access

/-! ## Mapping a page -/

section Map

variable {s s' : Vm} {pmm : Pmm} {m m' m'' : ByteMem} {dir i t page va pa flags : Nat}

/-- The directory is as before, except for entry `i`, and so are all of its tables. -/
structure Intact (m m' : ByteMem) (dir i : Nat) : Prop where
  entries : ∀ k < 1024, k ≠ i → entry m' dir k = entry m dir k
  tables : ∀ k < 1024, Present (entry m dir k) →
    Agree m m' (frame (entry m dir k)) (frame (entry m dir k) + 4096)

/-- A pointer into `page` reaches it, whatever entry `i` of the directory says. -/
def Reaches (s : Vm) (i page : Nat) : Prop :=
  ∀ m, Intact s.phys m s.currentDirectory i → ∀ a, page ≤ a → a < page + 4096 →
    resolve s.cr3 m a = some a

theorem Intact.refl (m : ByteMem) (dir i : Nat) : Intact m m dir i :=
  ⟨fun _ _ _ => rfl, fun _ _ _ => Agree.refl m _ _⟩

/-- A page that a table for entry `i` of the directory can be put into. -/
structure Vacant (m : ByteMem) (dir i page : Nat) : Prop where
  tree : Tree m dir
  absent : ¬Present (entry m dir i)
  aligned : 4096 ∣ page
  ne : page ≠ dir
  fresh : ∀ k < 1024, Present (entry m dir k) → frame (entry m dir k) ≠ page

/-- Entry `i` of the directory is written. -/
theorem Intact.link (h : Tree m dir) (hi : i < 1024) (e : Nat) :
    Intact m (store32 m (dir + i * 4) e) dir i :=
  ⟨fun _ _ hk => entry_store32_ne (Ne.symm hk), fun k hk hp =>
    store32_agree_page h.aligned (dvd_frame _) (h.table_ne k hk hp).symm hi⟩

/-- Words of the new table are written. -/
theorem Intact.fill (h : Intact m m' dir i) (hv : Vacant m dir i page)
    (hsame : SameOutside m' m'' page (page + 4096)) : Intact m m'' dir i := by
  constructor
  · intro k hk hki
    have hagree := hsame.agree (pages_disjoint hv.tree.aligned hv.aligned hv.ne.symm)
    exact (entry_congr hagree hk).trans (h.entries k hk hki)
  · intro k hk hp
    exact (h.tables k hk hp).trans
      (hsame.agree (pages_disjoint (dvd_frame _) hv.aligned (hv.fresh k hk hp)))

/-- The state after a page table was added at `t`. -/
structure Linked (s s' : Vm) (i t flags : Nat) : Prop where
  dir : s'.currentDirectory = s.currentDirectory
  cr3 : s'.cr3 = s.cr3
  link : entry s'.phys s.currentDirectory i = t ||| pagePresent ||| pageWrite ||| flags
  intact : Intact s.phys s'.phys s.currentDirectory i
  empty : ∀ j < 1024, entry s'.phys t j = 0

theorem ensureTable_present (hdir : Reaches s i s.currentDirectory) (hi : i < 1024)
    (hp : Present (entry s.phys s.currentDirectory i)) (flags : Nat) :
    ensureTable s i flags = .ok s := by
  have hread := readWord_eq (hdir _ (Intact.refl ..) (s.currentDirectory + i * 4)
    (by omega) (by omega))
  have hpres : ¬(load32 s.phys (s.currentDirectory + i * 4) &&& pagePresent = 0) :=
    fun h => (and_pagePresent _).1 h hp
  simp only [ensureTable, hread, Outcome.ok_bind, if_neg hpres, Outcome.pure_eq]

theorem ensureTable_absent (htree : Tree s.phys s.currentDirectory)
    (hdir : Reaches s i s.currentDirectory) (ht : Reaches s i t) (hi : i < 1024)
    (habs : ¬Present (entry s.phys s.currentDirectory i)) (halloc : s.pmm.allocFrame = (t, pmm))
    (hdvd : 4096 ∣ t) (hlt : t < 2 ^ 32) (hne : t ≠ s.currentDirectory)
    (hfresh : ∀ k < 1024, Present (entry s.phys s.currentDirectory k) →
      frame (entry s.phys s.currentDirectory k) ≠ t) (hflags : flags < 4096) :
    ∃ s', ensureTable s i flags = .ok s' ∧ s'.pmm = pmm ∧ Linked s s' i t flags := by
  have hread := readWord_eq (hdir _ (Intact.refl ..) (s.currentDirectory + i * 4)
    (by omega) (by omega))
  have hzero : load32 s.phys (s.currentDirectory + i * 4) &&& pagePresent = 0 :=
    (and_pagePresent _).2 habs
  -- First the directory entry, then the words of the new table.
  obtain ⟨-, -, he32⟩ := table_entry hdvd hlt hflags
  obtain ⟨e, he⟩ : ∃ e, t ||| pagePresent ||| pageWrite ||| flags = e := ⟨_, rfl⟩
  rw [he] at he32
  have hwrite : writeWord { s with pmm := pmm } (s.currentDirectory + i * 4) e =
      .ok { s with pmm := pmm, phys := store32 s.phys (s.currentDirectory + i * 4) e } := by
    refine writeWord_eq (s := { s with pmm := pmm }) ?_ e
    exact hdir _ (Intact.refl ..) _ (by omega) (by omega)
  have hvacant : Vacant s.phys s.currentDirectory i t := ⟨htree, habs, hdvd, hne, hfresh⟩
  have hcleared : ∀ m, SameOutside (store32 s.phys (s.currentDirectory + i * 4) e) m t (t + 4096) →
      Intact s.phys m s.currentDirectory i :=
    fun m hm => (Intact.link htree hi e).fill hvacant hm
  obtain ⟨m, hclear, hsame, hempty⟩ := clearTable_returns
    (s := { s with pmm := pmm, phys := store32 s.phys (s.currentDirectory + i * 4) e })
    fun m hm => ht m (hcleared m hm)
  refine ⟨{ s with pmm := pmm, phys := m }, ?_, rfl, rfl, rfl, ?_, hcleared m hsame, hempty⟩
  · simp only [ensureTable, hread, Outcome.ok_bind, if_pos hzero, halloc, he, hwrite]
    exact hclear
  · rw [he]
    exact (entry_congr (hsame.agree (pages_disjoint htree.aligned hdvd hne.symm)) hi).trans
      (entry_store32_self he32)

/-- A new table that is not mapped faults when it is cleared. -/
theorem mapPage_fault (hdir : Reaches s (dirIndex va) s.currentDirectory) (hva : va < 2 ^ 32)
    (habs : ¬Present (entry s.phys s.currentDirectory (dirIndex va)))
    (halloc : s.pmm.allocFrame = (t, pmm))
    (hnone : ∀ m, (∀ k < 1024, k ≠ dirIndex va →
        entry m s.currentDirectory k = entry s.phys s.currentDirectory k) →
      resolve s.cr3 m t = none) :
    mapPage s va pa flags = .panic := by
  have hi := dirIndex_lt hva
  have hslot := hdir _ (Intact.refl ..) (s.currentDirectory + dirIndex va * 4) (by omega) (by omega)
  have hzero : load32 s.phys (s.currentDirectory + dirIndex va * 4) &&& pagePresent = 0 :=
    (and_pagePresent _).2 habs
  obtain ⟨e, he⟩ : ∃ e, t ||| pagePresent ||| pageWrite ||| flags = e := ⟨_, rfl⟩
  have hwrite := writeWord_eq (s := { s with pmm := pmm }) hslot e
  have hclear := clearTable_fault (s := { s with
      pmm := pmm
      phys := store32 s.phys (s.currentDirectory + dirIndex va * 4) e })
    (hnone _ fun k _ hk => entry_store32_ne (Ne.symm hk))
  simp only [mapPage, shiftRight_pdIndex, ensureTable, readWord_eq hslot, Outcome.ok_bind,
    if_pos hzero, halloc, he, hwrite, hclear, Outcome.panic_bind]

/-- The second half of `vmm_map_page`: the table is there, and its entry is written. -/
theorem mapPage_of_ensure (hens : ensureTable s (dirIndex va) flags = .ok s') (hpa : pa < 2 ^ 32)
    (hslot : resolve s'.cr3 s'.phys (s'.currentDirectory + dirIndex va * 4) =
      some (s'.currentDirectory + dirIndex va * 4))
    (hword : resolve s'.cr3 s'.phys
        (frame (entry s'.phys s'.currentDirectory (dirIndex va)) + tableIndex va * 4) =
      some (frame (entry s'.phys s'.currentDirectory (dirIndex va)) + tableIndex va * 4)) :
    mapPage s va pa flags = .ok { s' with
      phys := store32 s'.phys
        (frame (entry s'.phys s'.currentDirectory (dirIndex va)) + tableIndex va * 4)
        (frame pa ||| flags) } := by
  have hpt : load32 s'.phys (s'.currentDirectory + dirIndex va * 4) &&& 0xFFFFF000 =
      frame (entry s'.phys s'.currentDirectory (dirIndex va)) := and_frame (load32_lt _ _)
  simp only [mapPage, shiftRight_pdIndex, shiftRight_ptIndex, hens, Outcome.ok_bind,
    readWord_eq hslot, hpt, and_frame hpa, writeWord_eq hword]

/-- The state after the page of `va` was mapped with the entry `v`. -/
structure Mapped (s s' : Vm) (va v : Nat) : Prop where
  dir : s'.currentDirectory = s.currentDirectory
  cr3 : s'.cr3 = s.cr3
  tree : Tree s'.phys s.currentDirectory
  present : Present (entry s'.phys s.currentDirectory (dirIndex va))
  entries : ∀ k < 1024, k ≠ dirIndex va →
    entry s'.phys s.currentDirectory k = entry s.phys s.currentDirectory k
  translate : ∀ va' < 2 ^ 32, translate s'.phys s.currentDirectory va' =
    if va' / 4096 = va / 4096 then leaf v va' else translate s.phys s.currentDirectory va'

/-- **Mapping a page whose table exists.** -/
theorem mapPage_present (htree : Tree s.phys s.currentDirectory) (hva : va < 2 ^ 32)
    (hpa : pa < 2 ^ 32) (hflags : flags < 4096)
    (hp : Present (entry s.phys s.currentDirectory (dirIndex va)))
    (hdir : Reaches s (dirIndex va) s.currentDirectory)
    (ht : Reaches s (dirIndex va) (frame (entry s.phys s.currentDirectory (dirIndex va)))) :
    ∃ s', mapPage s va pa flags = .ok s' ∧ s'.pmm = s.pmm ∧ Mapped s s' va (frame pa ||| flags) ∧
      entry s'.phys s.currentDirectory (dirIndex va) =
        entry s.phys s.currentDirectory (dirIndex va) := by
  have hi := dirIndex_lt hva
  have hj := tableIndex_lt va
  have hcall := mapPage_of_ensure (ensureTable_present hdir hi hp flags) hpa
    (hdir _ (Intact.refl ..) _ (by omega) (by omega))
    (ht _ (Intact.refl ..) _ (by omega) (by omega))
  have hv : frame pa ||| flags < 2 ^ 32 := or_lt ((Nat.div_mul_le_self pa 4096).trans_lt hpa) hflags
  obtain ⟨htree', htrans⟩ := htree.set hi hp hj hv
  have hentry : ∀ k < 1024, _ := fun k hk => htree.entry_set hi hp hj (frame pa ||| flags) hk
  refine ⟨_, hcall, rfl, ⟨rfl, rfl, htree', ?_, fun k hk _ => hentry k hk, ?_⟩,
    hentry _ hi⟩
  · rw [hentry _ hi]
    exact hp
  · intro va' hva'
    simp only [htrans va' hva', page_eq_iff]

/-- **Mapping a page whose table is missing.** -/
theorem mapPage_absent (htree : Tree s.phys s.currentDirectory) (hva : va < 2 ^ 32)
    (hpa : pa < 2 ^ 32) (hflags : flags < 4096)
    (habs : ¬Present (entry s.phys s.currentDirectory (dirIndex va)))
    (halloc : s.pmm.allocFrame = (t, pmm)) (hdvd : 4096 ∣ t) (hlt : t < 2 ^ 32)
    (hne : t ≠ s.currentDirectory)
    (hfresh : ∀ k < 1024, Present (entry s.phys s.currentDirectory k) →
      frame (entry s.phys s.currentDirectory k) ≠ t)
    (hdir : Reaches s (dirIndex va) s.currentDirectory) (ht : Reaches s (dirIndex va) t) :
    ∃ s', mapPage s va pa flags = .ok s' ∧ s'.pmm = pmm ∧ Mapped s s' va (frame pa ||| flags) ∧
      frame (entry s'.phys s.currentDirectory (dirIndex va)) = t := by
  have hi := dirIndex_lt hva
  have hj := tableIndex_lt va
  obtain ⟨s₁, hens, hpmm, hlink⟩ :=
    ensureTable_absent htree hdir ht hi habs halloc hdvd hlt hne hfresh hflags
  obtain ⟨hframe, hpres, -⟩ := table_entry hdvd hlt hflags
  obtain ⟨htree₁, htrans₁⟩ := htree.link habs (by rwa [hframe])
    (by rwa [hframe]) hlink.link hlink.intact.entries (by rw [hframe]; exact hlink.empty)
    hlink.intact.tables
  have hp₁ : Present (entry s₁.phys s.currentDirectory (dirIndex va)) := by rwa [hlink.link]
  have hframe₁ : frame (entry s₁.phys s.currentDirectory (dirIndex va)) = t := by
    rw [hlink.link, hframe]
  have hcall := mapPage_of_ensure hens hpa
    (by rw [hlink.dir, hlink.cr3]; exact hdir _ hlink.intact _ (by omega) (by omega))
    (by rw [hlink.dir, hlink.cr3, hframe₁]; exact ht _ hlink.intact _ (by omega) (by omega))
  rw [hlink.dir] at hcall
  have hv : frame pa ||| flags < 2 ^ 32 := or_lt ((Nat.div_mul_le_self pa 4096).trans_lt hpa) hflags
  obtain ⟨htree', htrans⟩ := htree₁.set hi hp₁ hj hv
  have hentry : ∀ k < 1024, _ := fun k hk => htree₁.entry_set hi hp₁ hj (frame pa ||| flags) hk
  refine ⟨_, hcall, hpmm, ⟨rfl, hlink.cr3, htree', ?_, ?_, ?_⟩,
    ?_⟩
  · rw [hentry _ hi]
    exact hp₁
  · intro k hk hki
    exact (hentry k hk).trans (hlink.intact.entries k hk hki)
  · intro va' hva'
    simp only [htrans va' hva', page_eq_iff, htrans₁ va' hva']
  · rw [hentry _ hi]
    exact hframe₁

end Map

/-! ## Unmapping and looking up -/

section Unmap

variable {s s' : Vm} {va : Nat}

/-- The entries of a table that is reached can be read and written. -/
theorem Reaches.word {i j page : Nat} (h : Reaches s i page) (hj : j < 1024) :
    resolve s.cr3 s.phys (page + j * 4) = some (page + j * 4) :=
  h _ (Intact.refl ..) _ (by omega) (by omega)

theorem Reaches.read {i j page : Nat} (h : Reaches s i page) (hj : j < 1024) :
    readWord s (page + j * 4) = .ok (entry s.phys page j) :=
  readWord_eq (h.word hj)

/-- The state after the page of `va` was unmapped. -/
structure Unmapped (s s' : Vm) (va : Nat) : Prop where
  dir : s'.currentDirectory = s.currentDirectory
  cr3 : s'.cr3 = s.cr3
  pmm : s'.pmm = s.pmm
  tree : Tree s'.phys s.currentDirectory
  entries : ∀ k < 1024, entry s'.phys s.currentDirectory k = entry s.phys s.currentDirectory k
  translate : ∀ va' < 2 ^ 32, translate s'.phys s.currentDirectory va' =
    if va' / 4096 = va / 4096 then none else translate s.phys s.currentDirectory va'

/-- Unmapping a page whose table can be reached clears its entry. -/
theorem unmapPage_present (hva : va < 2 ^ 32)
    (hp : Present (entry s.phys s.currentDirectory (dirIndex va)))
    (hdir : Reaches s (dirIndex va) s.currentDirectory)
    (ht : Reaches s (dirIndex va) (frame (entry s.phys s.currentDirectory (dirIndex va)))) :
    unmapPage s va = .ok { s with
      phys := store32 s.phys
        (frame (entry s.phys s.currentDirectory (dirIndex va)) + tableIndex va * 4) 0 } := by
  have hne : ¬(entry s.phys s.currentDirectory (dirIndex va) &&& pagePresent = 0) :=
    fun h => (and_pagePresent _).1 h hp
  simp only [unmapPage, shiftRight_pdIndex, shiftRight_ptIndex, hdir.read (dirIndex_lt hva),
    Outcome.ok_bind, if_neg hne, and_frame (entry_lt _ _ _),
    writeWord_eq (ht.word (tableIndex_lt va))]

/-- Unmapping a page without a table does nothing. -/
theorem unmapPage_absent (hva : va < 2 ^ 32)
    (habs : ¬Present (entry s.phys s.currentDirectory (dirIndex va)))
    (hdir : Reaches s (dirIndex va) s.currentDirectory) : unmapPage s va = .ok s := by
  have hzero := (and_pagePresent _).2 habs
  simp only [unmapPage, shiftRight_pdIndex, hdir.read (dirIndex_lt hva), Outcome.ok_bind,
    if_pos hzero, Outcome.pure_eq]

/-- **Unmapping a page.** A page without a table was not mapped. -/
theorem unmapPage_returns (htree : Tree s.phys s.currentDirectory) (hva : va < 2 ^ 32)
    (hdir : Reaches s (dirIndex va) s.currentDirectory)
    (ht : Present (entry s.phys s.currentDirectory (dirIndex va)) →
      Reaches s (dirIndex va) (frame (entry s.phys s.currentDirectory (dirIndex va)))) :
    ∃ s', unmapPage s va = .ok s' ∧ Unmapped s s' va := by
  have hi := dirIndex_lt hva
  have hj := tableIndex_lt va
  by_cases hp : Present (entry s.phys s.currentDirectory (dirIndex va))
  · obtain ⟨htree', htrans⟩ := htree.set hi hp hj (show 0 < 2 ^ 32 by decide)
    refine ⟨_, unmapPage_present hva hp hdir (ht hp), rfl, rfl, rfl, htree',
      fun k hk => htree.entry_set hi hp hj 0 hk, ?_⟩
    intro va' hva'
    have hleaf : leaf 0 va' = none := if_neg (by decide)
    simp only [htrans va' hva', page_eq_iff, hleaf]
  · refine ⟨s, unmapPage_absent hva hp hdir, rfl, rfl, rfl, htree, fun _ _ => rfl, ?_⟩
    intro va' _
    by_cases hsame : va' / 4096 = va / 4096
    · rw [if_pos hsame, PageTable.translate, (page_eq_iff.2 hsame).1]
      exact if_neg hp
    · rw [if_neg hsame]

/-- **Looking an address up** is the walk of the processor, with 0 for a page that is not mapped. -/
theorem getPhysicalAddress_returns
    (hdir : readWord s (s.currentDirectory + dirIndex va * 4) =
      .ok (entry s.phys s.currentDirectory (dirIndex va)))
    (ht : Present (entry s.phys s.currentDirectory (dirIndex va)) →
      readWord s (frame (entry s.phys s.currentDirectory (dirIndex va)) + tableIndex va * 4) =
        .ok (entry s.phys (frame (entry s.phys s.currentDirectory (dirIndex va)))
          (tableIndex va))) :
    getPhysicalAddress s va = .ok ((translate s.phys s.currentDirectory va).getD 0) := by
  simp only [getPhysicalAddress, shiftRight_pdIndex, shiftRight_ptIndex, hdir, Outcome.ok_bind,
    and_offset, PageTable.translate]
  by_cases hp : Present (entry s.phys s.currentDirectory (dirIndex va))
  · obtain ⟨pte, hpte⟩ : ∃ pte, entry s.phys
        (frame (entry s.phys s.currentDirectory (dirIndex va))) (tableIndex va) = pte := ⟨_, rfl⟩
    have hlt : pte < 2 ^ 32 := hpte ▸ entry_lt _ _ _
    rw [if_neg fun h => (and_pagePresent _).1 h hp, if_pos hp, and_frame (entry_lt _ _ _),
      ht hp, hpte, Outcome.ok_bind, leaf, and_frame hlt]
    by_cases hleaf : Present pte
    · have hsum : frame pte + va % 4096 < wordCount := by
        unfold frame wordCount
        omega
      rw [if_neg fun h => (and_pagePresent _).1 h hleaf, if_pos hleaf, Nat.mod_eq_of_lt hsum]
      rfl
    · rw [if_pos ((and_pagePresent _).2 hleaf), if_neg hleaf]
      rfl
  · rw [if_pos ((and_pagePresent _).2 hp), if_neg hp]
    rfl

end Unmap

end Munux.Memory
