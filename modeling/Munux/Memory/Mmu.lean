import Munux.Lib.Tlb
import Munux.Memory.AddressSpace
import Mathlib.Logic.Relation

/-!
# The translation cache

`kernel/memory/vmm.c` as the processor runs it: an access goes where the TLB says, and where the
tables say for a page that the TLB does not keep. At any time the processor may look up a page of
its own accord. `vmm_unmap_page` removes the page it changed with `invlpg`, and
`vmm_switch_directory` removes everything by loading cr3. `vmm_map_page` removes nothing.

So an entry of the TLB may be false after a page was mapped again. `tlb_coherent` says when none is:
when every call of `vmm_map_page` finds its page not mapped, or mapped by the entry it writes. A
table that it adds shows up in the directory before it is cleared, so the frame must not hold
anything that looks like a present entry either.

While the TLB is true, the calls are those of `Munux.Memory.Vmm` (`Mmu.At.mapPage`,
`Mmu.At.unmapPage`).
-/

namespace Munux.Memory

open ByteMem PageTable

/-- The memory managers behind the TLB. `hardware n` are the pages that the processor looks up of
its own accord before the next access but `n`. -/
structure Mmu where
  vm : Vm
  tlb : Tlb Nat Nat
  hardware : Nat → List Nat

/-- The tables that the processor walks; there are none before paging is on. -/
def Mmu.walk (t : Mmu) (page : Nat) : Option Nat :=
  t.vm.cr3.bind fun dir => PageTable.walk t.vm.phys dir page

/-- The processor looks up the pages that are due. -/
def Mmu.fetch (t : Mmu) : Mmu :=
  { t with
    tlb := t.tlb.fills t.walk (t.hardware 0)
    hardware := fun n => t.hardware (n + 1) }

/-- Where an access to the address `a` goes. -/
def Mmu.resolve (t : Mmu) (a : Nat) : Option Nat :=
  match t.tlb (a / 4096) with
  | some pte => leaf pte a
  | none => Memory.resolve t.vm.cr3 t.vm.phys a

/-- A 32-bit load. -/
def Mmu.readWord (t : Mmu) (a : Nat) : Outcome (Nat × Mmu) :=
  match t.fetch.resolve a with
  | some pa => .ok (load32 t.vm.phys pa, t.fetch)
  | none => .panic

/-- A 32-bit store. -/
def Mmu.writeWord (t : Mmu) (a v : Nat) : Outcome Mmu :=
  match t.fetch.resolve a with
  | some pa => .ok { t.fetch with vm := { t.vm with phys := store32 t.vm.phys pa v } }
  | none => .panic

/-- `invlpg` -/
def Mmu.invlpg (t : Mmu) (va : Nat) : Mmu := { t.fetch with tlb := t.fetch.tlb.flush (va / 4096) }

/-- The loop of `vmm_map_page` that clears a new page table. -/
def Mmu.clearTable (t : Mmu) (pt : Nat) : Outcome Mmu :=
  (List.range 1024).foldlM (fun t i => t.writeWord (pt + i * 4) 0) t

/-- The page table for directory entry `pdIndex`, added if there is none. -/
def Mmu.ensureTable (t : Mmu) (pdIndex flags : Nat) : Outcome Mmu := do
  let slot := t.vm.currentDirectory + pdIndex * 4
  let (pde, t) ← t.readWord slot
  if pde &&& pagePresent = 0 then
    let (ptPhys, pmm) := t.vm.pmm.allocFrame
    let t ← { t with vm := { t.vm with pmm := pmm } }.writeWord slot
      (ptPhys ||| pagePresent ||| pageWrite ||| flags)
    t.clearTable ptPhys
  else
    return t

/-- `vmm_map_page` -/
def Mmu.mapPage (t : Mmu) (virtualAddr physicalAddr flags : Nat) : Outcome Mmu := do
  let pdIndex := virtualAddr >>> 22
  let ptIndex := (virtualAddr >>> 12) &&& 0x3FF
  let t ← t.ensureTable pdIndex flags
  let (pde, t) ← t.readWord (t.vm.currentDirectory + pdIndex * 4)
  t.writeWord ((pde &&& 0xFFFFF000) + ptIndex * 4) ((physicalAddr &&& 0xFFFFF000) ||| flags)

/-- `vmm_unmap_page` -/
def Mmu.unmapPage (t : Mmu) (virtualAddr : Nat) : Outcome Mmu := do
  let pdIndex := virtualAddr >>> 22
  let ptIndex := (virtualAddr >>> 12) &&& 0x3FF
  let (pde, t) ← t.readWord (t.vm.currentDirectory + pdIndex * 4)
  if pde &&& pagePresent = 0 then
    return t
  else
    let t ← t.writeWord ((pde &&& 0xFFFFF000) + ptIndex * 4) 0
    return t.invlpg virtualAddr

/-- `vmm_switch_directory` -/
def Mmu.switchDirectory (t : Mmu) (dir : Nat) : Mmu :=
  { t with vm := { t.vm with currentDirectory := dir, cr3 := some dir }, tlb := Tlb.empty }

/-- No entry of the TLB differs from the page tables of the current directory. -/
def Mmu.Coherent (t : Mmu) : Prop :=
  t.tlb.Agrees (PageTable.walk t.vm.phys t.vm.currentDirectory)

/-! ## Accesses -/

/-- The managers are in the state `s`, with paging on, and the TLB is true. -/
structure Mmu.At (t : Mmu) (s : Vm) : Prop where
  vm : t.vm = s
  cr3 : s.cr3 = some s.currentDirectory
  agrees : t.tlb.Agrees (PageTable.walk s.phys s.currentDirectory)

section Access

variable {t : Mmu} {s s' : Vm} {a v page : Nat}

/-- With paging on, the processor walks the current directory. -/
theorem Mmu.walk_eq (hvm : t.vm = s) (hcr3 : s.cr3 = some s.currentDirectory) :
    t.walk = PageTable.walk s.phys s.currentDirectory := by
  funext page
  rw [Mmu.walk, hvm, hcr3, Option.bind_some]

theorem Mmu.At.fetch (h : t.At s) : t.fetch.At s := by
  refine ⟨h.vm, h.cr3, ?_⟩
  change (t.tlb.fills t.walk (t.hardware 0)).Agrees _
  rw [Mmu.walk_eq h.vm h.cr3]
  exact h.agrees.fills _

/-- Removing the one page whose entry may be false. -/
theorem Mmu.at_invlpg {va : Nat} (hvm : t.vm = s) (hcr3 : s.cr3 = some s.currentDirectory)
    (h : t.tlb.AgreesOff (PageTable.walk s.phys s.currentDirectory) {va / 4096}) :
    (t.invlpg va).At s := by
  refine ⟨hvm, hcr3, ?_⟩
  change ((t.tlb.fills t.walk (t.hardware 0)).flush (va / 4096)).Agrees _
  rw [Mmu.walk_eq hvm hcr3]
  exact (h.fills _).flush

/-- While the TLB is true, an access goes where the tables say. -/
theorem Mmu.At.resolve (h : t.At s) (a : Nat) : t.resolve a = Memory.resolve s.cr3 s.phys a := by
  unfold Mmu.resolve
  rw [h.vm]
  cases htlb : t.tlb (a / 4096) with
  | none => rfl
  | some pte =>
      have hwalk := h.agrees _ _ htlb
      have ha : a < 2 ^ 32 := by
        have hpage := (walk_eq_some.1 hwalk).1
        omega
      simp only [h.cr3, Memory.resolve, translate_eq_walk ha, hwalk, Option.bind_some]

theorem Mmu.At.readWord (h : t.At s) (a : Nat) :
    t.readWord a = Memory.readWord s a >>= fun v => .ok (v, t.fetch) := by
  unfold Mmu.readWord Memory.readWord
  rw [h.fetch.resolve, h.vm]
  cases Memory.resolve s.cr3 s.phys a <;> rfl

theorem Mmu.At.writeWord (h : t.At s) (a v : Nat) :
    t.writeWord a v = Memory.writeWord s a v >>= fun s' => .ok { t.fetch with vm := s' } := by
  unfold Mmu.writeWord Memory.writeWord
  rw [h.fetch.resolve, h.vm]
  cases Memory.resolve s.cr3 s.phys a <;> rfl

/-- A store that keeps every entry there is. -/
theorem Mmu.At.moved (h : t.At s) (s' : Vm) (hdir : s'.currentDirectory = s.currentDirectory)
    (hcr3 : s'.cr3 = s.cr3)
    (hkeep : ∀ page pte, PageTable.walk s.phys s.currentDirectory page = some pte →
      PageTable.walk s'.phys s.currentDirectory page = some pte) :
    Mmu.At { t with vm := s' } s' := by
  refine ⟨rfl, ?_, ?_⟩
  · rw [hcr3, hdir, h.cr3]
  · rw [hdir]
    exact h.agrees.mono hkeep

end Access

/-! ## Directories that reach themselves -/

/-- If `page` is mapped at all, it is mapped to itself. -/
def OnlySelf (m : ByteMem) (dir page : Nat) : Prop :=
  ∀ pte, PageTable.walk m dir (page / 4096) = some pte → frame pte = page

/-- `page` is the directory or one of its tables. -/
def IsTable (m : ByteMem) (dir page : Nat) : Prop :=
  page = dir ∨ ∃ k < 1024, Present (entry m dir k) ∧ frame (entry m dir k) = page

/-- The processor walks the current directory. The directory and its tables are in use, and a
pointer into them does not go anywhere else. -/
structure Rooted (s : Vm) : Prop where
  cr3 : s.cr3 = some s.currentDirectory
  tree : Tree s.phys s.currentDirectory
  dir_lt : s.currentDirectory < 2 ^ 32
  scanned : s.pmm.scanned ≤ 2 ^ 20
  used : ∀ page, IsTable s.phys s.currentDirectory page → s.pmm.used (page / 4096) = true
  self : ∀ page, IsTable s.phys s.currentDirectory page →
    OnlySelf s.phys s.currentDirectory page

section Rooted

variable {s s' : Vm} {m : ByteMem} {a dir i j pa page v : Nat}

theorem isTable_dir (m : ByteMem) (dir : Nat) : IsTable m dir dir := .inl rfl

theorem isTable_entry (hi : i < 1024) (hp : Present (entry m dir i)) :
    IsTable m dir (frame (entry m dir i)) :=
  .inr ⟨i, hi, hp, rfl⟩

/-- The tables of a directory depend on its entries only. -/
theorem isTable_congr {m' : ByteMem} (h : ∀ k < 1024, entry m' dir k = entry m dir k) :
    IsTable m' dir page ↔ IsTable m dir page := by
  apply or_congr_right
  apply exists_congr
  intro k
  apply and_congr_right
  intro hk
  rw [h k hk]

theorem Rooted.table_dvd (h : Rooted s) (hpage : IsTable s.phys s.currentDirectory page) :
    4096 ∣ page := by
  rcases hpage with rfl | ⟨k, -, -, rfl⟩
  · exact h.tree.aligned
  · exact dvd_frame _

theorem Rooted.table_lt (h : Rooted s) (hpage : IsTable s.phys s.currentDirectory page) :
    page < 2 ^ 32 := by
  rcases hpage with rfl | ⟨k, -, -, rfl⟩
  · exact h.dir_lt
  · exact (Nat.div_mul_le_self _ _).trans_lt (entry_lt _ _ _)

/-- A pointer into a page that is mapped to itself. -/
theorem OnlySelf.translate (h : OnlySelf m dir page) (hdvd : 4096 ∣ page)
    (hlt : page < 2 ^ 32) (hj : j < 1024)
    (hpa : PageTable.translate m dir (page + j * 4) = some pa) :
    pa = page + j * 4 ∧ ∃ pte, PageTable.walk m dir (page / 4096) = some pte := by
  have hdiv : (page + j * 4) / 4096 = page / 4096 := by omega
  rw [translate_eq_walk (by omega), hdiv, Option.bind_eq_some_iff] at hpa
  obtain ⟨pte, hpte, hleaf⟩ := hpa
  have hpres : Present pte := (walk_eq_some.1 hpte).2.2.1
  rw [leaf, if_pos hpres, Option.some.injEq, h pte hpte] at hleaf
  exact ⟨by omega, pte, hpte⟩

/-- A word of the directory or of a table that can be accessed is the word itself. -/
theorem OnlySelf.resolve (h : OnlySelf s.phys s.currentDirectory page)
    (hcr3 : s.cr3 = some s.currentDirectory) (hdvd : 4096 ∣ page) (hlt : page < 2 ^ 32)
    (hj : j < 1024) (hpa : Memory.resolve s.cr3 s.phys (page + j * 4) = some pa) :
    pa = page + j * 4 ∧
      ∃ pte, PageTable.walk s.phys s.currentDirectory (page / 4096) = some pte := by
  rw [hcr3] at hpa
  exact h.translate hdvd hlt hj hpa

/-- A load from the directory or a table, if it does not fault. -/
theorem Rooted.readWord (h : Rooted s) (hpage : IsTable s.phys s.currentDirectory page)
    (hj : j < 1024) (hread : Memory.readWord s (page + j * 4) = .ok v) :
    Memory.resolve s.cr3 s.phys (page + j * 4) = some (page + j * 4) ∧
      v = entry s.phys page j := by
  obtain ⟨pa, hpa, rfl⟩ := readWord_eq_ok hread
  obtain ⟨rfl, -⟩ := (h.self page hpage).resolve h.cr3 (h.table_dvd hpage) (h.table_lt hpage) hj hpa
  exact ⟨hpa, rfl⟩

/-- A store into the directory or a table, if it does not fault. -/
theorem Rooted.writeWord (h : Rooted s) (hpage : IsTable s.phys s.currentDirectory page)
    (hj : j < 1024) (hwrite : Memory.writeWord s (page + j * 4) v = .ok s') :
    Memory.resolve s.cr3 s.phys (page + j * 4) = some (page + j * 4) ∧
      s' = { s with phys := store32 s.phys (page + j * 4) v } := by
  obtain ⟨pa, hpa, rfl⟩ := writeWord_eq_ok hwrite
  obtain ⟨rfl, -⟩ := (h.self page hpage).resolve h.cr3 (h.table_dvd hpage) (h.table_lt hpage) hj hpa
  exact ⟨hpa, rfl⟩

/-- The state after an entry of a table was written. -/
def Vm.setEntry (s : Vm) (i j v : Nat) : Vm :=
  { s with phys := store32 s.phys (frame (entry s.phys s.currentDirectory i) + j * 4) v }

@[simp] theorem Vm.setEntry_currentDirectory (s : Vm) (i j v : Nat) :
    (s.setEntry i j v).currentDirectory = s.currentDirectory := rfl

@[simp] theorem Vm.setEntry_cr3 (s : Vm) (i j v : Nat) : (s.setEntry i j v).cr3 = s.cr3 := rfl

/-- **Writing an entry of a table** is harmless when it does not send a pointer into the tables
somewhere else. -/
theorem Rooted.setEntry (h : Rooted s) (hi : i < 1024)
    (hp : Present (entry s.phys s.currentDirectory i)) (hj : j < 1024) (hv : v < 2 ^ 32)
    (hself : ∀ page, IsTable s.phys s.currentDirectory page → page / 4096 = i * 1024 + j →
      Present v → frame v = page) :
    Rooted (s.setEntry i j v) := by
  have hdir : ∀ k < 1024, entry (s.setEntry i j v).phys s.currentDirectory k =
      entry s.phys s.currentDirectory k := fun k hk => h.tree.entry_set hi hp hj v hk
  refine ⟨h.cr3, h.tree.congr hdir, h.dir_lt, h.scanned, ?_, ?_⟩
  · intro page hpage
    exact h.used page ((isTable_congr hdir).1 hpage)
  · intro page hpage pte hpte
    have hpage' := (isTable_congr hdir).1 hpage
    have hset := h.tree.walk_set hi hp hj hv (page / 4096)
    change PageTable.walk (s.setEntry i j v).phys s.currentDirectory (page / 4096) = _ at hset
    rw [Vm.setEntry_currentDirectory, hset] at hpte
    split_ifs at hpte with hsame hpres
    · obtain rfl := Option.some.inj hpte
      exact hself page hpage' hsame hpres
    · exact h.self page hpage' pte hpte

end Rooted

/-! ## Adding a table -/

/-- The memory `m`, with a table linked by `e` at entry `i` that has no present entry. -/
structure Adding (m m' : ByteMem) (dir i e : Nat) : Prop where
  link : entry m' dir i = e
  intact : Intact m m' dir i
  blank : ∀ j < 1024, ¬Present (entry m' (frame e) j)

section Adding

variable {m m' : ByteMem} {dir i j e f flags page : Nat} {s : Vm} {pmm : Pmm}

/-- No page is mapped elsewhere, at any time while the table is cleared. -/
theorem Adding.grow (h : Adding m m' dir i e) (hv : Vacant m dir i (frame e)) :
    Tree m' dir ∧ ∀ page, PageTable.walk m' dir page = PageTable.walk m dir page :=
  hv.tree.grow hv.absent hv.ne hv.fresh h.link h.intact.entries h.blank h.intact.tables

/-- The entry is written into the directory, and the page has nothing that looks present. -/
theorem Vacant.link (hv : Vacant m dir i (frame e)) (hi : i < 1024) (he : e < 2 ^ 32)
    (hblank : ∀ j < 1024, ¬Present (entry m (frame e) j)) :
    Adding m (store32 m (dir + i * 4) e) dir i e := by
  refine ⟨entry_store32_self he, .link hv.tree hi e, ?_⟩
  intro j hj
  rw [entry_congr (store32_agree_page hv.tree.aligned hv.aligned hv.ne.symm hi) hj]
  exact hblank j hj

/-- A word of the new table is cleared. -/
theorem Adding.clear (h : Adding m m' dir i e) (hv : Vacant m dir i (frame e)) (hi : i < 1024)
    (hj : j < 1024) : Adding m (store32 m' (frame e + j * 4) 0) dir i e := by
  have hsame : SameOutside m' (store32 m' (frame e + j * 4) 0) (frame e) (frame e + 4096) :=
    store32_sameOutside m' _ 0 (by omega) (by omega)
  refine ⟨?_, h.intact.fill hv hsame, ?_⟩
  · have hagree := hsame.agree (pages_disjoint hv.tree.aligned hv.aligned hv.ne.symm)
    exact (entry_congr hagree hi).trans h.link
  · intro k hk
    by_cases hkj : j = k
    · rw [hkj, entry_store32_self (by decide)]
      decide
    · rw [entry_store32_ne hkj]
      exact h.blank k hk

/-- The tables of the directory: those there were, and the new one. -/
theorem Adding.isTable (h : Adding m m' dir i e) (hpage : IsTable m' dir page) :
    IsTable m dir page ∨ page = frame e := by
  rcases hpage with rfl | ⟨k, hk, hp, rfl⟩
  · exact .inl (isTable_dir m page)
  · by_cases hki : k = i
    · right
      rw [hki, h.link]
    · left
      rw [h.intact.entries k hk hki] at hp ⊢
      exact isTable_entry hk hp

/-- A frame that the bitmap has free is none of the tables. -/
theorem Rooted.vacant (h : Rooted s) (habs : ¬Present (entry s.phys s.currentDirectory i))
    (htook : Pmm.Took s.pmm pmm f) : Vacant s.phys s.currentDirectory i (f * pageSize) := by
  have hne : ∀ page, IsTable s.phys s.currentDirectory page → page ≠ f * pageSize := by
    rintro _ hpage rfl
    have hused := h.used _ hpage
    rw [mul_pageSize_div, htook.clear] at hused
    cases hused
  exact ⟨h.tree, habs, Dvd.intro_left f rfl, (hne _ (isTable_dir _ _)).symm,
    fun k hk hp => hne _ (isTable_entry hk hp)⟩

/-- The new table keeps the directory rooted, if its page is mapped to itself. -/
theorem Rooted.added (h : Rooted s) (hv : Vacant s.phys s.currentDirectory i (f * pageSize))
    (htook : Pmm.Took s.pmm pmm f) (he : frame e = f * pageSize)
    (hself : OnlySelf s.phys s.currentDirectory (f * pageSize))
    (hadd : Adding s.phys m s.currentDirectory i e) :
    Rooted { s with pmm := pmm, phys := m } := by
  obtain ⟨htree, hwalk⟩ := hadd.grow (he ▸ hv)
  have hkept : ∀ page, OnlySelf s.phys s.currentDirectory page →
      OnlySelf m s.currentDirectory page := by
    intro page hpage pte hpte
    rw [hwalk] at hpte
    exact hpage pte hpte
  refine ⟨h.cr3, htree, h.dir_lt, htook.scanned ▸ h.scanned, ?_, ?_⟩
  · intro page hpage
    rcases hadd.isTable hpage with hold | hnew
    · exact htook.mono (h.used page hold)
    · rw [hnew, he, mul_pageSize_div]
      exact htook.self
  · intro page hpage
    rcases hadd.isTable hpage with hold | hnew
    · exact hkept page (h.self page hold)
    · rw [hnew, he]
      exact hkept _ hself

end Adding

/-! ## The calls while the TLB is true -/

section Calls

variable {t t' t₁ : Mmu} {s s' s₁ : Vm} {m : ByteMem} {e f i va pa pde flags : Nat}

/-- Clearing the new table, if it does not fault. Its page is mapped then. -/
theorem Mmu.At.clearTable (h : t.At s) (hadd : Adding m s.phys s.currentDirectory i e)
    (hv : Vacant m s.currentDirectory i (frame e)) (hi : i < 1024) (hlt : frame e < 2 ^ 32)
    (hself : OnlySelf m s.currentDirectory (frame e))
    (hcall : t.clearTable (frame e) = .ok t') :
    ∃ m', Memory.clearTable s (frame e) = .ok { s with phys := m' } ∧
      t'.At { s with phys := m' } ∧ Adding m m' s.currentDirectory i e ∧
      ∃ pte, PageTable.walk m s.currentDirectory (frame e / 4096) = some pte := by
  have hloop := Outcome.foldlM_range_invariant
    (I := fun n t => ∃ m', (List.range n).foldlM
        (fun s i => Memory.writeWord s (frame e + i * 4) 0) s = .ok { s with phys := m' } ∧
      t.At { s with phys := m' } ∧ Adding m m' s.currentDirectory i e ∧
      (0 < n → ∃ pte, PageTable.walk m s.currentDirectory (frame e / 4096) = some pte))
    hcall ⟨s.phys, rfl, h, hadd, fun hn => absurd hn (Nat.lt_irrefl 0)⟩ ?_
  · obtain ⟨m', hclear, hat, hadd', hmapped⟩ := hloop
    exact ⟨m', hclear, hat, hadd', hmapped (by decide)⟩
  · rintro n t t' hn ⟨m', hclear, hat, hadd', -⟩ hwrite
    have hwalk := (hadd'.grow hv).2
    have hself' : OnlySelf m' s.currentDirectory (frame e) := by
      intro pte hpte
      rw [hwalk] at hpte
      exact hself pte hpte
    rw [hat.writeWord, Outcome.bind_eq_ok] at hwrite
    obtain ⟨s', hwrite, ht'⟩ := hwrite
    obtain ⟨a, ha, rfl⟩ := writeWord_eq_ok hwrite
    obtain ⟨rfl, pte, hpte⟩ := hself'.resolve (s := { s with phys := m' }) hat.cr3 (dvd_frame e)
      hlt hn ha
    have hcleared := hadd'.clear hv hi hn
    refine ⟨store32 m' (frame e + n * 4) 0, ?_, ?_, hcleared, fun _ => ⟨pte, ?_⟩⟩
    · rw [Outcome.foldlM_range_succ, hclear, Outcome.ok_bind]
      exact hwrite
    · rw [← Outcome.ok.inj ht']
      refine hat.fetch.moved _ rfl rfl ?_
      intro page pte hpte
      rw [(hcleared.grow hv).2, ← hwalk]
      exact hpte
    · rwa [← hwalk]

/-- A table that is there is used as it is. -/
theorem Mmu.At.ensureTable_present (h : t.At s)
    (hread : Memory.readWord s (s.currentDirectory + i * 4) = .ok pde) (hp : Present pde)
    (flags : Nat) :
    Memory.ensureTable s i flags = .ok s ∧ t.ensureTable i flags = .ok t.fetch := by
  have hpres : ¬(pde &&& pagePresent = 0) := fun hzero => (and_pagePresent _).1 hzero hp
  constructor
  · simp only [Memory.ensureTable, hread, Outcome.ok_bind, if_neg hpres, Outcome.pure_eq]
  · simp only [Mmu.ensureTable, h.vm, h.readWord, hread, Outcome.ok_bind, if_neg hpres,
      Outcome.pure_eq]

/-- A new table comes from the frame that the scan finds. -/
theorem Mmu.At.ensureTable_absent (h : t.At s) (hr : Rooted s) (hi : i < 1024)
    (habs : ¬Present (entry s.phys s.currentDirectory i)) (hflags : flags < 4096)
    (hfind : s.pmm.findFreeFrame = some f)
    (hself : OnlySelf s.phys s.currentDirectory (f * pageSize))
    (hblank : ∀ j < 1024, ¬Present (entry s.phys (f * pageSize) j))
    (hcall : t.ensureTable i flags = .ok t') :
    ∃ pmm m e, Memory.ensureTable s i flags = .ok { s with pmm := pmm, phys := m } ∧
      t'.At { s with pmm := pmm, phys := m } ∧ Pmm.Took s.pmm pmm f ∧ frame e = f * pageSize ∧
      Present e ∧ Adding s.phys m s.currentDirectory i e ∧
      ∃ pte, PageTable.walk s.phys s.currentDirectory (frame e / 4096) = some pte := by
  obtain ⟨pmm, halloc, htook⟩ := Pmm.allocFrame_of_find hfind
  have hvacant := hr.vacant habs htook
  have hlt : f * pageSize < 2 ^ 32 := by
    have hscan := hr.scanned
    have hinside := htook.inside
    unfold pageSize
    omega
  obtain ⟨hframe, hpres, he32⟩ := table_entry hvacant.aligned hlt hflags
  obtain ⟨e, he⟩ : ∃ e, f * pageSize ||| pagePresent ||| pageWrite ||| flags = e := ⟨_, rfl⟩
  rw [he] at hframe hpres he32
  rw [← hframe] at hvacant hself hblank hlt
  -- The directory entry is read.
  simp only [Mmu.ensureTable, h.vm, h.readWord, Outcome.bind_eq_ok] at hcall
  obtain ⟨_, ⟨pde, hread, hpde⟩, hcall⟩ := hcall
  obtain rfl := Outcome.ok.inj hpde
  obtain ⟨hslot, rfl⟩ := hr.readWord (isTable_dir _ _) hi hread
  have hzero : entry s.phys s.currentDirectory i &&& pagePresent = 0 := (and_pagePresent _).2 habs
  have hat : Mmu.At { t.fetch with vm := { s with pmm := pmm } } { s with pmm := pmm } :=
    h.fetch.moved _ rfl rfl fun _ _ hpte => hpte
  have hwrite := writeWord_eq (s := { s with pmm := pmm }) hslot e
  simp only [if_pos hzero, h.fetch.vm, halloc, he, hat.writeWord, hwrite, Outcome.ok_bind] at hcall
  -- It is written, and the table is cleared.
  have hadd := hvacant.link hi he32 hblank
  have hat₁ := hat.fetch.moved
    { s with pmm := pmm, phys := store32 s.phys (s.currentDirectory + i * 4) e } rfl rfl <| by
      intro page pte hpte
      rw [(hadd.grow hvacant).2]
      exact hpte
  rw [← hframe] at hcall
  obtain ⟨m, hclear, hat₂, hadd₂, hmapped⟩ := hat₁.clearTable hadd hvacant hi hlt hself hcall
  refine ⟨pmm, m, e, ?_, hat₂, htook, hframe, hpres, hadd₂, hmapped⟩
  simp only [Memory.ensureTable, hread, Outcome.ok_bind, if_pos hzero, halloc, he, hwrite]
  rw [← hframe]
  exact hclear

end Calls

end Munux.Memory
