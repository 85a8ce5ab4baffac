import Munux.Memory.Mmu

/-!
# When the TLB is true

Runs of `vmm_map_page`, `vmm_unmap_page` and `vmm_switch_directory`, with lookups of the processor
between the calls and in the middle of them.

`vmm_unmap_page` keeps the TLB true whatever it finds, and so does `vmm_switch_directory`.
`vmm_map_page` does when it is called as `MapSafe` says. `tlb_coherent` is the theorem about runs;
`tlb_stale` maps a page again that the TLB keeps.
-/

namespace Munux.Memory

open ByteMem PageTable

/-- The call finds its page not mapped, or mapped by the entry that it writes. A page of the tables
is mapped to itself. If the call needs a frame for a table, the next one in the bitmap is mapped to
itself or not at all, and holds no word with the present bit. -/
structure MapSafe (s : Vm) (va pa flags : Nat) : Prop where
  same : ∀ pte, walk s.phys s.currentDirectory (va / 4096) = some pte → pte = frame pa ||| flags
  self : IsTable s.phys s.currentDirectory (frame va) → Present (frame pa ||| flags) →
    frame (frame pa ||| flags) = frame va
  table : ¬Present (entry s.phys s.currentDirectory (dirIndex va)) →
    ∃ f, s.pmm.findFreeFrame = some f ∧ flags < 4096 ∧
      OnlySelf s.phys s.currentDirectory (f * pageSize) ∧
      ∀ j < 1024, ¬Present (entry s.phys (f * pageSize) j)

/-! ## Mapping a page -/

section Map

variable {t t' t₁ : Mmu} {s s' s₁ : Vm} {va pa flags : Nat}

/-- The state after the table for `va` was made sure of. -/
structure Ensured (s s₁ : Vm) (va : Nat) : Prop where
  rooted : Rooted s₁
  dir : s₁.currentDirectory = s.currentDirectory
  present : Present (entry s₁.phys s.currentDirectory (dirIndex va))
  walk : ∀ page, walk s₁.phys s.currentDirectory page = walk s.phys s.currentDirectory page
  table : ∀ page, IsTable s₁.phys s.currentDirectory page →
    IsTable s.phys s.currentDirectory page ∨
      ∃ pte, PageTable.walk s.phys s.currentDirectory (page / 4096) = some pte

theorem Mmu.At.ensureTable (h : t.At s) (hr : Rooted s) (hva : va < 2 ^ 32)
    (hsafe : MapSafe s va pa flags) (hcall : t.ensureTable (dirIndex va) flags = .ok t₁) :
    ∃ s₁, Memory.ensureTable s (dirIndex va) flags = .ok s₁ ∧ t₁.At s₁ ∧ Ensured s s₁ va := by
  have hi := dirIndex_lt hva
  by_cases hp : Present (entry s.phys s.currentDirectory (dirIndex va))
  · obtain ⟨pde, hread⟩ :
        ∃ pde, Memory.readWord s (s.currentDirectory + dirIndex va * 4) = .ok pde := by
      simp only [Mmu.ensureTable, h.vm, h.readWord, Outcome.bind_eq_ok] at hcall
      obtain ⟨-, ⟨pde, hread, -⟩, -⟩ := hcall
      exact ⟨pde, hread⟩
    obtain ⟨-, rfl⟩ := hr.readWord (isTable_dir _ _) hi hread
    obtain ⟨hens, hens'⟩ := h.ensureTable_present hread hp flags
    obtain rfl := Outcome.ok.inj (hens'.symm.trans hcall)
    exact ⟨s, hens, h.fetch, hr, rfl, hp, fun _ => rfl, fun _ hpage => .inl hpage⟩
  · obtain ⟨f, hfind, hflags, hself, hblank⟩ := hsafe.table hp
    obtain ⟨pmm, m, e, hens, hat, htook, he, hpres, hadd, hmapped⟩ :=
      h.ensureTable_absent hr hi hp hflags hfind hself hblank hcall
    have hvacant := hr.vacant hp htook
    refine ⟨_, hens, hat, hr.added hvacant htook he hself hadd, rfl, ?_,
      (hadd.grow (he ▸ hvacant)).2, ?_⟩
    · rwa [hadd.link]
    · intro page hpage
      rcases hadd.isTable hpage with hold | rfl
      · exact .inl hold
      · exact .inr hmapped

/-- The second half of the call. -/
theorem Mmu.At.mapPage_of_ensure (hens : Memory.ensureTable s (dirIndex va) flags = .ok s₁)
    (hens' : t.ensureTable (dirIndex va) flags = .ok t₁) (h : t₁.At s₁) (pa : Nat) :
    t.mapPage va pa flags = Memory.mapPage s va pa flags >>= fun s' =>
      .ok { t₁.fetch.fetch with vm := s' } := by
  simp only [Mmu.mapPage, Memory.mapPage, shiftRight_pdIndex, hens, hens', Outcome.ok_bind, h.vm,
    h.readWord]
  cases Memory.readWord s₁ (s₁.currentDirectory + dirIndex va * 4) with
  | ok pde => simp only [Outcome.ok_bind, h.fetch.writeWord]
  | panic => rfl
  | diverge => rfl

/-- Mapping a page whose table is there and can be reached. -/
theorem Mmu.At.mapPage_present (h : t.At s) (hpa : pa < 2 ^ 32)
    (hp : Present (entry s.phys s.currentDirectory (dirIndex va)))
    (hslot : Memory.resolve s.cr3 s.phys (s.currentDirectory + dirIndex va * 4) =
      some (s.currentDirectory + dirIndex va * 4))
    (hword : Memory.resolve s.cr3 s.phys
        (frame (entry s.phys s.currentDirectory (dirIndex va)) + tableIndex va * 4) =
      some (frame (entry s.phys s.currentDirectory (dirIndex va)) + tableIndex va * 4))
    (flags : Nat) :
    t.mapPage va pa flags = .ok { t.fetch.fetch.fetch with
      vm := s.setEntry (dirIndex va) (tableIndex va) (frame pa ||| flags) } := by
  obtain ⟨hens, hens'⟩ := h.ensureTable_present (readWord_eq hslot) hp flags
  rw [Mmu.At.mapPage_of_ensure hens hens' h.fetch pa,
    Memory.mapPage_of_ensure hens hpa hslot hword]
  rfl

/-- The entry that the call writes, if it does not fault. -/
theorem Rooted.mapPage (hr : Rooted s₁) (hens : ensureTable s (dirIndex va) flags = .ok s₁)
    (hva : va < 2 ^ 32) (hpa : pa < 2 ^ 32)
    (hp : Present (entry s₁.phys s₁.currentDirectory (dirIndex va)))
    (hcall : Memory.mapPage s va pa flags = .ok s') :
    s' = s₁.setEntry (dirIndex va) (tableIndex va) (frame pa ||| flags) := by
  have hi := dirIndex_lt hva
  simp only [Memory.mapPage, shiftRight_pdIndex, shiftRight_ptIndex, hens, Outcome.ok_bind,
    Outcome.bind_eq_ok] at hcall
  obtain ⟨pde, hread, hwrite⟩ := hcall
  obtain ⟨-, rfl⟩ := hr.readWord (isTable_dir _ _) hi hread
  rw [and_frame (entry_lt _ _ _), and_frame hpa] at hwrite
  exact (hr.writeWord (isTable_entry hi hp) (tableIndex_lt va) hwrite).2

/-- **Mapping a page** keeps the TLB true when it is safe, and is then the call of the model without
a TLB. -/
theorem Mmu.At.mapPage (h : t.At s) (hr : Rooted s) (hva : va < 2 ^ 32) (hpa : pa < 2 ^ 32)
    (hflags : flags < 2 ^ 32) (hsafe : MapSafe s va pa flags)
    (hcall : t.mapPage va pa flags = .ok t') :
    ∃ s', Memory.mapPage s va pa flags = .ok s' ∧ t'.At s' ∧ Rooted s' := by
  have hi := dirIndex_lt hva
  have hj := tableIndex_lt va
  have hv : frame pa ||| flags < 2 ^ 32 :=
    Nat.or_lt_two_pow ((Nat.div_mul_le_self pa 4096).trans_lt hpa) hflags
  obtain ⟨t₁, hens', -⟩ := Outcome.bind_eq_ok.1 hcall
  rw [shiftRight_pdIndex] at hens'
  obtain ⟨s₁, hens, h₁, hensured⟩ := h.ensureTable hr hva hsafe hens'
  rw [Mmu.At.mapPage_of_ensure hens hens' h₁ pa, Outcome.bind_eq_ok] at hcall
  obtain ⟨s', hcall, ht'⟩ := hcall
  have hp := hensured.present
  rw [← hensured.dir] at hp
  have hset := hensured.rooted.tree.walk_set_page hi hp hv
  obtain rfl := hensured.rooted.mapPage hens hva hpa hp hcall
  refine ⟨_, hcall, ?_, ?_⟩
  · -- An entry that the page had is the one that is written.
    rw [← Outcome.ok.inj ht']
    refine h₁.fetch.fetch.moved _ rfl rfl ?_
    intro page pte hpte
    apply (hset page).trans
    split_ifs with hpage hpres
    · rw [hensured.dir, hensured.walk, hpage] at hpte
      rw [hsafe.same pte hpte]
    · rw [hensured.dir, hensured.walk, hpage] at hpte
      rw [← hsafe.same pte hpte] at hpres
      exact absurd (walk_eq_some.1 hpte).2.2.1 hpres
    · exact hpte
  · apply hensured.rooted.setEntry hi hp hj hv
    intro page hpage hsame hpres
    have hdvd := hensured.rooted.table_dvd hpage
    have hself := hensured.rooted.self page hpage
    rw [page_eq] at hsame
    have hframe : frame va = page := by
      unfold frame
      omega
    rw [hensured.dir] at hpage hself
    rcases hensured.table page hpage with hold | ⟨pte, hpte⟩
    · rw [← hframe] at hold ⊢
      exact hsafe.self hold hpres
    · -- The page of the new table was mapped when it was cleared.
      have hpte' := hpte
      rw [hsame] at hpte
      rw [← hsafe.same pte hpte]
      exact hself pte (by rw [hensured.walk, hpte'])

/-- A pointer into the directory or a table, which lie in the first 8 MiB. -/
theorem Paged.word (h : Paged s) {j page : Nat} (hpage : IsTable s.phys s.currentDirectory page)
    (hj : j < 1024) : Memory.resolve s.cr3 s.phys (page + j * 4) = some (page + j * 4) := by
  have hlow : page + 4096 ≤ lowLimit := by
    rcases hpage with rfl | ⟨k, hk, hp, rfl⟩
    · exact low_page h.tree.aligned h.dir_lt
    · exact low_page (dvd_frame _) (h.table_lt k hk hp)
  rw [h.cr3]
  exact h.low _ (by omega)

/-- The directory and its tables lie in the first 8 MiB, which are mapped to themselves. -/
theorem Paged.rooted (h : Paged s) : Rooted s := by
  have hlow : ∀ page, IsTable s.phys s.currentDirectory page →
      4096 ∣ page ∧ page < lowLimit ∧ s.pmm.used (page / 4096) = true := by
    rintro page (rfl | ⟨k, hk, hp, rfl⟩)
    · exact ⟨h.tree.aligned, h.dir_lt, h.dir_used⟩
    · exact ⟨dvd_frame _, h.table_lt k hk hp, h.table_used k hk hp⟩
  refine ⟨h.cr3, h.tree, h.dir_lt.trans (by decide), h.scanned,
    fun page hpage => (hlow page hpage).2.2, ?_⟩
  intro page hpage pte hpte
  obtain ⟨hdvd, hlt, -⟩ := hlow page hpage
  have hself := h.low page hlt
  have hpres : Present pte := (walk_eq_some.1 hpte).2.2.1
  rw [translate_eq_walk (hlt.trans (by decide)), hpte, Option.bind_some, leaf, if_pos hpres,
    Option.some.injEq] at hself
  omega

theorem Tables.ge (h : Tables s) {page : Nat} (hpage : IsTable s.phys s.currentDirectory page) :
    kernelReserved ≤ page := by
  rcases hpage with rfl | ⟨k, hk, hp, rfl⟩
  · exact h.dir_ge
  · exact h.table_ge k hk hp

/-- Such a pointer, after the entry of some other page was written. -/
theorem Paged.word_setEntry (h : Paged s) {i j k v page : Nat} (hi : i < 1024)
    (hp : Present (entry s.phys s.currentDirectory i)) (hj : j < 1024) (hv : v < 2 ^ 32)
    (hpage : IsTable s.phys s.currentDirectory page) (hk : k < 1024)
    (hne : page / 4096 ≠ i * 1024 + j) :
    Memory.resolve (s.setEntry i j v).cr3 (s.setEntry i j v).phys (page + k * 4) =
      some (page + k * 4) := by
  have hword := h.word hpage hk
  have hdvd := h.rooted.table_dvd hpage
  have hlt := h.rooted.table_lt hpage
  have hdiv : (page + k * 4) / 4096 = page / 4096 := by omega
  rw [h.cr3] at hword
  rw [Vm.setEntry_cr3, h.cr3]
  refine (translate_of_walk (by omega) ?_).trans hword
  refine (h.tree.walk_set hi hp hj hv _).trans (if_neg ?_)
  rwa [hdiv]

/-- **A page that the TLB keeps** is mapped again, by another entry: the TLB still has the old
one. -/
theorem Mmu.At.mapPage_stale {pte : Nat} (h : t.At s) (hs : Paged s) (va pa flags : Nat)
    (hpa : pa < 2 ^ 32) (hflags : flags < 2 ^ 32) (hkept : t.tlb (va / 4096) = some pte)
    (hne : pte ≠ frame pa ||| flags) :
    ∃ t', t.mapPage va pa flags = .ok t' ∧ t'.tlb (va / 4096) = some pte ∧
      PageTable.walk t'.vm.phys t'.vm.currentDirectory (va / 4096) =
        (if Present (frame pa ||| flags) then some (frame pa ||| flags) else none) ∧
      ¬t'.Coherent := by
  have hwalk := h.agrees _ _ hkept
  obtain ⟨hpage, hp, -, -⟩ := walk_eq_some.1 hwalk
  have hdir : va / 4096 / 1024 = dirIndex va := by
    unfold dirIndex
    omega
  have hi : dirIndex va < 1024 := by omega
  have hj := tableIndex_lt va
  have hv : frame pa ||| flags < 2 ^ 32 :=
    Nat.or_lt_two_pow ((Nat.div_mul_le_self pa 4096).trans_lt hpa) hflags
  rw [hdir] at hp
  have hslot := hs.word (isTable_dir _ _) hi
  have hword := hs.word (isTable_entry hi hp) hj
  -- The lookups before the three accesses do not change the entry.
  have hkept₁ := Tlb.fills_of_kept hkept (Mmu.walk_eq h.vm h.cr3 ▸ hwalk) (t.hardware 0)
  have hkept₂ := Tlb.fills_of_kept hkept₁ (Mmu.walk_eq h.vm h.cr3 ▸ hwalk) (t.hardware 1)
  have hkept₃ := Tlb.fills_of_kept hkept₂ (Mmu.walk_eq h.vm h.cr3 ▸ hwalk) (t.hardware 2)
  have hset := hs.tree.walk_set_page hi hp hv (va / 4096)
  rw [if_pos rfl] at hset
  refine ⟨_, h.mapPage_present hpa hp hslot hword flags, hkept₃, hset, fun hcoherent => hne ?_⟩
  have hnew := hset.symm.trans (hcoherent _ _ hkept₃)
  split_ifs at hnew
  exact (Option.some.inj hnew).symm

end Map

/-! ## Unmapping a page -/

section Unmap

variable {t t' : Mmu} {s s' : Vm} {va : Nat}

/-- Unmapping a page whose table is there and can be reached. -/
theorem Mmu.At.unmapPage_present (h : t.At s)
    (hp : Present (entry s.phys s.currentDirectory (dirIndex va)))
    (hslot : Memory.resolve s.cr3 s.phys (s.currentDirectory + dirIndex va * 4) =
      some (s.currentDirectory + dirIndex va * 4))
    (hword : Memory.resolve s.cr3 s.phys
        (frame (entry s.phys s.currentDirectory (dirIndex va)) + tableIndex va * 4) =
      some (frame (entry s.phys s.currentDirectory (dirIndex va)) + tableIndex va * 4)) :
    Memory.unmapPage s va = .ok (s.setEntry (dirIndex va) (tableIndex va) 0) ∧
      t.unmapPage va = .ok (Mmu.invlpg { t.fetch.fetch with
        vm := s.setEntry (dirIndex va) (tableIndex va) 0 } va) := by
  have hpres : ¬(load32 s.phys (s.currentDirectory + dirIndex va * 4) &&& pagePresent = 0) :=
    fun hzero => (and_pagePresent _).1 hzero hp
  have hframe : load32 s.phys (s.currentDirectory + dirIndex va * 4) &&& 0xFFFFF000 =
      frame (entry s.phys s.currentDirectory (dirIndex va)) := and_frame (load32_lt _ _)
  have hread := readWord_eq hslot
  have hwrite := writeWord_eq hword 0
  constructor
  · simp only [Memory.unmapPage, shiftRight_pdIndex, shiftRight_ptIndex, hread, Outcome.ok_bind,
      if_neg hpres, hframe, hwrite]
    rfl
  · simp only [Mmu.unmapPage, shiftRight_pdIndex, shiftRight_ptIndex, h.vm, h.readWord, hread,
      Outcome.ok_bind, if_neg hpres, hframe, h.fetch.writeWord, hwrite, Outcome.pure_eq]
    rfl

/-- **Unmapping a page** keeps the TLB true, and is then the call of the model without a TLB. -/
theorem Mmu.At.unmapPage (h : t.At s) (hr : Rooted s) (hva : va < 2 ^ 32)
    (hcall : t.unmapPage va = .ok t') :
    ∃ s', Memory.unmapPage s va = .ok s' ∧ t'.At s' ∧ Rooted s' := by
  have hi := dirIndex_lt hva
  have hj := tableIndex_lt va
  have hcall' := hcall
  simp only [Mmu.unmapPage, shiftRight_pdIndex, shiftRight_ptIndex, h.vm, h.readWord,
    Outcome.bind_eq_ok] at hcall'
  obtain ⟨_, ⟨pde, hread, hpde⟩, hrest⟩ := hcall'
  obtain rfl := Outcome.ok.inj hpde
  obtain ⟨hslot, rfl⟩ := hr.readWord (isTable_dir _ _) hi hread
  by_cases hp : Present (entry s.phys s.currentDirectory (dirIndex va))
  · have hpres : ¬(entry s.phys s.currentDirectory (dirIndex va) &&& pagePresent = 0) :=
      fun hzero => (and_pagePresent _).1 hzero hp
    simp only [if_neg hpres, h.fetch.writeWord, and_frame (entry_lt _ _ _), Outcome.bind_eq_ok]
      at hrest
    obtain ⟨-, ⟨s', hwrite, -⟩, -⟩ := hrest
    obtain ⟨hword, -⟩ := hr.writeWord (isTable_entry hi hp) hj hwrite
    obtain ⟨hplain, hunmap⟩ := h.unmapPage_present hp hslot hword
    obtain rfl := Outcome.ok.inj (hunmap.symm.trans hcall)
    have hset := hr.tree.walk_set_page hi hp (show 0 < 2 ^ 32 by decide)
    refine ⟨_, hplain, ?_, ?_⟩
    · -- Until the page is removed, its entry may be false.
      apply Mmu.at_invlpg rfl h.cr3
      apply h.fetch.fetch.agrees.off
      intro page hpage
      exact (hset page).trans (if_neg hpage)
    · exact hr.setEntry hi hp hj (by decide) fun _ _ _ habs => absurd habs (by decide)
  · have hzero : entry s.phys s.currentDirectory (dirIndex va) &&& pagePresent = 0 :=
      (and_pagePresent _).2 hp
    simp only [if_pos hzero, Outcome.pure_eq] at hrest
    obtain rfl := Outcome.ok.inj hrest
    refine ⟨s, ?_, h.fetch, hr⟩
    simp only [Memory.unmapPage, shiftRight_pdIndex, hread, Outcome.ok_bind, if_pos hzero,
      Outcome.pure_eq]

/-- **A page that was unmapped first** can be mapped again. -/
theorem Mmu.At.remap (h : t.At s) (hs : Paged s) (va pa flags : Nat) (hva : va < 2 ^ 32)
    (hpa : pa < 2 ^ 32) (hflags : flags < 2 ^ 32)
    (hp : Present (entry s.phys s.currentDirectory (dirIndex va)))
    (hnot : ¬IsTable s.phys s.currentDirectory (frame va)) :
    ∃ t₁ t₂, t.unmapPage va = .ok t₁ ∧ MapSafe t₁.vm va pa flags ∧
      t₁.mapPage va pa flags = .ok t₂ ∧ t₂.At t₂.vm ∧
      PageTable.walk t₂.vm.phys t₂.vm.currentDirectory (va / 4096) =
        if Present (frame pa ||| flags) then some (frame pa ||| flags) else none := by
  have hi := dirIndex_lt hva
  have hj := tableIndex_lt va
  have hr := hs.rooted
  have hv : frame pa ||| flags < 2 ^ 32 :=
    Nat.or_lt_two_pow ((Nat.div_mul_le_self pa 4096).trans_lt hpa) hflags
  have hdir := isTable_dir s.phys s.currentDirectory
  have htable := isTable_entry hi hp
  have hne : ∀ page, IsTable s.phys s.currentDirectory page →
      page / 4096 ≠ dirIndex va * 1024 + tableIndex va := by
    intro page hpage heq
    have hdvd := hr.table_dvd hpage
    rw [page_eq] at heq
    refine hnot ?_
    rwa [frame, ← heq, Nat.div_mul_cancel hdvd]
  obtain ⟨hplain, hunmap⟩ := h.unmapPage_present hp (hs.word hdir hi) (hs.word htable hj)
  obtain ⟨s₁, hplain', hat, hr₁⟩ := h.unmapPage hr hva hunmap
  obtain rfl := Outcome.ok.inj (hplain.symm.trans hplain')
  -- The entry is gone, and the tables are the same.
  have hentry : ∀ k < 1024, entry (s.setEntry (dirIndex va) (tableIndex va) 0).phys
      s.currentDirectory k = entry s.phys s.currentDirectory k :=
    fun k hk => hr.tree.entry_set hi hp hj 0 hk
  have hgone : PageTable.walk (s.setEntry (dirIndex va) (tableIndex va) 0).phys
      s.currentDirectory (va / 4096) = none :=
    (hr.tree.walk_set_page hi hp (by decide) _).trans (if_pos rfl)
  have hp₁ : Present (entry (s.setEntry (dirIndex va) (tableIndex va) 0).phys
      s.currentDirectory (dirIndex va)) := by
    rwa [hentry _ hi]
  have hsafe : MapSafe (s.setEntry (dirIndex va) (tableIndex va) 0) va pa flags := by
    refine ⟨?_, ?_, fun habs => absurd hp₁ habs⟩
    · intro pte hpte
      rw [Vm.setEntry_currentDirectory, hgone] at hpte
      cases hpte
    · intro hpage
      exact absurd ((isTable_congr hentry).1 hpage) hnot
  have hslot := hs.word_setEntry hi hp hj (show 0 < 2 ^ 32 by decide) hdir hi (hne _ hdir)
  have hword := hs.word_setEntry hi hp hj (show 0 < 2 ^ 32 by decide) htable hj (hne _ htable)
  rw [← hentry _ hi] at hword
  have hmap := hat.mapPage_present hpa hp₁ hslot hword flags
  obtain ⟨s₂, -, hat₂, -⟩ := hat.mapPage hr₁ hva hpa hflags hsafe hmap
  refine ⟨_, _, hunmap, hsafe, hmap, ?_, ?_⟩
  · rwa [hat₂.vm]
  · exact (hr₁.tree.walk_set_page hi hp₁ hv _).trans (if_pos rfl)

end Unmap

/-! ## Runs -/

/-- A call, or a lookup of the processor between two calls. -/
inductive VmmEvent where
  | map (virtualAddr physicalAddr flags : UInt32)
  | unmap (virtualAddr : UInt32)
  | switch (dir : UInt32)
  | lookup (page : Nat)
  deriving DecidableEq

def VmmEvent.run (t : Mmu) : VmmEvent → Outcome Mmu
  | .map va pa flags => t.mapPage va.toNat pa.toNat flags.toNat
  | .unmap va => t.unmapPage va.toNat
  | .switch dir => .ok (t.switchDirectory dir.toNat)
  | .lookup page => .ok { t with tlb := t.tlb.fills t.walk [page] }

/-- A page is mapped as `MapSafe` says, and a directory to switch to is set up: its tables are in
use, and it maps them to themselves or not at all. -/
def VmmEvent.Safe (s : Vm) : VmmEvent → Prop
  | .map va pa flags => MapSafe s va.toNat pa.toNat flags.toNat
  | .unmap _ => True
  | .switch dir => Rooted { s with currentDirectory := dir.toNat, cr3 := some dir.toNat }
  | .lookup _ => True

/-- One step of a run, by a safe event. -/
def SafeStep (t t' : Mmu) : Prop := ∃ e : VmmEvent, e.Safe t.vm ∧ e.run t = .ok t'

section Runs

variable {t t' : Mmu} {s s₀ : Vm} {e : VmmEvent} {bitmap : Nat → BitVec 32} {memSize : Nat}

/-- What every safe run keeps. -/
theorem Mmu.At.event (h : t.At s) (hr : Rooted s) (hsafe : e.Safe s) (hrun : e.run t = .ok t') :
    ∃ s', t'.At s' ∧ Rooted s' := by
  cases e with
  | map va pa flags =>
      obtain ⟨s', -, hat, hr'⟩ := h.mapPage hr va.toNat_lt pa.toNat_lt flags.toNat_lt hsafe hrun
      exact ⟨s', hat, hr'⟩
  | unmap va =>
      obtain ⟨s', -, hat, hr'⟩ := h.unmapPage hr va.toNat_lt hrun
      exact ⟨s', hat, hr'⟩
  | switch dir =>
      refine ⟨{ s with currentDirectory := dir.toNat, cr3 := some dir.toNat }, ?_, hsafe⟩
      rw [← Outcome.ok.inj hrun, Mmu.switchDirectory, h.vm]
      exact ⟨rfl, rfl, Tlb.agrees_empty _⟩
  | lookup page =>
      refine ⟨s, ?_, hr⟩
      rw [← Outcome.ok.inj hrun, Mmu.walk_eq h.vm h.cr3]
      exact ⟨h.vm, h.cr3, h.agrees.fills _⟩

/-- **The TLB is true** after every call of a run after `vmm_init` whose pages are mapped safely,
with lookups of the processor between the calls and before every access of a call. -/
theorem tlb_coherent (hmem : 0x203000 ≤ memSize) (hmem' : memSize < 2 ^ 32)
    (hpmm : s.pmm = Pmm.init bitmap memSize) (hcr3 : s.cr3 = none) (hinit : vmmInit s = .ok s₀)
    (hardware : Nat → List Nat)
    (hrun : Relation.ReflTransGen SafeStep ⟨s₀, Tlb.empty, hardware⟩ t) : t.Coherent := by
  obtain ⟨s', hcall, hspace, -, -⟩ := space_vmmInit hmem hmem' hpmm hcr3
  obtain rfl : s' = s₀ := Outcome.ok.inj (hcall.symm.trans hinit)
  have hinv : ∃ s, t.At s ∧ Rooted s := by
    induction hrun with
    | refl => exact ⟨s', ⟨rfl, hspace.cr3, Tlb.agrees_empty _⟩, hspace.toPaged.rooted⟩
    | tail _ hstep ih =>
        obtain ⟨s, hat, hr⟩ := ih
        obtain ⟨e, hsafe, hrun⟩ := hstep
        rw [hat.vm] at hsafe
        exact hat.event hr hsafe hrun
  obtain ⟨s, hat, -⟩ := hinv
  unfold Mmu.Coherent
  rw [hat.vm]
  exact hat.agrees

/-- A page of the first 8 MiB that the processor looked up. -/
theorem Paged.looked (h : Paged s) (page : Nat) (hpage : page * 4096 < lowLimit)
    (hardware : Nat → List Nat) :
    ∃ t pte, (VmmEvent.lookup page).run ⟨s, Tlb.empty, hardware⟩ = .ok t ∧ t.At s ∧
      t.hardware = hardware ∧ t.tlb page = some pte ∧ frame pte = page * 4096 := by
  have hself := h.low _ hpage
  have hdiv : page * 4096 / 4096 = page := Nat.mul_div_cancel page (by decide)
  rw [translate_eq_walk (hpage.trans (by decide)), hdiv, Option.bind_eq_some_iff] at hself
  obtain ⟨pte, hpte, hleaf⟩ := hself
  rw [leaf, if_pos (walk_eq_some.1 hpte).2.2.1, Option.some.injEq] at hleaf
  have hat : Mmu.At ⟨s, Tlb.empty, hardware⟩ s := ⟨rfl, h.cr3, Tlb.agrees_empty _⟩
  refine ⟨⟨s, Tlb.fills Tlb.empty (walk s.phys s.currentDirectory) [page], hardware⟩, pte, ?_,
    ⟨rfl, h.cr3, (Tlb.agrees_empty _).fills _⟩, rfl, ?_, by omega⟩
  · simp only [VmmEvent.run, Mmu.walk_eq hat.vm hat.cr3]
  · change Tlb.fill Tlb.empty (walk s.phys s.currentDirectory) page page = some pte
    rw [Tlb.fill_some hpte, Function.update_self]

/-- On a machine with 128 MiB the processor looks page 5 up, the page is unmapped and mapped to
another frame, and the processor looks it up again. -/
theorem tlb_coherent_remapped :
    ∃ s₀ t, vmmInit ⟨Pmm.init (fun _ => 0#32) 0x8000000, fun _ => 0, 0, none⟩ = .ok s₀ ∧
      Relation.ReflTransGen SafeStep ⟨s₀, Tlb.empty, fun _ => []⟩ t ∧
      t.tlb 5 = some 0x9003 ∧ t.Coherent := by
  obtain ⟨s₀, hinit, hspace, -, -⟩ := space_vmmInit
    (s := ⟨Pmm.init (fun _ => 0#32) 0x8000000, fun _ => 0, 0, none⟩) (by decide) (by decide) rfl rfl
  obtain ⟨t₁, pte, hlook, hat₁, -, hkept, -⟩ :=
    hspace.toPaged.looked 5 (by decide) fun _ => []
  obtain ⟨-, hp, -, -⟩ := walk_eq_some.1 (hat₁.agrees _ _ hkept)
  have hnot : ¬IsTable s₀.phys s₀.currentDirectory (frame 0x5000) :=
    fun hpage => absurd (hspace.toTables.ge hpage) (by decide)
  obtain ⟨t₂, t₃, hunmap, hsafe, hmap, hat₃, hwalk⟩ := hat₁.remap hspace.toPaged 0x5000 0x9000
    3 (by decide) (by decide) (by decide) hp hnot
  have hrun : Relation.ReflTransGen SafeStep ⟨s₀, Tlb.empty, fun _ => []⟩
      { t₃ with tlb := t₃.tlb.fills t₃.walk [5] } :=
    .tail (.tail (.tail (.single ⟨.lookup 5, trivial, hlook⟩) ⟨.unmap 0x5000, trivial, hunmap⟩)
      ⟨.map 0x5000 0x9000 3, hsafe, hmap⟩) ⟨.lookup 5, trivial, rfl⟩
  refine ⟨s₀, _, hinit, hrun, ?_, tlb_coherent (by decide) (by decide) rfl rfl hinit _ hrun⟩
  have hwalk' : t₃.walk 5 = some 0x9003 := by
    rw [Mmu.walk_eq rfl hat₃.cr3]
    exact hwalk
  change Tlb.fill t₃.tlb t₃.walk 5 5 = some 0x9003
  rw [Tlb.fill_some hwalk', Function.update_self]

/-- **A stale entry.** On a machine with 128 MiB the processor looks page 5 up, and the page is
mapped to another frame. The TLB goes on sending it to the old one. -/
theorem tlb_stale :
    ∃ s₀ t, vmmInit ⟨Pmm.init (fun _ => 0#32) 0x8000000, fun _ => 0, 0, none⟩ = .ok s₀ ∧
      [VmmEvent.lookup 5, .map 0x5000 0x9000 3].foldlM VmmEvent.run
        ⟨s₀, Tlb.empty, fun _ => []⟩ = .ok t ∧
      translate t.vm.phys t.vm.currentDirectory 0x5000 = some 0x9000 ∧
      t.resolve 0x5000 = some 0x5000 ∧ ¬t.Coherent := by
  obtain ⟨s₀, hinit, hspace, -, -⟩ := space_vmmInit
    (s := ⟨Pmm.init (fun _ => 0#32) 0x8000000, fun _ => 0, 0, none⟩) (by decide) (by decide) rfl rfl
  obtain ⟨t₁, pte, hlook, hat, -, hkept, hframe⟩ :=
    hspace.toPaged.looked 5 (by decide) fun _ => []
  obtain ⟨t, hmap, hkept', hwalk, hstale⟩ := hat.mapPage_stale hspace.toPaged 0x5000 0x9000
    3 (by decide) (by decide) hkept <| by
      rintro rfl
      exact absurd hframe (by decide)
  refine ⟨s₀, t, hinit, ?_, ?_, ?_, hstale⟩
  · have hmap' : VmmEvent.run t₁ (.map 0x5000 0x9000 3) = .ok t := hmap
    simp only [List.foldlM_cons, List.foldlM_nil, hlook, hmap', Outcome.ok_bind, Outcome.pure_eq]
  · rw [translate_eq_walk (by decide), hwalk]
    rfl
  · have hpres : Present pte := (walk_eq_some.1 (hat.agrees _ _ hkept)).2.2.1
    have hleaf : leaf pte 0x5000 = some (frame pte + 0x5000 % 4096) := if_pos hpres
    rw [hframe] at hleaf
    simp only [Mmu.resolve, hkept', hleaf]

end Runs

end Munux.Memory
