import Munux.Heap.Tiling
import Munux.Memory.Kmalloc

/-!
# Physical addresses of allocations

`kmalloc_physical` returns the physical address of the first byte. The pages of the heap get their
frames one by one, with a frame for a table in between now and then, so the bytes behind that
address are those of the allocation as far as its first page goes; after that it depends on which
frames the PMM had (`kmalloc_physical_range`). Right after boot the second page of the heap is not
behind the first (`physical_gap`).
-/

namespace Munux.Memory

open ByteMem PageTable

/-- `kmalloc_physical`. `phys` is what the caller's pointer points at, if it is not null. -/
def kmallocPhysical (b : Backing) (s : Heap.State) (size : Nat) (phys : Option Nat) :
    Outcome (Nat × Option Nat × Heap.State × Backing) := do
  let (virt, s, b) ← kmalloc b s size
  if virt ≠ 0 ∧ phys.isSome then
    let pa ← getPhysicalAddress b.vm virt
    return (virt, some pa, s, b)
  return (virt, phys, s, b)

/-- The frame that a page lies in. -/
def frameBehind (s : Vm) (page : Nat) : Nat :=
  (translate s.phys s.currentDirectory (page * 4096)).getD 0 / 4096

section Lookup

variable {m : ByteMem} {dir va pa g : Nat} {s : Vm} {b : Backing}

/-- An address lies as far into its frame as into its page. -/
theorem translate_offset (hva : va < 2 ^ 32) (h : translate m dir (va / 4096 * 4096) = some pa) :
    translate m dir va = some (pa + va % 4096) := by
  have hpage : va / 4096 * 4096 / 4096 = va / 4096 := Nat.mul_div_cancel _ (by decide)
  have hstart : va / 4096 * 4096 % 4096 = 0 := Nat.mul_mod_left ..
  rw [translate_eq_walk (by omega), hpage, Option.bind_eq_some_iff] at h
  obtain ⟨pte, hwalk, hleaf⟩ := h
  rw [translate_eq_walk hva, hwalk, Option.bind_some]
  unfold leaf at hleaf ⊢
  rw [hstart] at hleaf
  split_ifs at hleaf ⊢ with hp
  rw [Nat.add_zero, Option.some.injEq] at hleaf
  rw [hleaf]

/-- With paging on, `vmm_get_physical_address` reads the tables. -/
theorem Space.getPhysicalAddress (h : Space s) (hlo : heapStart ≤ va) (hva : va < 2 ^ 32) :
    getPhysicalAddress s va = .ok ((translate s.phys s.currentDirectory va).getD 0) := by
  have hi := dirIndex_lt hva
  have hi' : 2 ≤ dirIndex va := (show 2 ≤ 768 by decide).trans (dirIndex_of_heapStart_le hlo)
  have hdir := h.reaches hi' (low_page h.tree.aligned h.dir_lt)
  refine getPhysicalAddress_returns (hdir.read hi) ?_
  intro hp
  exact (h.reaches hi' (low_page (dvd_frame _) (h.table_lt _ hi hp))).read (tableIndex_lt va)

/-- Every byte of the heap is in the frame of its page. -/
theorem Ready.lookup (h : Ready b) (hlo : heapStart ≤ va) (hva : va < b.heapEnd) :
    getPhysicalAddress b.vm va = .ok (frameBehind b.vm (va / 4096) * 4096 + va % 4096) ∧
      Owns b.vm b.heapEnd (.page (va / 4096 * 4096)) (frameBehind b.vm (va / 4096)) := by
  have hva' : va < 2 ^ 32 := by
    have hhi := h.bounds.hi
    rw [h.bounds.max] at hhi
    exact (hva.trans_le hhi).trans (by decide)
  have hstart : heapStart ≤ va / 4096 * 4096 := by
    unfold heapStart at *
    omega
  obtain ⟨g, -, hown⟩ := h.backed.mapped (va / 4096 * 4096) hstart
    (lt_of_le_of_lt (Nat.div_mul_le_self va 4096) hva) (Dvd.intro_left _ rfl)
  have htrans : translate b.vm.phys b.vm.currentDirectory (va / 4096 * 4096) = some (g * 4096) :=
    hown.2
  have hframe : frameBehind b.vm (va / 4096) = g := by
    rw [frameBehind, htrans, Option.getD_some, Nat.mul_div_cancel g (by decide)]
  rw [h.space.getPhysicalAddress hlo hva', translate_offset hva' htrans, Option.getD_some, hframe]
  exact ⟨rfl, hown⟩

/-- Two pages of the heap are in different frames. -/
theorem Ready.frameBehind_inj {va' : Nat} (h : Ready b) (hlo : heapStart ≤ va)
    (hva : va < b.heapEnd) (hlo' : heapStart ≤ va') (hva' : va' < b.heapEnd)
    (heq : frameBehind b.vm (va / 4096) = frameBehind b.vm (va' / 4096)) :
    va / 4096 = va' / 4096 := by
  have hown := (h.lookup hlo hva).2
  have hown' := (h.lookup hlo' hva').2
  rw [← heq] at hown'
  have hsame := h.backed.apart _ _ _ hown hown'
  exact Nat.eq_of_mul_eq_mul_right (by decide) (Owner.page.inj hsame)

end Lookup

section Range

variable {κ : Kernel} {b : Backing} {s : Heap.State} {size c v : Nat} {phys : Option Nat}

/-- What an allocation gets lies in the heap. -/
theorem Sound.kmalloc_inside (h : Sound κ)
    (hafford : Affords heapStart κ.backing κ.heap.state size)
    (hcall : Memory.kmalloc κ.backing κ.heap.state size = .ok (v, s, b)) (hv : v ≠ 0) :
    Ready b ∧ heapStart ≤ v ∧ v + size ≤ b.heapEnd := by
  have hsound := h.kmalloc hafford hcall
  obtain ⟨bs, hrep, hperm⟩ := hsound.blocks
  rw [Heap.record, if_neg hv] at hperm
  obtain ⟨pre, blk, post, rfl, hown⟩ :=
    Heap.exists_block_of_mem_owners (hperm.symm.subset List.mem_cons_self)
  have hmem : blk ∈ pre ++ blk :: post := by simp
  obtain ⟨hroom, hptr⟩ := (hrep.holds blk hmem).fits _ hown
  obtain ⟨hlo, -, hhi⟩ := hrep.layout.mem hmem
  have hend : s.heap.heapEnd = b.heapEnd := hsound.matched.heapEnd
  simp only [hend] at hroom hptr hhi
  refine ⟨hsound.matched.ready, ?_, hroom.trans hhi⟩
  rw [hptr, Heap.Blk.payload]
  exact hlo.trans (Nat.le_add_right _ _)

theorem kmallocPhysical_eq_ok
    (hcall : kmallocPhysical κ.backing κ.heap.state size (some c) = .ok (v, phys, s, b))
    (hv : v ≠ 0) :
    kmalloc κ.backing κ.heap.state size = .ok (v, s, b) ∧
      ∃ pa, getPhysicalAddress b.vm v = .ok pa ∧ phys = some pa := by
  unfold kmallocPhysical at hcall
  simp only [Outcome.bind_eq_ok] at hcall
  obtain ⟨⟨virt, s', b'⟩, hk, hcall⟩ := hcall
  simp only [Option.isSome_some, and_true] at hcall
  split_ifs at hcall with hvirt
  · simp only [Outcome.bind_eq_ok, Outcome.pure_eq, Outcome.ok.injEq, Prod.mk.injEq] at hcall
    obtain ⟨pa, hpa, rfl, rfl, rfl, rfl⟩ := hcall
    exact ⟨hk, pa, hpa, rfl⟩
  · simp only [Outcome.pure_eq, Outcome.ok.injEq, Prod.mk.injEq] at hcall
    exact absurd (hcall.1 ▸ hvirt) (not_not.2 hv)

/-- **What `kmalloc_physical` returns**, in every run in which frames do not run out. Each byte of
the allocation is at its own place in the frame of its page, and no two pages share one. The bytes
follow the physical address through the first page, and through those later pages whose frames are
as far from the first frame as the pages are from the first page. -/
theorem kmalloc_physical_range (h : Reached (fun κ e => e.Enough heapStart κ) κ)
    (hafford : Affords heapStart κ.backing κ.heap.state size)
    (hcall : kmallocPhysical κ.backing κ.heap.state size (some c) = .ok (v, phys, s, b))
    (hv : v ≠ 0) :
    ∃ pa, phys = some pa ∧
      (∀ i < size, (v + i) / 4096 = v / 4096 → getPhysicalAddress b.vm (v + i) = .ok (pa + i)) ∧
      (∀ i < size, getPhysicalAddress b.vm (v + i) =
        .ok (frameBehind b.vm ((v + i) / 4096) * 4096 + (v + i) % 4096)) ∧
      (∀ i < size, ∀ j < size,
        frameBehind b.vm ((v + i) / 4096) = frameBehind b.vm ((v + j) / 4096) →
          (v + i) / 4096 = (v + j) / 4096) ∧
      ∀ i < size, getPhysicalAddress b.vm (v + i) = .ok (pa + i) ↔
        frameBehind b.vm ((v + i) / 4096) =
          frameBehind b.vm (v / 4096) + ((v + i) / 4096 - v / 4096) := by
  obtain ⟨hk, pa, hpa, rfl⟩ := kmallocPhysical_eq_ok hcall hv
  obtain ⟨hready, hlo, hhi⟩ := (sound_reached h).kmalloc_inside hafford hk hv
  have hlookup : ∀ i < size, getPhysicalAddress b.vm (v + i) =
      .ok (frameBehind b.vm ((v + i) / 4096) * 4096 + (v + i) % 4096) :=
    fun i hi => (hready.lookup (hlo.trans (Nat.le_add_right v i)) (by omega)).1
  have hmatch : ∀ i < size, getPhysicalAddress b.vm (v + i) = .ok (pa + i) ↔
      frameBehind b.vm ((v + i) / 4096) =
        frameBehind b.vm (v / 4096) + ((v + i) / 4096 - v / 4096) := by
    intro i hi
    have hfirst := (hready.lookup hlo (show v < b.heapEnd by omega)).1
    obtain rfl := Outcome.ok.inj (hpa.symm.trans hfirst)
    rw [hlookup i hi, Outcome.ok.injEq]
    omega
  refine ⟨pa, rfl, ?_, hlookup, ?_, hmatch⟩
  · intro i hi hpage
    rw [hmatch i hi, hpage, Nat.sub_self, Nat.add_zero]
  · intro i hi j hj heq
    exact hready.frameBehind_inj (hlo.trans (Nat.le_add_right v i)) (by omega)
      (hlo.trans (Nat.le_add_right v j)) (by omega) heq

end Range

/-! ## The first pages of the heap -/

section Gap

variable {s t t' : Vm} {i size : Nat}

/-- The first `i` pages of the heap. The page at the start has a frame, and the frame after it is in
use for something else; so the next page is further away. -/
structure FirstPages (t : Vm) (i : Nat) : Prop where
  first : 0 < i → ∃ f, translate t.phys t.currentDirectory heapStart = some (f * pageSize) ∧
    (∀ g ≤ f + 1, t.pmm.used g = true) ∧
    (1 < i → ∃ g, f + 1 < g ∧
      translate t.phys t.currentDirectory (heapStart + pageSize) = some (g * pageSize))

/-- The first page takes the lowest free frame, and its table the next. -/
theorem FirstPages.zero (h : Space t) (habs : tablePresent t (dirIndex heapStart) = false)
    (hpage : 0 < t.pmm.free (2 ^ 20)) (htable : 2 ≤ t.pmm.free (heapStart / 4096))
    (hcall : mapHeapPage t heapStart = .ok t') : FirstPages t' 1 := by
  obtain ⟨f, pmm, htook, -, hmap, htook'⟩ :=
    mapHeapPage_took h le_rfl (by decide) hpage (fun _ => htable) hcall
  refine ⟨fun _ => ⟨f, ?_, ?_, fun hlt => absurd hlt (by decide)⟩⟩
  · rw [hmap.dir, hmap.translate _ (by decide), if_pos rfl]
    exact leaf_heapPage f (by decide)
  · cases htook' with
    | none hp _ _ =>
        have hpres := (tablePresent_eq (s := t) (show heapStart < 2 ^ 32 by decide)).2 hp
        rw [habs] at hpres
        cases hpres
    | one g _ _ htookg _ =>
        -- Every frame below `g` was in use when `g` was taken, and so was `f`.
        have hfg : f < g := by
          by_contra hle
          have hused := htook.self
          have hclear := htookg.clear
          rcases Nat.lt_or_eq_of_le (Nat.le_of_not_lt hle) with hlt | heq
          · rw [htook.mono (htook.lowest g hlt)] at hclear
            cases hclear
          · rw [heq, hused] at hclear
            cases hclear
        intro g' hg'
        rcases Nat.lt_or_eq_of_le (show g' ≤ g by omega) with hlt | heq
        · exact htookg.mono (htookg.lowest g' hlt)
        · rw [heq]
          exact htookg.self

/-- Every further page leaves the first two where they are. -/
theorem FirstPages.step (hinv : FirstPages t i) (h : Space t) (hi : 0 < i) (hi' : i < 256)
    (hpage : 0 < t.pmm.free (2 ^ 20))
    (htable : tablePresent t (dirIndex (heapStart + i * pageSize)) = false →
      2 ≤ t.pmm.free (heapStart / 4096))
    (hcall : mapHeapPage t (heapStart + i * pageSize) = .ok t') : FirstPages t' (i + 1) := by
  have hva : heapStart + i * pageSize < 2 ^ 32 := by
    unfold heapStart pageSize
    omega
  obtain ⟨g, pmm, htook, -, hmap, htook'⟩ :=
    mapHeapPage_took h (Nat.le_add_right _ _) hva hpage htable hcall
  obtain ⟨f, hfirst, hused, hsecond⟩ := hinv.first hi
  have hkept : ∀ j < i, translate t'.phys t'.currentDirectory (heapStart + j * pageSize) =
      translate t.phys t.currentDirectory (heapStart + j * pageSize) := by
    intro j hj
    have hne : (heapStart + j * pageSize) / 4096 ≠ (heapStart + i * pageSize) / 4096 := by
      unfold heapStart pageSize
      omega
    rw [hmap.dir, hmap.translate _ (by unfold heapStart pageSize; omega), if_neg hne]
  have hstart := hkept 0 hi
  rw [Nat.zero_mul, Nat.add_zero] at hstart
  refine ⟨fun _ => ⟨f, hstart.trans hfirst, fun g' hg' => htook'.used (htook.mono (hused g' hg')),
    fun _ => ?_⟩⟩
  by_cases hone : i = 1
  · refine ⟨g, ?_, ?_⟩
    · by_contra hle
      have hclear := htook.clear
      rw [hused g (Nat.le_of_not_lt hle)] at hclear
      cases hclear
    · rw [hone, Nat.one_mul] at hmap
      rw [hmap.dir, hmap.translate _ (by decide), if_pos rfl]
      exact leaf_heapPage g (by decide)
  · obtain ⟨g', hg', hpage'⟩ := hsecond (by omega)
    have hnext := hkept 1 (by omega)
    rw [Nat.one_mul] at hnext
    exact ⟨g', hg', hnext.trans hpage'⟩

/-- **After boot** the second page of the heap is not in the frame behind the first. -/
theorem boot_firstPages (bitmap : Nat → BitVec 32) {memSize : Nat} (hmem : 0x2000000 ≤ memSize)
    (hmem' : memSize < 2 ^ 32) (phys mem : ByteMem) {b : Backing} {st : Heap.State}
    (hboot : boot bitmap memSize phys mem = .ok (b, st)) : FirstPages b.vm 256 := by
  obtain ⟨s, hvmm, hspace, -, habs, hlow⟩ := vmmInit_boot bitmap hmem hmem' phys
  have hsuff : Suffices s lowLimit heapStart 256 := .of_le hlow (by decide)
  simp only [boot, hvmm, Outcome.ok_bind, heapInit, Outcome.bind_eq_ok] at hboot
  obtain ⟨vm, hmap, state, -, hb⟩ := hboot
  obtain ⟨rfl, -⟩ := Prod.mk.inj (Outcome.ok.inj hb)
  have hend : heapStart + heapInitialSize = heapStart + 256 * pageSize := rfl
  rw [hend, mapHeapRange_pages] at hmap
  refine (Outcome.foldlM_range_invariant
    (I := fun i t => Growing s lowLimit heapStart 256 i t ∧ FirstPages t i) hmap
    ⟨growing_zero hspace hspace.backed hsuff, ⟨fun h => absurd h (by decide)⟩⟩ ?_).2
  intro i t t' hi hinv hstep
  obtain ⟨hgrow, hfirst⟩ := hinv
  refine ⟨hgrow.step hi (by decide) le_rfl (by decide) (by decide) hstep, ?_⟩
  have hsuff' := hgrow.enough
  rw [show 256 - i = 256 - (i + 1) + 1 by omega] at hsuff'
  have htable := (hsuff'.mono (show lowLimit ≤ heapStart by decide)).tables.table
  by_cases hzero : i = 0
  · subst hzero
    have habs' : tablePresent t (dirIndex heapStart) = false := by
      rw [hgrow.tables _ fun j hj => absurd hj (Nat.not_lt_zero j)]
      exact decide_eq_false fun hand => habs _ hand.1 (by decide) hand.2
    rw [Nat.zero_mul, Nat.add_zero] at hstep htable
    exact .zero hgrow.space habs' hsuff'.page (htable habs') hstep
  · exact hfirst.step hgrow.space (Nat.pos_of_ne_zero hzero) hi hsuff'.page htable hstep

/-- The kernel after boot on a machine with 32 MiB. -/
theorem booted_kernelHeap : ∃ b, Booted ⟨b, ⟨Heap.kernelHeap, []⟩, ∅⟩ ∧ Ready b ∧
    b.heapEnd = heapStart + heapInitialSize ∧ FirstPages b.vm 256 := by
  obtain ⟨b, st, hboot, hnew, hready, hend, -⟩ :=
    boot_returns (fun _ => 0#32) (show 0x2000000 ≤ 0x2000000 by decide) (by decide) (fun _ => 0)
      fun _ => 0
  have hnew' : Heap.new (fun _ => 0) heapStart heapInitialSize heapMaxSize =
      .ok Heap.kernelHeap := rfl
  obtain rfl := Outcome.ok.inj (hnew.symm.trans hnew')
  exact ⟨b, ⟨_, _, _, _, _, _, le_rfl, by decide, hboot, rfl⟩, hready, hend,
    boot_firstPages _ le_rfl (by decide) _ _ hboot⟩

/-- Two pages from a new heap start with its first page. -/
theorem kmalloc_kernelHeap (b : Backing) : ∃ s, kmalloc b Heap.kernelHeap 8192 =
    .ok (0xC000000C, s, b) := by
  have halign : Heap.alignUp 8192 Heap.defaultAlign = .ok 8192 := by decide
  have hfollow : follow (fun c => Heap.fits Heap.kernelHeap.mem 8192 c ||
      Heap.nextOf Heap.kernelHeap.mem c == 0) (Heap.nextOf Heap.kernelHeap.mem)
      Heap.kernelHeap.heap.head = .ok 0xC0000000 := by decide +kernel
  have hfits : Heap.fits Heap.kernelHeap.mem 8192 0xC0000000 = true := by decide +kernel
  have hsplit : (Heap.splitIfWorthwhile Heap.kernelHeap.mem 0xC0000000 8192 >>= fun _ =>
      .ok ()) = .ok () := by decide +kernel
  obtain ⟨m, hm, -⟩ := Outcome.bind_eq_ok.1 hsplit
  simp only [kmalloc, Heap.allocate, halign, Outcome.ok_bind, hfollow, hfits, hm]
  exact ⟨_, rfl⟩

/-- The call of `kmalloc_physical` right after boot. -/
theorem kmallocPhysical_kernelHeap {b : Backing} (hready : Ready b)
    (hend : b.heapEnd = heapStart + heapInitialSize) :
    ∃ s, kmallocPhysical b Heap.kernelHeap 8192 (some 0) =
      .ok (0xC000000C, some (frameBehind b.vm 0xC0000 * 4096 + 12), s, b) := by
  obtain ⟨s, hk⟩ := kmalloc_kernelHeap b
  have hin : 0xC000000C < b.heapEnd := by
    rw [hend]
    decide
  obtain ⟨hlookup, -⟩ := hready.lookup (by decide) hin
  exact ⟨s, by simp [kmallocPhysical, hk, hlookup]⟩

/-- **A gap.** Right after boot, 8192 bytes are given out at `0xC000000C`; the byte that starts the
next page is not where its distance from the physical address says. -/
theorem physical_gap :
    ∃ κ s pa, Reached (fun κ e => e.Enough heapStart κ) κ ∧
      kmallocPhysical κ.backing κ.heap.state 8192 (some 0) =
        .ok (0xC000000C, some pa, s, κ.backing) ∧
      getPhysicalAddress κ.backing.vm (0xC000000C + 0xFF4) ≠ .ok (pa + 0xFF4) := by
  obtain ⟨b, hbooted, hready, hend, hfirst⟩ := booted_kernelHeap
  obtain ⟨s, hcall⟩ := kmallocPhysical_kernelHeap hready hend
  refine ⟨_, s, _, hbooted.reached, hcall, ?_⟩
  obtain ⟨f, hf, -, hsecond⟩ := hfirst.first (by decide)
  obtain ⟨g, hfg, hg⟩ := hsecond (by decide)
  have hin : 0xC0001000 < b.heapEnd := by
    rw [hend]
    decide
  obtain ⟨hlookup, -⟩ := hready.lookup (by decide) hin
  have hpage : frameBehind b.vm 0xC0000 = f := by
    have hf' : translate b.vm.phys b.vm.currentDirectory (0xC0000 * 4096) = some (f * 4096) := hf
    rw [frameBehind, hf', Option.getD_some, Nat.mul_div_cancel f (by decide)]
  have hpage' : frameBehind b.vm 0xC0001 = g := by
    have hg' : translate b.vm.phys b.vm.currentDirectory (0xC0001 * 4096) = some (g * 4096) := hg
    rw [frameBehind, hg', Option.getD_some, Nat.mul_div_cancel g (by decide)]
  have hdiv : 0xC0001000 / 4096 = 0xC0001 := rfl
  rw [hdiv, hpage'] at hlookup
  intro heq
  rw [hpage] at heq
  have hsame := Outcome.ok.inj (hlookup.symm.trans heq)
  omega

/-- The first page of those two, though, is where the physical address says. -/
theorem kmalloc_physical_range_kernelHeap :
    ∃ κ s pa, Reached (fun κ e => e.Enough heapStart κ) κ ∧
      kmallocPhysical κ.backing κ.heap.state 8192 (some 0) =
        .ok (0xC000000C, some pa, s, κ.backing) ∧
      ∀ i < 0xFF4, getPhysicalAddress κ.backing.vm (0xC000000C + i) = .ok (pa + i) := by
  obtain ⟨b, hbooted, hready, hend, -⟩ := booted_kernelHeap
  obtain ⟨s, hcall⟩ := kmallocPhysical_kernelHeap hready hend
  have hafford : Affords heapStart b Heap.kernelHeap 8192 := by
    intro n hwants
    have hfit := hwants.full 0xC0000000 ⟨[], rfl, by simp⟩
    rw [show Heap.fits Heap.kernelHeap.mem (Heap.wordsFor 8192) 0xC0000000 = true by
      decide +kernel] at hfit
    cases hfit
  obtain ⟨pa, hpa, hfirst, -⟩ :=
    kmalloc_physical_range hbooted.reached hafford hcall (by decide)
  obtain rfl := Option.some.inj hpa
  refine ⟨_, s, _, hbooted.reached, hcall, ?_⟩
  intro i hi
  exact hfirst i (by omega) (by omega)

end Gap

end Munux.Memory
