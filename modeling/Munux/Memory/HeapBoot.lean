import Munux.Memory.KernelHeap

/-!
# The heap from boot on

What `heap_init` and `munux_c_heap_grow` do on a machine with enough memory, and where they stop.
The first growths find frames for their tables in the first 8 MiB. Every page takes the lowest free
frame, though, so after about 6 MiB of heap there is none left there; the next table lies above
8 MiB, where nothing is mapped, and clearing it faults (`heapGrow_fault`).

* `heapInit_returns`, `heapGrow_returns`: with frames for the pages and low ones for the tables.
* `heapGrow_fault`: without a low frame for the first table.
* `low_frames_exhausted`: a machine with 64 MiB gets there with 8 MiB of heap.
-/

namespace Munux.Memory

open ByteMem PageTable

section Counting

variable {s : Vm} {limit hi low n va : Nat} {present : Nat → Bool}

theorem page_succ (va j : Nat) : va + pageSize + j * pageSize = va + (j + 1) * pageSize := by
  rw [Nat.succ_mul, Nat.add_assoc, Nat.add_comm pageSize]

theorem missing_le (present : Nat → Bool) (va n : Nat) : missing present va n ≤ n := by
  induction n generalizing present va with
  | zero => exact le_rfl
  | succ n ih =>
      have hrest := ih (Function.update present (dirIndex va) true) (va + pageSize)
      unfold missing
      split_ifs <;> omega

/-- Pages whose tables are all there. -/
theorem missing_eq_zero (h : ∀ j < n, present (dirIndex (va + j * pageSize)) = true) :
    missing present va n = 0 := by
  induction n generalizing present va with
  | zero => rfl
  | succ n ih =>
      have hfirst := h 0 (Nat.succ_pos n)
      rw [Nat.zero_mul, Nat.add_zero] at hfirst
      rw [missing, if_pos hfirst, Nat.zero_add, ← hfirst, Function.update_eq_self]
      apply ih
      intro j hj
      rw [page_succ]
      exact h (j + 1) (Nat.succ_lt_succ hj)

/-- Pages that lack one table at most. -/
theorem missing_le_one {k : Nat}
    (h : ∀ j < n, present (dirIndex (va + j * pageSize)) = true ∨
      dirIndex (va + j * pageSize) = k) :
    missing present va n ≤ 1 := by
  induction n generalizing present va with
  | zero => exact Nat.zero_le 1
  | succ n ih =>
      have hfirst := h 0 (Nat.succ_pos n)
      rw [Nat.zero_mul, Nat.add_zero] at hfirst
      have hrest : ∀ j < n, present (dirIndex (va + pageSize + j * pageSize)) = true ∨
          dirIndex (va + pageSize + j * pageSize) = k := by
        intro j hj
        rw [page_succ]
        exact h (j + 1) (Nat.succ_lt_succ hj)
      unfold missing
      by_cases hp : present (dirIndex va) = true
      · rw [if_pos hp, Nat.zero_add, ← hp, Function.update_eq_self]
        exact ih hrest
      · rw [if_neg hp, missing_eq_zero]
        intro j hj
        rw [hfirst.resolve_left hp]
        by_cases hk : dirIndex (va + pageSize + j * pageSize) = k
        · rw [hk, Function.update_self]
        · rw [Function.update_of_ne hk]
          exact (hrest j hj).resolve_right hk

/-- Frames for the pages and their tables, all of them low, are enough. -/
theorem TablesFit.of_missing (h : n + missing present va n ≤ low) : TablesFit low present va n := by
  induction n generalizing present va low with
  | zero => trivial
  | succ n ih =>
      unfold missing at h
      unfold TablesFit
      by_cases hp : present (dirIndex va) = true
      · rw [if_pos hp] at h ⊢
        rw [← hp, Function.update_eq_self] at h
        exact ih (by omega)
      · rw [if_neg hp] at h ⊢
        exact ⟨by omega, ih (by omega)⟩

/-- Pages that lack no table need no low frame. -/
theorem TablesFit.of_missing_zero (h : missing present va n = 0) : TablesFit low present va n := by
  induction n generalizing present va low with
  | zero => trivial
  | succ n ih =>
      unfold missing at h
      unfold TablesFit
      by_cases hp : present (dirIndex va) = true
      · rw [if_pos hp] at h ⊢
        rw [← hp, Function.update_eq_self, Nat.zero_add] at h
        exact ih h
      · rw [if_neg hp] at h
        omega

theorem Suffices.of_le (h : 2 * n ≤ s.pmm.free (limit / 4096)) (hlimit : limit / 4096 ≤ 2 ^ 20) :
    Suffices s limit hi n := by
  have hmiss := missing_le (tablePresent s) hi n
  have hmono := s.pmm.free_mono hlimit
  exact ⟨by omega, .of_missing (by omega)⟩

end Counting

/-! ## Boot and growth -/

section Boot

variable {s s' : Vm} {b : Backing} {limit n : Nat} {mem : ByteMem}

/-- Before there is a heap only the directory and the tables have frames. -/
theorem Tables.backed (h : Tables s) : Backed s heapStart where
  mapped va hlo hhi _ := by omega
  used o g ho := by
    cases o with
    | dir =>
        have hused := h.dir_used
        rwa [show s.currentDirectory = g * pageSize from ho, mul_pageSize_div] at hused
    | table k =>
        have hused := h.table_used k ho.1 ho.2.1
        rwa [ho.2.2, mul_pageSize_div] at hused
    | page va => exact absurd ho.1.2.1 (Nat.not_lt.2 ho.1.1)
  apart o o' g ho ho' := by
    have hpage : ∀ va, ¬Owns s heapStart (.page va) g := fun va hva =>
      absurd hva.1.2.1 (Nat.not_lt.2 hva.1.1)
    cases o with
    | page va => exact absurd ho (hpage va)
    | dir =>
        cases o' with
        | page va => exact absurd ho' (hpage va)
        | dir => rfl
        | table k => exact absurd (ho'.2.2.trans (Eq.symm ho)) (h.tree.table_ne k ho'.1 ho'.2.1)
    | table k =>
        cases o' with
        | page va => exact absurd ho' (hpage va)
        | dir => exact absurd (ho.2.2.trans (Eq.symm ho')) (h.tree.table_ne k ho.1 ho.2.1)
        | table k' =>
            exact congrArg Owner.table (h.tree.table_inj k ho.1 k' ho'.1 ho.2.1 ho'.2.1
              (ho.2.2.trans ho'.2.2.symm))

/-- At most 1536 of the frames in the first 8 MiB are free. -/
theorem Tables.free_low_le (h : Tables s) : s.pmm.free 2048 ≤ 1536 := by
  have hsub : s.pmm.freeFrames 2048 ⊆ Finset.Ico 512 2048 := by
    intro f hf
    obtain ⟨-, hlt, hclear⟩ := Pmm.mem_freeFrames.1 hf
    refine Finset.mem_Ico.2 ⟨?_, hlt⟩
    by_contra hres
    rw [h.reserved f (Nat.lt_of_not_le hres)] at hclear
    cases hclear
  have hcard := Finset.card_le_card hsub
  rwa [Nat.card_Ico] at hcard

/-- The memory managers and the heap's pages are in order. -/
structure Ready (b : Backing) : Prop where
  space : Space b.vm
  backed : Backed b.vm b.heapEnd
  bounds : Bounds b

/-- **`munux_c_heap_grow`** with frames for the pages, and for the tables below `HEAP_START`: it
faults, or every page of the longer heap is backed. -/
theorem Ready.grown {r : Nat} {b' : Backing} (h : Ready b) (hroom : b.heapEnd + n ≤ b.heapMaxAddr)
    (hsuff : Suffices b.vm heapStart b.heapEnd (pagesFor n)) (hcall : heapGrow n b = .ok (r, b')) :
    r = b.heapEnd + pagesFor n * pageSize ∧ b'.heapEnd = r ∧ b'.heapMaxAddr = b.heapMaxAddr ∧
      Ready b' ∧ Growing b.vm heapStart b.heapEnd (pagesFor n) (pagesFor n) b'.vm := by
  obtain ⟨-, hhi, haligned⟩ := h.bounds.grown hroom
  have hmax := h.bounds.max
  rw [h.bounds.heapGrow hroom, Outcome.bind_eq_ok] at hcall
  obtain ⟨vm, hmap, heq⟩ := hcall
  simp only [Outcome.ok.injEq, Prod.mk.injEq] at heq
  obtain ⟨rfl, rfl⟩ := heq
  have hgrow := mapHeapRange_spec h.space h.backed h.bounds.aligned h.bounds.lo (hmax ▸ hhi) hsuff
    hmap
  exact ⟨rfl, rfl, rfl, ⟨hgrow.space, hgrow.backed, h.bounds.lo.trans (Nat.le_add_right _ _),
    haligned, hhi, hmax⟩, hgrow⟩

/-- With low frames for the tables it returns. -/
theorem Ready.heapGrow_returns (h : Ready b) (hroom : b.heapEnd + n ≤ b.heapMaxAddr)
    (hsuff : Suffices b.vm lowLimit b.heapEnd (pagesFor n)) :
    ∃ b', heapGrow n b = .ok (b.heapEnd + pagesFor n * pageSize, b') ∧
      b'.heapEnd = b.heapEnd + pagesFor n * pageSize ∧ Ready b' ∧
      Growing b.vm heapStart b.heapEnd (pagesFor n) (pagesFor n) b'.vm := by
  obtain ⟨-, hhi, -⟩ := h.bounds.grown hroom
  obtain ⟨vm, hmap, -⟩ := mapHeapRange_returns h.space h.backed h.bounds.aligned h.bounds.lo
    (h.bounds.max ▸ hhi) hsuff
  have hcall := h.bounds.heapGrow hroom
  rw [hmap, Outcome.ok_bind] at hcall
  obtain ⟨-, hend, -, hready, hgrow⟩ := h.grown hroom (hsuff.mono (by decide)) hcall
  exact ⟨_, hcall, hend, hready, hgrow⟩

/-- **`heap_init`** returns when there are low frames to spare. -/
theorem Space.heapInit_returns (h : Space s) (hlow : 512 ≤ s.pmm.free 2048) (mem : ByteMem) :
    ∃ b st, heapInit s mem = .ok (b, st) ∧
      Heap.new mem heapStart heapInitialSize heapMaxSize = .ok st ∧ Ready b ∧
      b.heapEnd = heapStart + heapInitialSize ∧
      Growing s lowLimit heapStart 256 256 b.vm := by
  have hsuff : Suffices s lowLimit heapStart 256 := .of_le hlow (by decide)
  obtain ⟨vm, hmap, hgrow⟩ := mapHeapRange_returns h h.backed (by decide) le_rfl (by decide) hsuff
  have hend : heapStart + 256 * pageSize = heapStart + heapInitialSize := rfl
  rw [hend] at hmap
  refine ⟨⟨vm, heapStart + heapInitialSize, heapStart + heapMaxSize⟩, _, ?_, rfl,
    ⟨hgrow.space, hgrow.backed, Nat.le_add_right heapStart heapInitialSize,
      (show pageSize ∣ heapStart + heapInitialSize by decide),
      (show heapStart + heapInitialSize ≤ heapStart + heapMaxSize by decide), rfl⟩, rfl, hgrow⟩
  simp only [heapInit, hmap, Outcome.ok_bind]
  rfl

/-- `pmm_init`, `vmm_init` and `heap_init`, over whatever memory and the bitmap held before. -/
def boot (bitmap : Nat → BitVec 32) (memSize : Nat) (phys mem : ByteMem) :
    Outcome (Backing × Heap.State) := do
  let vm ← vmmInit ⟨Pmm.init bitmap memSize, phys, 0, none⟩
  heapInit vm mem

/-- On a machine with 32 MiB, `vmm_init` leaves at least a quarter of the low frames. -/
theorem vmmInit_boot (bitmap : Nat → BitVec 32) {memSize : Nat} (hmem : 0x2000000 ≤ memSize)
    (hmem' : memSize < 2 ^ 32) (phys : ByteMem) :
    ∃ s, vmmInit ⟨Pmm.init bitmap memSize, phys, 0, none⟩ = .ok s ∧ Space s ∧
      (∀ limit, (Pmm.init bitmap memSize).free limit ≤ s.pmm.free limit + 3) ∧
      (∀ k < 1024, 2 ≤ k → ¬Present (entry s.phys s.currentDirectory k)) ∧
      512 ≤ s.pmm.free 2048 := by
  obtain ⟨s, hvmm, hspace, hleft, habs⟩ :=
    space_vmmInit (s := ⟨Pmm.init bitmap memSize, phys, 0, none⟩) (by omega) hmem' rfl rfl
  have hinit := free_init bitmap (show 2048 * 4096 ≤ memSize by omega)
  have hlow := hleft 2048
  exact ⟨s, hvmm, hspace, hleft, habs, by omega⟩

/-- **The kernel boots**, with all but a few hundred of the free frames left. -/
theorem boot_returns (bitmap : Nat → BitVec 32) {memSize : Nat} (hmem : 0x2000000 ≤ memSize)
    (hmem' : memSize < 2 ^ 32) (phys mem : ByteMem) :
    ∃ b st, boot bitmap memSize phys mem = .ok (b, st) ∧
      Heap.new mem heapStart heapInitialSize heapMaxSize = .ok st ∧ Ready b ∧
      b.heapEnd = heapStart + heapInitialSize ∧
      (∀ limit, (Pmm.init bitmap memSize).free limit ≤ b.vm.pmm.free limit + 515) ∧
      (∀ k, 769 ≤ k → tablePresent b.vm k = false) ∧ b.vm.pmm.free 2048 ≤ 1280 := by
  obtain ⟨s, hvmm, hspace, hleft, habs, hlow⟩ := vmmInit_boot bitmap hmem hmem' phys
  obtain ⟨b, st, hheap, hnew, hready, hend, hgrow⟩ := hspace.heapInit_returns hlow mem
  refine ⟨b, st, ?_, hnew, hready, hend, ?_, ?_, ?_⟩
  · simp only [boot, hvmm, Outcome.ok_bind, hheap]
  · intro limit
    have := hleft limit
    have := hgrow.free limit
    omega
  · intro k hk
    rw [hgrow.tables k fun j hj => ?_]
    · exact decide_eq_false fun hand => habs k hand.1 (by omega) hand.2
    · have hidx : dirIndex (heapStart + j * pageSize) = 768 + j / 1024 := by
        unfold dirIndex heapStart pageSize
        omega
      omega
  · have hspent := hgrow.spent 2048
    have hmost := hspace.toTables.free_low_le
    omega

end Boot

/-! ## No low frame left -/

section Fault

variable {s s' : Vm} {b b' : Backing} {va n r : Nat} {bitmap : Nat → BitVec 32}

/-- The table of a page faults when its frame lies outside the first 8 MiB. -/
theorem Space.mapHeapPage_fault (h : Space s) (hlo : heapStart ≤ va) (hva : va < 2 ^ 32)
    (habs : tablePresent s (dirIndex va) = false) (hlow : s.pmm.free 2048 ≤ 1)
    (hfree : 2 ≤ s.pmm.free (heapStart / 4096)) : mapHeapPage s va = .panic := by
  have hpos : 0 < s.pmm.free (heapStart / 4096) := by omega
  obtain ⟨f, pmm, halloc, -, htook⟩ := Pmm.allocFrame_of_free hpos
  have hspace := h.took htook
  have hnone : pmm.free 2048 = 0 := by
    have hspent := htook.spent 2048
    omega
  have hmore : 0 < pmm.free (heapStart / 4096) := by
    have hleft := htook.free (heapStart / 4096)
    split_ifs at hleft <;> omega
  obtain ⟨t, pmm', halloc', ht, htook'⟩ := Pmm.allocFrame_of_free hmore
  have habs' : ¬Present (entry s.phys s.currentDirectory (dirIndex va)) := fun hp => by
    rw [(tablePresent_eq hva).2 hp] at habs
    cases habs
  -- The frame of the table is not one of the low ones.
  have hge : 2048 ≤ t := by
    by_contra hlt
    have hmem : t ∈ pmm.freeFrames 2048 :=
      Pmm.mem_freeFrames.2 ⟨htook'.inside, Nat.lt_of_not_le hlt, htook'.clear⟩
    rw [Finset.card_eq_zero.1 hnone] at hmem
    exact absurd hmem (Finset.notMem_empty t)
  have hi := dirIndex_of_heapStart_le hlo
  simp only [mapHeapPage, halloc]
  refine mapPage_fault (hspace.reaches (by omega) (low_page h.tree.aligned h.dir_lt)) hva habs'
    halloc' ?_
  intro m hm
  rw [h.cr3]
  refine hspace.gap_none hi hm ?_ ?_
  · unfold lowLimit pageSize
    omega
  · unfold heapStart pageSize at *
    omega

/-- A growth whose first page needs such a table does not return. -/
theorem Ready.heapGrow_fault (h : Ready b) (hroom : b.heapEnd + n ≤ b.heapMaxAddr) (hn : 0 < n)
    (habs : tablePresent b.vm (dirIndex b.heapEnd) = false) (hlow : b.vm.pmm.free 2048 ≤ 1)
    (hfree : 2 ≤ b.vm.pmm.free (heapStart / 4096)) : heapGrow n b = .panic := by
  have hva : b.heapEnd < 2 ^ 32 := by
    have hhi := h.bounds.hi
    rw [h.bounds.max] at hhi
    exact lt_of_le_of_lt hhi (by decide)
  have hpages : 0 < pagesFor n := by
    unfold pagesFor
    omega
  have hmap : mapHeapRange b.vm b.heapEnd (b.heapEnd + pagesFor n * pageSize) = .panic := by
    rw [mapHeapRange_pages]
    refine Outcome.foldlM_range_panic hpages ?_
    rw [Nat.zero_mul, Nat.add_zero]
    exact h.space.mapHeapPage_fault h.bounds.lo hva habs hlow hfree
  rw [h.bounds.heapGrow hroom, hmap, Outcome.panic_bind]

end Fault

/-! ## Eight mebibytes -/

section EightMiB

variable {s : Vm} {b b₁ : Backing} {n va hi : Nat}

/-- A page of the heap has a table. -/
theorem Backed.tablePresent (h : Backed s hi) (hhi : hi ≤ 2 ^ 32) (hlo : heapStart ≤ va)
    (hva : va < hi) (hdvd : pageSize ∣ va) : Memory.tablePresent s (dirIndex va) = true := by
  obtain ⟨g, -, -, htrans⟩ := h.mapped va hlo hva hdvd
  refine (tablePresent_eq (hva.trans_le hhi)).2 ?_
  by_contra habs
  rw [PageTable.translate] at htrans
  simp only [if_neg habs] at htrans
  cases htrans

theorem Ready.tablePresent (h : Ready b) (hlo : heapStart ≤ va) (hva : va < b.heapEnd)
    (hdvd : pageSize ∣ va) : Memory.tablePresent b.vm (dirIndex va) = true := by
  have hhi := h.bounds.hi
  rw [h.bounds.max] at hhi
  exact h.backed.tablePresent (hhi.trans (by decide)) hlo hva hdvd

theorem dirIndex_page (p j : Nat) :
    dirIndex (heapStart + p * pageSize + j * pageSize) = 768 + (p + j) / 1024 := by
  unfold dirIndex heapStart pageSize
  omega

/-- The table of a page that the heap has is there for the pages that share it. -/
theorem Ready.present_of_page {p j : Nat} (h : Ready b)
    (hend : b.heapEnd = heapStart + p * pageSize)
    (hp : (p + j) / 1024 * 1024 < p) :
    Memory.tablePresent b.vm (dirIndex (b.heapEnd + j * pageSize)) = true := by
  have hidx := dirIndex_page ((p + j) / 1024 * 1024) 0
  have hlt : heapStart + (p + j) / 1024 * 1024 * pageSize < b.heapEnd := by
    unfold pageSize at *
    omega
  have hva := h.tablePresent (Nat.le_add_right _ _) hlt
    ((Nat.dvd_add_right (by decide)).2 (Nat.dvd_mul_left _ _))
  rw [Nat.zero_mul, Nat.add_zero, Nat.add_zero, Nat.mul_div_cancel _ (by decide)] at hidx
  rwa [hend, dirIndex_page, ← hidx]

/-- The state of the heap when there is no frame left for its next table. Everything else has
frames, and the heap is far from its maximum. -/
structure Stuck (b : Backing) : Prop where
  ready : Ready b
  heapEnd : b.heapEnd = 0xC0800000
  absent : Memory.tablePresent b.vm 770 = false
  low : b.vm.pmm.free 2048 = 0
  free : 10000 ≤ b.vm.pmm.free (heapStart / 4096)

theorem Stuck.heapGrow (h : Stuck b) (hn : 0 < n) (hroom : b.heapEnd + n ≤ b.heapMaxAddr) :
    heapGrow n b = .panic := by
  have hlow := h.low
  have hfree := h.free
  refine h.ready.heapGrow_fault hroom hn ?_ (by omega) (by omega)
  rw [h.heapEnd]
  exact h.absent

/-- **Two growths use the low frames up** on a machine with 64 MiB. -/
theorem low_frames_exhausted (bitmap : Nat → BitVec 32) (phys mem : ByteMem) :
    ∃ b st b₁ b₂, boot bitmap 0x4000000 phys mem = .ok (b, st) ∧
      Heap.new mem heapStart heapInitialSize heapMaxSize = .ok st ∧ Ready b ∧
      b.heapEnd = heapStart + heapInitialSize ∧
      heapGrow 0x301000 b = .ok (0xC0401000, b₁) ∧ Ready b₁ ∧ b₁.heapEnd = 0xC0401000 ∧
      heapGrow 0x3FF000 b₁ = .ok (0xC0800000, b₂) ∧ Stuck b₂ := by
  obtain ⟨b, st, hboot, hnew, hready, hend, hleft, habs, hmost⟩ :=
    boot_returns bitmap (show 0x2000000 ≤ 0x4000000 by decide) (by decide) phys mem
  have hlow := hleft 2048
  have hinit := free_init bitmap (show 2048 * 4096 ≤ 0x4000000 by decide)
  have hhigh := hleft 16384
  have hinit' := free_init bitmap (show 16384 * 4096 ≤ 0x4000000 by decide)
  have hmono := b.vm.pmm.free_mono (show 16384 ≤ 2 ^ 20 by decide)
  have hmax := hready.bounds.max
  -- The first growth lacks one table, and finds a low frame for it.
  have hend' : b.heapEnd = heapStart + 256 * pageSize := hend
  have hmiss : missing (tablePresent b.vm) b.heapEnd 769 ≤ 1 := by
    apply missing_le_one (k := 769)
    intro j hj
    by_cases hlast : j < 768
    · exact .inl (hready.present_of_page hend' (by omega))
    · right
      rw [hend', dirIndex_page]
      omega
  obtain ⟨b₁, hcall₁, hend₁, hready₁, hgrow₁⟩ := hready.heapGrow_returns (n := 0x301000)
    (by rw [hend, hmax]; decide)
    ⟨show 769 + missing (tablePresent b.vm) b.heapEnd 769 ≤ b.vm.pmm.free (2 ^ 20) by omega,
      .of_missing (show 769 + missing (tablePresent b.vm) b.heapEnd 769 ≤ b.vm.pmm.free 2048 by
        omega)⟩
  -- The second one lacks none.
  have hend₁' : b₁.heapEnd = heapStart + 1025 * pageSize := by
    rw [hend₁, hend]
    decide
  have hnone : missing (tablePresent b₁.vm) b₁.heapEnd 1023 = 0 :=
    missing_eq_zero fun j hj => hready₁.present_of_page hend₁' (by omega)
  have hfree₁ := hgrow₁.free (2 ^ 20)
  obtain ⟨b₂, hcall₂, hend₂, hready₂, hgrow₂⟩ := hready₁.heapGrow_returns (n := 0x3FF000)
    (by rw [hend₁', hready₁.bounds.max]; decide)
    ⟨show 1023 + missing (tablePresent b₁.vm) b₁.heapEnd 1023 ≤ b₁.vm.pmm.free (2 ^ 20) by
        change _ ≤ _ + 2 * 769 at hfree₁
        omega,
      .of_missing_zero hnone⟩
  have hend₁'' : b₁.heapEnd = 0xC0401000 := hend₁'.trans (by decide)
  have hend₂' : b₂.heapEnd = 0xC0800000 := by
    rw [hend₂, hend₁'']
    decide
  rw [← hend₁, hend₁''] at hcall₁
  rw [← hend₂, hend₂'] at hcall₂
  refine ⟨b, st, b₁, b₂, hboot, hnew, hready, hend, hcall₁, hready₁, hend₁'', hcall₂, hready₂,
    hend₂', ?_, ?_, ?_⟩
  · rw [hgrow₂.tables 770 fun j hj => ?_, hgrow₁.tables 770 fun j hj => ?_]
    · exact habs 770 (by decide)
    · rw [hend', dirIndex_page]
      change j < 769 at hj
      omega
    · rw [hend₁', dirIndex_page]
      change j < 1023 at hj
      omega
  · have hspent₁ : b₁.vm.pmm.free 2048 ≤ b.vm.pmm.free 2048 - 769 := hgrow₁.spent 2048
    have hspent₂ : b₂.vm.pmm.free 2048 ≤ b₁.vm.pmm.free 2048 - 1023 := hgrow₂.spent 2048
    omega
  · have hleft₁ : b.vm.pmm.free 16384 ≤ b₁.vm.pmm.free 16384 + 2 * 769 := hgrow₁.free 16384
    have hleft₂ : b₁.vm.pmm.free 16384 ≤ b₂.vm.pmm.free 16384 + 2 * 1023 := hgrow₂.free 16384
    have hmono₂ := b₂.vm.pmm.free_mono (show 16384 ≤ heapStart / 4096 by decide)
    omega

end EightMiB

end Munux.Memory
