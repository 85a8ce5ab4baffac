import Munux.Memory.Kmalloc

/-!
# Frames behind the heap

In a run where frames do not run out, every page of the heap has a frame of its own: one that the
PMM handed out, that is no page table, and that nobody else holds. `map_heap_range` does not look at
what `pmm_alloc_frame` returns, though, and `munux_c_heap_grow` cannot fail for want of frames. With
none left a growth succeeds, and its pages all lie in frame 0 (`frame_shared`).
-/

namespace Munux.Memory

open ByteMem PageTable

section Frames

variable {κ : Kernel} {b : Backing} {s s' : Vm} {size hi n p : Nat}

/-- `pmm_alloc_frame` returns 0 when there is no frame left. -/
theorem Tables.free_eq_zero (h : Tables s) (hnone : s.pmm.allocFrame.1 = 0) :
    s.pmm.free (2 ^ 20) = 0 := by
  by_contra hne
  obtain ⟨f, pmm, halloc, -, htook⟩ := Pmm.allocFrame_of_free (Nat.pos_of_ne_zero hne)
  have hge := h.took_ge htook
  rw [halloc] at hnone
  unfold pageSize at hnone
  omega

/-- **Every page of the heap is backed** in every state of every run in which frames do not run out:
by a frame that the PMM handed out, in use for nothing else, and held by nobody else. When there is
no frame left, a call that needs none leaves the pages alone, and returns null unless a free block
serves it. -/
theorem heap_backed (h : Reached (fun κ e => e.Enough heapStart κ) κ) :
    Backed κ.backing.vm κ.backing.heapEnd ∧ Apart κ.held κ.backing ∧
    ∀ size p s b, κ.backing.vm.pmm.allocFrame.1 = 0 →
      Affords heapStart κ.backing κ.heap.state size →
      kmalloc κ.backing κ.heap.state size = .ok (p, s, b) →
        b = κ.backing ∧ (Heap.NoFit κ.heap.state (Heap.wordsFor size) → p = 0) := by
  have hsound := sound_reached h
  refine ⟨hsound.matched.ready.backed, hsound.held, ?_⟩
  intro size p s b hnone hafford hcall
  have hzero := hsound.matched.ready.space.free_eq_zero hnone
  have hnever : ∀ n, ¬Heap.Wants κ.heap.state size n := by
    intro n hwants
    have hpages := (hafford n hwants).pages
    have hbytes := hwants.bytes
    unfold pagesFor at hpages
    unfold Heap.headerSize at hbytes
    omega
  obtain ⟨bs, hhold⟩ := hsound.blocks
  cases Heap.allocate_spec hhold.rep hcall with
  | zero _ => exact ⟨rfl, fun _ => rfl⟩
  | full _ _ => exact ⟨rfl, fun _ => rfl⟩
  | taken hbs hfree hroom _ _ =>
      subst hbs
      refine ⟨rfl, ?_⟩
      intro hfull
      have hfit := hfull _ hhold.rep.inList
      rw [(Heap.fits_iff (hhold.rep.holds _ (by simp)) _).2 ⟨hfree, hroom⟩] at hfit
      cases hfit
  | denied hwants _ _ => exact absurd hwants (hnever _)
  | grown hwants _ _ _ _ => exact absurd hwants (hnever _)

/-! ## No frame left -/

/-- One page of the heap, when there is no frame left and its table is there. -/
theorem Paged.mapHeapPage_exhausted (h : Paged s) (hnone : s.pmm.allocFrame = (0, s.pmm))
    (hlo : lowLimit ≤ hi) (hhi : hi < 2 ^ 32) (hpres : tablePresent s (dirIndex hi) = true) :
    ∃ s', mapHeapPage s hi = .ok s' ∧ Paged s' ∧ s'.pmm = s.pmm ∧ tablePresent s' = tablePresent s ∧
      ∀ va < 2 ^ 32, translate s'.phys s'.currentDirectory va =
        if va / 4096 = hi / 4096 then some (va % 4096)
        else translate s.phys s.currentDirectory va := by
  have hp := (tablePresent_eq hhi).1 hpres
  obtain ⟨s', hcall, hpaged, hmap, htook⟩ := h.mapPage_returns hlo hhi (show 0 < 2 ^ 32 by decide)
    (show pagePresent ||| pageWrite < 4096 by decide) (.inl hp)
  refine ⟨s', ?_, hpaged, ?_, ?_, ?_⟩
  · simp only [mapHeapPage, hnone]
    exact hcall
  · cases htook with
    | none _ hpmm _ => exact hpmm
    | one _ habs _ _ _ => exact absurd hp habs
  · rw [hmap.tablePresent hhi, ← hpres, Function.update_eq_self]
  · intro va hva
    have hleaf : leaf (frame 0 ||| (pagePresent ||| pageWrite)) va = some (va % 4096) := by
      have hframe : frame (frame 0 ||| (pagePresent ||| pageWrite)) = 0 := by decide
      rw [leaf, if_pos (by decide), hframe, Nat.zero_add]
    rw [hmap.dir, hmap.translate va hva, hleaf]

/-- The loop of `map_heap_range`, when there is no frame left and no table is missing: it returns,
and maps every page to frame 0. -/
theorem Paged.mapHeapRange_exhausted (h : Paged s) (hnone : s.pmm.allocFrame = (0, s.pmm))
    (hlo : lowLimit ≤ hi) (hhi : hi + n * pageSize ≤ 2 ^ 32) (halign : pageSize ∣ hi)
    (hpres : ∀ j < n, tablePresent s (dirIndex (hi + j * pageSize)) = true) :
    ∃ s', mapHeapRange s hi (hi + n * pageSize) = .ok s' ∧ ∀ j < n,
      translate s'.phys s'.currentDirectory (hi + j * pageSize) = some 0 := by
  have hstep : ∀ i t, i < n → (Paged t ∧ t.pmm = s.pmm ∧ tablePresent t = tablePresent s ∧
      ∀ j < i, translate t.phys t.currentDirectory (hi + j * pageSize) = some 0) →
      ∃ t', mapHeapPage t (hi + i * pageSize) = .ok t' ∧ Paged t' ∧ t'.pmm = s.pmm ∧
        tablePresent t' = tablePresent s ∧
        ∀ j < i + 1, translate t'.phys t'.currentDirectory (hi + j * pageSize) = some 0 := by
    intro i t hi' hinv
    obtain ⟨hpaged, hpmm, htables, htrans⟩ := hinv
    have hdvd : 4096 ∣ hi := halign
    have hva : ∀ j < n, hi + j * pageSize < 2 ^ 32 := by
      intro j hj
      unfold pageSize at *
      omega
    obtain ⟨t', hcall, hpaged', hpmm', htables', htrans'⟩ := hpaged.mapHeapPage_exhausted
      (hpmm ▸ hnone) (hlo.trans (Nat.le_add_right _ _)) (hva i hi') (htables ▸ hpres i hi')
    refine ⟨t', hcall, hpaged', hpmm'.trans hpmm, htables'.trans htables, ?_⟩
    intro j hj
    have hoffset : (hi + j * pageSize) % 4096 = 0 := by
      unfold pageSize
      omega
    rw [htrans' _ (hva j (by omega))]
    by_cases hji : j = i
    · rw [if_pos (by rw [hji]), hoffset]
    · have hne : (hi + j * pageSize) / 4096 ≠ (hi + i * pageSize) / 4096 := by
        unfold pageSize
        omega
      rw [if_neg hne]
      exact htrans j (by omega)
  rw [mapHeapRange_pages]
  obtain ⟨s', hcall, -, -, -, htrans⟩ := Outcome.foldlM_range_returns
    ⟨h, rfl, rfl, fun j hj => absurd hj (Nat.not_lt_zero j)⟩ hstep
  exact ⟨s', hcall, htrans⟩

/-- Others can take all frames that are left. -/
theorem Sound.exhaust (h : Sound κ) :
    ∃ pmm held, Relation.ReflTransGen (fun κ κ' => ∃ e : Event, True ∧ e.Does κ κ') κ
        ⟨{ κ.backing with vm := { κ.backing.vm with pmm := pmm } }, κ.heap, held⟩ ∧
      Sound ⟨{ κ.backing with vm := { κ.backing.vm with pmm := pmm } }, κ.heap, held⟩ ∧
      pmm.allocFrame = (0, pmm) := by
  obtain ⟨k, hk⟩ : ∃ k, κ.backing.vm.pmm.free (2 ^ 20) = k := ⟨_, rfl⟩
  induction k generalizing κ with
  | zero =>
      refine ⟨κ.backing.vm.pmm, κ.held, .refl, h, ?_⟩
      rcases κ.backing.vm.pmm.allocFrame_cases with ⟨-, hnone⟩ | ⟨f, pmm, -, htook⟩
      · exact hnone
      · have hmem : f ∈ κ.backing.vm.pmm.freeFrames (2 ^ 20) :=
          Pmm.mem_freeFrames.2 ⟨htook.inside,
            htook.inside.trans_le h.matched.ready.space.scanned, htook.clear⟩
        rw [Finset.card_eq_zero.1 hk] at hmem
        exact absurd hmem (Finset.notMem_empty f)
  | succ k ih =>
      obtain ⟨f, pmm, halloc, hf, htook⟩ := Pmm.allocFrame_of_free
        (show 0 < κ.backing.vm.pmm.free (2 ^ 20) by omega)
      have hleft := htook.free (2 ^ 20)
      rw [if_pos hf, hk] at hleft
      obtain ⟨pmm', held, hrun, hsound, hnone⟩ := ih (h.allocFrame halloc) hleft
      exact ⟨pmm', held, .head ⟨.allocFrame, trivial, f * pageSize, pmm, halloc, rfl⟩ hrun, hsound,
        hnone⟩

/-- **A frame with two uses.** On a machine with 32 MiB, others take every frame there is after
boot. Then a request for 2 MiB makes the heap grow, and succeeds; the new pages all lie in
frame 0. -/
theorem frame_shared :
    ∃ κ, Reached (fun _ _ => True) κ ∧ κ.backing.vm.pmm.allocFrame.1 = 0 ∧
      ∃ p s b, kmalloc κ.backing κ.heap.state 0x200000 = .ok (p, s, b) ∧ p ≠ 0 ∧
        b.heapEnd = 0xC0301000 ∧ heapGrow 0x20000C κ.backing = .ok (b.heapEnd, b) ∧
        translate b.vm.phys b.vm.currentDirectory 0xC0100000 = some 0 ∧
        translate b.vm.phys b.vm.currentDirectory 0xC0101000 = some 0 := by
  obtain ⟨b, st, hboot, hnew, -, hend, -⟩ :=
    boot_returns (fun _ => 0#32) (show 0x2000000 ≤ 0x2000000 by decide) (by decide) (fun _ => 0)
      fun _ => 0
  have hbooted : Booted ⟨b, ⟨st, []⟩, ∅⟩ :=
    ⟨_, _, _, _, _, _, by decide, by decide, hboot, rfl⟩
  obtain ⟨pmm, held, hrun, hsound, hnone⟩ := (sound_booted hbooted).exhaust
  simp only at hrun hsound
  obtain ⟨b₁, hb₁⟩ : ∃ b₁, ({ b with vm := { b.vm with pmm := pmm } } : Backing) = b₁ := ⟨_, rfl⟩
  have hend₁ : b₁.heapEnd = heapStart + heapInitialSize := by
    rw [← hb₁]
    exact hend
  have hnone₁ : b₁.vm.pmm.allocFrame = (0, b₁.vm.pmm) := by
    rw [← hb₁]
    exact hnone
  rw [hb₁] at hrun hsound
  have hmatched : Matched b₁ st := hsound.matched
  have hready : Ready b₁ := hmatched.ready
  have hend₁' : b₁.heapEnd = heapStart + 256 * pageSize := hend₁
  obtain ⟨vm, hmap, htrans⟩ := hready.space.toPaged.mapHeapRange_exhausted (n := 513) hnone₁
    (by rw [hend₁]; decide) (by rw [hend₁]; decide) hready.bounds.aligned
    fun j hj => hready.present_of_page hend₁' (by omega)
  have hroom : b₁.heapEnd + 0x20000C ≤ b₁.heapMaxAddr := by
    rw [hend₁, hready.bounds.max]
    decide
  have hgrow := hready.bounds.heapGrow hroom
  rw [show pagesFor 0x20000C = 513 from rfl, hmap, Outcome.ok_bind] at hgrow
  have hwants : Heap.Wants st 0x200000 0x20000C := by
    refine hmatched.wants (rep_new hnew) (by decide) (by decide) ?_ ?_
    · intro c hc
      rw [List.mem_singleton.1 hc]
      decide
    · rw [hend₁]
      decide
  have hr : b₁.heapEnd + 513 * pageSize = 0xC0301000 := by
    rw [hend₁]
    decide
  rw [hr] at hgrow
  have hold : st.heap.heapEnd = heapStart + heapInitialSize := hmatched.heapEnd.trans hend₁
  have hacc : ¬Heap.Rejected st 0xC0301000 := by
    rw [Heap.Rejected, hold, hmatched.max, hready.bounds.max]
    decide
  have hok : Heap.GrowOk st 0x20000C 0xC0301000 := by
    rw [Heap.GrowOk, hold]
    decide
  obtain ⟨s', hcall, -⟩ :=
    (Heap.allocate_of_wants (rep_new hnew) hwants).2 _ _ hgrow hacc hok
  have hpage : ∀ j < 513, translate vm.phys vm.currentDirectory
      (heapStart + heapInitialSize + j * pageSize) = some 0 := by
    rw [← hend₁]
    exact htrans
  exact ⟨_, ⟨_, hbooted, hrun⟩, congrArg Prod.fst hnone₁, _, s', _, hcall, Nat.succ_ne_zero _, rfl,
    hgrow, hpage 0 (by decide), hpage 1 (by decide)⟩

/-- A heap that has grown by a megabyte. -/
theorem heap_backed_megabyte :
    ∃ κ : Kernel, κ.backing.heapEnd = 0xC0201000 ∧ Backed κ.backing.vm 0xC0201000 := by
  obtain ⟨κ, hreached, hend⟩ := reached_megabyte
  obtain ⟨hbacked, -, -⟩ := heap_backed (hreached.mono fun _ _ he => he.mono (by decide))
  exact ⟨κ, hend, hend ▸ hbacked⟩

end Frames

end Munux.Memory
