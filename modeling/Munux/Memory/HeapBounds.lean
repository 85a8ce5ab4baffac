import Munux.Memory.Kmalloc

/-!
# The bounds of the heap, kept twice

`heap.c` keeps `heap_end` and `heap_max_addr`, and `heap.rs` keeps `end` and `max`. C rounds to
pages and wraps around, Rust rounds to words and checks. In a run where frames do not run out and
the page tables stay in the first 8 MiB the two never drift, and C grants whatever Rust asks for.

Frames alone are not enough. When the low ones are gone, a growth that needs a table does not return
(`growth_faults`).
-/

namespace Munux.Memory

open ByteMem PageTable

section Bounds

variable {κ : Kernel} {b : Backing} {s : Heap.State} {size n : Nat}

/-- A call of `munux_c_heap_grow` that the PMM can afford, with tables in the first 8 MiB. -/
theorem Matched.heapGrow_returns (h : Matched b s) (hwants : Heap.Wants s size n)
    (hafford : Affords lowLimit b s size) :
    n + (pageSize - 1) < wordCount ∧ b.heapEnd + alignPage n < wordCount ∧
      ∃ r b', heapGrow n b = .ok (r, b') ∧ s.heap.heapEnd + n ≤ r ∧ r ≤ s.heap.max ∧
        ¬Heap.Rejected s r := by
  have hroom := hwants.room
  rw [h.heapEnd, h.max] at hroom
  have hmax := h.ready.bounds.max
  have hlo := h.ready.bounds.lo
  have hlast : heapStart + heapMaxSize + 4095 < wordCount := by decide
  have hn : n + 4095 < wordCount := by omega
  obtain ⟨-, hle, -⟩ := h.ready.bounds.grown hroom
  obtain ⟨b', hcall, -⟩ := h.ready.heapGrow_returns hroom (hafford n hwants)
  obtain ⟨⟨hfar, hle', -⟩, hacc, -⟩ :=
    h.grown hwants ((hafford n hwants).mono (by decide)) hcall
  refine ⟨hn, ?_, _, b', hcall, ?_, ?_, hacc⟩
  · rw [alignPage_eq hn]
    omega
  · rw [h.heapEnd]
    exact hfar
  · rw [h.max]
    exact hle'

/-- A null pointer means that the heap is full, and that nothing has changed. -/
theorem Sound.kmalloc_null {s' : Heap.State} (h : Sound κ) (hsize : size ≠ 0)
    (hafford : Affords heapStart κ.backing κ.heap.state size)
    (hcall : Memory.kmalloc κ.backing κ.heap.state size = .ok (0, s', b)) :
    Heap.NoFit κ.heap.state (Heap.wordsFor size) ∧
      κ.heap.state.heap.max <
        κ.heap.state.heap.heapEnd + (Heap.wordsFor size + Heap.headerSize) ∧
      s' = κ.heap.state ∧ b = κ.backing := by
  obtain ⟨bs, hhold⟩ := h.blocks
  obtain ⟨p, hp⟩ : ∃ p, p = 0 := ⟨0, rfl⟩
  rw [← hp] at hcall
  cases Heap.allocate_spec hhold.rep hcall with
  | zero hzero => exact absurd hzero hsize
  | full hfit hmax => exact ⟨hfit, hmax, rfl, rfl⟩
  | taken _ _ _ _ _ =>
      unfold Heap.Blk.payload Heap.headerSize at hp
      omega
  | denied hwants hgrow hrej =>
      exact absurd hrej (h.matched.grown hwants (hafford _ hwants) hgrow).2.1
  | grown _ _ _ _ _ =>
      unfold Heap.headerSize at hp
      omega

/-- **C and Rust agree on the bounds of the heap** in every state of every run in which the PMM can
afford the growths, with low frames for the tables. A call that grows the heap gets what it asks
for, without wrapping around, and a null pointer means that the heap is full. -/
theorem bounds_agree (h : Reached (fun κ e => e.Enough lowLimit κ) κ) :
    (κ.backing.heapEnd = κ.heap.state.heap.heapEnd ∧
      κ.backing.heapMaxAddr = κ.heap.state.heap.max ∧ pageSize ∣ κ.backing.heapEnd ∧
      κ.backing.heapEnd ≤ heapStart + heapMaxSize) ∧
    (∀ size n, Heap.Wants κ.heap.state size n → Affords lowLimit κ.backing κ.heap.state size →
      n + (pageSize - 1) < wordCount ∧ κ.backing.heapEnd + alignPage n < wordCount ∧
        ∃ r b, heapGrow n κ.backing = .ok (r, b) ∧ κ.heap.state.heap.heapEnd + n ≤ r ∧
          r ≤ κ.heap.state.heap.max ∧ ¬Heap.Rejected κ.heap.state r) ∧
    ∀ size s b, size ≠ 0 → Affords lowLimit κ.backing κ.heap.state size →
      kmalloc κ.backing κ.heap.state size = .ok (0, s, b) →
        Heap.NoFit κ.heap.state (Heap.wordsFor size) ∧
          κ.heap.state.heap.max <
            κ.heap.state.heap.heapEnd + (Heap.wordsFor size + Heap.headerSize) ∧
          s = κ.heap.state ∧ b = κ.backing := by
  have hle : lowLimit ≤ heapStart := by decide
  have hsound := sound_reached (h.mono fun _ _ henough => henough.mono hle)
  have hmatched := hsound.matched
  have hbounds := hmatched.ready.bounds
  refine ⟨⟨hmatched.heapEnd.symm, hmatched.max.symm, hbounds.aligned, hbounds.max ▸ hbounds.hi⟩,
    fun size n hwants hafford => hmatched.heapGrow_returns hwants hafford,
    fun size s b hsize hafford hcall => hsound.kmalloc_null hsize ?_ hcall⟩
  intro n hwants
  exact (hafford n hwants).mono hle

/-- **A growth that does not return.** On a machine with 64 MiB two requests make the heap 8 MiB
large. The next one stops the machine, though there are frames for its pages and their table, and
the maximum is far away. -/
theorem growth_faults :
    ∃ κ, Reached (fun _ _ => True) κ ∧ ∃ size n, Heap.Wants κ.heap.state size n ∧
      pagesFor n + missing (tablePresent κ.backing.vm) κ.backing.heapEnd (pagesFor n) ≤
        κ.backing.vm.pmm.free (2 ^ 20) ∧
      heapGrow n κ.backing = .panic ∧ kmalloc κ.backing κ.heap.state size = .panic := by
  obtain ⟨b, st, b₁, b₂, hboot, hnew, -, hend, hcall₁, hready₁, hend₁, hcall₂, hstuck⟩ :=
    low_frames_exhausted (fun _ => 0#32) (fun _ => 0) (fun _ => 0)
  have hbooted : Booted ⟨b, ⟨st, []⟩, ∅⟩ :=
    ⟨_, _, _, _, _, _, by decide, by decide, hboot, rfl⟩
  have hend₂ := hstuck.heapEnd
  have hmatched := (sound_booted hbooted).matched
  have hrep := rep_new hnew
  -- The free block has a megabyte, less than any of the requests.
  have hwants : Heap.Wants st 0x300FF4 0x301000 := by
    refine hmatched.wants hrep (by decide) (by decide) ?_ ?_
    · intro c hc
      rw [List.mem_singleton.1 hc]
      decide
    · rw [show b.heapEnd = heapStart + heapInitialSize from hend]
      decide
  obtain ⟨s₁, hk₁, hmatched₁, hrep₁⟩ := hmatched.kmalloc_grows hrep hwants (hend₁ ▸ hcall₁)
    (by rw [hend₁, hend]; decide) hready₁
  have hwants₁ : Heap.Wants s₁ 0x3FEFF4 0x3FF000 := by
    refine hmatched₁.wants hrep₁ (by decide) (by decide) ?_ ?_
    · intro c hc
      rcases List.mem_pair.1 hc with rfl | rfl
      · decide
      · exact fun hand => absurd hand.1 (by simp)
    · rw [hend₁]
      decide
  obtain ⟨s₂, hk₂, hmatched₂, hrep₂⟩ := hmatched₁.kmalloc_grows hrep₁ hwants₁ (hend₂ ▸ hcall₂)
    (by rw [hend₂, hend₁]; decide) hstuck.ready
  have hwants₂ : Heap.Wants s₂ 0x200000 0x20000C := by
    refine hmatched₂.wants hrep₂ (by decide) (by decide) ?_ ?_
    · intro c hc
      rw [List.append_assoc, List.singleton_append] at hc
      rcases List.mem_cons.1 hc with rfl | hc
      · decide
      · rcases List.mem_pair.1 hc with rfl | rfl
        · exact fun hand => absurd hand.1 (by simp)
        · exact fun hand => absurd hand.1 (by simp)
    · rw [hend₂]
      decide
  have hfault : heapGrow 0x20000C b₂ = .panic := by
    refine hstuck.heapGrow (by decide) ?_
    rw [hend₂, hstuck.ready.bounds.max]
    decide
  have hframes : pagesFor 0x20000C + missing (tablePresent b₂.vm) b₂.heapEnd (pagesFor 0x20000C) ≤
      b₂.vm.pmm.free (2 ^ 20) := by
    have hmiss := missing_le (tablePresent b₂.vm) b₂.heapEnd 513
    have hfree := hstuck.free.trans (b₂.vm.pmm.free_mono (show heapStart / 4096 ≤ 2 ^ 20 by decide))
    change 513 + missing (tablePresent b₂.vm) b₂.heapEnd 513 ≤ _
    omega
  have hreached := (hbooted.reached (P := fun _ _ => True).kmalloc trivial hk₁).kmalloc trivial hk₂
  exact ⟨_, hreached, 0x200000, 0x20000C, hwants₂, hframes, hfault,
    (Heap.allocate_of_wants hrep₂ hwants₂).1 hfault⟩

/-- The ends of that heap. -/
theorem bounds_agree_megabyte :
    ∃ κ : Kernel, κ.backing.heapEnd = 0xC0201000 ∧
      κ.backing.heapEnd = κ.heap.state.heap.heapEnd ∧ pageSize ∣ κ.backing.heapEnd := by
  obtain ⟨κ, hreached, hend⟩ := reached_megabyte
  obtain ⟨⟨hagree, -, hdvd, -⟩, -⟩ := bounds_agree hreached
  exact ⟨κ, hend, hagree, hdvd⟩

end Bounds

end Munux.Memory
