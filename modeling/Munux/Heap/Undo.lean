import Munux.Heap.Coalescing
import Munux.Heap.Tiling

/-!
# Freeing what was just allocated

`allocate` may cut a block in two, and `deallocate` may join two blocks into one, but neither looks
at what the other did. They undo each other all the same: the remainder that a split leaves behind
the new block is free and next to it, so the merge takes it back, header included; and no merge
takes more, because in a coalesced list the neighbours of a free block are owned.

* `release_splitBlk`: the two moves, on the sequence of blocks.
* `SameBlocks`: what a program that walks the list can see of that.
-/

namespace Munux.Heap

open ByteMem

/-! ## On the sequence of blocks -/

section Blocks

variable {b p : Blk} {bs pre post : List Blk}

/-- Where no two neighbours are free there is nothing to merge. -/
theorem Coalesced.mergeNext_eq (h : Coalesced bs) : mergeNext bs = bs := by
  match bs with
  | [] => rfl
  | [b] => rfl
  | b :: c :: bs =>
      have hpair := (List.isChain_cons_cons.1 h).1
      rw [mergeNext, if_neg hpair]

/-- Joining a split block to its remainder gives the block back. -/
theorem mergeNext_split (needed : Nat) {a : Alloc} (hfree : b.owner = none)
    (h : Coalesced (b :: post)) :
    ∃ c rest, splitBlk needed a b = c :: rest ∧ c.addr = b.addr ∧ c.owner = some a ∧
      mergeNext ({ c with owner := none } :: (rest ++ post)) = b :: post := by
  unfold splitBlk
  by_cases hworth : b.size ≤ needed + minSplitRemainder
  · rw [if_pos hworth]
    have hb : { b with owner := none } = b := by rw [← hfree]
    refine ⟨_, [], rfl, rfl, rfl, ?_⟩
    rw [List.nil_append]
    simp only [hb]
    exact h.mergeNext_eq
  · rw [if_neg hworth]
    refine ⟨_, [_], rfl, rfl, rfl, ?_⟩
    rw [List.singleton_append, mergeNext, if_pos ⟨rfl, rfl⟩]
    -- The header of the remainder is counted once on each side.
    have hsize : needed + headerSize + (b.size - needed - headerSize) = b.size := by
      unfold minSplitRemainder at hworth
      omega
    simp only [hsize]
    rw [← hfree]

/-- **Split, then release.** Whatever a free block is cut into for its new owner, releasing the
first part restores the sequence. -/
theorem release_splitBlk (needed : Nat) {a : Alloc} (hfree : b.owner = none)
    (h : Coalesced (pre ++ b :: post)) :
    ∃ c rest, splitBlk needed a b = c :: rest ∧ c.addr = b.addr ∧ c.owner = some a ∧
      ∀ o, release pre { c with owner := o } (rest ++ post) = pre ++ b :: post := by
  have hback : Coalesced (b :: post) := (List.isChain_append.1 h).2.1
  obtain ⟨c, rest, hsplit, haddr, hown, hmerge⟩ := mergeNext_split needed hfree hback
  refine ⟨c, rest, hsplit, haddr, hown, ?_⟩
  intro o
  unfold release
  rcases List.eq_nil_or_concat pre with rfl | ⟨pre, p, rfl⟩
  · exact hmerge
  · rw [List.concat_eq_append] at h ⊢
    simp only [List.getLast?_append, List.getLast?_singleton, Option.some_or, List.dropLast_concat]
    rw [hmerge]
    have hfront : Coalesced (p :: b :: post) := by
      rw [List.append_assoc, List.singleton_append] at h
      exact (List.isChain_append.1 h).2.1
    rw [hfront.mergeNext_eq, List.append_assoc, List.singleton_append]

end Blocks

/-! ## On the list in memory -/

/-- The two states have one list of blocks: the same headers in the same order, and in each of them
the same size, the same flag and the same link. -/
structure SameBlocks (s s' : State) : Prop where
  heap : s'.heap = s.heap
  headers : ∃ hs, Seg (nextOf s.mem) s.heap.head hs 0 ∧ Seg (nextOf s'.mem) s'.heap.head hs 0 ∧
    ∀ h ∈ hs, sizeOf s'.mem h = sizeOf s.mem h ∧ isFreeOf s'.mem h = isFreeOf s.mem h ∧
      nextOf s'.mem h = nextOf s.mem h

section Undo

variable {τ : Type} {grow : Nat → τ → Outcome (Nat × τ)} {env env' : τ}
  {start initialSize max size align p : Nat} {s s' : State} {bs : List Blk} {σ : Sys}

/-- States that hold the same blocks have the same list. -/
theorem Rep.sameBlocks (h : Rep start s bs) (h' : Rep start s' bs) (hheap : s'.heap = s.heap) :
    SameBlocks s s' := by
  refine ⟨hheap, bs.map Blk.addr, h.linked, h'.linked, ?_⟩
  intro x hx
  obtain ⟨b, hb, rfl⟩ := List.mem_map.1 hx
  have hholds := h.holds b hb
  have hholds' := h'.holds b hb
  refine ⟨hholds'.size.trans hholds.size.symm, hholds'.flag.trans hholds.flag.symm, ?_⟩
  obtain ⟨pre, post, rfl⟩ := List.append_of_mem hb
  cases post with
  | nil => rw [h.next_last, h'.next_last]
  | cons n post => rw [h.next_cons, h'.next_cons]

/-- A call that returns a pointer and does not grow the heap takes a free block. -/
theorem allocate_in_place (h : Rep start s bs)
    (hcall : allocate grow env s size = .ok (p, s', env')) (hp : p ≠ 0)
    (hheap : s'.heap = s.heap) :
    ∃ pre b post, bs = pre ++ b :: post ∧ b.owner = none ∧ p = b.payload ∧
      Rep start s' (pre ++ splitBlk (wordsFor size) ⟨p, size, .plain⟩ b ++ post) := by
  cases allocate_spec h hcall with
  | zero => exact absurd rfl hp
  | full => exact absurd rfl hp
  | denied => exact absurd rfl hp
  | taken hbs hfree _ _ hrep => exact ⟨_, _, _, hbs, hfree, rfl, hrep⟩
  | @grown n r _ _ _ _ hacc hgrown _ =>
      unfold Rejected at hacc
      rw [hgrown] at hheap
      have hend : r = s.heap.heapEnd := congrArg Heap.heapEnd hheap
      omega

/-- The block taken, as `deallocate` finds it. -/
theorem allocate_undo (h : Rep start s bs) (hco : Coalesced bs)
    (hcall : allocate grow env s size = .ok (p, s', env')) (hp : p ≠ 0)
    (hheap : s'.heap = s.heap) :
    ∃ pre c post, Rep start s' (pre ++ c :: post) ∧ c.owner = some ⟨p, size, .plain⟩ ∧
      p = c.payload ∧ ∀ o, release pre { c with owner := o } post = bs := by
  obtain ⟨pre, b, post, rfl, hfree, hpay, hrep⟩ := allocate_in_place h hcall hp hheap
  obtain ⟨c, rest, hsplit, haddr, hown, hrel⟩ :=
    release_splitBlk (wordsFor size) (a := ⟨p, size, .plain⟩) hfree hco
  rw [hsplit, List.append_assoc, List.cons_append] at hrep
  refine ⟨pre, c, rest ++ post, hrep, hown, ?_, hrel⟩
  rw [hpay, Blk.payload, Blk.payload, haddr]

theorem deallocate_undo (h : Rep start s bs) (hco : Coalesced bs)
    (hcall : allocate grow env s size = .ok (p, s', env')) (hp : p ≠ 0)
    (hheap : s'.heap = s.heap) : ∃ s'', deallocate s' p = .ok s'' ∧ SameBlocks s s'' := by
  obtain ⟨pre, c, post, hrep, -, hpay, hrel⟩ := allocate_undo h hco hcall hp hheap
  obtain ⟨s'', hfree, hrep''⟩ := deallocate_spec hrep
  have hbs : release pre c post = bs := hrel c.owner
  rw [hbs] at hrep''
  exact ⟨s'', hpay ▸ hfree, h.sameBlocks hrep'' ((deallocate_heap hfree).trans hheap)⟩

theorem deallocateAligned_undo (h : Rep start s bs) (hco : Coalesced bs)
    (hcall : allocateAligned grow env s size align = .ok (p, s', env')) (hp : p ≠ 0)
    (hheap : s'.heap = s.heap) : ∃ s'', deallocateAligned s' p = .ok s'' ∧ SameBlocks s s'' := by
  rcases allocateAligned_cases hcall with ⟨hzero, -⟩ | ⟨-, -, base, s₁, hplain, hrest⟩
  · exact absurd hzero hp
  rcases hrest with ⟨-, hzero, -⟩ | ⟨hbase, hge, hlt, -, rfl⟩
  · exact absurd hzero hp
  obtain ⟨pre, c, post, hrep, hown, rfl, hrel⟩ := allocate_undo h hco hplain hbase hheap
  have hroom := ((hrep.holds c (by simp)).fits _ hown).1
  simp only at hroom
  -- The block has a new owner, and `release` does not look at it.
  have hrep' := realign_spec hrep size hge (by omega) (by simp [hown])
  rw [List.append_assoc, List.singleton_append] at hrep'
  obtain ⟨s'', hfree, hrep''⟩ := deallocate_spec hrep'
  rw [hrel] at hrep''
  refine ⟨s'', ?_, h.sameBlocks hrep'' ((deallocate_heap hfree).trans hheap)⟩
  rw [← hfree]
  exact deallocateAligned_eq (a := ⟨p, size, .aligned⟩) hrep' (by simp) rfl rfl

/-- **Free undoes allocate.** In every state that a run from `Heap::new` reaches, freeing at once
what a call has returned without growing the heap restores the list of blocks: the same headers,
sizes, flags and links. -/
theorem free_undoes_allocate (hstart : 4 ∣ start) (hinit : 4 ∣ initialSize) (hle : initialSize ≤ max)
    (h : Reachable start initialSize max σ) (hp : p ≠ 0) (hheap : s'.heap = σ.state.heap) :
    (allocate grow env σ.state size = .ok (p, s', env') →
      ∃ s'', deallocate s' p = .ok s'' ∧ SameBlocks σ.state s'') ∧
    (allocateAligned grow env σ.state size align = .ok (p, s', env') →
      ∃ s'', deallocateAligned s' p = .ok s'' ∧ SameBlocks σ.state s'') := by
  obtain ⟨bs, hhold, -, hco⟩ := coalesced_reachable hstart hinit hle h
  constructor
  · intro hcall
    exact deallocate_undo hhold.rep hco hcall hp hheap
  · intro hcall
    exact deallocateAligned_undo hhold.rep hco hcall hp hheap

/-- A hundred bytes from the kernel's new heap, plain and on a multiple of 64, and back. -/
theorem free_undoes_allocate_kernelHeap :
    (∃ s' s'', allocate (callback kernelGrow) () kernelHeap 100 = .ok (0xC000000C, s', ()) ∧
      deallocate s' 0xC000000C = .ok s'' ∧ SameBlocks kernelHeap s'') ∧
    ∃ s' s'', allocateAligned (callback kernelGrow) () kernelHeap 100 64 =
        .ok (0xC0000040, s', ()) ∧
      deallocateAligned s' 0xC0000040 = .ok s'' ∧ SameBlocks kernelHeap s'' := by
  have hnew : new (fun _ => 0) 0xC0000000 0x100000 0x10000000 = .ok kernelHeap := rfl
  have hreach : Reachable 0xC0000000 0x100000 0x10000000 ⟨kernelHeap, []⟩ := ⟨_, _, hnew, .refl⟩
  have hboth : ∀ {p s'}, p ≠ 0 → s'.heap = kernelHeap.heap →
      (allocate (callback kernelGrow) () kernelHeap 100 = .ok (p, s', ()) →
        ∃ s'', deallocate s' p = .ok s'' ∧ SameBlocks kernelHeap s'') ∧
      (allocateAligned (callback kernelGrow) () kernelHeap 100 64 = .ok (p, s', ()) →
        ∃ s'', deallocateAligned s' p = .ok s'' ∧ SameBlocks kernelHeap s'') :=
    fun hp hheap => free_undoes_allocate (by decide) (by decide) (by decide) hreach hp hheap
  constructor
  · have hrun : (allocate (callback kernelGrow) () kernelHeap 100 >>= fun r =>
        .ok (r.1, r.2.1.heap)) = .ok (0xC000000C, kernelHeap.heap) := by decide +kernel
    obtain ⟨⟨p, s', ⟨⟩⟩, hcall, hpair⟩ := Outcome.bind_eq_ok.1 hrun
    obtain ⟨rfl, hheap⟩ := Prod.mk.inj (Outcome.ok.inj hpair)
    obtain ⟨s'', hfree, hsame⟩ := (hboth (by decide) hheap).1 hcall
    exact ⟨s', s'', hcall, hfree, hsame⟩
  · have hrun : (allocateAligned (callback kernelGrow) () kernelHeap 100 64 >>= fun r =>
        .ok (r.1, r.2.1.heap)) = .ok (0xC0000040, kernelHeap.heap) := by decide +kernel
    obtain ⟨⟨p, s', ⟨⟩⟩, hcall, hpair⟩ := Outcome.bind_eq_ok.1 hrun
    obtain ⟨rfl, hheap⟩ := Prod.mk.inj (Outcome.ok.inj hpair)
    obtain ⟨s'', hfree, hsame⟩ := (hboth (by decide) hheap).2 hcall
    exact ⟨s', s'', hcall, hfree, hsame⟩

end Undo

end Munux.Heap
