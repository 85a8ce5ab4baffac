import Munux.Heap.Invariant
import Munux.Lib.PageTable

/-!
# Bytes that leave the list

Whether the blocks fill the heap from `start` to its end. Splitting, merging and handing out keep
it so: they cut and join blocks that touch. Growing need not. `grow_and_attach` is given whole
pages, and makes a block of the size it asked for; the rest of the last page is in no block, and as
merging adds sizes up without a look at addresses, it never comes back.

* `Tiling lo hi bs`: the blocks fill `[lo, hi)`.
* `tiles_whole`: runs that grow by whole pages only lose nothing.
-/

namespace Munux.Heap

open ByteMem

/-- The blocks fill `[lo, hi)` without a gap. -/
def Tiling : Nat → Nat → List Blk → Prop
  | lo, hi, [] => lo = hi
  | lo, hi, b :: bs => b.addr = lo ∧ Tiling b.limit hi bs

section Blocks

variable {lo hi needed : Nat} {a : Alloc} {b : Blk} {bs pre post xs ys old mid : List Blk}

@[simp] theorem tiling_nil : Tiling lo hi [] ↔ lo = hi := Iff.rfl

@[simp] theorem tiling_cons : Tiling lo hi (b :: bs) ↔ b.addr = lo ∧ Tiling b.limit hi bs := Iff.rfl

theorem tiling_append : Tiling lo hi (xs ++ ys) ↔ ∃ w, Tiling lo w xs ∧ Tiling w hi ys := by
  induction xs generalizing lo with
  | nil => simp
  | cons x xs ih =>
      simp only [List.cons_append, tiling_cons, ih]
      constructor
      · intro h
        obtain ⟨hx, w, hxs, hys⟩ := h
        exact ⟨w, ⟨hx, hxs⟩, hys⟩
      · intro h
        obtain ⟨w, ⟨hx, hxs⟩, hys⟩ := h
        exact ⟨hx, w, hxs, hys⟩

/-- A run of blocks can be exchanged for another that fills the same bytes. -/
theorem Tiling.replace (h : Tiling lo hi (pre ++ old ++ post))
    (hmid : ∀ lo hi, Tiling lo hi old → Tiling lo hi mid) : Tiling lo hi (pre ++ mid ++ post) := by
  rw [tiling_append] at h ⊢
  obtain ⟨w, h, hpost⟩ := h
  rw [tiling_append] at h
  obtain ⟨v, hpre, hold⟩ := h
  exact ⟨w, tiling_append.2 ⟨v, hpre, hmid v w hold⟩, hpost⟩

theorem Tiling.splitBlk (h : Tiling lo hi [b]) (needed : Nat) (a : Alloc) :
    Tiling lo hi (splitBlk needed a b) := by
  obtain ⟨rfl, rfl⟩ := h
  unfold Heap.splitBlk
  by_cases hworth : b.size ≤ needed + minSplitRemainder
  · rw [if_pos hworth]
    exact ⟨rfl, rfl⟩
  · rw [if_neg hworth]
    refine ⟨rfl, rfl, ?_⟩
    simp only [minSplitRemainder, headerSize] at hworth
    simp only [tiling_nil, Blk.limit, headerSize]
    omega

theorem Tiling.mergeNext (h : Tiling lo hi bs) : Tiling lo hi (mergeNext bs) := by
  match bs with
  | [] => exact h
  | [b] => exact h
  | b :: n :: rest =>
      rw [Heap.mergeNext]
      by_cases hfree : b.owner = none ∧ n.owner = none
      · rw [if_pos hfree]
        obtain ⟨hb, hn, hrest⟩ := h
        have hlimit : b.addr + headerSize + (b.size + headerSize + n.size) = n.limit := by
          rw [Blk.limit, hn, Blk.limit]
          omega
        refine ⟨hb, ?_⟩
        rw [Blk.limit, hlimit]
        exact hrest
      · rw [if_neg hfree]
        exact h

theorem Tiling.release (h : Tiling lo hi (pre ++ b :: post)) :
    Tiling lo hi (release pre b post) := by
  have hfreed : Tiling lo hi (pre ++ { b with owner := none } :: post) := by
    obtain ⟨w, hpre, hb, hpost⟩ := tiling_append.1 h
    exact tiling_append.2 ⟨w, hpre, hb, hpost⟩
  unfold Heap.release
  rcases List.eq_nil_or_concat pre with rfl | ⟨pre, p, rfl⟩
  · exact hfreed.mergeNext
  · rw [List.concat_eq_append] at hfreed ⊢
    simp only [List.getLast?_append, List.getLast?_singleton, Option.some_or, List.dropLast_concat]
    rw [List.append_assoc, List.singleton_append] at hfreed
    obtain ⟨w, hpre, hp, hrest⟩ := tiling_append.1 hfreed
    refine tiling_append.2 ⟨w, hpre, Tiling.mergeNext ⟨hp, hrest.mergeNext⟩⟩

/-- Every move keeps the heap tiled, as long as it grows by no more than it is asked to. -/
theorem Move.tiling {start : Nat} {v v' : Nat × List Blk} (h : Move (fun e n r => r = e + n) v v')
    (ht : Tiling start v.1 v.2) : Tiling start v'.1 v'.2 := by
  cases h with
  | @take e needed a b pre post _ _ =>
      have hone : Tiling start e (pre ++ [b] ++ post) := by simpa using ht
      exact hone.replace fun _ _ hb => hb.splitBlk needed a
  | @attach e _ needed _ _ hgrow =>
      refine tiling_append.2 ⟨e, ht, rfl, ?_⟩
      rw [hgrow, tiling_nil, Blk.limit, Nat.add_assoc, Nat.add_comm headerSize]
  | realign _ =>
      obtain ⟨w, hpre, hb, hpost⟩ := tiling_append.1 ht
      exact tiling_append.2 ⟨w, hpre, hb, hpost⟩
  | release _ => exact ht.release

end Blocks

/-! ## Runs that grow by pages -/

/-- `munux_c_heap_grow`, as the heap sees it: it fails, or moves the end on by whole pages. -/
def PageGrow (s : State) (grow : Nat → Nat) : Prop :=
  ∀ n, grow n = 0 ∨ grow n = s.heap.heapEnd + PageTable.pagesFor n * 4096

/-- The callback given to the call, if it takes one, grows by pages. -/
def Call.Paged (σ : Sys) : Call → Prop
  | .allocate _ grow => PageGrow σ.state grow
  | .allocateAligned _ _ grow => PageGrow σ.state grow
  | _ => True

/-- If the call grows the heap, then by a whole number of pages. -/
def Call.Whole (σ : Sys) (c : Call) : Prop := ∀ n r, c.Grows σ n r → 4096 ∣ n

/-- The states that runs of calls with property `P` reach from `Heap::new`. -/
def ReachableBy (P : Sys → Call → Prop) (start initialSize max : Nat) (σ : Sys) : Prop :=
  ∃ m s₀, new m start initialSize max = .ok s₀ ∧
    Relation.ReflTransGen (fun σ σ' => ∃ c : Call, P σ c ∧ c.Does start σ σ') ⟨s₀, []⟩ σ

/-- The headers that are met from the head, each with its payload, fill the heap from `start` to its
end. -/
def Tiles (start : Nat) (σ : Sys) : Prop :=
  σ.state.heap.head = start ∧ ∃ hs, Seg (nextOf σ.state.mem) σ.state.heap.head hs 0 ∧
    Seg (fun h => h + headerSize + sizeOf σ.state.mem h) start hs σ.state.heap.heapEnd

section Runs

variable {start initialSize max : Nat} {σ : Sys} {c : Call} {bs : List Blk}

theorem Tiling.seg {m : ByteMem} {lo hi : Nat} (h : Tiling lo hi bs)
    (hsize : ∀ b ∈ bs, sizeOf m b.addr = b.size) :
    Seg (fun h => h + headerSize + sizeOf m h) lo (bs.map Blk.addr) hi := by
  induction bs generalizing lo with
  | nil => exact h
  | cons b bs ih =>
      refine ⟨h.1.symm, ?_⟩
      simp only [hsize b List.mem_cons_self]
      exact ih h.2 fun c hc => hsize c (List.mem_cons_of_mem _ hc)

theorem Holding.tiles (h : Holding start σ bs) (ht : Tiling start σ.state.heap.heapEnd bs) :
    Tiles start σ :=
  ⟨h.rep.head, _, h.rep.linked, ht.seg fun b hb => (h.rep.holds b hb).size⟩

theorem pagesFor_of_dvd {n : Nat} (h : 4096 ∣ n) : PageTable.pagesFor n * 4096 = n := by
  unfold PageTable.pagesFor
  omega

/-- The end that a call grows to. -/
theorem Call.Paged.grows {n r : Nat} (h : c.Paged σ) (hgrows : c.Grows σ n r) :
    r = σ.state.heap.heapEnd + PageTable.pagesFor n * 4096 := by
  cases c with
  | allocate size grow =>
      obtain ⟨-, rfl, hacc⟩ := hgrows
      exact (h n).resolve_left fun hzero => hacc (Or.inl hzero)
  | allocateAligned size align grow =>
      obtain ⟨-, -, -, rfl, hacc⟩ := hgrows
      exact (h n).resolve_left fun hzero => hacc (Or.inl hzero)
  | deallocate _ => exact absurd hgrows id
  | deallocateAligned _ => exact absurd hgrows id
  | write _ _ => exact absurd hgrows id
  | elsewhere _ => exact absurd hgrows id

theorem tiling_reachable (hstart : 4 ∣ start) (hinit : 4 ∣ initialSize) (hle : initialSize ≤ max)
    (h : ReachableBy (fun σ c => c.Paged σ ∧ c.Whole σ) start initialSize max σ) :
    ∃ bs, Holding start σ bs ∧ Tiling start σ.state.heap.heapEnd bs := by
  obtain ⟨m, s₀, hnew, hrun⟩ := h
  induction hrun with
  | refl =>
      obtain ⟨hhold, -, hend⟩ := holding_new hstart hinit hle hnew
      have hlimit := hhold.rep.limit_le List.mem_cons_self
      refine ⟨_, hhold, rfl, ?_⟩
      simp only [Blk.limit, hend, tiling_nil] at hlimit ⊢
      omega
  | tail _ hstep ih =>
      obtain ⟨bs, hhold, ht⟩ := ih
      obtain ⟨c, ⟨hpaged, hwhole⟩, hdoes⟩ := hstep
      have hmoves := moves_call (G := fun e n r => r = e + n) hhold hdoes fun n r hgrows => by
        rw [hpaged.grows hgrows, pagesFor_of_dvd (hwhole n r hgrows)]
      obtain ⟨bs', hhold', -, ht'⟩ := hmoves.invariant
        (P := fun v => Tiling start v.1 v.2) (fun _ _ hmove => hmove.tiling) ht
      exact ⟨bs', hhold', ht'⟩

/-- **No byte leaves the list**, in runs that grow the heap by a whole number of pages only. -/
theorem tiles_whole (hstart : 4 ∣ start) (hinit : 4 ∣ initialSize) (hle : initialSize ≤ max)
    (h : ReachableBy (fun σ c => c.Paged σ ∧ c.Whole σ) start initialSize max σ) :
    Tiles start σ := by
  obtain ⟨bs, hhold, ht⟩ := tiling_reachable hstart hinit hle h
  exact hhold.tiles ht

/-- The kernel's heap after `Heap::new`. -/
def kernelHeap : State where
  mem := writeBlock (fun _ => 0) 0xC0000000 ⟨0xFFFF4, 1, 0⟩
  heap := ⟨0xC0000000, 0xC0100000, 0xD0000000⟩

/-- `munux_c_heap_grow`, called on that heap. -/
def kernelGrow (n : Nat) : Nat := 0xC0100000 + PageTable.pagesFor n * 4096

theorem growOk_kernelGrow (n : Nat) : GrowOk kernelHeap n (kernelGrow n) := by
  right
  change 4 ∣ 0xC0100000 + (n + 4095) / 4096 * 4096 ∧
    0xC0100000 + n ≤ 0xC0100000 + (n + 4095) / 4096 * 4096
  omega

/-- **A growth loses bytes.** A request for one megabyte makes the kernel's heap grow; its block
ends 12 bytes into the last page, and no block reaches from there to the end. -/
theorem bytes_lost :
    ∃ σ, ReachableBy Call.Paged 0xC0000000 0x100000 0x10000000 σ ∧ ¬Tiles 0xC0000000 σ := by
  have hnew : new (fun _ => 0) 0xC0000000 0x100000 0x10000000 = .ok kernelHeap := rfl
  have hrun : (allocate (callback kernelGrow) () kernelHeap 0x100000 >>= fun r => .ok
      [r.2.1.heap.head, r.2.1.heap.heapEnd, nextOf r.2.1.mem 0xC0000000,
        sizeOf r.2.1.mem 0xC0000000, nextOf r.2.1.mem 0xC0100000, sizeOf r.2.1.mem 0xC0100000]) =
      .ok [0xC0000000, 0xC0201000, 0xC0100000, 0xFFFF4, 0, 0x100000] := by
    decide +kernel
  obtain ⟨⟨p, s₁, ⟨⟩⟩, hcall, hfacts⟩ := Outcome.bind_eq_ok.1 hrun
  simp only [Outcome.ok.injEq, List.cons.injEq, and_true] at hfacts
  obtain ⟨hhead, hend, hnext, hsize, hnext', hsize'⟩ := hfacts
  refine ⟨⟨s₁, record [] p 0x100000 .plain⟩, ⟨_, _, hnew, .single
    ⟨.allocate 0x100000 kernelGrow, fun _ => Or.inr rfl, growOk_kernelGrow, p, hcall, rfl⟩⟩, ?_⟩
  intro htiles
  obtain ⟨-, hs, hlinked, htiled⟩ := htiles
  simp only [hhead] at hlinked
  simp only [hend] at htiled
  -- The list has two blocks, and the second ends short of the end of the heap.
  match hs, hlinked, htiled with
  | [], hlinked, _ => cases hlinked
  | [x], hlinked, _ =>
      obtain ⟨rfl, hnull⟩ := hlinked
      rw [seg_nil, hnext] at hnull
      cases hnull
  | x :: y :: [], hlinked, htiled =>
      obtain ⟨rfl, rfl, -⟩ := hlinked
      simp only [seg_cons, seg_nil, hnext, hsize'] at htiled
      exact absurd htiled.2.2 (by decide)
  | x :: y :: z :: hs, hlinked, htiled =>
      obtain ⟨rfl, rfl, hz, -⟩ := hlinked
      simp only [hnext, hnext'] at hz
      simp only [seg_cons, hnext, hsize', ← hz] at htiled
      exact absurd htiled.2.2.1 (by decide)

/-- A request that fills the new pages exactly leaves nothing over. -/
theorem tiles_whole_filled :
    ∃ σ, σ.state.heap.heapEnd = 0xC0201000 ∧ Tiles 0xC0000000 σ := by
  have hnew : new (fun _ => 0) 0xC0000000 0x100000 0x10000000 = .ok kernelHeap := rfl
  have hrun : (allocate (callback kernelGrow) () kernelHeap 0x100FF4 >>= fun r => .ok
      r.2.1.heap.heapEnd) = .ok 0xC0201000 := by
    decide +kernel
  obtain ⟨⟨p, s₁, ⟨⟩⟩, hcall, hend⟩ := Outcome.bind_eq_ok.1 hrun
  have hwhole : Call.Whole ⟨kernelHeap, []⟩ (.allocate 0x100FF4 kernelGrow) := by
    intro n r hgrows
    rw [hgrows.1.bytes]
    decide
  have hreach : ReachableBy (fun σ c => c.Paged σ ∧ c.Whole σ) 0xC0000000 0x100000 0x10000000
      ⟨s₁, record [] p 0x100FF4 .plain⟩ :=
    ⟨_, _, hnew, .single ⟨.allocate 0x100FF4 kernelGrow, ⟨fun _ => Or.inr rfl, hwhole⟩,
      growOk_kernelGrow, p, hcall, rfl⟩⟩
  exact ⟨_, Outcome.ok.inj hend, tiles_whole (by decide) (by decide) (by decide) hreach⟩

end Runs

end Munux.Heap
