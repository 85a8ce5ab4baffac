import Munux.Heap.Moves
import Mathlib.Data.Set.Lattice
import Mathlib.Order.CompletePartialOrder
import Mathlib.Order.Interval.Set.Basic
import Mathlib.Data.List.Forall2

/-!
# The heap over whole runs

In every run of the allocator the linked headers stay a well-formed, address-ordered list, and no
two live allocations, and no allocation and no header, ever share a byte.

* `Inv`: the state holds some sequence of blocks whose owners are the live allocations.
* `RepInv`: what that means for the bytes in memory, without mentioning blocks.
-/

namespace Munux.Heap

open ByteMem

/-! ## The invariant -/

/-- The state holds a sequence of blocks whose owners are exactly the live allocations. -/
def Inv (start max : Nat) (s : Sys) : Prop :=
  ∃ bs, Rep start s.state bs ∧ (owners bs).Perm s.live ∧ s.state.heap.max = start + max

section Steps

variable {start initialSize max : Nat} {s : State} {m : ByteMem} {bs : List Blk}

/-- A new heap is one free block. -/
theorem holding_new (hstart : 4 ∣ start) (hinit : 4 ∣ initialSize) (hle : initialSize ≤ max)
    (hnew : new m start initialSize max = .ok s) :
    Holding start ⟨s, []⟩ [⟨start, initialSize - headerSize, none⟩] ∧ s.heap.max = start + max ∧
      s.heap.heapEnd = start + initialSize := by
  unfold new at hnew
  simp only [Outcome.bind_eq_ok, checkedSub_eq_ok, checkedAdd_eq_ok, Outcome.pure_eq,
    Outcome.ok.injEq] at hnew
  obtain ⟨_, ⟨rfl, hheader⟩, _, ⟨rfl, -⟩, _, ⟨rfl, hmax⟩, rfl⟩ := hnew
  refine ⟨⟨?_, by simp [Heap.owners]⟩, rfl, rfl⟩
  exact {
    head := rfl
    linked := ⟨rfl, nextOf_writeBlock (show 0 < wordCount by decide)⟩
    nonempty := by simp
    layout := ⟨le_rfl, hstart, by simp only [layout_nil, Blk.limit]; omega⟩
    holds := by
      intro b hb
      rw [List.mem_singleton] at hb
      subst hb
      exact .free (sizeOf_writeBlock (show initialSize - headerSize < wordCount by omega))
        (isFreeOf_writeBlock (show 1 < wordCount by decide))
    endAligned := (Nat.dvd_add_right hstart).2 hinit
    endLe := by simp only; omega
    maxLt := hmax }

theorem Inv.moves {G : Nat → Nat → Nat → Prop} {σ σ' : Sys} (hinv : Inv start max σ)
    (hmoves : ∀ bs, Holding start σ bs → Moves G start σ bs σ') : Inv start max σ' := by
  obtain ⟨bs, hrep, hperm, hmax⟩ := hinv
  obtain ⟨bs', -, ⟨hrep', hperm'⟩, hmax'⟩ := hmoves bs ⟨hrep, hperm⟩
  exact ⟨bs', hrep', hperm', hmax'.trans hmax⟩

theorem inv_reachable {σ : Sys} (hstart : 4 ∣ start) (hinit : 4 ∣ initialSize)
    (hle : initialSize ≤ max) (h : Reachable start initialSize max σ) : Inv start max σ := by
  obtain ⟨m, s₀, hnew, hrun⟩ := h
  induction hrun with
  | refl =>
      obtain ⟨⟨hrep, hperm⟩, hmax, -⟩ := holding_new hstart hinit hle hnew
      exact ⟨_, hrep, hperm, hmax⟩
  | tail _ hstep ih => exact ih.moves fun bs hbs => moves_step hbs hstep

end Steps

/-! ## What the invariant says about memory -/

/-- The twelve bytes of the header at `h`. -/
def headerRange (h : Nat) : Set Nat := Set.Ico h (h + headerSize)

/-- The payload bytes of the block at `h`. -/
def payloadRange (m : ByteMem) (h : Nat) : Set Nat :=
  Set.Ico (h + headerSize) (h + headerSize + sizeOf m h)

/-- The bytes that the owner of `a` asked for. -/
def Alloc.range (a : Alloc) : Set Nat := Set.Ico a.ptr (a.ptr + a.size)

/-- The representation invariant, read off the bytes: `hs` are the headers met from `head`, and
`os` the headers of the blocks that host the live allocations, one each. -/
structure RepInv (start max : Nat) (s : Sys) (hs os : List Nat) : Prop where
  linked : Seg (nextOf s.state.mem) s.state.heap.head hs 0
  acyclic : hs.Nodup
  aligned : ∀ h ∈ hs, 4 ∣ h
  increasing : hs.Pairwise (· < ·)
  inside : ∀ h ∈ hs, start ≤ h ∧ h + headerSize + sizeOf s.state.mem h ≤ s.state.heap.heapEnd
  spaced : hs.Pairwise fun h h' => h + headerSize + sizeOf s.state.mem h ≤ h'
  bounded : s.state.heap.heapEnd ≤ start + max
  hosts : List.Forall₂ (fun a h => h ∈ hs ∧ a.range ⊆ payloadRange s.state.mem h ∧
    a.size ≤ sizeOf s.state.mem h) s.live os
  apart : os.Pairwise fun h h' =>
    Disjoint (payloadRange s.state.mem h) (payloadRange s.state.mem h')
  headers : ∀ o ∈ os, ∀ h ∈ hs, Disjoint (payloadRange s.state.mem o) (headerRange h)

/-- No call of the allocator that its users may make runs for ever. -/
def Returns (s : Sys) : Prop :=
  (∀ size grow, allocate (callback grow) () s.state size ≠ .diverge) ∧
  (∀ size align grow, allocateAligned (callback grow) () s.state size align ≠ .diverge) ∧
  (∀ a ∈ s.live, a.kind = .plain → ∃ s', deallocate s.state a.ptr = .ok s') ∧
  (∀ a ∈ s.live, a.kind = .aligned → ∃ s', deallocateAligned s.state a.ptr = .ok s')

section Reading

variable {start initialSize max : Nat} {σ : Sys} {s : State} {bs : List Blk}

theorem disjoint_Ico_of_le {a b c d : Nat} (h : b ≤ c ∨ d ≤ a) :
    Disjoint (Set.Ico a b) (Set.Ico c d) := by
  rw [Set.disjoint_left]
  intro i hi hi'
  simp only [Set.mem_Ico] at hi hi'
  omega

/-- The blocks in use, each with its owner. -/
theorem forall₂_owners (bs : List Blk) :
    List.Forall₂ (fun a b => b.owner = some a) (owners bs) (bs.filter (·.owner.isSome)) := by
  induction bs with
  | nil => exact List.Forall₂.nil
  | cons b bs ih =>
      cases ho : b.owner with
      | none => simpa [owners, ho] using ih
      | some a => simpa [owners, ho] using ih

theorem Holding.repInv (h : Holding start σ bs) (hmax : σ.state.heap.max = start + max) :
    ∃ os, RepInv start max σ (bs.map Blk.addr) os := by
  obtain ⟨hrep, hperm⟩ := h
  -- Line the hosting blocks up with the ledger.
  obtain ⟨us, hus, hperm'⟩ := List.perm_comp_forall₂ hperm.symm (forall₂_owners bs)
  have hmem : ∀ b ∈ us, b ∈ bs := fun b hb =>
    List.mem_of_mem_filter (hperm'.subset hb)
  have hsize : ∀ b ∈ bs, sizeOf σ.state.mem b.addr = b.size := fun b hb => (hrep.holds b hb).size
  have hlimit : ∀ b ∈ bs, b.addr + headerSize + sizeOf σ.state.mem b.addr = b.limit :=
    fun b hb => by rw [hsize b hb, Blk.limit]
  refine ⟨us.map Blk.addr, ?_⟩
  exact {
    linked := hrep.linked
    acyclic := hrep.layout.nodup
    aligned := by
      simp only [List.mem_map, forall_exists_index, and_imp, forall_apply_eq_imp_iff₂]
      exact fun b hb => (hrep.layout.mem hb).2.1
    increasing := hrep.layout.increasing
    inside := by
      simp only [List.mem_map, forall_exists_index, and_imp, forall_apply_eq_imp_iff₂]
      exact fun b hb => ⟨(hrep.layout.mem hb).1, hlimit b hb ▸ hrep.limit_le hb⟩
    spaced := by
      refine List.pairwise_map.2 (hrep.layout.pairwise.imp_of_mem fun {b c} hb _ hle => ?_)
      rw [hlimit b hb]
      exact hle
    bounded := hmax ▸ hrep.endLe
    hosts := by
      have hin := (List.forall₂_and_left (p := (· ∈ bs)) us σ.live).2 ⟨hmem, hus.flip⟩
      refine List.forall₂_map_right_iff.2 (hin.flip.imp ?_)
      intro a b hhost
      obtain ⟨hb, hown⟩ := hhost
      obtain ⟨hroom, hplace⟩ := (hrep.holds b hb).fits a hown
      have hlo : b.addr + headerSize ≤ a.ptr := by
        cases hk : a.kind <;> simp only [hk, Blk.payload] at hplace <;> omega
      refine ⟨List.mem_map.2 ⟨b, hb, rfl⟩, ?_, ?_⟩
      · rw [Alloc.range, payloadRange, hlimit b hb]
        exact Set.Ico_subset_Ico hlo hroom
      · rw [hsize b hb]
        rw [Blk.limit] at hroom
        omega
    apart := by
      refine List.pairwise_map.2 ((hperm'.pairwise_iff fun {b c} h => h.symm).2 ?_)
      have hlay := hrep.layout.pairwise.filter (fun b => b.owner.isSome)
      refine hlay.imp_of_mem fun {b c} hb _ hle => disjoint_Ico_of_le (Or.inl ?_)
      rw [hlimit b (List.mem_of_mem_filter hb)]
      omega
    headers := by
      simp only [List.mem_map, forall_exists_index, and_imp, forall_apply_eq_imp_iff₂]
      intro o ho c hc
      have hob := hmem o ho
      rw [payloadRange, headerRange, hlimit o hob]
      obtain ⟨pre, post, rfl⟩ := List.append_of_mem hob
      apply disjoint_Ico_of_le
      rcases List.mem_append.1 hc with hc | hc
      · have := hrep.before hc
        rw [Blk.limit] at this
        omega
      · rcases List.mem_cons.1 hc with rfl | hc
        · omega
        · exact Or.inl (hrep.after hc) }

theorem allocate_ne_diverge (h : Rep start s bs) (size : Nat) (grow : Nat → Nat) :
    allocate (callback grow) () s size ≠ .diverge := by
  intro hdiv
  unfold allocate at hdiv
  split_ifs at hdiv
  simp only [Outcome.bind_eq_diverge] at hdiv
  rcases hdiv with hdiv | ⟨needed, -, hdiv | ⟨current, -, hdiv⟩⟩
  · simp only [alignUp, Outcome.bind_eq_diverge, checkedSub_ne_diverge, Outcome.pure_eq,
      reduceCtorEq, and_false, exists_false, or_false, checkedAdd, checked_ne_diverge] at hdiv
  · obtain ⟨_, _, _, _, hfollow, -⟩ := firstFit_spec h needed
    rw [hfollow] at hdiv
    cases hdiv
  · split_ifs at hdiv
    · simp only [splitIfWorthwhile, Outcome.bind_eq_diverge, Outcome.pure_eq, reduceCtorEq,
        and_false, exists_false, or_false, checkedAdd, checked_ne_diverge, false_or] at hdiv
      obtain ⟨_, -, hdiv⟩ := hdiv
      split_ifs at hdiv
      simp only [Outcome.bind_eq_diverge, checkedSub_ne_diverge, reduceCtorEq, and_false,
        exists_false, or_false] at hdiv
    · simp only [growAndAttach, Outcome.bind_eq_diverge, checkedAdd, checked_ne_diverge,
        false_or] at hdiv
      obtain ⟨_, -, hdiv⟩ := hdiv
      split_ifs at hdiv
      simp only [callback, Outcome.bind_eq_diverge, reduceCtorEq, false_or] at hdiv
      obtain ⟨_, -, hdiv⟩ := hdiv
      split_ifs at hdiv

theorem returns_of_inv (hinv : Inv start max σ) : Returns σ := by
  obtain ⟨bs, hrep, hperm, -⟩ := hinv
  refine ⟨fun size grow => allocate_ne_diverge hrep size grow, ?_,
    ?_, ?_⟩
  · intro size align grow hdiv
    unfold allocateAligned at hdiv
    split_ifs at hdiv
    simp only at hdiv
    split_ifs at hdiv
    simp only [Outcome.bind_eq_diverge, allocate_ne_diverge hrep, false_or] at hdiv
    obtain ⟨⟨base, t, ⟨⟩⟩, -, hdiv⟩ := hdiv
    split_ifs at hdiv
    simp only [alignUp, Outcome.bind_eq_diverge, checkedAdd, checked_ne_diverge,
      checkedSub_ne_diverge, Outcome.pure_eq, reduceCtorEq, and_false, exists_false,
      or_false] at hdiv
  · intro a ha hk
    obtain ⟨s', hcall, -⟩ := moves_deallocate (G := fun _ _ _ => True) ⟨hrep, hperm⟩ ha hk
    exact ⟨s', hcall⟩
  · intro a ha hk
    obtain ⟨s', hcall, -⟩ := moves_deallocateAligned (G := fun _ _ _ => True) ⟨hrep, hperm⟩ ha hk
    exact ⟨s', hcall⟩

/-- **The heap representation invariant.** In every state that a run from `Heap::new` reaches, the
headers form a finite, acyclic, word-aligned, address-ordered list of blocks inside the heap, every
live allocation has a payload of its own that is large enough, and no later call can fail to
return. -/
theorem reachable_repInv {s : Sys} (hstart : 4 ∣ start) (hinit : 4 ∣ initialSize)
    (hle : initialSize ≤ max) (h : Reachable start initialSize max s) :
    (∃ hs os, RepInv start max s hs os) ∧ Returns s := by
  have hinv := inv_reachable hstart hinit hle h
  obtain ⟨bs, hrep, hperm, hmax⟩ := id hinv
  exact ⟨⟨_, Holding.repInv ⟨hrep, hperm⟩ hmax⟩, returns_of_inv hinv⟩

/-- A one-page heap after one allocation of 100 bytes. -/
theorem reachable_one_page : ∃ s, Reachable 4096 4096 8192 ⟨s, [⟨4108, 100, .plain⟩]⟩ := by
  let m : ByteMem := writeBlock (fun _ => 0) 4096 ⟨4084, 1, 0⟩
  let s₀ : State := ⟨m, ⟨4096, 8192, 12288⟩⟩
  have hnew : new (fun _ => 0) 4096 4096 8192 = .ok s₀ := rfl
  have hptr : (allocate (callback fun _ => 0) () s₀ 100 >>= fun r => .ok r.1) = .ok 4108 := by
    decide +kernel
  obtain ⟨⟨_, s₁, ⟨⟩⟩, hcall, rfl⟩ : ∃ r, allocate (callback fun _ => 0) () s₀ 100 = .ok r ∧
      r.1 = 4108 := by
    simpa only [Outcome.bind_eq_ok, Outcome.ok.injEq] using hptr
  exact ⟨s₁, _, s₀, hnew, .single (.allocate (fun _ => 0) (fun _ => Or.inl rfl) hcall)⟩

theorem reachable_repInv_one_page :
    ∃ s, Reachable 4096 4096 8192 s ∧ s.live = [⟨4108, 100, .plain⟩] ∧
      (∃ hs os, RepInv 4096 8192 s hs os) ∧ Returns s := by
  obtain ⟨s, hreach⟩ := reachable_one_page
  exact ⟨_, hreach, rfl, reachable_repInv (by decide) (by decide) (by decide) hreach⟩

end Reading

end Munux.Heap
