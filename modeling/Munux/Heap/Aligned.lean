import Munux.Heap.Overflow

/-!
# Aligned allocations

`allocate_aligned` asks `allocate` for more than its caller wants, returns an aligned address inside
that block, and writes the address of the block's payload in the word before it. The free reads the
word back. The word is not part of what the caller may write, and it lies in a block that stays in
use, so it is still there when the free comes.

* `InUse s h`: the list has a block in use at `h`.
* `step_keeps`: a step leaves the block of a live aligned allocation where it is.
* `aligned_recoverable`: the address is aligned and inside a block that `allocate` returned, and the
  free, after any run that leaves the allocation live, frees exactly that block.
-/

namespace Munux.Heap

open ByteMem

/-- The list has a block at `h`, and it is in use. -/
def InUse (s : State) (h : Nat) : Prop := InList s h ∧ isFreeOf s.mem h = 0

/-- A step of a run that leaves the allocation `a` live. -/
def StepKeeping (a : Alloc) (start : Nat) (σ σ' : Sys) : Prop := Step start σ σ' ∧ a ∈ σ'.live

section Blocks

variable {start : Nat} {s : State} {a : Alloc} {b c : Blk} {bs pre post : List Blk}

theorem Rep.inUse_iff (h : Rep start s bs) {x : Nat} :
    InUse s x ↔ ∃ c ∈ bs, c.owner ≠ none ∧ c.addr = x := by
  unfold InUse
  rw [h.inList_iff]
  constructor
  · rintro ⟨⟨c, hc, rfl⟩, hflag⟩
    refine ⟨c, hc, ?_, rfl⟩
    intro hfree
    rw [(h.holds c hc).flag, if_pos hfree] at hflag
    cases hflag
  · rintro ⟨c, hc, hown, rfl⟩
    exact ⟨⟨c, hc, rfl⟩, by rw [(h.holds c hc).flag, if_neg hown]⟩

theorem mem_mergeNext (hown : c.owner ≠ none) : c ∈ mergeNext bs ↔ c ∈ bs := by
  unfold mergeNext
  split
  · split_ifs with hfree
    · -- The two blocks that disappear are free, and so is the one that replaces them.
      have hne : ∀ {d : Blk}, d.owner = none → c ≠ d := fun hd hc => hown (hc ▸ hd)
      simp only [List.mem_cons, hne hfree.1, hne hfree.2, false_or, or_iff_right_iff_imp]
      exact fun hc => absurd hc (hne rfl)
    · rfl
  · rfl

theorem mem_release (hown : c.owner ≠ none) :
    c ∈ release pre b post ↔ c ∈ pre ∨ c ∈ post := by
  have hfreed : c ≠ { b with owner := none } := fun hc => hown (by rw [hc])
  unfold release
  rcases List.eq_nil_or_concat pre with rfl | ⟨pre, p, rfl⟩
  · simp [mem_mergeNext hown, hfreed]
  · simp only [List.concat_eq_append, List.getLast?_append, List.getLast?_singleton,
      Option.some_or, List.dropLast_concat, List.mem_append, mem_mergeNext hown, List.mem_cons,
      hfreed, false_or, List.not_mem_nil, or_false, or_assoc]

/-- No allocation owns two blocks. -/
theorem Rep.owners_nodup (h : Rep start s bs) : (owners bs).Nodup := by
  refine List.pairwise_filterMap.2 (h.layout.pairwise.imp_of_mem fun {b c} hb hc hle => ?_)
  rintro a hba a' hca rfl
  have hbfit := (h.holds b hb).fits a hba
  have hcfit := (h.holds c hc).fits a hca
  simp only [Blk.Fits, Blk.payload, Blk.limit, headerSize] at hbfit hcfit hle
  cases hk : a.kind <;> simp only [hk, word] at hbfit hcfit <;> omega

end Blocks

section Keeps

variable {start size p : Nat} {grow : Nat → Nat} {s s' : State} {σ σ' : Sys} {a : Alloc}
variable {b c : Blk} {bs pre post : List Blk}

/-- Blocks in use stay when `allocate` makes another one. -/
theorem allocate_keeps (h : Rep start s bs) (hgrow : ∀ n, GrowOk s n (grow n))
    (hcall : allocate (callback grow) () s size = .ok (p, s', ())) :
    ∃ bs', Rep start s' bs' ∧ (∀ c ∈ bs, c.owner ≠ none → c ∈ bs') ∧
      (p ≠ 0 → ∃ b ∈ bs', b.owner = some ⟨p, size, .plain⟩) := by
  cases allocate_spec h hcall with
  | zero _ => exact ⟨bs, h, fun c hc _ => hc, fun hp => absurd rfl hp⟩
  | full _ _ => exact ⟨bs, h, fun c hc _ => hc, fun hp => absurd rfl hp⟩
  | denied _ _ _ => exact ⟨bs, h, fun c hc _ => hc, fun hp => absurd rfl hp⟩
  | @taken pre post b _ hbs hfree _ _ hrep =>
      refine ⟨_, hrep, ?_, ?_⟩
      · intro c hc hown
        have hne : c ≠ b := fun hcb => hown (hcb ▸ hfree)
        simp only [hbs, List.mem_append, List.mem_cons, hne, false_or] at hc
        rcases hc with hc | hc <;> simp [hc]
      · intro _
        have hmem : ⟨b.payload, size, .plain⟩ ∈
            owners (splitBlk (wordsFor size) ⟨b.payload, size, .plain⟩ b) := by
          rw [owners_splitBlk]
          exact List.mem_singleton_self _
        obtain ⟨b', hb', hown⟩ := List.mem_filterMap.1 hmem
        exact ⟨b', by simp [hb'], hown⟩
  | @grown n r _ _ _ hcall _ _ hrep =>
      obtain rfl : grow n = r := (Prod.mk.inj (Outcome.ok.inj hcall)).1
      exact ⟨_, hrep (hgrow n), fun c hc _ => List.mem_append_left _ hc,
        fun _ => ⟨_, List.mem_concat_self, rfl⟩⟩

/-- Blocks in use stay when another one is freed. -/
theorem release_keeps {live : List Alloc} {a' : Alloc} (h : Holding start ⟨s, live⟩ bs)
    (hc : c ∈ bs) (hown : c.owner = some a) (ha' : a' ∈ live) (ha : a ∈ live.erase a') :
    ∃ b ∈ bs, b.owner = some a' ∧
      ∀ s', deallocate s b.payload = .ok s' → ∃ bs', Rep start s' bs' ∧ c ∈ bs' := by
  obtain ⟨hrep, hperm⟩ := h
  obtain ⟨pre, b, post, rfl, hbown⟩ := exists_block_of_mem_owners (hperm.symm.subset ha')
  refine ⟨b, by simp, hbown, ?_⟩
  intro s' hcall
  have hne : c ≠ b := by
    rintro rfl
    obtain rfl : a = a' := Option.some.inj (hown.symm.trans hbown)
    exact (hperm.nodup hrep.owners_nodup).not_mem_erase ha
  have hc' : c ∈ pre ∨ c ∈ post := by
    simpa only [List.mem_append, List.mem_cons, hne, false_or] using hc
  obtain ⟨s'', hcall', hrep'⟩ := deallocate_spec hrep
  obtain rfl : s'' = s' := Outcome.ok.inj (hcall'.symm.trans hcall)
  exact ⟨_, hrep', (mem_release (by simp [hown])).2 hc'⟩

/-- **A step leaves the block of a live aligned allocation where it is.** -/
theorem step_keeps (h : Holding start σ bs) (hc : c ∈ bs) (hown : c.owner = some a)
    (hkind : a.kind = .aligned) (hstep : StepKeeping a start σ σ') :
    ∃ bs', Rep start σ'.state bs' ∧ c ∈ bs' := by
  have hused : c.owner ≠ none := by simp [hown]
  obtain ⟨hstep, ha⟩ := hstep
  cases hstep with
  | allocate grow hgrow hcall =>
      obtain ⟨bs', hrep, hkeep, -⟩ := allocate_keeps h.rep hgrow hcall
      exact ⟨bs', hrep, hkeep c hc hused⟩
  | deallocate ha' hkind' hcall =>
      obtain ⟨b, hb, hbown, hfreed⟩ := release_keeps h hc hown ha' ha
      have hptr := ((h.rep.holds b hb).fits _ hbown).2
      simp only [hkind'] at hptr
      exact hfreed _ (hptr ▸ hcall)
  | @allocateAligned _ _ _ size _ _ grow hgrow hcall =>
      rcases allocateAligned_cases hcall with ⟨-, rfl, -⟩ | ⟨-, -, base, s₁, hplain, hrest⟩
      · exact ⟨bs, h.rep, hc⟩
      obtain ⟨bs₁, hrep, hkeep, hnew⟩ := allocate_keeps h.rep hgrow hplain
      rcases hrest with ⟨-, -, rfl⟩ | ⟨hbase, hge, hlt, -, rfl⟩
      · exact ⟨bs₁, hrep, hkeep c hc hused⟩
      obtain ⟨b, hb, hbown⟩ := hnew hbase
      obtain ⟨pre, post, rfl⟩ := List.append_of_mem hb
      obtain ⟨hroom, hptr⟩ := (hrep.holds b hb).fits _ hbown
      simp only at hroom hptr
      subst hptr
      have hne : c ≠ b := by
        rintro rfl
        rw [Option.some.inj (hown.symm.trans hbown)] at hkind
        cases hkind
      have hc₁ := hkeep c hc hused
      simp only [List.mem_append, List.mem_cons, hne, false_or] at hc₁
      refine ⟨_, realign_spec hrep size hge (by omega) (by simp [hbown]), ?_⟩
      rcases hc₁ with hc₁ | hc₁ <;> simp [hc₁]
  | deallocateAligned ha' hkind' hcall =>
      obtain ⟨b, hb, hbown, hfreed⟩ := release_keeps h hc hown ha' ha
      rw [deallocateAligned_eq h.rep hb hbown hkind'] at hcall
      exact hfreed _ hcall
  | write ha' hm =>
      refine ⟨bs, h.write fun i _ _ hfree => hm i ?_, hc⟩
      have := hfree _ ha'
      omega
  | elsewhere hm => exact ⟨bs, h.write fun i hlo hhi _ => hm i hlo hhi, hc⟩

/-- The back-pointer survives every run that leaves the allocation live. -/
theorem run_keeps {max : Nat} (hinv : Inv start max σ) (ha : a ∈ σ.live) (hkind : a.kind = .aligned)
    (hrun : Relation.ReflTransGen (StepKeeping a start) σ σ') :
    Inv start max σ' ∧ a ∈ σ'.live ∧
      load32 σ'.state.mem (a.ptr - word) = load32 σ.state.mem (a.ptr - word) := by
  induction hrun with
  | refl => exact ⟨hinv, ha, rfl⟩
  | tail _ hstep ih =>
      obtain ⟨hinv₁, ha₁, hword⟩ := ih
      refine ⟨hinv₁.moves fun bs hbs => moves_step hbs hstep.1, hstep.2, ?_⟩
      obtain ⟨bs, hrep, hperm, -⟩ := hinv₁
      obtain ⟨pre, c, post, rfl, hown⟩ := exists_block_of_mem_owners (hperm.symm.subset ha₁)
      have hc : c ∈ pre ++ c :: post := by simp
      obtain ⟨bs', hrep', hc'⟩ := step_keeps ⟨hrep, hperm⟩ hc hown hkind hstep
      rw [← hword, (hrep.holds c hc).back a hown hkind, (hrep'.holds c hc').back a hown hkind]

/-- The free of a live aligned allocation frees the block that its back-pointer names. -/
theorem deallocateAligned_frees {max : Nat} (hinv : Inv start max σ) (ha : a ∈ σ.live)
    (hkind : a.kind = .aligned) :
    ∃ s', deallocateAligned σ.state a.ptr = .ok s' ∧
      deallocate σ.state (load32 σ.state.mem (a.ptr - word)) = .ok s' ∧
      InUse σ.state (load32 σ.state.mem (a.ptr - word) - headerSize) ∧
      ∀ h, InUse s' h ↔
        InUse σ.state h ∧ h ≠ load32 σ.state.mem (a.ptr - word) - headerSize := by
  obtain ⟨bs, hrep, hperm, -⟩ := hinv
  obtain ⟨pre, b, post, rfl, hown⟩ := exists_block_of_mem_owners (hperm.symm.subset ha)
  have hb : b ∈ pre ++ b :: post := by simp
  have hused : b.owner ≠ none := by simp [hown]
  obtain ⟨s', hcall, hrep'⟩ := deallocate_spec hrep
  have haddr : b.payload - headerSize = b.addr := Nat.add_sub_cancel _ _
  rw [deallocateAligned_eq hrep hb hown hkind, (hrep.holds b hb).back a hown hkind, haddr]
  refine ⟨s', hcall, hcall, hrep.inUse_iff.2 ⟨b, hb, hused, rfl⟩, ?_⟩
  intro h
  rw [hrep.inUse_iff, hrep'.inUse_iff]
  constructor
  · rintro ⟨c, hc, hcused, rfl⟩
    have hc' := (mem_release hcused).1 hc
    refine ⟨⟨c, by rcases hc' with hc' | hc' <;> simp [hc'], hcused, rfl⟩, ?_⟩
    rcases hc' with hc' | hc'
    · exact (addr_lt_of_limit_le (hrep.before hc')).ne
    · exact (addr_lt_of_limit_le (hrep.after hc')).ne'
  · rintro ⟨⟨c, hc, hcused, rfl⟩, hne⟩
    have hcb : c ≠ b := fun hcb => hne (by rw [hcb])
    refine ⟨c, (mem_release hcused).2 ?_, hcused, rfl⟩
    simpa only [List.mem_append, List.mem_cons, hcb, false_or] using hc

end Keeps

section Aligned

variable {start initialSize max size align p : Nat} {grow : Nat → Nat} {s' : State} {σ : Sys}

/-- **Aligned, contained and recoverable.** An aligned allocation lies, with the word before it, in
the payload of the block that `allocate` has just returned, and after any run that leaves it live
`deallocate_aligned` frees that block and no other. -/
theorem aligned_recoverable (hstart : 4 ∣ start) (hinit : 4 ∣ initialSize) (hle : initialSize ≤ max)
    (h : Reachable start initialSize max σ) (hgrow : ∀ n, GrowOk σ.state n (grow n))
    (hcall : allocateAligned (callback grow) () σ.state size align = .ok (p, s', ()))
    (hp : p ≠ 0) :
    Max.max align defaultAlign ∣ p ∧
      ∃ base s₁, allocate (callback grow) () σ.state (slackFor size align) = .ok (base, s₁, ()) ∧
        headerSize ≤ base ∧ InUse s₁ (base - headerSize) ∧ word ≤ p ∧
        Set.Ico (p - word) (p + size) ⊆ payloadRange s₁.mem (base - headerSize) ∧
        ∀ σ', Relation.ReflTransGen (StepKeeping ⟨p, size, .aligned⟩ start)
            ⟨s', ⟨p, size, .aligned⟩ :: σ.live⟩ σ' →
          ∃ s'', deallocateAligned σ'.state p = .ok s'' ∧ deallocate σ'.state base = .ok s'' ∧
            InUse σ'.state (base - headerSize) ∧
            ∀ h, InUse s'' h ↔ InUse σ'.state h ∧ h ≠ base - headerSize := by
  have hinv := inv_reachable hstart hinit hle h
  have hrec : record σ.live p size .aligned = ⟨p, size, .aligned⟩ :: σ.live := if_neg hp
  have hinv' : Inv start max ⟨s', ⟨p, size, .aligned⟩ :: σ.live⟩ :=
    hrec ▸ hinv.moves fun bs hbs => moves_step hbs (.allocateAligned grow hgrow hcall)
  rcases allocateAligned_cases hcall with ⟨hzero, -⟩ | ⟨-, -, base, s₁, hplain, hrest⟩
  · exact absurd hzero hp
  rcases hrest with ⟨-, hzero, -⟩ | ⟨hbase, hge, hlt, hdvd, rfl⟩
  · exact absurd hzero hp
  obtain ⟨bs, hrep, -⟩ := hinv
  obtain ⟨bs₁, hrep₁, -, hnew⟩ := allocate_keeps hrep hgrow hplain
  obtain ⟨b, hb, hown⟩ := hnew hbase
  obtain ⟨hroom, hptr⟩ := (hrep₁.holds b hb).fits _ hown
  simp only at hroom hptr
  have haddr : base - headerSize = b.addr := by rw [hptr]; exact Nat.add_sub_cancel _ _
  have hlimit : base + sizeOf s₁.mem b.addr = b.limit := by
    rw [hptr, (hrep₁.holds b hb).size]
    rfl
  refine ⟨hdvd, base, s₁, hplain, ?_, ?_, by omega, ?_, ?_⟩
  · rw [hptr, Blk.payload]
    omega
  · rw [haddr]
    exact hrep₁.inUse_iff.2 ⟨b, hb, by simp [hown], rfl⟩
  · rw [payloadRange, haddr]
    refine Set.Ico_subset_Ico ?_ ?_
    · change b.payload ≤ _
      omega
    · change _ ≤ b.payload + _
      rw [← hptr, hlimit]
      omega
  · intro σ' hrun
    obtain ⟨hinv₂, hlive, hword⟩ := run_keeps hinv' List.mem_cons_self rfl hrun
    have hback : load32 (store32 s₁.mem (p - word) base) (p - word) = base := by
      have hlim := hrep₁.limit_lt hb
      rw [← hlimit] at hlim
      exact load32_store32 _ _ (lt_of_le_of_lt (Nat.le_add_right _ _) hlim)
    simp only [hback] at hword
    have hfrees := deallocateAligned_frees hinv₂ hlive rfl
    simpa only [hword] using hfrees

/-- A hundred bytes on a multiple of 64: the block at the start of the kernel's heap hosts them. -/
theorem aligned_recoverable_kernelHeap :
    ∃ s' s'', allocateAligned (callback kernelGrow) () kernelHeap 100 64 =
        .ok (0xC0000040, s', ()) ∧
      deallocateAligned s' 0xC0000040 = .ok s'' ∧ deallocate s' 0xC000000C = .ok s'' ∧
      ¬InUse s'' 0xC0000000 := by
  have hnew : new (fun _ => 0) 0xC0000000 0x100000 0x10000000 = .ok kernelHeap := rfl
  have hreach : Reachable 0xC0000000 0x100000 0x10000000 ⟨kernelHeap, []⟩ := ⟨_, _, hnew, .refl⟩
  have hrun : (allocateAligned (callback kernelGrow) () kernelHeap 100 64 >>= fun r => .ok r.1) =
      .ok 0xC0000040 := by decide +kernel
  have hrun' : (allocate (callback kernelGrow) () kernelHeap 168 >>= fun r => .ok r.1) =
      .ok 0xC000000C := by decide +kernel
  obtain ⟨⟨p, s', ⟨⟩⟩, hcall, hp⟩ := Outcome.bind_eq_ok.1 hrun
  obtain rfl : p = 0xC0000040 := Outcome.ok.inj hp
  obtain ⟨-, base, s₁, hplain, -, -, -, -, hfree⟩ :=
    aligned_recoverable (by decide) (by decide) (by decide) hreach growOk_kernelGrow hcall
      (by decide)
  have hbase : base = 0xC000000C := by
    have hsame := hplain ▸ hrun'
    exact Outcome.ok.inj hsame
  obtain ⟨s'', hfreed, hfreed', -, huse⟩ := hfree _ .refl
  rw [hbase] at hfreed' huse
  exact ⟨s', s'', hcall, hfreed, hfreed', fun h => ((huse _).1 h).2 rfl⟩

end Aligned

end Munux.Heap
