import Munux.Heap.Tiling

/-!
# When the allocator answers at all

`munux_rs_alloc` and `munux_rs_alloc_aligned` promise a null pointer on failure. Their sums are
checked by the build, not by the code: `align_up` adds the alignment, `split_if_worthwhile` adds the
least remainder, `grow_and_attach` adds a header, and each of these halts the machine when it
leaves 32 bits. Only the slack of `allocate_aligned` is added with `checked_add`.

* `Roundable s size`: the sums that `allocate` makes for `size` bytes fit.
* `allocate_returns`: a call returns exactly when they do.
* `granted_iff`: in every state of every run, a call answers with null or with an allocation of its
  own if and only if its sums fit.
-/

namespace Munux.Heap

open ByteMem

/-- The sums of `allocate` for `size` bytes fit: the header of a new block, when no block is large
enough, and else the least block that is split. -/
def Roundable (s : State) (size : Nat) : Prop :=
  size = 0 ∨ wordsFor size + headerSize < wordCount ∧
    (NoFit s (wordsFor size) ∨ wordsFor size + minSplitRemainder < wordCount)

/-- The bytes that `allocate_aligned` asks `allocate` for. -/
def slackFor (size align : Nat) : Nat := size + Max.max align defaultAlign + word

/-- The sums of `allocate_aligned` fit. The request that does not is refused by the code itself. -/
def RoundableAligned (s : State) (size align : Nat) : Prop :=
  size = 0 ∨ isPowerOfTwo align = false ∨ wordCount ≤ slackFor size align ∨
    Roundable s (slackFor size align)

/-- The call returned null, or an allocation of its own: the heap is well formed with it. -/
def Granted (start max : Nat) (live : List Alloc) (size : Nat) (kind : Kind)
    (r : Outcome (Nat × State × Unit)) : Prop :=
  ∃ p s', r = .ok (p, s', ()) ∧
    (p = 0 ∨ ∃ hs os, RepInv start max ⟨s', ⟨p, size, kind⟩ :: live⟩ hs os)

section Overflow

variable {start initialSize max size align needed : Nat} {grow : Nat → Nat} {s : State} {σ : Sys}
variable {b : Blk} {bs : List Blk} {m : ByteMem}

theorem checkedAdd_returns {a b : Nat} : (∃ v, checkedAdd a b = .ok v) ↔ a + b < wordCount := by
  simp [checkedAdd_eq_ok]

/-- Rounding up is one checked sum. -/
theorem alignUp_returns {value k : Nat} :
    (∃ r, alignUp value (2 ^ k) = .ok r) ↔ value + 2 ^ k < wordCount := by
  have hpos : 1 ≤ 2 ^ k := Nat.two_pow_pos k
  rw [← checkedAdd_returns]
  simp only [alignUp, Outcome.bind_eq_ok, checkedAdd_eq_ok, checkedSub_eq_ok, Outcome.pure_eq,
    Outcome.ok.injEq]
  constructor
  · rintro ⟨_, _, hsum, _⟩
    exact ⟨_, hsum⟩
  · rintro ⟨v, hv⟩
    exact ⟨_, v, hv, _, ⟨rfl, by omega⟩, _, ⟨rfl, hpos⟩, rfl⟩

theorem splitIfWorthwhile_returns {block : Nat} :
    (∃ m', splitIfWorthwhile m block needed = .ok m') ↔
      needed + minSplitRemainder < wordCount := by
  rw [← checkedAdd_returns, splitIfWorthwhile, Outcome.bind_returns]
  refine exists_congr fun least => and_iff_left_of_imp ?_
  intro hleast
  obtain ⟨rfl, -⟩ := checkedAdd_eq_ok.1 hleast
  split_ifs with hworth
  · exact ⟨_, rfl⟩
  · -- What is left over after the split is positive.
    simp only [Nat.not_le, minSplitRemainder, headerSize] at hworth
    have hrest : checkedSub (sizeOf m block) needed = .ok (sizeOf m block - needed) :=
      checkedSub_eq_ok.2 ⟨rfl, by omega⟩
    have hrest' : checkedSub (sizeOf m block - needed) headerSize =
        .ok (sizeOf m block - needed - headerSize) :=
      checkedSub_eq_ok.2 ⟨rfl, by unfold headerSize; omega⟩
    rw [hrest, Outcome.ok_bind, hrest', Outcome.ok_bind]
    exact ⟨_, rfl⟩

theorem growAndAttach_returns {tail : Nat} :
    (∃ r, growAndAttach (callback grow) () s tail needed = .ok r) ↔
      needed + headerSize < wordCount := by
  rw [← checkedAdd_returns, growAndAttach, Outcome.bind_returns]
  refine exists_congr fun required => and_iff_left_of_imp ?_
  intro _
  split_ifs
  · exact ⟨_, rfl⟩
  · rw [callback, Outcome.ok_bind]
    simp only
    split_ifs
    · exact ⟨_, rfl⟩
    · exact ⟨_, rfl⟩

/-- **A call of `allocate` returns exactly when its sums fit.** -/
theorem allocate_returns (h : Rep start s bs) :
    (∃ r, allocate (callback grow) () s size = .ok r) ↔ Roundable s size := by
  unfold Roundable
  by_cases hzero : size = 0
  · simp [allocate, hzero]
  simp only [hzero, false_or]
  have hround := le_wordsFor size
  by_cases hword : size + defaultAlign < wordCount
  · have halign := alignUp_eq hword
    obtain ⟨pre, b, post, rfl, hfollow, hpre, hstop⟩ := firstFit_spec h (wordsFor size)
    have hfits := fits_iff (h.holds b (by simp)) (wordsFor size)
    by_cases hfit : fits s.mem (wordsFor size) b.addr = true
    · -- A block is large enough, so the list is not without one.
      have hsome : ¬NoFit s (wordsFor size) := by
        intro hnone
        rw [hnone _ h.inList] at hfit
        cases hfit
      simp only [allocate, if_neg hzero, halign, Outcome.ok_bind, hfollow, if_pos hfit, hsome,
        false_or]
      rw [and_iff_right_of_imp (by unfold minSplitRemainder; omega), Outcome.bind_returns,
        ← splitIfWorthwhile_returns]
      exact exists_congr fun m => and_iff_left ⟨_, rfl⟩
    · have hnone : NoFit s (wordsFor size) := by
        obtain rfl : post = [] := hstop.resolve_left fun hc => hfit (hfits.2 hc)
        exact h.noFit_of_last hpre hfit
      simp only [allocate, if_neg hzero, halign, Outcome.ok_bind, hfollow, if_neg hfit, hnone,
        true_or, and_true]
      exact growAndAttach_returns
  · -- The first sum is too large, and so are the later ones.
    unfold defaultAlign at hword
    refine iff_of_false ?_ fun hfit => hword ?_
    · rintro ⟨r, hr⟩
      simp only [allocate, if_neg hzero, Outcome.bind_eq_ok] at hr
      obtain ⟨needed, halign, -⟩ := hr
      exact hword ((alignUp_returns (k := 2)).1 ⟨needed, halign⟩)
    · have := hfit.1
      unfold headerSize at this
      omega

/-- What `allocate` hands out ends inside the address space. -/
theorem allocate_room {p : Nat} {s' : State} (h : Rep start s bs)
    (hgrow : ∀ n, GrowOk s n (grow n)) (hp : p ≠ 0)
    (hcall : allocate (callback grow) () s size = .ok (p, s', ())) : p + size < wordCount := by
  have hround := le_wordsFor size
  cases allocate_spec h hcall with
  | zero _ => exact absurd rfl hp
  | full _ _ => exact absurd rfl hp
  | denied _ _ _ => exact absurd rfl hp
  | @taken pre post b _ hbs _ hroom _ _ =>
      have hlim := h.limit_lt (b := b) (by simp [hbs])
      simp only [Blk.limit, Blk.payload] at hlim ⊢
      omega
  | @grown n r _ _ _ hcall _ _ hrep =>
      obtain rfl : grow n = r := (Prod.mk.inj (Outcome.ok.inj hcall)).1
      have hlim := (hrep (hgrow n)).limit_lt List.mem_concat_self
      simp only [Blk.limit] at hlim
      omega

/-- **A call of `allocate_aligned` returns exactly when its sums fit.** -/
theorem allocateAligned_returns (h : Rep start s bs) (hgrow : ∀ n, GrowOk s n (grow n)) :
    (∃ r, allocateAligned (callback grow) () s size align = .ok r) ↔
      RoundableAligned s size align := by
  unfold RoundableAligned allocateAligned slackFor
  by_cases hbad : size = 0 ∨ isPowerOfTwo align = false
  · rw [if_pos hbad, ← or_assoc]
    exact iff_of_true ⟨_, rfl⟩ (Or.inl hbad)
  rw [if_neg hbad]
  simp only [not_or, Bool.not_eq_false] at hbad
  simp only [hbad.1, hbad.2, Bool.true_eq_false, false_or]
  split_ifs with hover
  · exact iff_of_true ⟨_, rfl⟩ (Or.inl (by omega))
  rw [Outcome.bind_returns, ← allocate_returns h, or_iff_right (by omega)]
  refine exists_congr fun r => and_iff_left_of_imp ?_
  intro hcall
  obtain ⟨base, s₁, ⟨⟩⟩ := r
  simp only
  split_ifs with hbase
  · exact ⟨_, rfl⟩
  -- The sums after the call stay below the end of the block.
  obtain ⟨j, hj, halign⟩ := exists_pow_of_isPowerOfTwo hbad.2
  have hroom := allocate_room h hgrow hbase hcall
  rw [halign] at hroom ⊢
  have hfirst : checkedAdd base word = .ok (base + word) :=
    checkedAdd_eq_ok.2 ⟨rfl, by omega⟩
  obtain ⟨aligned, hup⟩ := alignUp_returns.2 (show base + word + 2 ^ j < wordCount by omega)
  have hslot : checkedSub aligned word = .ok (aligned - word) := by
    have := (alignUp_spec hj hup).1
    exact checkedSub_eq_ok.2 ⟨rfl, by omega⟩
  rw [hfirst, Outcome.ok_bind, hup, Outcome.ok_bind, hslot, Outcome.ok_bind]
  exact ⟨_, rfl⟩

theorem granted_of_moves {kind : Kind} {r : Outcome (Nat × State × Unit)} {P : Prop}
    (hreturns : (∃ v, r = .ok v) ↔ P) (hinv : Inv start max σ)
    (hmoves : ∀ bs, Holding start σ bs → ∀ p s', r = .ok (p, s', ()) →
      Moves (fun _ _ _ => True) start σ bs ⟨s', record σ.live p size kind⟩) :
    Granted start max σ.live size kind r ↔ P := by
  rw [← hreturns]
  constructor
  · rintro ⟨p, s', hcall, -⟩
    exact ⟨_, hcall⟩
  · rintro ⟨⟨p, s', ⟨⟩⟩, hcall⟩
    refine ⟨p, s', hcall, or_iff_not_imp_left.2 ?_⟩
    intro hp
    obtain ⟨bs, hrep, hperm, hmax⟩ := hinv
    obtain ⟨bs', -, hhold, hmax'⟩ := hmoves bs ⟨hrep, hperm⟩ p s' hcall
    rw [record, if_neg hp] at hhold hmax'
    exact ⟨_, hhold.repInv (hmax'.trans hmax)⟩

/-- **When the allocator answers.** In every state of every run, and for every callback that keeps
its contract, a call answers with null or with a valid allocation if and only if its sums fit. -/
theorem granted_iff (hstart : 4 ∣ start) (hinit : 4 ∣ initialSize) (hle : initialSize ≤ max)
    (h : Reachable start initialSize max σ) (hgrow : ∀ n, GrowOk σ.state n (grow n))
    (size align : Nat) :
    (Granted start max σ.live size .plain (allocate (callback grow) () σ.state size) ↔
      Roundable σ.state size) ∧
    (Granted start max σ.live size .aligned
        (allocateAligned (callback grow) () σ.state size align) ↔
      RoundableAligned σ.state size align) := by
  have hinv := inv_reachable hstart hinit hle h
  obtain ⟨bs, hrep, -⟩ := id hinv
  constructor
  · exact granted_of_moves (allocate_returns hrep) hinv fun bs hbs p s' hcall =>
      moves_step hbs (.allocate grow hgrow hcall)
  · exact granted_of_moves (allocateAligned_returns hrep hgrow) hinv fun bs hbs p s' hcall =>
      moves_step hbs (.allocateAligned grow hgrow hcall)

/-- **Large requests halt.** On the kernel's own heap, a size whose sums leave 32 bits ends in a
panic, with and without an alignment. -/
theorem allocate_halts :
    ∃ σ, Reachable 0xC0000000 0x100000 0x10000000 σ ∧ (∀ n, GrowOk σ.state n (kernelGrow n)) ∧
      allocate (callback kernelGrow) () σ.state 0xFFFFFFF1 = .panic ∧
      allocateAligned (callback kernelGrow) () σ.state 0xFFFFFFF0 4 = .panic ∧
      ¬Granted 0xC0000000 0x10000000 σ.live 0xFFFFFFF1 .plain
        (allocate (callback kernelGrow) () σ.state 0xFFFFFFF1) := by
  have hnew : new (fun _ => 0) 0xC0000000 0x100000 0x10000000 = .ok kernelHeap := rfl
  have hfault : ∀ {x : Outcome (Nat × State × Unit)}, (x >>= fun r => .ok r.1) = .panic →
      x = .panic := by
    intro x hx
    cases x with
    | ok r => cases hx
    | panic => rfl
    | diverge => cases hx
  have hplain : allocate (callback kernelGrow) () kernelHeap 0xFFFFFFF1 = .panic :=
    hfault (by decide +kernel)
  have haligned : allocateAligned (callback kernelGrow) () kernelHeap 0xFFFFFFF0 4 = .panic :=
    hfault (by decide +kernel)
  refine ⟨⟨kernelHeap, []⟩, ⟨_, _, hnew, .refl⟩, growOk_kernelGrow, hplain, haligned, ?_⟩
  rintro ⟨p, s', hcall, -⟩
  cases hplain.symm.trans hcall

/-- On that heap, requests that the first block can serve, and one that cannot be rounded up. -/
theorem granted_iff_kernelHeap :
    Granted 0xC0000000 0x10000000 [] 100 .plain
        (allocate (callback kernelGrow) () kernelHeap 100) ∧
      Granted 0xC0000000 0x10000000 [] 100 .aligned
        (allocateAligned (callback kernelGrow) () kernelHeap 100 64) ∧
      ¬Granted 0xC0000000 0x10000000 [] 0xFFFFFFF1 .plain
        (allocate (callback kernelGrow) () kernelHeap 0xFFFFFFF1) := by
  have hnew : new (fun _ => 0) 0xC0000000 0x100000 0x10000000 = .ok kernelHeap := rfl
  have hreach : Reachable 0xC0000000 0x100000 0x10000000 ⟨kernelHeap, []⟩ := ⟨_, _, hnew, .refl⟩
  have hiff := granted_iff (by decide) (by decide) (by decide) hreach growOk_kernelGrow
  have hround : ∀ size, size ≤ 200 → Roundable kernelHeap size := by
    intro size hsize
    refine .inr ⟨?_, .inr ?_⟩
    · unfold wordsFor headerSize wordCount
      omega
    · unfold wordsFor minSplitRemainder headerSize wordCount
      omega
  refine ⟨(hiff 100 64).1.2 (hround 100 (by decide)), (hiff 100 64).2.2 ?_, fun h => ?_⟩
  · exact .inr (.inr (.inr (hround _ (by decide))))
  · rcases (hiff 0xFFFFFFF1 64).1.1 h with hzero | ⟨hheader, -⟩
    · cases hzero
    · exact absurd hheader (by decide)

end Overflow

end Munux.Heap
