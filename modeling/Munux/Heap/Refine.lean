import Munux.Heap.Blocks

/-!
# Every call is a step on the sequence of blocks

The allocator writes words; the specification speaks of blocks. This file carries each function
across: run on a state that holds the blocks `bs`, it leaves a state that holds the blocks one
expects, and nothing outside the blocks it touched has changed.

* `splitBlk`, `mergeNext`, `release`: what the code does to the sequence.
* `Rep.replace`: the frame rule. Rewriting a run of blocks in place keeps the rest.
* `allocate_spec`, `deallocate_spec`: the two entry points, as steps on the sequence.
-/

namespace Munux.Heap

open ByteMem

/-! ## Header fields after a write -/

section Fields

variable {m m' : ByteMem} {h h' v : Nat} {b : Block}

@[simp] theorem sizeOf_setIsFree : sizeOf (setIsFree m h v) h = sizeOf m h :=
  load32_store32_of_disjoint _ _ (by omega)

@[simp] theorem nextOf_setIsFree : nextOf (setIsFree m h v) h = nextOf m h :=
  load32_store32_of_disjoint _ _ (by omega)

@[simp] theorem sizeOf_setNext : sizeOf (setNext m h v) h = sizeOf m h :=
  load32_store32_of_disjoint _ _ (by omega)

@[simp] theorem isFreeOf_setNext : isFreeOf (setNext m h v) h = isFreeOf m h :=
  load32_store32_of_disjoint _ _ (by omega)

@[simp] theorem isFreeOf_setSize : isFreeOf (setSize m h v) h = isFreeOf m h :=
  load32_store32_of_disjoint _ _ (by omega)

@[simp] theorem nextOf_setSize : nextOf (setSize m h v) h = nextOf m h :=
  load32_store32_of_disjoint _ _ (by omega)

theorem sizeOf_setSize (hv : v < wordCount) : sizeOf (setSize m h v) h = v :=
  load32_store32 _ _ hv

theorem isFreeOf_setIsFree (hv : v < wordCount) : isFreeOf (setIsFree m h v) h = v :=
  load32_store32 _ _ hv

theorem nextOf_setNext (hv : v < wordCount) : nextOf (setNext m h v) h = v :=
  load32_store32 _ _ hv

theorem setSize_sameOutside : SameOutside m (setSize m h v) h (h + headerSize) :=
  store32_sameOutside _ _ _ le_rfl (by simp [headerSize])

theorem setIsFree_sameOutside : SameOutside m (setIsFree m h v) h (h + headerSize) :=
  store32_sameOutside _ _ _ (by omega) (by simp [headerSize])

theorem setNext_sameOutside : SameOutside m (setNext m h v) h (h + headerSize) :=
  store32_sameOutside _ _ _ (by omega) (by simp [headerSize])

theorem writeBlock_sameOutside : SameOutside m (writeBlock m h b) h (h + headerSize) :=
  (setSize_sameOutside.trans setIsFree_sameOutside).trans setNext_sameOutside

theorem sizeOf_writeBlock (hb : b.size < wordCount) : sizeOf (writeBlock m h b) h = b.size := by
  simp [writeBlock, sizeOf_setSize hb]

theorem isFreeOf_writeBlock (hb : b.isFree < wordCount) :
    isFreeOf (writeBlock m h b) h = b.isFree := by
  simp [writeBlock, isFreeOf_setIsFree hb]

theorem nextOf_writeBlock (hb : b.next < wordCount) : nextOf (writeBlock m h b) h = b.next := by
  simp [writeBlock, nextOf_setNext hb]

/-- A header's fields depend only on its own twelve bytes. -/
theorem sizeOf_congr (hag : Agree m m' h (h + headerSize)) : sizeOf m' h = sizeOf m h :=
  load32_congr (hag.mono le_rfl (by simp [headerSize]))

theorem isFreeOf_congr (hag : Agree m m' h (h + headerSize)) : isFreeOf m' h = isFreeOf m h :=
  load32_congr (hag.mono (by omega) (by simp [headerSize]))

theorem nextOf_congr (hag : Agree m m' h (h + headerSize)) : nextOf m' h = nextOf m h :=
  load32_congr (hag.mono (by omega) (by simp [headerSize]))

end Fields

/-! ## Reading a state that holds a sequence -/

section Rep

variable {start : Nat} {s s' : State} {b c n : Blk} {bs pre old mid post : List Blk}

theorem Blk.limit_eq (b : Blk) : b.limit = b.addr + headerSize + b.size := rfl

/-- The blocks before and after a given one. -/
theorem Rep.before (h : Rep start s (pre ++ b :: post)) (hc : c ∈ pre) : c.limit ≤ b.addr := by
  have hp := List.pairwise_append.1 h.layout.pairwise
  exact hp.2.2 c hc b List.mem_cons_self

theorem Rep.after (h : Rep start s (pre ++ b :: post)) (hc : c ∈ post) : b.limit ≤ c.addr := by
  have hp := List.pairwise_append.1 h.layout.pairwise
  exact List.rel_of_pairwise_cons hp.2.1 hc

theorem Rep.limit_le (h : Rep start s bs) (hb : b ∈ bs) : b.limit ≤ s.heap.heapEnd :=
  (h.layout.mem hb).2.2

theorem Rep.limit_lt (h : Rep start s bs) (hb : b ∈ bs) : b.limit < wordCount :=
  lt_of_le_of_lt (h.limit_le hb) (lt_of_le_of_lt h.endLe h.maxLt)

theorem Rep.payloadOf (h : Rep start s bs) (hb : b ∈ bs) : payloadOf b.addr = b.payload := by
  have := h.limit_lt hb
  rw [Blk.limit_eq] at this
  exact Nat.mod_eq_of_lt (by omega)

theorem Rep.next_last (h : Rep start s (pre ++ [b])) : nextOf s.mem b.addr = 0 := by
  have hl := h.linked
  rw [List.map_append, List.map_singleton] at hl
  exact hl.next_last

theorem Rep.next_cons (h : Rep start s (pre ++ b :: n :: post)) :
    nextOf s.mem b.addr = n.addr := by
  have hl := h.linked
  rw [List.map_append, List.map_cons, List.map_cons, seg_split] at hl
  exact hl.2.1

/-- Only the last block has a null `next`. -/
theorem Rep.next_eq_zero (h : Rep start s (pre ++ b :: post)) :
    nextOf s.mem b.addr = 0 ↔ post = [] := by
  cases post with
  | nil => simp [h.next_last]
  | cons n post =>
      have hlt := addr_lt_of_limit_le (h.after (c := n) List.mem_cons_self)
      rw [h.next_cons]
      simp
      omega

theorem Rep.addr_mem (h : Rep start s (pre ++ b :: post)) : 4 ∣ b.addr :=
  (h.layout.mem (List.mem_append_right _ List.mem_cons_self)).2.1

theorem fits_iff (hb : b.Holds s.mem) (needed : Nat) :
    fits s.mem needed b.addr = true ↔ b.owner = none ∧ needed ≤ b.size := by
  unfold fits
  rw [hb.flag, hb.size]
  by_cases ho : b.owner = none <;> simp [ho]

theorem Rep.addr_lt (h : Rep start s bs) : ∀ a ∈ bs.map Blk.addr, a < wordCount := by
  intro a ha
  obtain ⟨b, hb, rfl⟩ := List.mem_map.1 ha
  have := h.limit_lt hb
  rw [Blk.limit_eq] at this
  omega

/-! ## The frame rule -/

theorem Layout.replace {lo hi : Nat} (h : Layout lo hi (pre ++ old ++ post))
    (hmid : ∀ lo hi, Layout lo hi old → Layout lo hi mid) : Layout lo hi (pre ++ mid ++ post) := by
  rw [layout_append] at h ⊢
  obtain ⟨w, h, hpost⟩ := h
  rw [layout_append] at h
  obtain ⟨v, hpre, hold⟩ := h
  exact ⟨w, layout_append.2 ⟨v, hpre, hmid v w hold⟩, hpost⟩

/-- **The frame rule.** Rewrite the run `old` of blocks into `mid`, touching memory only between
the blocks before it and the blocks after it: the result holds the sequence with `mid` in place. -/
theorem Rep.replace (h : Rep start s (pre ++ old ++ post)) (lo hi : Nat)
    (hout : SameOutside s.mem s'.mem lo hi)
    (hpre : ∀ c ∈ pre, c.limit ≤ lo) (hpost : ∀ c ∈ post, hi ≤ c.addr)
    (hlink : ∀ x z, Seg (nextOf s.mem) x (old.map Blk.addr) z →
      Seg (nextOf s'.mem) x (mid.map Blk.addr) z)
    (hmid : mid ≠ [])
    (hlay : Layout start s'.heap.heapEnd (pre ++ mid ++ post))
    (hholds : ∀ c ∈ mid, c.Holds s'.mem)
    (hhead : s'.heap.head = s.heap.head) (hmax : s'.heap.max = s.heap.max)
    (hend : 4 ∣ s'.heap.heapEnd) (hendLe : s'.heap.heapEnd ≤ s'.heap.max) :
    Rep start s' (pre ++ mid ++ post) := by
  have hagree : ∀ c, c ∈ pre ∨ c ∈ post → Agree s.mem s'.mem c.addr c.limit := by
    rintro c (hc | hc)
    · exact hout.agree (Or.inl (hpre c hc))
    · exact hout.agree (Or.inr (hpost c hc))
  have hnext : ∀ c, c ∈ pre ∨ c ∈ post → nextOf s'.mem c.addr = nextOf s.mem c.addr :=
    fun c hc => nextOf_congr ((hagree c hc).mono le_rfl (by rw [Blk.limit_eq]; omega))
  refine ⟨hhead.trans h.head, ?_, by simp [hmid], hlay, ?_, hend, hendLe, hmax ▸ h.maxLt⟩
  · have hl := h.linked
    rw [List.map_append, List.map_append, seg_append] at hl
    obtain ⟨z, hl, hlpost⟩ := hl
    rw [seg_append] at hl
    obtain ⟨x, hlpre, hlold⟩ := hl
    rw [List.map_append, List.map_append, hhead, seg_append]
    refine ⟨z, seg_append.2 ⟨x, hlpre.congr ?_, hlink x z hlold⟩, hlpost.congr ?_⟩
    · rintro _ ha
      obtain ⟨c, hc, rfl⟩ := List.mem_map.1 ha
      exact hnext c (Or.inl hc)
    · rintro _ ha
      obtain ⟨c, hc, rfl⟩ := List.mem_map.1 ha
      exact hnext c (Or.inr hc)
  · intro c hc
    rcases List.mem_append.1 hc with hc | hc
    · rcases List.mem_append.1 hc with hc | hc
      · exact (h.holds c (by simp [hc])).of_agree (hagree c (Or.inl hc))
      · exact hholds c hc
    · exact (h.holds c (by simp [hc])).of_agree (hagree c (Or.inr hc))

/-- The frame rule for one block, rewritten inside its own bytes. -/
theorem Rep.rewrite {m' : ByteMem} (h : Rep start s (pre ++ b :: post)) (mid : List Blk)
    (hout : SameOutside s.mem m' b.addr b.limit)
    (hlink : Seg (nextOf m') b.addr (mid.map Blk.addr) (nextOf s.mem b.addr))
    (hmid : mid ≠ [])
    (hlay : Layout b.addr b.limit mid)
    (hholds : ∀ c ∈ mid, c.Holds m') :
    Rep start { s with mem := m' } (pre ++ mid ++ post) := by
  have h' : Rep start s (pre ++ [b] ++ post) := by simpa using h
  refine h'.replace _ _ hout (fun c hc => h.before hc) (fun c hc => h.after hc) ?_ hmid ?_ hholds
    rfl rfl h.endAligned h.endLe
  · rintro x z ⟨rfl, rfl⟩
    exact hlink
  · apply h'.layout.replace
    intro lo hi hb
    exact hlay.mono hb.1 hb.2.2

end Rep

/-! ## Splitting -/

/-- The block `b`, handed to `a`: cut in two when the remainder is worth a block of its own. -/
def splitBlk (needed : Nat) (a : Alloc) (b : Blk) : List Blk :=
  if b.size ≤ needed + minSplitRemainder then
    [{ b with owner := some a }]
  else
    [{ addr := b.addr, size := needed, owner := some a },
      { addr := b.addr + headerSize + needed, size := b.size - needed - headerSize, owner := none }]

section Split

variable {start needed : Nat} {s : State} {m : ByteMem} {a : Alloc} {b : Blk}
  {pre post : List Blk}

/-- Handing out a block whole only flips its flag. -/
theorem claim_spec (h : Rep start s (pre ++ b :: post)) (hfit : b.Fits a)
    (hkind : a.kind = .plain) :
    Rep start { s with mem := setIsFree s.mem b.addr 0 }
      (pre ++ [{ b with owner := some a }] ++ post) := by
  have hb := h.holds b (by simp)
  refine h.rewrite _ (setIsFree_sameOutside.mono le_rfl (by rw [Blk.limit_eq]; omega)) ?_ (by simp)
    ⟨le_rfl, h.addr_mem, le_rfl⟩ ?_
  · simp
  · rintro c hc
    rw [List.mem_singleton] at hc
    subst hc
    exact .plain (by simpa using hb.size) (isFreeOf_setIsFree (by decide)) hkind hfit

/-- The new header lies strictly inside the payload of the old block. -/
theorem cut_spec (h : Rep start s (pre ++ b :: post))
    (hcut : needed + minSplitRemainder < b.size) (h4 : 4 ∣ needed)
    (hfit : Blk.Fits ⟨b.addr, needed, some a⟩ a) (hkind : a.kind = .plain) :
    Rep start { s with
        mem := setIsFree (setNext (setSize (writeBlock s.mem (b.addr + headerSize + needed)
          ⟨b.size - needed - headerSize, 1, nextOf s.mem b.addr⟩) b.addr needed) b.addr
          (b.addr + headerSize + needed)) b.addr 0 }
      (pre ++ [{ addr := b.addr, size := needed, owner := some a },
        { addr := b.addr + headerSize + needed, size := b.size - needed - headerSize,
          owner := none }] ++ post) := by
  have hlim := h.limit_lt (show b ∈ pre ++ b :: post by simp)
  have hal := h.addr_mem
  have hnext : nextOf s.mem b.addr < wordCount := load32_lt _ _
  simp only [Blk.limit, headerSize, minSplitRemainder] at hlim hcut
  set nh := b.addr + headerSize + needed with hnh
  have hnhlt : nh < wordCount := by simp only [hnh, headerSize]; omega
  set w := writeBlock s.mem nh ⟨b.size - needed - headerSize, 1, nextOf s.mem b.addr⟩ with hw
  set m := setIsFree (setNext (setSize w b.addr needed) b.addr nh) b.addr 0 with hm
  have hfront : SameOutside w m b.addr (b.addr + headerSize) :=
    (setSize_sameOutside.trans setNext_sameOutside).trans setIsFree_sameOutside
  have hback : Agree w m nh (nh + headerSize) := hfront.agree (Or.inr (by omega))
  have hout : SameOutside s.mem m b.addr b.limit := by
    have hnew : SameOutside s.mem w b.addr b.limit := by
      refine writeBlock_sameOutside.mono (by omega) ?_
      simp only [hnh, Blk.limit, headerSize]
      omega
    exact hnew.trans (hfront.mono le_rfl (by rw [Blk.limit_eq]; omega))
  refine h.rewrite _ hout ?_ (by simp) ?_ ?_
  · have h1 : nextOf m b.addr = nh := by
      rw [hm, nextOf_setIsFree, nextOf_setNext hnhlt]
    have h2 : nextOf m nh = nextOf s.mem b.addr := by
      rw [nextOf_congr hback, nextOf_writeBlock hnext]
    simp [h1, h2]
  · refine ⟨le_rfl, hal, ?_, ?_, ?_⟩
    · simp [Blk.limit, hnh]
    · simp only [hnh, headerSize]
      exact (Nat.dvd_add_right (Nat.dvd_add hal (by decide))).2 h4
    · simp only [layout_nil, hnh, Blk.limit, headerSize]
      omega
  · intro c hc
    rcases List.mem_pair.1 hc with rfl | rfl
    · refine .plain ?_ (isFreeOf_setIsFree (by decide)) hkind hfit
      rw [hm]
      simpa using sizeOf_setSize (by omega)
    · refine .free ?_ ?_
      · rw [sizeOf_congr hback]
        exact sizeOf_writeBlock (by simp only; omega)
      · rw [isFreeOf_congr hback]
        exact isFreeOf_writeBlock (show 1 < wordCount by decide)

/-- **Splitting.** `split_if_worthwhile` followed by taking the block. -/
theorem splitIfWorthwhile_spec (h : Rep start s (pre ++ b :: post)) (hn : needed ≤ b.size)
    (h4 : 4 ∣ needed) (ha : a = ⟨b.payload, a.size, .plain⟩) (hsize : a.size ≤ needed)
    (hm : splitIfWorthwhile s.mem b.addr needed = .ok m) :
    Rep start { s with mem := setIsFree m b.addr 0 } (pre ++ splitBlk needed a b ++ post) := by
  have hmem : b ∈ pre ++ b :: post := by simp
  have hlim := h.limit_lt hmem
  have hkind : a.kind = .plain := by rw [ha]
  have hptr : a.ptr = b.payload := by rw [ha]
  unfold splitIfWorthwhile at hm
  rw [(h.holds b hmem).size, h.payloadOf hmem] at hm
  simp only [Outcome.bind_eq_ok, checkedAdd_eq_ok] at hm
  obtain ⟨least, ⟨rfl, -⟩, hm⟩ := hm
  unfold splitBlk
  by_cases hworth : b.size ≤ needed + minSplitRemainder
  · rw [if_pos hworth] at hm ⊢
    obtain rfl : s.mem = m := Outcome.ok.inj hm
    refine claim_spec h ⟨?_, ?_⟩ hkind
    · rw [hptr, Blk.limit_eq, Blk.payload]
      omega
    · rw [hkind]
      exact hptr
  · rw [if_neg hworth] at hm ⊢
    simp only [Outcome.bind_eq_ok, checkedSub_eq_ok] at hm
    obtain ⟨_, ⟨rfl, -⟩, _, ⟨rfl, -⟩, hm⟩ := hm
    have hcut : needed + minSplitRemainder < b.size := Nat.lt_of_not_le hworth
    have hnew : (b.payload + needed) % wordCount = b.addr + headerSize + needed := by
      simp only [Blk.limit, headerSize, minSplitRemainder] at hlim hcut
      simp only [Blk.payload, headerSize]
      exact Nat.mod_eq_of_lt (by omega)
    rw [hnew] at hm
    obtain rfl := Outcome.ok.inj hm
    refine cut_spec h hcut h4 ⟨?_, ?_⟩ hkind
    · simp only [hptr, Blk.limit, Blk.payload]
      omega
    · rw [hkind]
      exact hptr

end Split

/-! ## Merging and releasing -/

/-- Absorb the second block into the first when both are free. The bytes between them, if there
are any, are lost to the list. -/
def mergeNext : List Blk → List Blk
  | b :: n :: rest =>
      if b.owner = none ∧ n.owner = none then
        { addr := b.addr, size := b.size + headerSize + n.size, owner := none } :: rest
      else b :: n :: rest
  | bs => bs

/-- The sequence after freeing `b`: one merge forward, then one merge from the block before. -/
def release (pre : List Blk) (b : Blk) (post : List Blk) : List Blk :=
  match pre.getLast? with
  | none => mergeNext ({ b with owner := none } :: post)
  | some p => pre.dropLast ++ mergeNext (p :: mergeNext ({ b with owner := none } :: post))

section Release

variable {start : Nat} {s : State} {m : ByteMem} {a : Alloc} {b n : Blk} {pre post : List Blk}

/-- **Merging.** On a list it holds, `merge_with_next_if_free` returns, and merges. -/
theorem mergeWithNextIfFree_spec (h : Rep start s (pre ++ b :: post)) :
    ∃ m, mergeWithNextIfFree s.mem b.addr = .ok m ∧
      Rep start { s with mem := m } (pre ++ mergeNext (b :: post)) := by
  have hb := h.holds b (by simp)
  cases post with
  | nil =>
      have hnext : nextOf s.mem b.addr = 0 := h.next_eq_zero.2 rfl
      exact ⟨s.mem, by simp [mergeWithNextIfFree, hnext], by simpa [mergeNext] using h⟩
  | cons n post =>
      have hn := h.holds n (by simp)
      have hnext : nextOf s.mem b.addr = n.addr := h.next_cons
      have hnz : n.addr ≠ 0 := fun hz => by simpa using h.next_eq_zero.1 (hnext.trans hz)
      rw [mergeNext]
      by_cases hbo : b.owner = none
      case neg =>
        rw [if_neg (fun hc => hbo hc.1)]
        exact ⟨s.mem, by simp [mergeWithNextIfFree, hb.flag, hbo], h⟩
      by_cases hno : n.owner = none
      case neg =>
        rw [if_neg (fun hc => hno hc.2)]
        exact ⟨s.mem, by simp [mergeWithNextIfFree, hnext, hn.flag, hno], h⟩
      rw [if_pos ⟨hbo, hno⟩]
      -- Both free: the sum of the sizes still lies inside the heap.
      have hlim := h.limit_lt (b := n) (by simp)
      have hord := h.after (c := n) (by simp)
      rw [Blk.limit_eq] at hlim hord
      have h1 : checkedAdd headerSize n.size = .ok (headerSize + n.size) :=
        checkedAdd_eq_ok.2 ⟨rfl, by omega⟩
      have h2 : checkedAdd b.size (headerSize + n.size) = .ok (b.size + (headerSize + n.size)) :=
        checkedAdd_eq_ok.2 ⟨rfl, by omega⟩
      refine ⟨setNext (setSize s.mem b.addr (b.size + (headerSize + n.size))) b.addr
        (nextOf s.mem n.addr), ?_, ?_⟩
      · simp [mergeWithNextIfFree, hb.flag, hbo, hnext, hnz, hn.flag, hno, hn.size, hb.size, h1, h2]
      · have hold : Rep start s (pre ++ [b, n] ++ post) := by simpa using h
        have hnlt : nextOf s.mem n.addr < wordCount := load32_lt _ _
        rw [List.append_cons]
        refine hold.replace b.addr (b.addr + headerSize)
          (setSize_sameOutside.trans setNext_sameOutside) (fun c hc => h.before hc) ?_ ?_
          (by simp) ?_ ?_ rfl rfl h.endAligned h.endLe
        · intro c hc
          have := h.after (c := c) (by simp [hc])
          rw [Blk.limit_eq] at this
          omega
        · rintro x z ⟨rfl, -, rfl⟩
          simp [nextOf_setNext hnlt]
        · refine hold.layout.replace fun lo hi hl => ⟨hl.1, hl.2.1, ?_⟩
          have hle := hl.2.2.2.2
          simp only [layout_nil, Blk.limit] at hle ⊢
          omega
        · intro c hc
          rw [List.mem_singleton] at hc
          subst hc
          refine .free ?_ ?_
          · rw [sizeOf_setNext, sizeOf_setSize (by omega), Nat.add_assoc]
          · simpa [hbo] using hb.flag

/-- Clearing the owner of a block only flips its flag. -/
theorem unclaim_spec (h : Rep start s (pre ++ b :: post)) :
    Rep start { s with mem := setIsFree s.mem b.addr 1 }
      (pre ++ { b with owner := none } :: post) := by
  have hb := h.holds b (by simp)
  have hrep := h.rewrite [{ b with owner := none }]
    (setIsFree_sameOutside (v := 1).mono le_rfl (by rw [Blk.limit_eq]; omega)) (by simp) (by simp)
    ⟨le_rfl, h.addr_mem, le_rfl⟩ (by
      intro c hc
      rw [List.mem_singleton] at hc
      subst hc
      exact .free (by simpa using hb.size) (isFreeOf_setIsFree (by decide)))
  simpa using hrep

theorem findPredecessor_spec (h : Rep start s (pre ++ b :: post)) :
    findPredecessor s b.addr = .ok (pre.getLast?.map Blk.addr) := by
  unfold findPredecessor
  have hl := h.linked
  rcases List.eq_nil_or_concat pre with rfl | ⟨pre, p, rfl⟩
  · rw [if_pos hl.1]
    rfl
  · have hnd := h.layout.nodup
    have hlt := h.addr_lt
    simp only [List.concat_eq_append, List.append_assoc, List.map_append, List.map_cons,
      List.nil_append, List.cons_append] at hl hnd hlt
    have hnotin : b.addr ∉ pre.map Blk.addr ++ [p.addr] := by
      intro hin
      have hd := List.disjoint_of_nodup_append (by simpa using hnd :
        ((pre.map Blk.addr ++ [p.addr]) ++ b.addr :: post.map Blk.addr).Nodup)
      exact hd hin List.mem_cons_self
    have hseg : Seg (nextOf s.mem) s.heap.head (pre.map Blk.addr ++ [p.addr]) b.addr := by
      have : Seg (nextOf s.mem) s.heap.head
          ((pre.map Blk.addr ++ [p.addr]) ++ b.addr :: post.map Blk.addr) 0 := by simpa using hl
      exact (seg_split.1 this).1
    have hhead : s.heap.head ≠ b.addr := by
      intro heq
      cases hpre : pre.map Blk.addr ++ [p.addr] with
      | nil => simp at hpre
      | cons x xs =>
          rw [hpre] at hseg hnotin
          exact hnotin (by simp [← heq, hseg.1])
    have hfollow : follow (fun c => nextOf s.mem c == b.addr) (nextOf s.mem) s.heap.head =
        .ok p.addr := by
      refine follow_seg (seg_split.1 hseg).1 ?_ ?_ ?_ ?_
      · intro y hy
        have hmem := hseg.next_mem hy
        simp only [beq_eq_false_iff_ne]
        intro heq
        exact hnotin (heq ▸ hmem)
      · simpa using hseg.next_last
      · exact List.Nodup.of_append_left (by simpa using hnd :
          ((pre.map Blk.addr ++ [p.addr]) ++ b.addr :: post.map Blk.addr).Nodup)
      · intro y hy
        exact hlt y (by simp only [List.mem_append, List.mem_cons] at hy ⊢; tauto)
    rw [if_neg hhead, hfollow]
    simp

/-- **Freeing.** Given the payload of a block it holds, `deallocate` returns, and releases it. -/
theorem deallocate_spec (h : Rep start s (pre ++ b :: post)) :
    ∃ s', deallocate s b.payload = .ok s' ∧ Rep start s' (release pre b post) := by
  have hmem : b ∈ pre ++ b :: post := by simp
  have hlim := h.limit_lt hmem
  have hheader : (b.payload + wordCount - headerSize) % wordCount = b.addr := by
    simp only [Blk.limit, Blk.payload, headerSize, wordCount] at hlim ⊢
    omega
  unfold deallocate release
  simp only [hheader, findPredecessor_spec h]
  obtain ⟨m₁, hm₁, h₁⟩ := mergeWithNextIfFree_spec (unclaim_spec h)
  simp only at hm₁ h₁
  rcases List.eq_nil_or_concat pre with rfl | ⟨pre, p, rfl⟩
  · refine ⟨{ s with mem := m₁ }, ?_, by simpa using h₁⟩
    simp [hm₁]
  · rw [List.concat_eq_append, List.append_assoc, List.singleton_append] at h₁
    obtain ⟨m₂, hm₂, h₂⟩ := mergeWithNextIfFree_spec h₁
    refine ⟨{ s with mem := m₂ }, ?_, by simpa using h₂⟩
    simp only at hm₂
    simp [hm₁, hm₂]

theorem deallocate_heap {s' : State} {ptr : Nat} (h : deallocate s ptr = .ok s') :
    s'.heap = s.heap := by
  unfold deallocate at h
  simp only [Outcome.bind_eq_ok] at h
  obtain ⟨prev, -, m, -, h⟩ := h
  cases prev with
  | none => rw [← Outcome.ok.inj h]
  | some q =>
      simp only [Outcome.bind_eq_ok] at h
      obtain ⟨_, -, h⟩ := h
      rw [← Outcome.ok.inj h]

theorem deallocateAligned_heap {s' : State} {ptr : Nat} (h : deallocateAligned s ptr = .ok s') :
    s'.heap = s.heap := by
  unfold deallocateAligned at h
  simp only [Outcome.bind_eq_ok] at h
  obtain ⟨slot, -, h⟩ := h
  split_ifs at h
  · rw [← Outcome.ok.inj h]
  · exact deallocate_heap h

end Release

/-! ## Allocating -/

/-- `align_up` to a power of two: the least multiple at or above `value`. -/
theorem alignUp_spec {value k r : Nat} (hk : k < 32) (h : alignUp value (2 ^ k) = .ok r) :
    value ≤ r ∧ r < value + 2 ^ k ∧ 2 ^ k ∣ r ∧ r < wordCount := by
  unfold alignUp at h
  have hpos : 0 < 2 ^ k := Nat.two_pow_pos k
  simp only [Outcome.bind_eq_ok, checkedAdd_eq_ok, checkedSub_eq_ok, Outcome.pure_eq,
    Outcome.ok.injEq] at h
  obtain ⟨_, ⟨rfl, hlt⟩, _, ⟨rfl, -⟩, _, ⟨rfl, -⟩, rfl⟩ := h
  rw [and_mask (by omega) hk]
  have hdiv := Nat.div_add_mod (value + 2 ^ k - 1) (2 ^ k)
  have hmod := Nat.mod_lt (value + 2 ^ k - 1) hpos
  rw [Nat.mul_comm] at hdiv
  exact ⟨by omega, by omega, Nat.dvd_mul_left _ _, by omega⟩

/-- The payload that `allocate` gives to `size` bytes: whole words. -/
def wordsFor (size : Nat) : Nat := (size + 3) / 4 * 4

theorem le_wordsFor (size : Nat) : size ≤ wordsFor size := by
  unfold wordsFor
  omega

theorem alignUp_defaultAlign {size r : Nat} (h : alignUp size defaultAlign = .ok r) :
    r = wordsFor size := by
  obtain ⟨hle, hlt, hdvd, -⟩ := alignUp_spec (k := 2) (by decide) h
  unfold wordsFor
  omega

/-- It is total on sizes that leave room for the rounding. -/
theorem alignUp_eq {size : Nat} (h : size + defaultAlign < wordCount) :
    alignUp size defaultAlign = .ok (wordsFor size) := by
  have hadd : checkedAdd size defaultAlign = .ok (size + defaultAlign) :=
    checkedAdd_eq_ok.2 ⟨rfl, h⟩
  have hsub : checkedSub (size + defaultAlign) 1 = .ok (size + 3) :=
    checkedSub_eq_ok.2 ⟨rfl, Nat.le_add_left 1 (size + 3)⟩
  have hlow : checkedSub defaultAlign 1 = .ok 3 := rfl
  have hlt : size + 3 < wordCount := by
    unfold defaultAlign at h
    omega
  simp only [alignUp, hadd, hsub, hlow, Outcome.ok_bind, Outcome.pure_eq]
  exact congrArg Outcome.ok (and_mask (k := 2) hlt (by decide))

/-- The callback's contract: it fails, or returns a word-aligned end at least `n` bytes on. -/
def GrowOk (s : State) (n r : Nat) : Prop := r = 0 ∨ (4 ∣ r ∧ s.heap.heapEnd + n ≤ r)

/-- An end that `grow_and_attach` does not accept. -/
def Rejected (s : State) (r : Nat) : Prop := r = 0 ∨ r ≤ s.heap.heapEnd ∨ s.heap.max < r

/-- The walk along the list comes to the header `h`. -/
def InList (s : State) (h : Nat) : Prop :=
  ∃ hs, Seg (nextOf s.mem) s.heap.head hs h ∧ ∀ x ∈ hs, nextOf s.mem x ≠ 0

/-- No block of the list is free and has `needed` bytes. -/
def NoFit (s : State) (needed : Nat) : Prop := ∀ h, InList s h → fits s.mem needed h = false

/-- `allocate` of `size` bytes asks its callback for `n` more. -/
structure Wants (s : State) (size n : Nat) : Prop where
  nonzero : size ≠ 0
  bytes : n = wordsFor size + headerSize
  full : NoFit s (wordsFor size)
  room : s.heap.heapEnd + n ≤ s.heap.max

/-- What `allocate` returns, and what it leaves behind: the pointer, the state of the heap and the
state of the callback. -/
inductive Allocated {σ : Type} (grow : Nat → σ → Outcome (Nat × σ)) (env : σ) (start : Nat)
    (s : State) (bs : List Blk) (size : Nat) : Nat → State → σ → Prop
  | zero (h : size = 0) : Allocated grow env start s bs size 0 s env
  | full (hfit : NoFit s (wordsFor size))
      (hmax : s.heap.max < s.heap.heapEnd + (wordsFor size + headerSize)) :
      Allocated grow env start s bs size 0 s env
  | taken {pre post : List Blk} {b : Blk} {s' : State} (hbs : bs = pre ++ b :: post)
      (hfree : b.owner = none) (hroom : wordsFor size ≤ b.size) (hheap : s'.heap = s.heap)
      (hrep : Rep start s' (pre ++ splitBlk (wordsFor size) ⟨b.payload, size, .plain⟩ b ++ post)) :
      Allocated grow env start s bs size b.payload s' env
  | denied {n r : Nat} {env' : σ} (hwants : Wants s size n) (hcall : grow n env = .ok (r, env'))
      (hrej : Rejected s r) : Allocated grow env start s bs size 0 s env'
  | grown {n r : Nat} {env' : σ} {s' : State} (hwants : Wants s size n)
      (hcall : grow n env = .ok (r, env')) (hacc : ¬Rejected s r)
      (hheap : s'.heap = { s.heap with heapEnd := r })
      (hrep : GrowOk s n r → Rep start s' (bs ++ [⟨s.heap.heapEnd, wordsFor size,
        some ⟨s.heap.heapEnd + headerSize, size, .plain⟩⟩])) :
      Allocated grow env start s bs size (s.heap.heapEnd + headerSize) s' env'

section Allocate

variable {σ : Type} {grow : Nat → σ → Outcome (Nat × σ)} {env env' : σ} {start needed size p : Nat}
  {s s' : State} {b : Blk} {bs pre post : List Blk}

/-- The first-fit loop stops at the first free block that is large enough, or else at the last
block. -/
theorem firstFit_spec (h : Rep start s bs) (needed : Nat) :
    ∃ pre b post, bs = pre ++ b :: post ∧
      follow (fun c => fits s.mem needed c || nextOf s.mem c == 0) (nextOf s.mem) s.heap.head =
        .ok b.addr ∧
      (∀ c ∈ pre, ¬ (c.owner = none ∧ needed ≤ c.size)) ∧
      ((b.owner = none ∧ needed ≤ b.size) ∨ post = []) := by
  -- It is enough to give the block where the loop stops.
  have key : ∀ pre b post, bs = pre ++ b :: post →
      (∀ c ∈ pre, ¬ (c.owner = none ∧ needed ≤ c.size)) →
      ((b.owner = none ∧ needed ≤ b.size) ∨ post = []) →
      follow (fun c => fits s.mem needed c || nextOf s.mem c == 0) (nextOf s.mem) s.heap.head =
        .ok b.addr := by
    rintro pre b post rfl hpre hb
    have hl := h.linked
    rw [List.map_append, List.map_cons, seg_split] at hl
    have hnd := h.layout.nodup
    have hlt := h.addr_lt
    rw [List.map_append, List.map_cons] at hnd hlt
    refine follow_seg hl.1 ?_ ?_ ?_ ?_
    · intro y hy
      obtain ⟨c, hc, rfl⟩ := List.mem_map.1 hy
      obtain ⟨l, r, rfl⟩ := List.append_of_mem hc
      have h' : Rep start s (l ++ c :: (r ++ b :: post)) := by simpa using h
      have hfit : fits s.mem needed c.addr = false := by
        rw [Bool.eq_false_iff, ne_eq, fits_iff (h'.holds c (by simp))]
        exact hpre c hc
      have hnext : nextOf s.mem c.addr ≠ 0 := by
        rw [ne_eq, h'.next_eq_zero]
        simp
      simp [hfit, hnext]
    · rcases hb with hb | hb
      · simp [(fits_iff (h.holds b (by simp)) needed).2 hb]
      · simp [h.next_eq_zero.2 hb]
    · exact (List.append_cons _ _ _ ▸ hnd).of_append_left
    · intro y hy
      exact hlt y (by simp only [List.mem_append, List.mem_cons] at hy ⊢; tauto)
  cases hfind : bs.find? fun c => decide (c.owner = none ∧ needed ≤ c.size) with
  | some b =>
      obtain ⟨hb, pre, post, hbs, hpre⟩ := List.find?_eq_some_iff_append.1 hfind
      have hpre' : ∀ c ∈ pre, ¬ (c.owner = none ∧ needed ≤ c.size) :=
        fun c hc => by simpa only [Bool.not_eq_true', decide_eq_false_iff_not] using hpre c hc
      have hb' : (b.owner = none ∧ needed ≤ b.size) ∨ post = [] := Or.inl (by simpa using hb)
      exact ⟨pre, b, post, hbs, key pre b post hbs hpre' hb', hpre', hb'⟩
  | none =>
      have hall : ∀ c ∈ bs, ¬ (c.owner = none ∧ needed ≤ c.size) := by
        simpa using List.find?_eq_none.1 hfind
      rcases List.eq_nil_or_concat bs with hnil | ⟨pre, b, hbs⟩
      · exact absurd hnil h.nonempty
      · rw [List.concat_eq_append] at hbs
        have hpre : ∀ c ∈ pre, ¬ (c.owner = none ∧ needed ≤ c.size) :=
          fun c hc => hall c (by simp [hbs, hc])
        exact ⟨pre, b, [], hbs, key pre b [] hbs hpre (Or.inr rfl), hpre, Or.inr rfl⟩

/-- **Growing.** The new block starts at the old end and is linked after the last one. -/
theorem attach_spec {r : Nat} (h : Rep start s (pre ++ [b])) (hsize : size ≤ needed) (hdvd : 4 ∣ r)
    (hroom : s.heap.heapEnd + (needed + headerSize) ≤ r) (hmax : r ≤ s.heap.max) :
    Rep start ⟨setNext (writeBlock s.mem s.heap.heapEnd ⟨needed, 0, 0⟩) b.addr s.heap.heapEnd,
        { s.heap with heapEnd := r }⟩
      (pre ++ [b, ⟨s.heap.heapEnd, needed, some ⟨s.heap.heapEnd + headerSize, size, .plain⟩⟩]) := by
  have hmaxlt := h.maxLt
  have hb := h.holds b (by simp)
  have hblim := h.limit_le (b := b) (by simp)
  have hnext := h.next_last
  set e := s.heap.heapEnd with he
  set w := writeBlock s.mem e ⟨needed, 0, 0⟩ with hw
  have helt : e < wordCount := by omega
  have hbw : Agree s.mem w b.addr b.limit := writeBlock_sameOutside.agree (Or.inl hblim)
  have hew : Agree w (setNext w b.addr e) e (e + headerSize) :=
    setNext_sameOutside.agree (Or.inr (by rw [Blk.limit_eq] at hblim; omega))
  have hbold : b.Holds (setNext w b.addr e) := by
    have hbw' := hb.of_agree hbw
    refine ⟨?_, ?_, hbw'.fits, ?_⟩
    · simpa using hbw'.size
    · simpa using hbw'.flag
    · intro a ha hk
      rw [← hbw'.back a ha hk]
      have hfit := hb.fits a ha
      simp only [Blk.Fits, hk, Blk.payload, word, headerSize] at hfit
      exact load32_store32_of_disjoint _ _ (Or.inr (by simp only [word]; omega))
  have hold : Rep start s (pre ++ [b] ++ []) := by simpa using h
  rw [← List.append_nil (pre ++ _)]
  refine hold.replace b.addr (e + headerSize)
    (SameOutside.trans (writeBlock_sameOutside.mono ?_ le_rfl)
      (setNext_sameOutside.mono le_rfl ?_)) ?_ (by simp) ?_ (by simp) ?_ ?_ rfl rfl hdvd hmax
  · rw [Blk.limit_eq] at hblim; omega
  · rw [Blk.limit_eq] at hblim; omega
  · exact fun c hc => h.before hc
  · rintro x z ⟨rfl, hz⟩
    have hz0 : z = 0 := by
      have : nextOf s.mem b.addr = z := hz
      omega
    have h1 : nextOf (setNext w b.addr e) b.addr = e := nextOf_setNext helt
    have h2 : nextOf (setNext w b.addr e) e = 0 := by
      rw [nextOf_congr hew]
      exact nextOf_writeBlock (show 0 < wordCount by decide)
    simp [h1, h2, hz0]
  · have hlay := hold.layout
    simp only [List.append_nil] at hlay ⊢
    obtain ⟨mid, hpre, hblay⟩ := layout_append.1 hlay
    refine layout_append.2 ⟨mid, hpre, hblay.1, hblay.2.1, hblim, h.endAligned, ?_⟩
    simp only [layout_nil, Blk.limit]
    omega
  · intro c hc
    rcases List.mem_pair.1 hc with rfl | rfl
    · exact hbold
    · refine .plain ?_ ?_ rfl ⟨?_, rfl⟩
      · rw [sizeOf_congr hew]
        exact sizeOf_writeBlock (show needed < wordCount by omega)
      · rw [isFreeOf_congr hew]
        exact isFreeOf_writeBlock (show 0 < wordCount by decide)
      · simp only [Blk.limit]
        omega

/-- `grow_and_attach`, called with the last block of the list. -/
theorem growAndAttach_spec (h : Rep start s (pre ++ [b])) (hsize : size ≠ 0)
    (hfit : NoFit s (wordsFor size))
    (hres : growAndAttach grow env s b.addr (wordsFor size) = .ok (p, s', env')) :
    Allocated grow env start s (pre ++ [b]) size p s' env' := by
  unfold growAndAttach at hres
  simp only [Outcome.bind_eq_ok, checkedAdd_eq_ok] at hres
  obtain ⟨_, ⟨rfl, -⟩, hres⟩ := hres
  have hmaxlt := h.maxLt
  have hle := le_wordsFor size
  split_ifs at hres with hfull
  · simp only [Outcome.pure_eq, Outcome.ok.injEq, Prod.mk.injEq] at hres
    obtain ⟨rfl, rfl, rfl⟩ := hres
    exact .full hfit (by omega)
  simp only [not_or, Nat.not_le, Nat.not_lt] at hfull
  simp only [Outcome.bind_eq_ok] at hres
  obtain ⟨⟨r, env''⟩, hcall, hres⟩ := hres
  have hwants : Wants s size (wordsFor size + headerSize) := ⟨hsize, rfl, hfit, hfull.2⟩
  split_ifs at hres with hbad
  · simp only [Outcome.pure_eq, Outcome.ok.injEq, Prod.mk.injEq] at hres
    obtain ⟨rfl, rfl, rfl⟩ := hres
    exact .denied hwants hcall hbad
  simp only [Outcome.pure_eq, Outcome.ok.injEq, Prod.mk.injEq] at hres
  obtain ⟨rfl, rfl, rfl⟩ := hres
  have hpay : payloadOf s.heap.heapEnd = s.heap.heapEnd + headerSize := Nat.mod_eq_of_lt (by omega)
  rw [hpay]
  refine .grown hwants hcall hbad rfl ?_
  intro hgrow
  simp only [not_or, Nat.not_le, Nat.not_lt] at hbad
  obtain ⟨hdvd, hroom⟩ := hgrow.resolve_left hbad.1
  rw [List.append_assoc, List.singleton_append]
  exact attach_spec h hle hdvd hroom hbad.2.2

/-- The walk comes to every block. -/
theorem Rep.inList (h : Rep start s (pre ++ b :: post)) : InList s b.addr := by
  have hlinked := h.linked
  rw [List.map_append, List.map_cons, seg_split] at hlinked
  refine ⟨_, hlinked.1, ?_⟩
  intro x hx
  obtain ⟨c, hc, rfl⟩ := List.mem_map.1 hx
  obtain ⟨l, r, rfl⟩ := List.append_of_mem hc
  rw [List.append_assoc, List.cons_append] at h
  rw [ne_eq, h.next_eq_zero]
  simp

/-- And to nothing else. -/
theorem Rep.inList_iff (h : Rep start s bs) {x : Nat} : InList s x ↔ ∃ c ∈ bs, c.addr = x := by
  constructor
  · rintro ⟨hs, hwalk, hnext⟩
    have hmem := h.linked.mem_of_walk (by simpa using h.nonempty) hwalk hnext
    exact List.mem_map.1 hmem
  · rintro ⟨c, hc, rfl⟩
    obtain ⟨pre, post, rfl⟩ := List.append_of_mem hc
    exact h.inList

theorem Rep.noFit (h : Rep start s bs)
    (hall : ∀ c ∈ bs, ¬ (c.owner = none ∧ needed ≤ c.size)) : NoFit s needed := by
  intro x hx
  obtain ⟨c, hc, rfl⟩ := h.inList_iff.1 hx
  rw [Bool.eq_false_iff, ne_eq, fits_iff (h.holds c hc)]
  exact hall c hc

/-- When the walk ends at a last block that is not large enough, no block is. -/
theorem Rep.noFit_of_last (h : Rep start s (pre ++ [b]))
    (hpre : ∀ c ∈ pre, ¬ (c.owner = none ∧ needed ≤ c.size))
    (hlast : ¬ fits s.mem needed b.addr = true) : NoFit s needed := by
  have hfits := fits_iff (h.holds b (by simp)) needed
  apply h.noFit
  intro c hc
  rcases List.mem_append.1 hc with hc | hc
  · exact hpre c hc
  · rw [List.mem_singleton.1 hc]
    exact fun hand => hlast (hfits.2 hand)

/-- **Allocating.** A call returns null and changes nothing, takes the first free block that is
large enough, or appends a block at the end of the heap. -/
theorem allocate_spec (h : Rep start s bs)
    (hres : allocate grow env s size = .ok (p, s', env')) :
    Allocated grow env start s bs size p s' env' := by
  unfold allocate at hres
  split_ifs at hres with hzero
  · simp only [Outcome.pure_eq, Outcome.ok.injEq, Prod.mk.injEq] at hres
    obtain ⟨rfl, rfl, rfl⟩ := hres
    exact .zero hzero
  simp only [Outcome.bind_eq_ok] at hres
  obtain ⟨needed, halign, current, hloop, hres⟩ := hres
  obtain rfl := alignUp_defaultAlign halign
  obtain ⟨pre, b, post, rfl, hfollow, hpre, hstop⟩ := firstFit_spec h (wordsFor size)
  obtain rfl : b.addr = current := Outcome.ok.inj (hfollow.symm.trans hloop)
  have hbmem : b ∈ pre ++ b :: post := by simp
  have hfits := fits_iff (h.holds b hbmem) (wordsFor size)
  by_cases hfit : fits s.mem (wordsFor size) b.addr = true
  · rw [if_pos hfit] at hres
    obtain ⟨hfree, hroom⟩ := hfits.1 hfit
    simp only [Outcome.bind_eq_ok, Outcome.pure_eq, Outcome.ok.injEq, Prod.mk.injEq] at hres
    obtain ⟨m, hsplit, rfl, rfl, rfl⟩ := hres
    rw [h.payloadOf hbmem]
    exact .taken rfl hfree hroom rfl
      (splitIfWorthwhile_spec h hroom (Nat.dvd_mul_left ..) rfl (le_wordsFor size) hsplit)
  · rw [if_neg hfit] at hres
    obtain rfl : post = [] := hstop.resolve_left fun hc => hfit (hfits.2 hc)
    exact growAndAttach_spec h hzero (h.noFit_of_last hpre hfit) hres

/-- **Asking for more.** A call that no block can serve hands on what the callback answers: its
fault, or a new block at the old end, if the answer is acceptable. -/
theorem allocate_of_wants {n : Nat} (h : Rep start s bs) (hwants : Wants s size n) :
    (grow n env = .panic → allocate grow env s size = .panic) ∧
      ∀ r env', grow n env = .ok (r, env') → ¬Rejected s r → GrowOk s n r →
        ∃ s', allocate grow env s size = .ok (s.heap.heapEnd + headerSize, s', env') ∧
          s'.heap = { s.heap with heapEnd := r } ∧
          Rep start s' (bs ++ [⟨s.heap.heapEnd, wordsFor size,
            some ⟨s.heap.heapEnd + headerSize, size, .plain⟩⟩]) := by
  obtain ⟨hsize, rfl, hfull, hroom⟩ := hwants
  have hmaxlt := h.maxLt
  have hle := le_wordsFor size
  obtain ⟨pre, b, post, rfl, hfollow, -, hstop⟩ := firstFit_spec h (wordsFor size)
  have hfit := hfull _ h.inList
  -- The loop ends at the last block.
  obtain rfl : post = [] := by
    apply hstop.resolve_left
    intro hfits
    rw [(fits_iff (h.holds b (by simp)) _).2 hfits] at hfit
    cases hfit
  have halign : alignUp size defaultAlign = .ok (wordsFor size) :=
    alignUp_eq (by unfold defaultAlign headerSize at *; omega)
  have hadd : checkedAdd (wordsFor size) headerSize = .ok (wordsFor size + headerSize) :=
    checkedAdd_eq_ok.2 ⟨rfl, by omega⟩
  have hguard : ¬(wordCount ≤ s.heap.heapEnd + (wordsFor size + headerSize) ∨
      s.heap.max < s.heap.heapEnd + (wordsFor size + headerSize)) := by omega
  have hcall : allocate grow env s size = growAndAttach grow env s b.addr (wordsFor size) := by
    simp only [allocate, if_neg hsize, halign, Outcome.ok_bind, hfollow, hfit, Bool.false_eq_true,
      if_false]
  rw [hcall]
  simp only [growAndAttach, hadd, Outcome.ok_bind, if_neg hguard]
  constructor
  · intro hfault
    rw [hfault, Outcome.panic_bind]
  · intro r env' hgrow hacc hok
    have hpay : payloadOf s.heap.heapEnd = s.heap.heapEnd + headerSize :=
      Nat.mod_eq_of_lt (by omega)
    unfold Rejected at hacc
    rw [hgrow, Outcome.ok_bind]
    simp only [if_neg hacc, Outcome.pure_eq, hpay, List.append_assoc, List.singleton_append]
    simp only [not_or, Nat.not_le, Nat.not_lt] at hacc
    obtain ⟨hdvd, hfar⟩ := hok.resolve_left hacc.1
    exact ⟨_, rfl, rfl, attach_spec h hle hdvd hfar hacc.2.2⟩

end Allocate

end Munux.Heap
