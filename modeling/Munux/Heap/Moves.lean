import Munux.Heap.Refine
import Mathlib.Logic.Relation

/-!
# Runs of the heap as moves on the sequence of blocks

A run interleaves the four entry points of the allocator with writes by the owners of live
allocations. Frees are given pointers that the matching entry point returned and that have not
been freed since; the growth callback fails or returns a word-aligned end far enough on.

What a call does to the blocks is a `Move`, or two of them for an aligned allocation: take a free
block, attach a new one at the end, give a block to another owner, release a block. Anything that
all four moves preserve holds in every state of every run (`moves_step`).

* `Step`: one call, or one write.
* `Move`: one move on the blocks. The parameter `G` is the rule for growing.
* `Holding`: the state holds the blocks, and their owners are the live allocations.
* `Call`: the steps by name, so that a run can be told which of them to make.
* `moves_call`, `moves_step`: every step of a run is a sequence of moves.
-/

namespace Munux.Heap

open ByteMem

/-- The heap together with the allocations its users hold. -/
structure Sys where
  state : State
  live : List Alloc

/-- A ledger after a call that returned `p`. -/
def record (live : List Alloc) (p size : Nat) (kind : Kind) : List Alloc :=
  if p = 0 then live else ⟨p, size, kind⟩ :: live

/-- The growth callback, as a function of the number of bytes asked for. -/
def callback (grow : Nat → Nat) : Nat → Unit → Outcome (Nat × Unit) := fun n _ => .ok (grow n, ())

/-- One step of a run: a call that returns, a write inside a live allocation, or a write by
somebody else outside the heap. -/
inductive Step (start : Nat) : Sys → Sys → Prop
  | allocate {s s' : State} {live : List Alloc} {size p : Nat} (grow : Nat → Nat)
      (hgrow : ∀ n, GrowOk s n (grow n))
      (hcall : allocate (callback grow) () s size = .ok (p, s', ())) :
      Step start ⟨s, live⟩ ⟨s', record live p size .plain⟩
  | deallocate {s s' : State} {live : List Alloc} {a : Alloc} (ha : a ∈ live)
      (hkind : a.kind = .plain) (hcall : deallocate s a.ptr = .ok s') :
      Step start ⟨s, live⟩ ⟨s', live.erase a⟩
  | allocateAligned {s s' : State} {live : List Alloc} {size align p : Nat} (grow : Nat → Nat)
      (hgrow : ∀ n, GrowOk s n (grow n))
      (hcall : allocateAligned (callback grow) () s size align = .ok (p, s', ())) :
      Step start ⟨s, live⟩ ⟨s', record live p size .aligned⟩
  | deallocateAligned {s s' : State} {live : List Alloc} {a : Alloc} (ha : a ∈ live)
      (hkind : a.kind = .aligned) (hcall : deallocateAligned s a.ptr = .ok s') :
      Step start ⟨s, live⟩ ⟨s', live.erase a⟩
  | write {s : State} {live : List Alloc} {a : Alloc} {m : ByteMem} (ha : a ∈ live)
      (hm : SameOutside s.mem m a.ptr (a.ptr + a.size)) :
      Step start ⟨s, live⟩ ⟨{ s with mem := m }, live⟩
  | elsewhere {s : State} {live : List Alloc} {m : ByteMem}
      (hm : Agree s.mem m start s.heap.heapEnd) :
      Step start ⟨s, live⟩ ⟨{ s with mem := m }, live⟩

/-- The states a run from `Heap::new` can reach. -/
def Reachable (start initialSize max : Nat) (s : Sys) : Prop :=
  ∃ m s₀, new m start initialSize max = .ok s₀ ∧
    Relation.ReflTransGen (Step start) ⟨s₀, []⟩ s

/-! ## Owners -/

/-- The live allocations of a sequence of blocks. -/
def owners (bs : List Blk) : List Alloc := bs.filterMap Blk.owner

@[simp] theorem owners_append (bs cs : List Blk) : owners (bs ++ cs) = owners bs ++ owners cs :=
  List.filterMap_append

theorem owners_cons_some {b : Blk} {a : Alloc} (bs : List Blk) (h : b.owner = some a) :
    owners (b :: bs) = a :: owners bs :=
  List.filterMap_cons_some h

theorem owners_cons_none {b : Blk} (bs : List Blk) (h : b.owner = none) :
    owners (b :: bs) = owners bs :=
  List.filterMap_cons_none h

theorem owners_splitBlk (needed : Nat) (a : Alloc) (b : Blk) :
    owners (splitBlk needed a b) = [a] := by
  unfold splitBlk
  split_ifs <;> rfl

theorem owners_mergeNext (bs : List Blk) : owners (mergeNext bs) = owners bs := by
  unfold mergeNext
  split
  · split_ifs with h
    · rw [owners_cons_none _ rfl, owners_cons_none _ h.1, owners_cons_none _ h.2]
    · rfl
  · rfl

theorem owners_release (pre : List Blk) (b : Blk) (post : List Blk) :
    owners (release pre b post) = owners pre ++ owners post := by
  unfold release
  rcases List.eq_nil_or_concat pre with rfl | ⟨pre, p, rfl⟩
  · simp only [List.getLast?_nil, owners_mergeNext]
    exact owners_cons_none post rfl
  · rw [List.concat_eq_append]
    simp only [List.getLast?_append, List.getLast?_singleton, Option.some_or, List.dropLast_concat,
      owners_append, owners_mergeNext]
    have h1 : owners (p :: mergeNext ({ b with owner := none } :: post)) =
        owners [p] ++ owners post := by
      rw [← List.singleton_append, owners_append, owners_mergeNext, owners_cons_none post rfl]
    rw [h1, List.append_assoc]

/-- The block that an owner holds. -/
theorem exists_block_of_mem_owners {bs : List Blk} {a : Alloc} (h : a ∈ owners bs) :
    ∃ pre b post, bs = pre ++ b :: post ∧ b.owner = some a := by
  obtain ⟨b, hb, hba⟩ := List.mem_filterMap.1 h
  obtain ⟨pre, post, rfl⟩ := List.append_of_mem hb
  exact ⟨pre, b, post, rfl, hba⟩

/-! ## Moves -/

/-- One move on the sequence of blocks of a heap, given with its end. `G e n r` allows the heap to
grow from `e` to `r` when `n` bytes are asked for. -/
inductive Move (G : Nat → Nat → Nat → Prop) : Nat × List Blk → Nat × List Blk → Prop
  | take {e needed : Nat} {a : Alloc} {b : Blk} {pre post : List Blk} (hfree : b.owner = none)
      (hroom : needed ≤ b.size) :
      Move G (e, pre ++ b :: post) (e, pre ++ splitBlk needed a b ++ post)
  | attach {e r needed : Nat} {a : Alloc} {bs : List Blk} (hgrow : G e (needed + headerSize) r) :
      Move G (e, bs) (r, bs ++ [⟨e, needed, some a⟩])
  | realign {e : Nat} {a : Alloc} {b : Blk} {pre post : List Blk} (hown : b.owner ≠ none) :
      Move G (e, pre ++ b :: post) (e, pre ++ { b with owner := some a } :: post)
  | release {e : Nat} {b : Blk} {pre post : List Blk} (hown : b.owner ≠ none) :
      Move G (e, pre ++ b :: post) (e, Heap.release pre b post)

/-- The state holds the blocks `bs`, and their owners are exactly the live allocations. -/
structure Holding (start : Nat) (σ : Sys) (bs : List Blk) : Prop where
  rep : Rep start σ.state bs
  owners : (owners bs).Perm σ.live

/-- The step from `σ`, which holds `bs`, to `σ'` is a sequence of moves. -/
def Moves (G : Nat → Nat → Nat → Prop) (start : Nat) (σ : Sys) (bs : List Blk) (σ' : Sys) : Prop :=
  ∃ bs', Relation.ReflTransGen (Move G) (σ.state.heap.heapEnd, bs) (σ'.state.heap.heapEnd, bs') ∧
    Holding start σ' bs' ∧ σ'.state.heap.max = σ.state.heap.max

/-- Any end that `grow_and_attach` accepts is word aligned, far enough on, and allowed by `G`. -/
def Answers {σ : Type} (G : Nat → Nat → Nat → Prop) (grow : Nat → σ → Outcome (Nat × σ))
    (env env' : σ) (s : State) (size : Nat) : Prop :=
  ∀ n r, Wants s size n → grow n env = .ok (r, env') → ¬Rejected s r →
    4 ∣ r ∧ s.heap.heapEnd + n ≤ r ∧ G s.heap.heapEnd n r

section Steps

variable {G : Nat → Nat → Nat → Prop} {σ : Type} {grow : Nat → σ → Outcome (Nat × σ)}
variable {env env' : σ} {start size align p : Nat} {s s' : State} {live : List Alloc} {a : Alloc}
variable {bs pre post : List Blk} {b : Blk} {m : ByteMem}

/-- What every move preserves, a sequence of moves preserves. -/
theorem Moves.invariant {σ σ' : Sys} {P : Nat × List Blk → Prop} (h : Moves G start σ bs σ')
    (hmove : ∀ v v', Move G v v' → P v → P v') (hP : P (σ.state.heap.heapEnd, bs)) :
    ∃ bs', Holding start σ' bs' ∧ σ'.state.heap.max = σ.state.heap.max ∧
      P (σ'.state.heap.heapEnd, bs') := by
  have hall : ∀ v, Relation.ReflTransGen (Move G) (σ.state.heap.heapEnd, bs) v → P v := by
    intro v hrun
    induction hrun with
    | refl => exact hP
    | tail _ hlast ih => exact hmove _ _ hlast ih
  obtain ⟨bs', hrun, hhold, hmax⟩ := h
  exact ⟨bs', hhold, hmax, hall _ hrun⟩

theorem Holding.refl (h : Holding start ⟨s, live⟩ bs) : Moves G start ⟨s, live⟩ bs ⟨s, live⟩ :=
  ⟨bs, .refl, h, rfl⟩

theorem moves_allocate (h : Holding start ⟨s, live⟩ bs) (hG : Answers G grow env env' s size)
    (hres : allocate grow env s size = .ok (p, s', env')) :
    Moves G start ⟨s, live⟩ bs ⟨s', record live p size .plain⟩ := by
  have hrec : ∀ {q : Nat}, q ≠ 0 → record live q size .plain = ⟨q, size, .plain⟩ :: live :=
    fun hq => if_neg hq
  cases allocate_spec h.rep hres with
  | zero _ => exact h.refl
  | full _ _ => exact h.refl
  | denied _ _ _ => exact h.refl
  | @taken pre post b _ hbs hfree hroom hheap hrep =>
      subst hbs
      refine ⟨_, ?_, ⟨hrep, ?_⟩, by rw [hheap]⟩
      · rw [hheap]
        exact .single (.take hfree hroom)
      · rw [hrec (by rw [Blk.payload, headerSize]; omega)]
        simp only [owners_append, owners_splitBlk, List.append_assoc, List.singleton_append]
        refine List.perm_middle.trans (List.Perm.cons _ ?_)
        rw [← owners_cons_none post hfree, ← owners_append]
        exact h.owners
  | @grown n r _ _ hwants hcall hacc hheap hrep =>
      obtain ⟨hdvd, hroom, hrule⟩ := hG n r hwants hcall hacc
      refine ⟨_, ?_, ⟨hrep (Or.inr ⟨hdvd, hroom⟩), ?_⟩, by rw [hheap]⟩
      · rw [hheap]
        exact .single (.attach (hwants.bytes ▸ hrule))
      · rw [hrec (by rw [headerSize]; omega), owners_append, owners_cons_some [] rfl]
        exact (List.perm_append_singleton _ _).trans (h.owners.cons _)

/-- Moving an owner up inside its block leaves room for the back-pointer. -/
theorem realign_spec (h : Rep start s (pre ++ b :: post)) {aligned : Nat} (size : Nat)
    (hlo : b.payload + word ≤ aligned) (hhi : aligned + size ≤ b.limit) (hown : b.owner ≠ none) :
    Rep start { s with mem := store32 s.mem (aligned - word) b.payload }
      (pre ++ [{ b with owner := some ⟨aligned, size, .aligned⟩ }] ++ post) := by
  have hbmem : b ∈ pre ++ b :: post := by simp
  have hb := h.holds b hbmem
  have hlim := h.limit_lt hbmem
  simp only [Blk.payload, Blk.limit, headerSize, word] at hlo hhi hlim ⊢
  have hhead : Agree s.mem (store32 s.mem (aligned - 4) (b.addr + 12)) b.addr
      (b.addr + headerSize) := store32_agree _ _ _ (by simp only [headerSize]; omega)
  refine h.rewrite _
    (store32_sameOutside _ _ _ (by omega) (by simp only [Blk.limit, headerSize]; omega))
    ?_ (by simp) ⟨le_rfl, h.addr_mem, le_rfl⟩ ?_
  · simp [nextOf_congr hhead]
  · intro c hc
    rw [List.mem_singleton] at hc
    subst hc
    exact {
      size := by
        simp only
        rw [sizeOf_congr hhead]
        exact hb.size
      flag := by
        simp only
        rw [isFreeOf_congr hhead, hb.flag, if_neg hown, if_neg (by simp)]
      fits := fun a' ha' => by
        obtain rfl := Option.some.inj ha'
        exact ⟨hhi, hlo⟩
      back := fun a' ha' _ => by
        obtain rfl := Option.some.inj ha'
        exact load32_store32 _ _ (show b.addr + 12 < wordCount by omega) }

/-- The effective alignment is a power of two as well. -/
theorem exists_pow_of_isPowerOfTwo (h : isPowerOfTwo align = true) :
    ∃ j < 32, Max.max align defaultAlign = 2 ^ j := by
  obtain ⟨k, hk, hpow⟩ : ∃ k < 32, align = 2 ^ k := by
    simpa [isPowerOfTwo] using h
  by_cases hk2 : 2 ≤ k
  · refine ⟨k, hk, ?_⟩
    rw [hpow, Nat.max_eq_left]
    exact Nat.pow_le_pow_right (n := 2) (i := 2) (by decide) hk2
  · refine ⟨2, by decide, ?_⟩
    rw [hpow, Nat.max_eq_right]
    · rfl
    · exact Nat.pow_le_pow_right (n := 2) (i := k) (j := 2) (by decide) (by omega)

/-- What `allocate_aligned` does around its call of `allocate`. -/
theorem allocateAligned_cases (hres : allocateAligned grow env s size align = .ok (p, s', env')) :
    (p = 0 ∧ s' = s ∧ env' = env) ∨
    (size ≠ 0 ∧ isPowerOfTwo align = true ∧ ∃ base s₁,
      allocate grow env s (size + Max.max align defaultAlign + word) = .ok (base, s₁, env') ∧
      (base = 0 ∧ p = 0 ∧ s' = s₁ ∨
        base ≠ 0 ∧ base + word ≤ p ∧ p < base + word + Max.max align defaultAlign ∧
          Max.max align defaultAlign ∣ p ∧
          s' = { s₁ with mem := store32 s₁.mem (p - word) base })) := by
  unfold allocateAligned at hres
  split_ifs at hres with hbad
  · simp only [Outcome.pure_eq, Outcome.ok.injEq, Prod.mk.injEq] at hres
    exact Or.inl ⟨hres.1.symm, hres.2.1.symm, hres.2.2.symm⟩
  simp only [not_or, Bool.not_eq_false] at hbad
  obtain ⟨hsize, hpower⟩ := hbad
  obtain ⟨j, hj, halign⟩ := exists_pow_of_isPowerOfTwo hpower
  simp only at hres
  split_ifs at hres with hover
  · simp only [Outcome.pure_eq, Outcome.ok.injEq, Prod.mk.injEq] at hres
    exact Or.inl ⟨hres.1.symm, hres.2.1.symm, hres.2.2.symm⟩
  simp only [Outcome.bind_eq_ok] at hres
  obtain ⟨⟨base, s₁, env₁⟩, hcall, hres⟩ := hres
  right
  refine ⟨hsize, hpower, base, s₁, ?_⟩
  by_cases hbase : base = 0
  · simp only [if_pos hbase, Outcome.pure_eq, Outcome.ok.injEq, Prod.mk.injEq] at hres
    obtain ⟨rfl, rfl, rfl⟩ := hres
    exact ⟨hcall, Or.inl ⟨hbase, rfl, rfl⟩⟩
  · simp only [if_neg hbase, Outcome.bind_eq_ok, checkedAdd_eq_ok, checkedSub_eq_ok,
      Outcome.pure_eq, Outcome.ok.injEq, Prod.mk.injEq] at hres
    obtain ⟨_, ⟨rfl, -⟩, aligned, hup, _, ⟨rfl, -⟩, rfl, rfl, rfl⟩ := hres
    rw [halign] at hup ⊢
    obtain ⟨hge, hlt, hdvd, -⟩ := alignUp_spec hj hup
    exact ⟨halign ▸ hcall, Or.inr ⟨hbase, hge, hlt, hdvd, rfl⟩⟩

theorem moves_allocateAligned (h : Holding start ⟨s, live⟩ bs)
    (hG : size ≠ 0 → isPowerOfTwo align = true →
      Answers G grow env env' s (size + Max.max align defaultAlign + word))
    (hres : allocateAligned grow env s size align = .ok (p, s', env')) :
    Moves G start ⟨s, live⟩ bs ⟨s', record live p size .aligned⟩ := by
  rcases allocateAligned_cases hres with ⟨rfl, rfl, -⟩ | ⟨hsize, hpower, base, s₁, hcall, hrest⟩
  · exact h.refl
  obtain ⟨bs₁, hmoves, ⟨hrep₁, howners₁⟩, hmax₁⟩ := moves_allocate h (hG hsize hpower) hcall
  rcases hrest with ⟨rfl, rfl, rfl⟩ | ⟨hbase, hge, hlt, -, rfl⟩
  · exact ⟨bs₁, hmoves, ⟨hrep₁, howners₁⟩, hmax₁⟩
  rw [record, if_neg hbase] at howners₁
  -- The block that `allocate` handed out, with its temporary owner.
  obtain ⟨pre, b, post, rfl, hown⟩ :=
    exists_block_of_mem_owners (howners₁.symm.subset List.mem_cons_self)
  obtain ⟨hroom, hptr⟩ := (hrep₁.holds b (by simp)).fits _ hown
  simp only at hroom hptr
  subst hptr
  have hown' : b.owner ≠ none := by simp [hown]
  have hrep := realign_spec hrep₁ size hge (by omega) hown'
  rw [List.append_assoc, List.singleton_append] at hrep
  refine ⟨_, hmoves.tail (.realign (a := ⟨p, size, .aligned⟩) hown'), ⟨hrep, ?_⟩, hmax₁⟩
  have hne : p ≠ 0 := by simp only [word] at hge; omega
  rw [record, if_neg hne]
  have hrest : (owners pre ++ owners post).Perm live := by
    have h1 : (owners pre ++ ⟨b.payload, size + Max.max align defaultAlign + word, .plain⟩ ::
        owners post).Perm
        (⟨b.payload, size + Max.max align defaultAlign + word, .plain⟩ :: live) := by
      rw [← owners_cons_some post hown, ← owners_append]
      exact howners₁
    exact (List.perm_middle.symm.trans h1).cons_inv
  rw [owners_append, owners_cons_some post rfl]
  exact List.perm_middle.trans (hrest.cons _)

/-- The block of a live allocation, and what the free leaves behind. -/
theorem moves_release (h : Holding start ⟨s, live⟩ bs) (ha : a ∈ live) :
    ∃ b pre post, Rep start s (pre ++ b :: post) ∧ b.owner = some a ∧
      ∃ s', deallocate s b.payload = .ok s' ∧ Moves G start ⟨s, live⟩ bs ⟨s', live.erase a⟩ := by
  obtain ⟨hrep, hperm⟩ := h
  obtain ⟨pre, b, post, rfl, hown⟩ := exists_block_of_mem_owners (hperm.symm.subset ha)
  obtain ⟨s', hcall, hrep'⟩ := deallocate_spec hrep
  have hheap := deallocate_heap hcall
  refine ⟨b, pre, post, hrep, hown, s', hcall, _, ?_, ⟨hrep', ?_⟩, by rw [hheap]⟩
  · rw [hheap]
    exact .single (.release (by simp [hown]))
  · rw [owners_release]
    have h1 : (a :: (owners pre ++ owners post)).Perm live := by
      refine List.perm_middle.symm.trans ?_
      rw [← owners_cons_some post hown, ← owners_append]
      exact hperm
    simpa using h1.erase a

theorem moves_deallocate (h : Holding start ⟨s, live⟩ bs) (ha : a ∈ live)
    (hkind : a.kind = .plain) :
    ∃ s', deallocate s a.ptr = .ok s' ∧ Moves G start ⟨s, live⟩ bs ⟨s', live.erase a⟩ := by
  obtain ⟨b, pre, post, hrep, hown, s', hcall, hmoves⟩ := moves_release h ha
  have hptr : a.ptr = b.payload := by
    have hfit := ((hrep.holds b (by simp)).fits a hown).2
    rwa [hkind] at hfit
  exact ⟨s', hptr ▸ hcall, hmoves⟩

/-- The free of an aligned allocation is the free of the block that hosts it. -/
theorem deallocateAligned_eq (h : Rep start s bs) (hb : b ∈ bs) (hown : b.owner = some a)
    (hkind : a.kind = .aligned) : deallocateAligned s a.ptr = deallocate s b.payload := by
  have hfit := ((h.holds b hb).fits a hown).2
  simp only [hkind] at hfit
  have hsub : checkedSub a.ptr word = .ok (a.ptr - word) := checkedSub_eq_ok.2 ⟨rfl, by omega⟩
  have hne : b.payload ≠ 0 := by simp [Blk.payload, headerSize]
  simp [deallocateAligned, hsub, (h.holds b hb).back a hown hkind, hne]

theorem moves_deallocateAligned (h : Holding start ⟨s, live⟩ bs) (ha : a ∈ live)
    (hkind : a.kind = .aligned) :
    ∃ s', deallocateAligned s a.ptr = .ok s' ∧ Moves G start ⟨s, live⟩ bs ⟨s', live.erase a⟩ := by
  obtain ⟨b, pre, post, hrep, hown, s', hcall, hmoves⟩ := moves_release h ha
  rw [deallocateAligned_eq hrep (by simp) hown hkind]
  exact ⟨s', hcall, hmoves⟩

/-- A write that stays inside live allocations, or outside the heap, disturbs no block. -/
theorem Holding.write (h : Holding start ⟨s, live⟩ bs)
    (hm : ∀ i, start ≤ i → i < s.heap.heapEnd →
      (∀ a ∈ live, ¬ (a.ptr ≤ i ∧ i < a.ptr + a.size)) → m i = s.mem i) :
    Rep start { s with mem := m } bs := by
  obtain ⟨hrep, hperm⟩ := h
  have hblk : ∀ b ∈ bs, ∀ i, b.addr ≤ i → i < b.limit →
      (∀ a ∈ b.owner, ¬ (a.ptr ≤ i ∧ i < a.ptr + a.size)) → m i = s.mem i := by
    intro b hb i hlo hhi hfree
    have hin := hrep.layout.mem hb
    apply hm i (hin.1.trans hlo) (lt_of_lt_of_le hhi hin.2.2)
    intro a ha hcover
    -- The block that owns `a` would overlap `b`, unless it is `b` itself.
    obtain ⟨pre, c, post, rfl, hown⟩ := exists_block_of_mem_owners (hperm.symm.subset ha)
    have hfit := (hrep.holds c (by simp)).fits a hown
    have hclo : c.addr ≤ i := by
      have := hfit.2
      cases hk : a.kind <;> simp only [hk, Blk.payload] at this <;> omega
    have hchi : i < c.limit := lt_of_lt_of_le hcover.2 hfit.1
    rcases List.mem_append.1 hb with hb | hb
    · have := hrep.before hb
      omega
    · rcases List.mem_cons.1 hb with rfl | hb
      · exact hfree a hown hcover
      · have := hrep.after hb
        omega
  have hholds : ∀ b ∈ bs, b.Holds m := fun b hb => (hrep.holds b hb).congr (hblk b hb)
  refine ⟨hrep.head, hrep.linked.congr ?_, hrep.nonempty, hrep.layout, hholds, hrep.endAligned,
    hrep.endLe, hrep.maxLt⟩
  intro x hx
  obtain ⟨b, hb, rfl⟩ := List.mem_map.1 hx
  refine nextOf_congr fun i hlo hhi => hblk b hb i hlo (by rw [Blk.limit_eq]; omega) ?_
  intro a ha hcover
  have hfit := (hrep.holds b hb).fits a ha
  have := hfit.2
  cases hk : a.kind <;> simp only [hk, Blk.payload] at this <;> omega

theorem moves_write (h : Holding start ⟨s, live⟩ bs)
    (hm : ∀ i, start ≤ i → i < s.heap.heapEnd →
      (∀ a ∈ live, ¬ (a.ptr ≤ i ∧ i < a.ptr + a.size)) → m i = s.mem i) :
    Moves G start ⟨s, live⟩ bs ⟨{ s with mem := m }, live⟩ :=
  ⟨bs, .refl, ⟨h.write hm, h.owners⟩, rfl⟩

end Steps

/-! ## Calls by name -/

/-- The calls and writes that a run is made of. -/
inductive Call where
  | allocate (size : Nat) (grow : Nat → Nat)
  | deallocate (a : Alloc)
  | allocateAligned (size align : Nat) (grow : Nat → Nat)
  | deallocateAligned (a : Alloc)
  | write (a : Alloc) (m : ByteMem)
  | elsewhere (m : ByteMem)

namespace Call

/-- The call, made in `σ`, returns and leaves `σ'` behind. -/
def Does (start : Nat) (σ : Sys) (σ' : Sys) : Call → Prop
  | allocate size grow => (∀ n, GrowOk σ.state n (grow n)) ∧ ∃ p,
      Heap.allocate (callback grow) () σ.state size = .ok (p, σ'.state, ()) ∧
        σ'.live = record σ.live p size .plain
  | deallocate a => a ∈ σ.live ∧ a.kind = .plain ∧
      Heap.deallocate σ.state a.ptr = .ok σ'.state ∧ σ'.live = σ.live.erase a
  | allocateAligned size align grow => (∀ n, GrowOk σ.state n (grow n)) ∧ ∃ p,
      Heap.allocateAligned (callback grow) () σ.state size align = .ok (p, σ'.state, ()) ∧
        σ'.live = record σ.live p size .aligned
  | deallocateAligned a => a ∈ σ.live ∧ a.kind = .aligned ∧
      Heap.deallocateAligned σ.state a.ptr = .ok σ'.state ∧ σ'.live = σ.live.erase a
  | write a m => a ∈ σ.live ∧ SameOutside σ.state.mem m a.ptr (a.ptr + a.size) ∧
      σ' = ⟨{ σ.state with mem := m }, σ.live⟩
  | elsewhere m => Agree σ.state.mem m start σ.state.heap.heapEnd ∧
      σ' = ⟨{ σ.state with mem := m }, σ.live⟩

/-- The call grows the heap: it asks for `n` bytes, and accepts the end `r`. -/
def Grows (σ : Sys) (n r : Nat) : Call → Prop
  | allocate size grow => Wants σ.state size n ∧ grow n = r ∧ ¬Rejected σ.state r
  | allocateAligned size align grow => size ≠ 0 ∧ isPowerOfTwo align = true ∧
      Wants σ.state (size + Max.max align defaultAlign + word) n ∧ grow n = r ∧
        ¬Rejected σ.state r
  | _ => False

end Call

section Calls

variable {G : Nat → Nat → Nat → Prop} {start : Nat} {σ σ' : Sys} {bs : List Blk} {c : Call}

theorem step_iff : Step start σ σ' ↔ ∃ c : Call, c.Does start σ σ' := by
  constructor
  · intro h
    cases h with
    | allocate grow hgrow hcall => exact ⟨.allocate _ grow, hgrow, _, hcall, rfl⟩
    | deallocate ha hkind hcall => exact ⟨.deallocate _, ha, hkind, hcall, rfl⟩
    | allocateAligned grow hgrow hcall => exact ⟨.allocateAligned _ _ grow, hgrow, _, hcall, rfl⟩
    | deallocateAligned ha hkind hcall => exact ⟨.deallocateAligned _, ha, hkind, hcall, rfl⟩
    | write ha hm => exact ⟨.write _ _, ha, hm, rfl⟩
    | elsewhere hm => exact ⟨.elsewhere _, hm, rfl⟩
  · intro h
    obtain ⟨s, live⟩ := σ
    obtain ⟨s', live'⟩ := σ'
    obtain ⟨c, hdoes⟩ := h
    cases c with
    | allocate size grow =>
        obtain ⟨hgrow, p, hcall, rfl⟩ := hdoes
        exact .allocate grow hgrow hcall
    | deallocate a =>
        obtain ⟨ha, hkind, hcall, rfl⟩ := hdoes
        exact .deallocate ha hkind hcall
    | allocateAligned size align grow =>
        obtain ⟨hgrow, p, hcall, rfl⟩ := hdoes
        exact .allocateAligned grow hgrow hcall
    | deallocateAligned a =>
        obtain ⟨ha, hkind, hcall, rfl⟩ := hdoes
        exact .deallocateAligned ha hkind hcall
    | write a m =>
        obtain ⟨ha, hm, heq⟩ := hdoes
        rw [heq]
        exact .write ha hm
    | elsewhere m =>
        obtain ⟨hm, heq⟩ := hdoes
        rw [heq]
        exact .elsewhere hm

/-- **Every call is a sequence of moves.** -/
theorem moves_call (h : Holding start σ bs) (hdoes : c.Does start σ σ')
    (hG : ∀ n r, c.Grows σ n r → G σ.state.heap.heapEnd n r) : Moves G start σ bs σ' := by
  obtain ⟨s, live⟩ := σ
  obtain ⟨s', live'⟩ := σ'
  -- An end that is accepted satisfies the contract of the callback.
  have hanswer : ∀ {size : Nat} {grow : Nat → Nat}, (∀ n, GrowOk s n (grow n)) →
      (∀ n r, Wants s size n → grow n = r → ¬Rejected s r → G s.heap.heapEnd n r) →
      Answers G (callback grow) () () s size := by
    intro size grow hgrow hrule n r hwants hcall hacc
    simp only [callback, Outcome.ok.injEq, Prod.mk.injEq, and_true] at hcall
    have hok := hgrow n
    rw [hcall] at hok
    obtain ⟨hdvd, hroom⟩ := hok.resolve_left fun hzero => hacc (Or.inl hzero)
    exact ⟨hdvd, hroom, hrule n r hwants hcall hacc⟩
  cases c with
  | allocate size grow =>
      obtain ⟨hgrow, p, hcall, rfl⟩ := hdoes
      exact moves_allocate h
        (hanswer hgrow fun n r hwants hr hacc => hG n r ⟨hwants, hr, hacc⟩) hcall
  | deallocate a =>
      obtain ⟨ha, hkind, hcall, rfl⟩ := hdoes
      obtain ⟨s'', hcall', hmoves⟩ := moves_deallocate h ha hkind
      obtain rfl : s'' = s' := Outcome.ok.inj (hcall'.symm.trans hcall)
      exact hmoves
  | allocateAligned size align grow =>
      obtain ⟨hgrow, p, hcall, rfl⟩ := hdoes
      exact moves_allocateAligned h (fun hsize hpower => hanswer hgrow fun n r hwants hr hacc =>
        hG n r ⟨hsize, hpower, hwants, hr, hacc⟩) hcall
  | deallocateAligned a =>
      obtain ⟨ha, hkind, hcall, rfl⟩ := hdoes
      obtain ⟨s'', hcall', hmoves⟩ := moves_deallocateAligned h ha hkind
      obtain rfl : s'' = s' := Outcome.ok.inj (hcall'.symm.trans hcall)
      exact hmoves
  | write a m =>
      obtain ⟨ha, hm, heq⟩ := hdoes
      rw [heq]
      refine moves_write h fun i _ _ hfree => hm i ?_
      have := hfree _ ha
      omega
  | elsewhere m =>
      obtain ⟨hm, heq⟩ := hdoes
      rw [heq]
      exact moves_write h fun i hlo hhi _ => hm i hlo hhi

/-- **Every step of a run is a sequence of moves.** -/
theorem moves_step (h : Holding start σ bs) (hstep : Step start σ σ') :
    Moves (fun _ _ _ => True) start σ bs σ' := by
  obtain ⟨c, hdoes⟩ := step_iff.1 hstep
  exact moves_call h hdoes fun _ _ _ => trivial

end Calls

end Munux.Heap
