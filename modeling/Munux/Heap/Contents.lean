import Munux.Heap.Invariant
import Munux.Lib.Traces

/-!
# What is in an allocation

The allocator keeps its headers among the payloads of its users. It writes a header of twelve bytes
in front of a payload, cuts a free block in two, or stores the pointer back in front of an aligned
allocation; nothing of that is in a block that somebody else owns (`Kept`).

So an allocation is a buffer of its own: whatever all others do, its bytes stay as its owner left
them.

Main result: `contents_kept`.
-/

namespace Munux.Heap

open ByteMem

/-- The payloads of the blocks that have an owner are the same in both memories. -/
def Kept (bs : List Blk) (m m' : ByteMem) : Prop :=
  ∀ c ∈ bs, c.owner ≠ none → Agree m m' c.payload c.limit

/-! ## What the functions write -/

section Writes

variable {σ : Type} {grow : Nat → σ → Outcome (Nat × σ)} {env env' : σ}
  {start needed size align p block hi : Nat} {s s' : State} {b c : Blk} {bs : List Blk}
  {m m' m'' : ByteMem}

theorem Blk.header_le_limit (b : Blk) : b.addr + headerSize ≤ b.limit := Nat.le_add_right _ _

theorem Kept.refl (bs : List Blk) (m : ByteMem) : Kept bs m m := fun _ _ _ => Agree.refl m _ _

theorem Kept.trans (h : Kept bs m m') (h' : Kept bs m' m'') : Kept bs m m'' :=
  fun c hc hown => (h c hc hown).trans (h' c hc hown)

/-- One of two blocks ends before the other begins. -/
theorem Rep.apart (h : Rep start s bs) (hb : b ∈ bs) (hc : c ∈ bs) (hne : c ≠ b) :
    c.limit ≤ b.addr ∨ b.limit ≤ c.addr := by
  obtain ⟨pre, post, rfl⟩ := List.append_of_mem hb
  rcases List.mem_append.1 hc with hc | hc
  · exact .inl (h.before hc)
  · exact .inr (h.after ((List.mem_cons.1 hc).resolve_left hne))

/-- A header is in no payload. -/
theorem Rep.kept_header (h : Rep start s bs) (hb : b ∈ bs)
    (hout : SameOutside m m' b.addr (b.addr + headerSize)) : Kept bs m m' := by
  intro c hc _
  apply hout.agree
  by_cases hne : c = b
  · exact .inr (hne ▸ le_rfl)
  · refine (h.apart hb hc hne).imp id fun hle => ?_
    rw [Blk.limit_eq] at hle
    rw [Blk.payload]
    omega

/-- Nor is anything of a free block. -/
theorem Rep.kept_free (h : Rep start s bs) (hb : b ∈ bs) (hfree : b.owner = none)
    (hout : SameOutside m m' b.addr b.limit) : Kept bs m m' := by
  intro c hc hown
  have hne : c ≠ b := by
    rintro rfl
    exact hown hfree
  apply hout.agree
  refine (h.apart hb hc hne).imp id fun hle => ?_
  rw [Blk.payload]
  omega

/-- Nor is anything behind the heap. -/
theorem Rep.kept_behind (h : Rep start s bs) (hout : SameOutside m m' s.heap.heapEnd hi) :
    Kept bs m m' :=
  fun _ hc _ => hout.agree (.inl (h.limit_le hc))

theorem mergeWithNextIfFree_frame (hm : mergeWithNextIfFree m block = .ok m') :
    SameOutside m m' block (block + headerSize) := by
  unfold mergeWithNextIfFree at hm
  split_ifs at hm
  · obtain rfl := Outcome.ok.inj hm
    exact fun _ _ => rfl
  · simp only at hm
    split_ifs at hm
    · obtain rfl := Outcome.ok.inj hm
      exact fun _ _ => rfl
    · simp only [Outcome.bind_eq_ok] at hm
      obtain ⟨extra, -, merged, -, hm⟩ := hm
      obtain rfl := Outcome.ok.inj hm
      exact setSize_sameOutside.trans setNext_sameOutside

/-- **`deallocate`** writes headers. -/
theorem deallocate_kept (h : Rep start s bs) (hb : b ∈ bs)
    (hcall : deallocate s b.payload = .ok s') : Kept bs s.mem s'.mem := by
  obtain ⟨pre, post, rfl⟩ := List.append_of_mem hb
  have hlim := h.limit_lt hb
  have hheader : (b.payload + wordCount - headerSize) % wordCount = b.addr := by
    simp only [Blk.limit, Blk.payload, headerSize, wordCount] at hlim ⊢
    omega
  unfold deallocate at hcall
  simp only [hheader, findPredecessor_spec h, Outcome.ok_bind, Outcome.bind_eq_ok] at hcall
  obtain ⟨m, hm, hcall⟩ := hcall
  have hfirst : Kept (pre ++ b :: post) s.mem m :=
    h.kept_header hb (setIsFree_sameOutside.trans (mergeWithNextIfFree_frame hm))
  cases hlast : pre.getLast? with
  | none =>
      simp only [hlast, Option.map_none] at hcall
      obtain rfl := Outcome.ok.inj hcall
      exact hfirst
  | some q =>
      simp only [hlast, Option.map_some, Outcome.bind_eq_ok] at hcall
      obtain ⟨m', hm', hcall⟩ := hcall
      obtain rfl := Outcome.ok.inj hcall
      have hq : q ∈ pre ++ b :: post := List.mem_append_left _ (List.mem_of_getLast? hlast)
      exact hfirst.trans (h.kept_header hq (mergeWithNextIfFree_frame hm'))

theorem splitIfWorthwhile_frame (h : Rep start s bs) (hb : b ∈ bs)
    (hm : splitIfWorthwhile s.mem b.addr needed = .ok m) :
    SameOutside s.mem m b.addr b.limit := by
  have hlim := h.limit_lt hb
  unfold splitIfWorthwhile at hm
  rw [(h.holds b hb).size, h.payloadOf hb] at hm
  simp only [Outcome.bind_eq_ok, checkedAdd_eq_ok] at hm
  obtain ⟨least, ⟨rfl, -⟩, hm⟩ := hm
  split_ifs at hm with hworth
  · obtain rfl := Outcome.ok.inj hm
    exact fun _ _ => rfl
  · simp only [Outcome.bind_eq_ok, checkedSub_eq_ok] at hm
    obtain ⟨_, ⟨rfl, -⟩, _, ⟨rfl, -⟩, hm⟩ := hm
    obtain rfl := Outcome.ok.inj hm
    simp only [Blk.limit, headerSize, minSplitRemainder] at hlim hworth
    -- The header of the rest is inside of the old payload.
    have hnew : (b.payload + needed) % wordCount = b.payload + needed :=
      Nat.mod_eq_of_lt (by simp only [Blk.payload, headerSize]; omega)
    rw [hnew]
    have hrest : SameOutside s.mem (writeBlock s.mem (b.payload + needed)
        ⟨b.size - needed - headerSize, 1, nextOf s.mem b.addr⟩) b.addr b.limit :=
      writeBlock_sameOutside.mono (by simp only [Blk.payload]; omega)
        (by simp only [Blk.payload, Blk.limit, headerSize]; omega)
    exact hrest.trans ((setSize_sameOutside.trans setNext_sameOutside).mono le_rfl b.header_le_limit)

/-- **`allocate`** writes in a free block, or behind the heap and in the last header. -/
theorem allocate_kept (h : Rep start s bs)
    (hcall : allocate grow env s size = .ok (p, s', env')) : Kept bs s.mem s'.mem := by
  unfold allocate at hcall
  split_ifs at hcall with hzero
  · obtain ⟨rfl, rfl, rfl⟩ := by simpa using hcall
    exact Kept.refl bs _
  simp only [Outcome.bind_eq_ok] at hcall
  obtain ⟨needed, -, current, hloop, hcall⟩ := hcall
  obtain ⟨pre, b, post, rfl, hfollow, -, -⟩ := firstFit_spec h needed
  obtain rfl : b.addr = current := Outcome.ok.inj (hfollow.symm.trans hloop)
  have hb : b ∈ pre ++ b :: post := by simp
  split_ifs at hcall with hfit
  · simp only [Outcome.bind_eq_ok] at hcall
    obtain ⟨m, hm, hcall⟩ := hcall
    obtain ⟨rfl, rfl, rfl⟩ := by simpa using hcall
    have hfree := ((fits_iff (h.holds b hb) needed).1 hfit).1
    exact h.kept_free hb hfree ((splitIfWorthwhile_frame h hb hm).trans
      (setIsFree_sameOutside.mono le_rfl b.header_le_limit))
  · unfold growAndAttach at hcall
    simp only [Outcome.bind_eq_ok] at hcall
    obtain ⟨required, -, hcall⟩ := hcall
    split_ifs at hcall
    · obtain ⟨rfl, rfl, rfl⟩ := by simpa using hcall
      exact Kept.refl _ _
    simp only [Outcome.bind_eq_ok] at hcall
    obtain ⟨⟨newEnd, env₁⟩, -, hcall⟩ := hcall
    split_ifs at hcall
    · obtain ⟨rfl, rfl, rfl⟩ := by simpa using hcall
      exact Kept.refl _ _
    · obtain ⟨rfl, rfl, rfl⟩ := by simpa using hcall
      exact (h.kept_behind writeBlock_sameOutside).trans (h.kept_header hb setNext_sameOutside)

/-- A new allocation is apart from all others. -/
theorem allocate_apart (h : Rep start s bs)
    (hcall : allocate grow env s size = .ok (p, s', env')) (hp : p ≠ 0) (hc : c ∈ bs)
    (hown : c.owner ≠ none) : c.limit ≤ p ∨ p + size ≤ c.payload := by
  have hle := le_wordsFor size
  cases allocate_spec h hcall with
  | zero | full | denied => exact absurd rfl hp
  | @taken pre post b _ hbs hfree hroom =>
      have hb : b ∈ bs := by simp [hbs]
      have hne : c ≠ b := by
        rintro rfl
        exact hown hfree
      refine (h.apart hb hc hne).imp (fun hle => ?_) fun hle => ?_
      · rw [Blk.payload]
        omega
      · rw [Blk.limit_eq] at hle
        rw [Blk.payload, Blk.payload]
        omega
  | grown =>
      have hlim := h.limit_le hc
      exact .inl (by omega)

/-- **`allocate_aligned`** writes one word more, in front of what it returns. -/
theorem allocateAligned_kept (h : Rep start s bs)
    (hcall : allocateAligned grow env s size align = .ok (p, s', env')) : Kept bs s.mem s'.mem := by
  obtain ⟨-, rfl, -⟩ | ⟨-, -, base, s₁, hbase, hrest⟩ := allocateAligned_cases hcall
  · exact Kept.refl bs _
  have hkept := allocate_kept h hbase
  obtain ⟨-, -, rfl⟩ | ⟨hne, hlo, hhi, -, rfl⟩ := hrest
  · exact hkept
  · refine hkept.trans fun c hc hown => store32_agree _ _ _ ?_
    have hapart := allocate_apart h hbase hne hc hown
    simp only [word] at hlo hhi hapart ⊢
    omega

end Writes

/-! ## Runs -/

/-- The call frees the allocation, or its owner writes into it. -/
def Call.Touches (a : Alloc) : Call → Prop
  | .deallocate b | .deallocateAligned b | .write b _ => b = a
  | _ => False

/-- Calls one after another. -/
abbrev Calls (start : Nat) : Sys → List Call → Sys → Prop :=
  Trace fun σ c σ' => c.Does start σ σ'

section Runs

variable {start initialSize max : Nat} {σ σ' : Sys} {bs : List Blk} {a a' : Alloc} {c : Call}
  {calls : List Call}

/-- The block of a live allocation. -/
theorem Holding.block (h : Holding start σ bs) (ha : a ∈ σ.live) :
    ∃ b ∈ bs, b.owner = some a ∧ b.payload ≤ a.ptr ∧ a.ptr + a.size ≤ b.limit := by
  obtain ⟨pre, b, post, rfl, hown⟩ := exists_block_of_mem_owners (h.owners.symm.subset ha)
  have hb : b ∈ pre ++ b :: post := by simp
  obtain ⟨hlimit, hptr⟩ := (h.rep.holds b hb).fits a hown
  refine ⟨b, hb, hown, ?_, hlimit⟩
  cases hkind : a.kind <;> simp only [hkind] at hptr <;> omega

theorem Holding.agree (h : Holding start σ bs) (ha : a ∈ σ.live) {m : ByteMem}
    (hkept : Kept bs σ.state.mem m) : Agree σ.state.mem m a.ptr (a.ptr + a.size) := by
  obtain ⟨b, hb, hown, hlo, hhi⟩ := h.block ha
  exact (hkept b hb (hown ▸ Option.some_ne_none a)).mono hlo hhi

/-- Two live allocations are apart. -/
theorem Holding.apart (h : Holding start σ bs) (ha : a ∈ σ.live) (ha' : a' ∈ σ.live)
    (hne : a' ≠ a) : a.ptr + a.size ≤ a'.ptr ∨ a'.ptr + a'.size ≤ a.ptr := by
  obtain ⟨b, hb, hown, hlo, hhi⟩ := h.block ha
  obtain ⟨b', hb', hown', hlo', hhi'⟩ := h.block ha'
  have hdiff : b ≠ b' := by
    rintro rfl
    exact hne (Option.some.inj (hown'.symm.trans hown))
  rw [Blk.payload] at hlo hlo'
  obtain hle | hle := h.rep.apart hb' hb hdiff <;> omega

/-- **One call** leaves an allocation alone that it does not free, and that its owner does not write
into. -/
theorem Holding.keeps (h : Holding start σ bs) (ha : a ∈ σ.live) (hdoes : c.Does start σ σ')
    (hno : ¬c.Touches a) :
    a ∈ σ'.live ∧ Agree σ.state.mem σ'.state.mem a.ptr (a.ptr + a.size) := by
  have hrecord : ∀ {p size : Nat} {kind : Kind}, a ∈ record σ.live p size kind := by
    intro p size kind
    rw [record]
    split_ifs
    · exact ha
    · exact List.mem_cons_of_mem _ ha
  cases c with
  | allocate size grow =>
      obtain ⟨-, p, hcall, hlive⟩ := hdoes
      exact ⟨hlive ▸ hrecord, h.agree ha (allocate_kept h.rep hcall)⟩
  | allocateAligned size align grow =>
      obtain ⟨-, p, hcall, hlive⟩ := hdoes
      exact ⟨hlive ▸ hrecord, h.agree ha (allocateAligned_kept h.rep hcall)⟩
  | deallocate a' =>
      obtain ⟨ha', hkind, hcall, hlive⟩ := hdoes
      obtain ⟨b, hb, hown, -, -⟩ := h.block ha'
      have hptr : a'.ptr = b.payload := by
        have hfit := ((h.rep.holds b hb).fits a' hown).2
        rwa [hkind] at hfit
      rw [hptr] at hcall
      exact ⟨hlive ▸ (List.mem_erase_of_ne (Ne.symm hno)).2 ha,
        h.agree ha (deallocate_kept h.rep hb hcall)⟩
  | deallocateAligned a' =>
      obtain ⟨ha', hkind, hcall, hlive⟩ := hdoes
      obtain ⟨b, hb, hown, -, -⟩ := h.block ha'
      rw [deallocateAligned_eq h.rep hb hown hkind] at hcall
      exact ⟨hlive ▸ (List.mem_erase_of_ne (Ne.symm hno)).2 ha,
        h.agree ha (deallocate_kept h.rep hb hcall)⟩
  | write a' m =>
      obtain ⟨ha', hm, rfl⟩ := hdoes
      refine ⟨ha, hm.agree ?_⟩
      have hapart := h.apart ha ha' hno
      omega
  | elsewhere m =>
      obtain ⟨hm, rfl⟩ := hdoes
      obtain ⟨b, hb, -, hlo, hhi⟩ := h.block ha
      have hlayout := h.rep.layout.mem hb
      rw [Blk.payload] at hlo
      exact ⟨ha, hm.mono (by omega) (hhi.trans hlayout.2.2)⟩

theorem Holding.run (h : Holding start σ bs) (ha : a ∈ σ.live) (hrun : Calls start σ calls σ')
    (hno : ∀ c ∈ calls, ¬c.Touches a) :
    a ∈ σ'.live ∧ Agree σ.state.mem σ'.state.mem a.ptr (a.ptr + a.size) := by
  induction hrun generalizing bs with
  | nil => exact ⟨ha, Agree.refl _ _ _⟩
  | cons hdoes _ ih =>
      rw [List.forall_mem_cons] at hno
      obtain ⟨hlive, hagree⟩ := h.keeps ha hdoes hno.1
      obtain ⟨bs', -, h', -⟩ := moves_step h (step_iff.2 ⟨_, hdoes⟩)
      obtain ⟨hlive', hagree'⟩ := ih h' hlive hno.2
      exact ⟨hlive', hagree.trans hagree'⟩

/-- **An allocation is a buffer of its own.** From every state that a run can reach, whatever calls
are made and whatever the owners of the other allocations write: an allocation that nobody frees
stays live, and until its owner writes again every byte of it is as it was. -/
theorem contents_kept (hstart : 4 ∣ start) (hinit : 4 ∣ initialSize) (hle : initialSize ≤ max)
    (hreach : Reachable start initialSize max σ) (ha : a ∈ σ.live)
    (hrun : Calls start σ calls σ') (hno : ∀ c ∈ calls, ¬c.Touches a) :
    a ∈ σ'.live ∧ Agree σ.state.mem σ'.state.mem a.ptr (a.ptr + a.size) := by
  obtain ⟨bs, hrep, howners, -⟩ := inv_reachable hstart hinit hle hreach
  exact Holding.run ⟨hrep, howners⟩ ha hrun hno

/-- A second allocation on a page leaves the first one alone. -/
theorem contents_kept_page : ∃ s s', Reachable 4096 4096 8192 ⟨s, [⟨4108, 100, .plain⟩]⟩ ∧
    Calls 4096 ⟨s, [⟨4108, 100, .plain⟩]⟩ [.allocate 50 fun _ => 0]
      ⟨s', [⟨4220, 50, .plain⟩, ⟨4108, 100, .plain⟩]⟩ ∧ Agree s.mem s'.mem 4108 4208 := by
  let m : ByteMem := writeBlock (fun _ => 0) 4096 ⟨4084, 1, 0⟩
  let s₀ : State := ⟨m, ⟨4096, 8192, 12288⟩⟩
  have hnew : new (fun _ => 0) 4096 4096 8192 = .ok s₀ := rfl
  have hptrs : (allocate (callback fun _ => 0) () s₀ 100 >>= fun r =>
      allocate (callback fun _ => 0) () r.2.1 50 >>= fun r' => .ok (r.1, r'.1)) =
        .ok (4108, 4220) := by
    decide +kernel
  simp only [Outcome.bind_eq_ok, Outcome.ok.injEq, Prod.mk.injEq] at hptrs
  obtain ⟨⟨_, s₁, ⟨⟩⟩, hcall, ⟨_, s₂, ⟨⟩⟩, hcall', rfl, rfl⟩ := hptrs
  have hreach : Reachable 4096 4096 8192 ⟨s₁, [⟨4108, 100, .plain⟩]⟩ :=
    ⟨_, s₀, hnew, .single (.allocate (fun _ => 0) (fun _ => Or.inl rfl) hcall)⟩
  have hrun : Calls 4096 ⟨s₁, [⟨4108, 100, .plain⟩]⟩ [.allocate 50 fun _ => 0]
      ⟨s₂, [⟨4220, 50, .plain⟩, ⟨4108, 100, .plain⟩]⟩ :=
    .cons ⟨fun _ => Or.inl rfl, _, hcall', rfl⟩ (.nil _)
  obtain ⟨-, hagree⟩ := contents_kept (by decide) (by decide) (by decide) hreach
    List.mem_cons_self hrun (by simp [Call.Touches])
  exact ⟨s₁, s₂, hreach, hrun, hagree⟩

end Runs

end Munux.Heap
