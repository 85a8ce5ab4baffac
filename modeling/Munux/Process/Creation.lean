import Munux.Heap.Aligned
import Munux.Heap.Overflow
import Munux.Process.ProcessList

/-!
# Creation when the heap is full

`process_create` allocates a control block and two stacks, and looks at the first result only. A
stack that was refused leaves a process on the list whose stack ends at 8192, in memory that is
nobody's.

* `Ledger`: what `process_create` can rely on, a record of the allocations that are live. The Rust
  heap keeps one (`ledger_heap`).
* `create_iff`: the call is all-or-nothing exactly when the control block is refused, or nothing is.
-/

namespace Munux.Process

open State

/-- The record that a heap keeps: `held m p n` says that the `n` bytes from `p` are a live
allocation in the state `m`. -/
structure Ledger {M : Type} (A : Allocator M) (valid : M → Prop) (held : M → Nat → Nat → Prop) :
    Prop where
  pos : ∀ {m p n}, valid m → held m p n → p ≠ 0
  keeps : ∀ {m p n m'}, valid m → A.kmalloc n m = .ok (p, m') → valid m'
  refused : ∀ {m n m'}, valid m → A.kmalloc n m = .ok (0, m') → held m' = held m
  granted : ∀ {m p n m'}, valid m → A.kmalloc n m = .ok (p, m') → p ≠ 0 →
    p + n < wordCount ∧ (∀ k, ¬held m p k) ∧ ∀ q k, held m' q k ↔ q = p ∧ k = n ∨ held m q k

/-- A process at the end of the list, with two stacks of its own. -/
structure Created {M : Type} (held : M → Nat → Nat → Prop) (s : State) (p : Nat) (s' : State)
    (m' : M) : Prop where
  list : ∃ xs, OnList s xs ∧ OnList s' (xs ++ [p])
  owns : ∃ kernel user, kernel ≠ user ∧ held m' kernel stackSize ∧ held m' user stackSize ∧
    (s'.pcb p).kernelStack = kernel + stackSize ∧ (s'.pcb p).userStack = user + stackSize

/-- What a call of `process_create` may leave: nothing, or a process. -/
def AllOrNothing {M : Type} (held : M → Nat → Nat → Prop) (s : State) (m : M) :
    Nat × State × M → Prop
  | (p, s', m') => p = 0 ∧ (∀ xs, OnList s' xs ↔ OnList s xs) ∧ held m' = held m ∨
      Created held s p s' m'

section Create

variable {M : Type} {A : Allocator M} {valid : M → Prop} {held : M → Nat → Nat → Prop}
variable {s s' : State} {m : M} {p dir entryPoint priority : Nat} {name : List UInt8}

/-- The walk to the end of the list changes links only. -/
theorem appendProcess_relinked (h : appendProcess s p = .ok s') : Relinked s s' := by
  unfold appendProcess at h
  split_ifs at h
  · obtain rfl := Outcome.ok.inj h
    exact relinked_processList s p
  · obtain ⟨x, -, h⟩ := Outcome.bind_eq_ok.1 h
    obtain rfl := Outcome.ok.inj h
    exact relinked_setNext s x p

/-- The stacks of the process that was appended. -/
theorem Relinked.stackTops {kernel user : Nat}
    (h : Relinked (s.withNew p (initialPcb s name entryPoint priority dir kernel user)) s') :
    (s'.pcb p).kernelStack = stackTop kernel ∧ (s'.pcb p).userStack = stackTop user := by
  rw [h.pcb p]
  simp [withNew, initialPcb]

/-- A stack that was refused is not one. -/
theorem Ledger.ne_zero (hA : Ledger A valid held) (hm : valid m) {base k : Nat}
    (hheld : held m k stackSize) (htop : stackTop base = k + stackSize) : base ≠ 0 := by
  rintro rfl
  have hk : k = 0 := by
    simp only [stackTop, stackSize, wordCount] at htop
    omega
  exact hA.pos hm hheld hk

theorem stackTop_eq {base : Nat} (h : base + stackSize < wordCount) :
    stackTop base = base + stackSize :=
  Nat.mod_eq_of_lt h

/-- With three allocations and a list to append to, a process is created. -/
theorem created_of_succeeds (hA : Ledger A valid held) (hm : valid m)
    (hlive : ∀ xs, OnList s xs → ∀ x ∈ xs, ∃ n, held m x n) (hroom : Succeeds A m)
    (hlist : ∃ xs, OnList s xs) :
    ∃ r, processCreate A dir s m name entryPoint priority = .ok r ∧
      Created held s r.1 r.2.1 r.2.2 := by
  obtain ⟨p, m₁, kernel, m₂, user, m₃, hp, hp0, hk, hk0, hu, hu0⟩ := hroom
  obtain ⟨xs, hlist⟩ := hlist
  have hm₁ := hA.keeps hm hp
  have hm₂ := hA.keeps hm₁ hk
  obtain ⟨hplt, hpnew, -⟩ := hA.granted hm hp hp0
  obtain ⟨hklt, -, hheld₂⟩ := hA.granted hm₁ hk hk0
  obtain ⟨hult, hunew, hheld₃⟩ := hA.granted hm₂ hu hu0
  have hkheld : held m₂ kernel stackSize := (hheld₂ _ _).2 (.inl ⟨rfl, rfl⟩)
  have hout : p ∉ xs := by
    intro hc
    obtain ⟨n, hn⟩ := hlive xs hlist p hc
    exact hpnew n hn
  obtain ⟨s', hcall, hrel, hlist'⟩ := processCreate_spec hlist hp hk hu hp0 (by omega) hout
    dir name entryPoint priority
  obtain ⟨hkernel, huser⟩ := hrel.stackTops
  refine ⟨_, hcall, ⟨xs, hlist, hlist'⟩, kernel, user, ?_, ?_, ?_, ?_, ?_⟩
  · rintro rfl
    exact hunew _ hkheld
  · exact (hheld₃ _ _).2 (.inr hkheld)
  · exact (hheld₃ _ _).2 (.inl ⟨rfl, rfl⟩)
  · rw [hkernel, stackTop_eq hklt]
  · rw [huser, stackTop_eq hult]

/-- The heap stays valid. -/
theorem Ledger.create (hA : Ledger A valid held) (hm : valid m) {m' : M}
    (hcall : processCreate A dir s m name entryPoint priority = .ok (p, s', m')) : valid m' := by
  simp only [processCreate, Outcome.bind_eq_ok] at hcall
  obtain ⟨⟨q, m₁⟩, hp, hcall⟩ := hcall
  have hm₁ := hA.keeps hm hp
  split_ifs at hcall
  · simp only [Outcome.pure_eq, Outcome.ok.injEq, Prod.mk.injEq] at hcall
    obtain ⟨-, -, rfl⟩ := hcall
    exact hm₁
  · simp only [Outcome.bind_eq_ok, Outcome.pure_eq, Outcome.ok.injEq, Prod.mk.injEq] at hcall
    obtain ⟨⟨kernel, m₂⟩, hk, ⟨user, m₃⟩, hu, s₁, -, -, -, rfl⟩ := hcall
    exact hA.keeps (hA.keeps hm₁ hk) hu

/-- **Creation is all-or-nothing** exactly when the control block is refused, or all three blocks
are granted and there is a list to append to. -/
theorem create_iff (hA : Ledger A valid held) (hm : valid m)
    (hlive : ∀ xs, OnList s xs → ∀ x ∈ xs, ∃ n, held m x n) :
    (∃ r, processCreate A dir s m name entryPoint priority = .ok r ∧ AllOrNothing held s m r) ↔
      (∃ m', A.kmalloc pcbSize m = .ok (0, m')) ∨ Succeeds A m ∧ ∃ xs, OnList s xs := by
  constructor
  · rintro ⟨⟨q, s', m'⟩, hcall, hall⟩
    simp only [processCreate, Outcome.bind_eq_ok] at hcall
    obtain ⟨⟨p, m₁⟩, hp, hcall⟩ := hcall
    by_cases hp0 : p = 0
    · exact .inl ⟨m₁, hp0 ▸ hp⟩
    simp only [if_neg hp0, Outcome.bind_eq_ok, Outcome.pure_eq, Outcome.ok.injEq,
      Prod.mk.injEq] at hcall
    obtain ⟨⟨kernel, m₂⟩, hk, ⟨user, m₃⟩, hu, s₁, happend, rfl, rfl, rfl⟩ := hcall
    have hm₃ := hA.keeps (hA.keeps (hA.keeps hm hp) hk) hu
    obtain ⟨hkernel, huser⟩ := (appendProcess_relinked happend).stackTops
    rcases hall with ⟨hnull, -⟩ | ⟨⟨xs, hlist, -⟩, k, u, -, hkheld, huheld, hktop, hutop⟩
    · exact absurd hnull hp0
    · have hk0 := hA.ne_zero hm₃ hkheld (hkernel.symm.trans hktop)
      have hu0 := hA.ne_zero hm₃ huheld (huser.symm.trans hutop)
      exact .inr ⟨⟨p, m₁, kernel, m₂, user, m₃, hp, hp0, hk, hk0, hu, hu0⟩, xs, hlist⟩
  · rintro (⟨m', hp⟩ | ⟨hroom, hlist⟩)
    · refine ⟨(0, s, m'), ?_, .inl ⟨rfl, fun _ => Iff.rfl, hA.refused hm hp⟩⟩
      simp [processCreate, hp]
    · obtain ⟨r, hcall, hcreated⟩ := created_of_succeeds hA hm hlive hroom hlist
      exact ⟨r, hcall, .inr hcreated⟩

end Create

/-! ## The Rust heap -/

/-- `munux_c_heap_grow` as the Rust heap sees it, while there are frames to map: whole pages up to
the maximum, or nothing. -/
def heapGrow (s : Heap.State) (minBytes : Nat) : Nat :=
  if s.heap.max < s.heap.heapEnd + PageTable.pagesFor minBytes * 4096 then 0
  else s.heap.heapEnd + PageTable.pagesFor minBytes * 4096

/-- `kmalloc` and `kfree` on the Rust heap, together with the record of what is live. -/
def heapAllocator (grow : Heap.State → Nat → Nat) : Allocator Heap.Sys where
  kmalloc size σ := do
    let (p, s, _) ← Heap.allocate (Heap.callback (grow σ.state)) () σ.state size
    return (p, ⟨s, Heap.record σ.live p size .plain⟩)
  kfree p σ := do
    if p = 0 then
      return σ
    let s ← Heap.deallocate σ.state p
    return ⟨s, σ.live.filter fun a => a.ptr ≠ p⟩

/-- The `n` bytes from `p` were handed out by `kmalloc` and not freed. -/
def Holds (σ : Heap.Sys) (p n : Nat) : Prop := ⟨p, n, .plain⟩ ∈ σ.live

section Rust

variable {start max : Nat} {σ σ' : Heap.Sys} {grow : Heap.State → Nat → Nat} {p n : Nat}

theorem growOk_heapGrow (s : Heap.State) (h : 4 ∣ s.heap.heapEnd) (n : Nat) :
    Heap.GrowOk s n (heapGrow s n) := by
  unfold Heap.GrowOk heapGrow PageTable.pagesFor
  split_ifs
  · exact .inl rfl
  · right
    omega

/-- The block of an allocation of `kmalloc` starts right before it. -/
theorem exists_block {bs : List Heap.Blk} (h : Heap.Holding start σ bs) (hheld : Holds σ p n) :
    ∃ b ∈ bs, b.owner = some ⟨p, n, .plain⟩ ∧ p = b.payload := by
  obtain ⟨pre, b, post, rfl, hown⟩ := Heap.exists_block_of_mem_owners (h.owners.symm.subset hheld)
  have hb : b ∈ pre ++ b :: post := by simp
  exact ⟨b, hb, hown, ((h.rep.holds b hb).fits _ hown).2⟩

/-- One address is handed out once. -/
theorem Holds.size_eq (hinv : Heap.Inv start max σ) {k : Nat} (hn : Holds σ p n)
    (hk : Holds σ p k) : n = k := by
  obtain ⟨bs, hrep, hperm, -⟩ := hinv
  obtain ⟨b, hb, hbown, hbp⟩ := exists_block ⟨hrep, hperm⟩ hn
  obtain ⟨c, hc, hcown, hcp⟩ := exists_block ⟨hrep, hperm⟩ hk
  have haddr : b.addr = c.addr := by
    simp only [Heap.Blk.payload] at hbp hcp
    omega
  obtain rfl : b = c := List.inj_on_of_nodup_map hrep.layout.nodup hb hc haddr
  have howner := hbown.symm.trans hcown
  simpa using howner

theorem kmalloc_eq_ok (h : (heapAllocator grow).kmalloc n σ = .ok (p, σ')) :
    ∃ s, Heap.allocate (Heap.callback (grow σ.state)) () σ.state n = .ok (p, s, ()) ∧
      σ' = ⟨s, Heap.record σ.live p n .plain⟩ := by
  simp only [heapAllocator, Outcome.bind_eq_ok, Outcome.pure_eq, Outcome.ok.injEq,
    Prod.mk.injEq] at h
  obtain ⟨⟨q, s, ⟨⟩⟩, hcall, rfl, rfl⟩ := h
  exact ⟨s, hcall, rfl⟩

theorem live_kmalloc (h : (heapAllocator grow).kmalloc n σ = .ok (p, σ')) (hp : p ≠ 0) :
    σ'.live = ⟨p, n, .plain⟩ :: σ.live := by
  obtain ⟨s, -, rfl⟩ := kmalloc_eq_ok h
  exact if_neg hp

section Growing

variable (hgrow : ∀ s, 4 ∣ s.heap.heapEnd → ∀ n, Heap.GrowOk s n (grow s n))

include hgrow

theorem growOk_of_inv (hinv : Heap.Inv start max σ) (n : Nat) :
    Heap.GrowOk σ.state n (grow σ.state n) := by
  obtain ⟨bs, hrep, -⟩ := hinv
  exact hgrow σ.state hrep.endAligned n

theorem inv_kmalloc (hinv : Heap.Inv start max σ)
    (h : (heapAllocator grow).kmalloc n σ = .ok (p, σ')) : Heap.Inv start max σ' := by
  obtain ⟨s, hs, rfl⟩ := kmalloc_eq_ok h
  exact hinv.moves fun bs hbs => Heap.moves_step hbs (.allocate _ (growOk_of_inv hgrow hinv) hs)

/-- What is handed out was not live before. -/
theorem not_holds_of_kmalloc (hinv : Heap.Inv start max σ)
    (h : (heapAllocator grow).kmalloc n σ = .ok (p, σ')) (hp : p ≠ 0) (k : Nat) :
    ¬Holds σ p k := by
  intro hk
  have hinv' := inv_kmalloc hgrow hinv h
  have hlive := live_kmalloc h hp
  have hnew : Holds σ' p n := by
    rw [Holds, hlive]
    exact List.mem_cons_self
  have hold : Holds σ' p k := by
    rw [Holds, hlive]
    exact List.mem_cons_of_mem _ hk
  obtain rfl := hnew.size_eq hinv' hold
  -- Two blocks with one owner.
  obtain ⟨bs, hrep, hperm, -⟩ := hinv'
  have hnd := hperm.nodup hrep.owners_nodup
  rw [hlive, List.nodup_cons] at hnd
  exact hnd.1 hk

/-- **The Rust heap keeps a ledger.** -/
theorem ledger_heap : Ledger (heapAllocator grow) (Heap.Inv start max) Holds := by
  constructor
  · intro σ p n hinv hheld
    obtain ⟨bs, hrep, hperm, -⟩ := hinv
    obtain ⟨b, -, -, rfl⟩ := exists_block ⟨hrep, hperm⟩ hheld
    simp [Heap.Blk.payload, Heap.headerSize]
  · exact inv_kmalloc hgrow
  · intro σ n σ' _ h
    obtain ⟨s, -, rfl⟩ := kmalloc_eq_ok h
    rfl
  · intro σ p n σ' hinv h hp
    refine ⟨?_, not_holds_of_kmalloc hgrow hinv h hp, ?_⟩
    · obtain ⟨s, hs, -⟩ := kmalloc_eq_ok h
      obtain ⟨bs, hrep, -⟩ := id hinv
      exact Heap.allocate_room hrep (growOk_of_inv hgrow hinv) hp hs
    · intro q k
      simp [Holds, live_kmalloc h hp]

end Growing

/-- `kmalloc` and `kfree` of the kernel. -/
def kernelAllocator : Allocator Heap.Sys := heapAllocator heapGrow

theorem ledger_kernel : Ledger kernelAllocator (Heap.Inv start max) Holds :=
  ledger_heap growOk_heapGrow

theorem inv_kernelHeap : Heap.Inv 0xC0000000 0x10000000 ⟨Heap.kernelHeap, []⟩ := by
  have hnew : Heap.new (fun _ => 0) 0xC0000000 0x100000 0x10000000 = .ok Heap.kernelHeap := rfl
  exact Heap.inv_reachable (by decide) (by decide) (by decide) ⟨_, _, hnew, .refl⟩

/-- **Both stacks are missing.** The idle process is there, and the rest of the heap is taken but for
200 bytes. The next process gets its control block from these, and stacks that end at 8192. -/
theorem stacks_missing :
    ∃ s σ r, Heap.Inv 0xC0000000 0x10000000 σ ∧ OnList s [0xC000000C] ∧ Holds σ 0xC000000C 116 ∧
      processCreate kernelAllocator 0x1000 s σ [97] 0x102000 1 = .ok r ∧
      (r.2.1.pcb r.1).kernelStack = 8192 ∧ (r.2.1.pcb r.1).userStack = 8192 ∧
      ¬AllOrNothing Holds s σ r := by
  have hrun : (processInit kernelAllocator 0x1000 zeroState ⟨Heap.kernelHeap, []⟩ 0x101000 >>=
      fun i => kernelAllocator.kmalloc 0xFEFFFF4 i.2.2 >>= fun a =>
      kernelAllocator.kmalloc 1031816 a.2 >>= fun b =>
      processCreate kernelAllocator 0x1000 i.2.1 b.2 [97] 0x102000 1 >>= fun r =>
      .ok (b.2.live.getLast?, [i.2.1.processList, i.2.1.next 0xC000000C, r.1,
        (r.2.1.pcb r.1).kernelStack, (r.2.1.pcb r.1).userStack])) =
      .ok (some ⟨0xC000000C, 116, .plain⟩, [0xC000000C, 0, 0xC00FFF38, 8192, 8192]) := by
    decide +kernel
  simp only [Outcome.bind_eq_ok, Outcome.ok.injEq, Prod.mk.injEq, List.cons.injEq, and_true]
    at hrun
  obtain ⟨i, hinit, a, ha, b, hb, r, hcall, hlast, hlist, hnext, hr, hkernel, huser⟩ := hrun
  have hinv : Heap.Inv 0xC0000000 0x10000000 b.2 := by
    obtain ⟨v, hidle, hinit⟩ := Outcome.bind_eq_ok.1 hinit
    obtain rfl := Outcome.ok.inj hinit
    exact ledger_kernel.keeps
      (ledger_kernel.keeps (ledger_kernel.create inv_kernelHeap hidle) ha) hb
  refine ⟨i.2.1, b.2, r, hinv, ⟨⟨hlist, hnext⟩, by simp, by decide⟩, ?_, hcall, hkernel, huser, ?_⟩
  · exact List.mem_of_mem_getLast? hlast
  · obtain ⟨p, s', σ'⟩ := r
    have hinv' := ledger_kernel.create hinv hcall
    rintro (⟨hnull, -⟩ | ⟨-, k, u, -, hk, -, htop, -⟩)
    · exact absurd (hnull.symm.trans hr) (by decide)
    · rw [hkernel] at htop
      have hzero : k = 0 := by
        unfold stackSize at htop
        omega
      exact ledger_kernel.pos hinv' hk hzero

/-- Next to the idle process there is room for another one. -/
theorem create_iff_kernelHeap :
    ∃ s σ r, OnList s [0xC000000C] ∧
      processCreate kernelAllocator 0x1000 s σ [97] 0x102000 1 = .ok r ∧
      AllOrNothing Holds s σ r := by
  have hrun : (processInit kernelAllocator 0x1000 zeroState ⟨Heap.kernelHeap, []⟩ 0x101000 >>=
      fun i => kernelAllocator.kmalloc pcbSize i.2.2 >>= fun a =>
      kernelAllocator.kmalloc stackSize a.2 >>= fun b =>
      kernelAllocator.kmalloc stackSize b.2 >>= fun c =>
      .ok (i.2.2.live.getLast?, [i.2.1.processList, i.2.1.next 0xC000000C, a.1, b.1, c.1])) =
      .ok (some ⟨0xC000000C, 116, .plain⟩,
        [0xC000000C, 0, 0xC00040A4, 0xC0004124, 0xC0006130]) := by
    decide +kernel
  simp only [Outcome.bind_eq_ok, Outcome.ok.injEq, Prod.mk.injEq, List.cons.injEq, and_true]
    at hrun
  obtain ⟨i, hinit, a, ha, b, hb, c, hc, hlast, hlist, hnext, ha0, hb0, hc0⟩ := hrun
  have hinv : Heap.Inv 0xC0000000 0x10000000 i.2.2 := by
    obtain ⟨v, hidle, hinit⟩ := Outcome.bind_eq_ok.1 hinit
    obtain rfl := Outcome.ok.inj hinit
    exact ledger_kernel.create inv_kernelHeap hidle
  have hidle : OnList i.2.1 [0xC000000C] := ⟨⟨hlist, hnext⟩, by simp, by decide⟩
  have hsucceeds : Succeeds kernelAllocator i.2.2 :=
    ⟨a.1, a.2, b.1, b.2, c.1, c.2, ha, ha0 ▸ by decide, hb, hb0 ▸ by decide, hc, hc0 ▸ by decide⟩
  -- The idle process is the only one on the list, and the heap holds its control block.
  have hlive : ∀ xs, OnList i.2.1 xs → ∀ x ∈ xs, ∃ n, Holds i.2.2 x n := by
    intro xs hxs x hx
    have hzero : ∀ {ys}, OnList i.2.1 ys → 0 ∉ ys := fun hys h0 => (hys.addr 0 h0).1 rfl
    rw [hxs.seg.unique hidle.seg (hzero hxs) (hzero hidle), List.mem_singleton] at hx
    exact ⟨116, hx ▸ List.mem_of_mem_getLast? hlast⟩
  obtain ⟨r, hcall, hall⟩ :=
    (create_iff ledger_kernel hinv hlive).2 (.inr ⟨hsucceeds, _, hidle⟩)
  exact ⟨i.2.1, i.2.2, r, hidle, hcall, hall⟩

end Rust

end Munux.Process
