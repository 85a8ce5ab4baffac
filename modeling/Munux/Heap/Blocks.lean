import Munux.Heap.Alloc
import Mathlib.Tactic.Ring

/-!
# The heap as a sequence of blocks

What the allocator is *for*: it keeps a sequence of blocks, in address order, each of them free or
owned by one live allocation. Memory does not occur here except in `Holds`, the one place that says
what a block looks like as bytes; `Munux.Heap.Refine` shows that every call of the allocator is a
step on this sequence.

* `Alloc`: a live allocation, as its owner sees it.
* `Blk`: a block, with its owner.
* `Layout lo hi bs`: the blocks lie in `[lo, hi)` in order, without overlap.
* `Rep start s bs`: the state `s` holds exactly the blocks `bs`.
-/

namespace Munux.Heap

open ByteMem

/-- Which entry point handed an allocation out, and so which one takes it back. -/
inductive Kind where
  | plain
  | aligned
  deriving DecidableEq, Repr

/-- A live allocation: the pointer returned and the size asked for. -/
structure Alloc where
  ptr : Nat
  size : Nat
  kind : Kind
  deriving DecidableEq, Repr

/-- A block of the heap. It is free when nobody owns it. -/
structure Blk where
  addr : Nat
  size : Nat
  owner : Option Alloc

namespace Blk

/-- Where the payload begins. -/
def payload (b : Blk) : Nat := b.addr + headerSize

/-- One past the last byte of the payload. -/
def limit (b : Blk) : Nat := b.addr + headerSize + b.size

/-- The allocation `a` lies in the payload of `b`. An aligned allocation leaves the back-pointer
word before it free. -/
def Fits (b : Blk) (a : Alloc) : Prop :=
  a.ptr + a.size ≤ b.limit ∧
    match a.kind with
    | .plain => a.ptr = b.payload
    | .aligned => b.payload + word ≤ a.ptr

/-- What memory holds for the block `b`: its size, its flag, and, inside an aligned allocation,
the pointer back to the payload. -/
structure Holds (m : ByteMem) (b : Blk) : Prop where
  size : sizeOf m b.addr = b.size
  flag : isFreeOf m b.addr = if b.owner = none then 1 else 0
  fits : ∀ a ∈ b.owner, b.Fits a
  back : ∀ a ∈ b.owner, a.kind = .aligned → load32 m (a.ptr - word) = b.payload

/-- What memory has to hold for a free block. -/
theorem Holds.free {m : ByteMem} {addr size : Nat} (hsize : sizeOf m addr = size)
    (hflag : isFreeOf m addr = 1) : Holds m ⟨addr, size, none⟩ where
  size := hsize
  flag := hflag
  fits _ ha := by cases ha
  back _ ha := by cases ha

/-- What memory has to hold for a block that a plain allocation owns. -/
theorem Holds.plain {m : ByteMem} {addr size : Nat} {a : Alloc} (hsize : sizeOf m addr = size)
    (hflag : isFreeOf m addr = 0) (hkind : a.kind = .plain) (hfit : Fits ⟨addr, size, some a⟩ a) :
    Holds m ⟨addr, size, some a⟩ where
  size := hsize
  flag := hflag
  fits a' ha' := by
    obtain rfl := Option.some.inj ha'
    exact hfit
  back a' ha' hk := by
    obtain rfl := Option.some.inj ha'
    rw [hkind] at hk
    cases hk

/-- Moving to a memory that agrees on the block, except inside what its owner may write. -/
theorem Holds.congr {m m' : ByteMem} {b : Blk} (h : Holds m b)
    (hag : ∀ i, b.addr ≤ i → i < b.limit →
      (∀ a ∈ b.owner, ¬ (a.ptr ≤ i ∧ i < a.ptr + a.size)) → m' i = m i) : Holds m' b := by
  have hhead : Agree m m' b.addr (b.addr + headerSize) := by
    intro i hlo hhi
    apply hag i hlo (by simp only [limit]; omega)
    intro a ha hin
    have hfit := h.fits a ha
    unfold Fits at hfit
    cases hk : a.kind <;> simp only [hk, payload] at hfit <;> omega
  refine ⟨?_, ?_, h.fits, ?_⟩
  · rw [← h.size]
    exact load32_congr (hhead.mono le_rfl (by simp [headerSize]))
  · rw [← h.flag]
    exact load32_congr (hhead.mono (by omega) (by simp [headerSize]))
  · intro a ha hk
    rw [← h.back a ha hk]
    have hfit := h.fits a ha
    simp only [Fits, hk, payload, word, limit] at hfit
    apply load32_congr
    intro i hlo hhi
    simp only [word] at hlo hhi
    apply hag i (by omega) (by simp only [limit]; omega)
    intro a' ha' hin
    obtain rfl : a' = a := Option.some.inj (ha'.symm.trans ha)
    omega

/-- A memory that agrees on a whole block holds it too. -/
theorem Holds.of_agree {m m' : ByteMem} {b : Blk} (h : Holds m b)
    (hag : Agree m m' b.addr b.limit) : Holds m' b :=
  h.congr fun i hlo hhi _ => hag i hlo hhi

end Blk

/-! ## Layout -/

/-- The blocks lie in `[lo, hi)`, word aligned, each after the end of the one before. -/
def Layout : Nat → Nat → List Blk → Prop
  | lo, hi, [] => lo ≤ hi
  | lo, hi, b :: bs => lo ≤ b.addr ∧ 4 ∣ b.addr ∧ Layout b.limit hi bs

section Layout

variable {lo lo' hi hi' : Nat} {b : Blk} {bs xs ys : List Blk}

@[simp] theorem layout_nil : Layout lo hi [] ↔ lo ≤ hi := Iff.rfl

@[simp] theorem layout_cons :
    Layout lo hi (b :: bs) ↔ lo ≤ b.addr ∧ 4 ∣ b.addr ∧ Layout b.limit hi bs := Iff.rfl

theorem Layout.mono (h : Layout lo hi bs) (hlo : lo' ≤ lo) (hhi : hi ≤ hi') :
    Layout lo' hi' bs := by
  induction bs generalizing lo lo' with
  | nil => exact hlo.trans (le_trans h hhi)
  | cons b bs ih => exact ⟨hlo.trans h.1, h.2.1, ih h.2.2 le_rfl⟩

theorem layout_append : Layout lo hi (xs ++ ys) ↔ ∃ mid, Layout lo mid xs ∧ Layout mid hi ys := by
  induction xs generalizing lo with
  | nil =>
      constructor
      · exact fun h => ⟨lo, le_rfl, h⟩
      · rintro ⟨mid, h, h'⟩
        exact h'.mono h le_rfl
  | cons x xs ih =>
      simp only [List.cons_append, layout_cons, ih]
      constructor
      · rintro ⟨h, h', mid, hmid⟩
        exact ⟨mid, ⟨h, h', hmid.1⟩, hmid.2⟩
      · rintro ⟨mid, ⟨h, h', hmid⟩, hmid'⟩
        exact ⟨h, h', mid, hmid, hmid'⟩

theorem Layout.le (h : Layout lo hi bs) : lo ≤ hi := by
  induction bs generalizing lo with
  | nil => exact h
  | cons b bs ih =>
      have := ih h.2.2
      have := h.1
      simp only [Blk.limit] at *
      omega

theorem Layout.mem (h : Layout lo hi bs) (hb : b ∈ bs) :
    lo ≤ b.addr ∧ 4 ∣ b.addr ∧ b.limit ≤ hi := by
  induction bs generalizing lo with
  | nil => simp at hb
  | cons c bs ih =>
      have hle := h.2.2.le
      rcases List.mem_cons.1 hb with rfl | hb
      · exact ⟨h.1, h.2.1, hle⟩
      · obtain ⟨h1, h2, h3⟩ := ih h.2.2 hb
        refine ⟨?_, h2, h3⟩
        have := h.1
        simp only [Blk.limit] at h1
        omega

/-- Earlier blocks end before later ones begin. -/
theorem Layout.pairwise (h : Layout lo hi bs) : bs.Pairwise fun b c => b.limit ≤ c.addr := by
  induction bs generalizing lo with
  | nil => exact List.Pairwise.nil
  | cons b bs ih => exact List.Pairwise.cons (fun c hc => (h.2.2.mem hc).1) (ih h.2.2)

theorem addr_lt_of_limit_le {b c : Blk} (h : b.limit ≤ c.addr) : b.addr < c.addr := by
  simp only [Blk.limit, headerSize] at h
  omega

/-- Headers have strictly increasing addresses. -/
theorem Layout.increasing (h : Layout lo hi bs) : (bs.map Blk.addr).Pairwise (· < ·) :=
  List.pairwise_map.2 (h.pairwise.imp addr_lt_of_limit_le)

theorem Layout.nodup (h : Layout lo hi bs) : (bs.map Blk.addr).Nodup :=
  h.increasing.imp fun hlt => Nat.ne_of_lt hlt

end Layout

/-! ## States that hold a sequence of blocks -/

/-- The state `s` holds exactly the blocks `bs`, from `start` on. -/
structure Rep (start : Nat) (s : State) (bs : List Blk) : Prop where
  head : s.heap.head = start
  linked : Seg (nextOf s.mem) s.heap.head (bs.map Blk.addr) 0
  nonempty : bs ≠ []
  layout : Layout start s.heap.heapEnd bs
  holds : ∀ b ∈ bs, b.Holds s.mem
  endAligned : 4 ∣ s.heap.heapEnd
  endLe : s.heap.heapEnd ≤ s.heap.max
  maxLt : s.heap.max < wordCount

end Munux.Heap
