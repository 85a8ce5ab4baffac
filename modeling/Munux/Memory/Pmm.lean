import Munux.Lib.Word
import Mathlib.Data.Finset.Card
import Mathlib.Data.Finset.Range

/-!
# Physical frames

`kernel/memory/pmm.c`: one bit per 4 KiB frame, set when the frame is in use. An allocation scans
the bitmap from the start, so it takes the lowest frame whose bit is clear; the scan covers whole
words.
-/

namespace Munux.Memory

/-- `PAGE_SIZE` -/
def pageSize : Nat := 4096

/-- `BITS_PER_WORD` -/
def bitsPerWord : Nat := 32

/-- `KERNEL_RESERVED` -/
def kernelReserved : Nat := 0x200000

/-- `frame_bitmap`, `total_frames` and `used_frames`. -/
structure Pmm where
  bitmap : Nat → BitVec 32
  totalFrames : Nat
  usedFrames : Nat

namespace Pmm

/-- `bitmap_words` -/
def bitmapWords (p : Pmm) : Nat := (p.totalFrames + bitsPerWord - 1) / bitsPerWord

/-- `mark_frame_used` -/
def markFrameUsed (p : Pmm) (frame : Nat) : Pmm :=
  let w := frame / bitsPerWord
  let word := p.bitmap w ||| 1#32 <<< (frame % bitsPerWord)
  { p with bitmap := Function.update p.bitmap w word }

/-- `mark_frame_free` -/
def markFrameFree (p : Pmm) (frame : Nat) : Pmm :=
  let w := frame / bitsPerWord
  let word := p.bitmap w &&& ~~~(1#32 <<< (frame % bitsPerWord))
  { p with bitmap := Function.update p.bitmap w word }

/-- The first clear bit of word `w`, as a frame. -/
def findInWord (p : Pmm) (w : Nat) : Option Nat :=
  let word := p.bitmap w
  if word = 0xFFFFFFFF#32 then none
  else ((List.range bitsPerWord).find? fun bit => word &&& 1#32 <<< bit = 0#32).map
    fun bit => w * bitsPerWord + bit

/-- `find_free_frame`; no frame is `FRAMES_NOT_FOUND`. -/
def findFreeFrame (p : Pmm) : Option Nat := (List.range p.bitmapWords).findSome? p.findInWord

/-- `pmm_init`, over whatever the bitmap held before. -/
def init (bitmap : Nat → BitVec 32) (memSize : Nat) : Pmm :=
  let totalFrames := memSize / pageSize
  let words := (totalFrames + bitsPerWord - 1) / bitsPerWord
  let reservedFrames := kernelReserved / pageSize
  let fullWords := reservedFrames / bitsPerWord
  let tailBits := reservedFrames % bitsPerWord
  { bitmap := fun w =>
      if tailBits ≠ 0 ∧ w = fullWords then 1#32 <<< tailBits - 1#32
      else if w < fullWords then 0xFFFFFFFF#32
      else if w < words then 0#32
      else bitmap w
    totalFrames := totalFrames
    usedFrames := reservedFrames }

/-- `pmm_alloc_frame`: an address, or 0. -/
def allocFrame (p : Pmm) : Nat × Pmm :=
  match p.findFreeFrame with
  | none => (0, p)
  | some frame =>
      (frame * pageSize, { p.markFrameUsed frame with usedFrames := p.usedFrames + 1 })

/-- `pmm_free_frame` -/
def freeFrame (p : Pmm) (frameAddr : Nat) : Pmm :=
  let p := p.markFrameFree (frameAddr / pageSize)
  if 0 < p.usedFrames then { p with usedFrames := p.usedFrames - 1 } else p

/-! ## Bits -/

/-- The bit of a frame. -/
def used (p : Pmm) (frame : Nat) : Bool := (p.bitmap (frame / 32)).getLsbD (frame % 32)

/-- The frames that the scan covers. -/
def scanned (p : Pmm) : Nat := p.bitmapWords * 32

variable {p : Pmm} {f g : Nat}

theorem bitmap_freeFrame (p : Pmm) (addr : Nat) :
    (p.freeFrame addr).bitmap = (p.markFrameFree (addr / pageSize)).bitmap := by
  unfold freeFrame
  by_cases hcount : 0 < (p.markFrameFree (addr / pageSize)).usedFrames
  · simp only [if_pos hcount]
  · simp only [if_neg hcount]

theorem scanned_freeFrame (p : Pmm) (addr : Nat) : (p.freeFrame addr).scanned = p.scanned := by
  unfold freeFrame
  by_cases hcount : 0 < (p.markFrameFree (addr / pageSize)).usedFrames
  · simp only [if_pos hcount]
    rfl
  · simp only [if_neg hcount]
    rfl

theorem used_markFrameUsed (p : Pmm) (f g : Nat) :
    (p.markFrameUsed f).used g = (decide (g = f) || p.used g) := by
  simp only [used, markFrameUsed, bitsPerWord]
  by_cases hw : g / 32 = f / 32
  · have hbit : f % 32 = g % 32 ↔ g = f := by omega
    have hlt : f % 32 < 32 := Nat.mod_lt _ (by decide)
    rw [hw, Function.update_self, BitVec.getLsbD_or, ← BitVec.twoPow_eq, BitVec.getLsbD_twoPow,
      Bool.or_comm]
    simp [hlt, hbit]
  · have hne : g ≠ f := by
      intro h
      exact hw (by rw [h])
    rw [Function.update_of_ne hw]
    simp [hne]

theorem used_markFrameFree (p : Pmm) (f g : Nat) :
    (p.markFrameFree f).used g = (decide (g ≠ f) && p.used g) := by
  simp only [used, markFrameFree, bitsPerWord]
  by_cases hw : g / 32 = f / 32
  · have hbit : f % 32 = g % 32 ↔ g = f := by omega
    have hlt : f % 32 < 32 := Nat.mod_lt _ (by decide)
    have hlt' : g % 32 < 32 := Nat.mod_lt _ (by decide)
    rw [hw, Function.update_self, BitVec.getLsbD_and, BitVec.getLsbD_not, ← BitVec.twoPow_eq,
      BitVec.getLsbD_twoPow, Bool.and_comm]
    simp [hlt, hlt', hbit]
  · have hne : g ≠ f := by
      intro h
      exact hw (by rw [h])
    rw [Function.update_of_ne hw]
    simp [hne]

theorem used_freeFrame (p : Pmm) (addr g : Nat) :
    (p.freeFrame addr).used g = (decide (g ≠ addr / pageSize) && p.used g) := by
  rw [← used_markFrameFree, used, used, bitmap_freeFrame]

/-! ## The scan -/

/-- The test of the inner loop. -/
theorem and_shift_eq_zero (word : BitVec 32) {bit : Nat} (h : bit < 32) :
    word &&& 1#32 <<< bit = 0#32 ↔ word.getLsbD bit = false := by
  rw [← BitVec.twoPow_eq, BitVec.and_twoPow]
  cases word.getLsbD bit with
  | false => simp
  | true =>
      have hbit : (BitVec.twoPow 32 bit).getLsbD bit = true := by
        simp [h]
      simp only [if_true, Bool.true_eq_false, iff_false]
      intro hzero
      rw [hzero, BitVec.getLsbD_zero] at hbit
      cases hbit

theorem used_bit (p : Pmm) (w : Nat) {bit : Nat} (h : bit < 32) :
    p.used (w * 32 + bit) = (p.bitmap w).getLsbD bit := by
  have hdiv : (w * 32 + bit) / 32 = w := by omega
  have hmod : (w * 32 + bit) % 32 = bit := by omega
  rw [used, hdiv, hmod]

theorem findInWord_eq_none {w : Nat} :
    p.findInWord w = none ↔ ∀ bit < 32, p.used (w * 32 + bit) = true := by
  have hused : (∀ bit < 32, p.used (w * 32 + bit) = true) ↔
      ∀ bit < 32, (p.bitmap w).getLsbD bit = true := by
    apply forall₂_congr
    intro bit hbit
    rw [used_bit p w hbit]
  rw [hused]
  unfold findInWord bitsPerWord
  by_cases hfull : p.bitmap w = 0xFFFFFFFF#32
  · have hones : (0xFFFFFFFF#32 : BitVec 32) = BitVec.allOnes 32 := by decide
    rw [if_pos hfull, hfull, hones]
    simp only [true_iff]
    intro bit hbit
    rw [BitVec.getLsbD_allOnes]
    exact decide_eq_true hbit
  · rw [if_neg hfull, Option.map_eq_none_iff, List.find?_eq_none]
    apply forall_congr'
    intro bit
    rw [List.mem_range]
    apply imp_congr_right
    intro hbit
    rw [decide_eq_true_iff, and_shift_eq_zero _ hbit, Bool.not_eq_false]

theorem findInWord_eq_some {w : Nat} (h : p.findInWord w = some f) :
    ∃ bit < 32, f = w * 32 + bit ∧ p.used f = false ∧ ∀ b < bit, p.used (w * 32 + b) = true := by
  unfold findInWord bitsPerWord at h
  by_cases hfull : p.bitmap w = 0xFFFFFFFF#32
  · rw [if_pos hfull] at h
    cases h
  · rw [if_neg hfull, Option.map_eq_some_iff] at h
    obtain ⟨bit, hfind, rfl⟩ := h
    rw [List.find?_range_eq_some] at hfind
    obtain ⟨hclear, hbit, hbelow⟩ := hfind
    rw [List.mem_range] at hbit
    refine ⟨bit, hbit, rfl, ?_, ?_⟩
    · rw [used_bit p w hbit]
      exact (and_shift_eq_zero _ hbit).1 (of_decide_eq_true hclear)
    · intro b hb
      have hb' : b < 32 := hb.trans hbit
      have hset := hbelow b hb
      rw [used_bit p w hb', ← Bool.not_eq_false, ← and_shift_eq_zero _ hb']
      simpa using hset

theorem findFreeFrame_eq_none : p.findFreeFrame = none ↔ ∀ g < p.scanned, p.used g = true := by
  simp only [findFreeFrame, List.findSome?_eq_none_iff, List.mem_range, findInWord_eq_none, scanned]
  constructor
  · intro h g hg
    have hsplit : g / 32 * 32 + g % 32 = g := by omega
    rw [← hsplit]
    exact h (g / 32) (by omega) (g % 32) (by omega)
  · intro h w hw bit hbit
    exact h _ (by omega)

/-- **The scan finds the lowest free frame.** -/
theorem findFreeFrame_eq_some :
    p.findFreeFrame = some f ↔ f < p.scanned ∧ p.used f = false ∧ ∀ g < f, p.used g = true := by
  have hsound : ∀ f, p.findFreeFrame = some f →
      f < p.scanned ∧ p.used f = false ∧ ∀ g < f, p.used g = true := by
    intro f h
    obtain ⟨before, w, after, hrange, hfind, hbefore⟩ := List.findSome?_eq_some_iff.1 h
    rw [List.range_eq_range', List.range'_eq_append_iff] at hrange
    obtain ⟨k, hk, rfl, hafter⟩ := hrange
    obtain ⟨rfl, hpos, -⟩ := List.range'_eq_cons_iff.1 hafter.symm
    obtain ⟨bit, hbit, rfl, hfree, hbelow⟩ := findInWord_eq_some hfind
    refine ⟨by unfold scanned; omega, hfree, ?_⟩
    intro g hg
    have hsplit : g / 32 * 32 + g % 32 = g := by omega
    by_cases hw : g / 32 < k
    · have hnone := hbefore (g / 32) (List.mem_range'_1.2 (by omega))
      rw [← hsplit]
      exact findInWord_eq_none.1 hnone (g % 32) (by omega)
    · have hword : 0 + k * 1 = g / 32 := by omega
      rw [hword] at hbelow
      rw [← hsplit]
      exact hbelow (g % 32) (by omega)
  refine ⟨hsound f, fun ⟨hlt, hfree, hbelow⟩ => ?_⟩
  cases hfind : p.findFreeFrame with
  | none =>
      rw [findFreeFrame_eq_none.1 hfind f hlt] at hfree
      cases hfree
  | some f' =>
      obtain ⟨-, hfree', hbelow'⟩ := hsound f' hfind
      rcases Nat.lt_trichotomy f f' with h | h | h
      · rw [hbelow' f h] at hfree
        cases hfree
      · rw [h]
      · rw [hbelow f' h] at hfree'
        cases hfree'

/-! ## Allocation -/

/-- The free frames below `limit` that the scan can find. -/
def freeFrames (p : Pmm) (limit : Nat) : Finset Nat :=
  (Finset.range p.scanned).filter fun f => f < limit ∧ p.used f = false

/-- How many there are. -/
def free (p : Pmm) (limit : Nat) : Nat := (p.freeFrames limit).card

theorem mem_freeFrames {limit : Nat} :
    f ∈ p.freeFrames limit ↔ f < p.scanned ∧ f < limit ∧ p.used f = false := by
  rw [freeFrames, Finset.mem_filter, Finset.mem_range]

theorem free_mono (p : Pmm) {limit limit' : Nat} (h : limit ≤ limit') :
    p.free limit ≤ p.free limit' := by
  apply Finset.card_le_card
  intro f hf
  rw [mem_freeFrames] at hf ⊢
  exact ⟨hf.1, by omega, hf.2.2⟩

/-- `p'` is `p` after frame `f` was taken. -/
structure Took (p p' : Pmm) (f : Nat) : Prop where
  inside : f < p.scanned
  clear : p.used f = false
  lowest : ∀ g < f, p.used g = true
  scanned : p'.scanned = p.scanned
  used : ∀ g, p'.used g = (decide (g = f) || p.used g)
  count : p'.usedFrames = p.usedFrames + 1

/-- An allocation takes the frame that the scan finds. -/
theorem allocFrame_of_find (h : p.findFreeFrame = some f) :
    ∃ p', p.allocFrame = (f * pageSize, p') ∧ Took p p' f := by
  obtain ⟨hlt, hclear, hlowest⟩ := findFreeFrame_eq_some.1 h
  refine ⟨{ p.markFrameUsed f with usedFrames := p.usedFrames + 1 }, ?_,
    hlt, hclear, hlowest, rfl, used_markFrameUsed p f, rfl⟩
  simp only [allocFrame, h]

/-- **An allocation** fails when every bit is set, and takes the lowest free frame otherwise. -/
theorem allocFrame_cases (p : Pmm) :
    ((∀ g < p.scanned, p.used g = true) ∧ p.allocFrame = (0, p)) ∨
      ∃ f p', p.allocFrame = (f * pageSize, p') ∧ Took p p' f := by
  cases hfind : p.findFreeFrame with
  | none =>
      refine .inl ⟨findFreeFrame_eq_none.1 hfind, ?_⟩
      simp only [allocFrame, hfind]
  | some f =>
      obtain ⟨p', halloc, htook⟩ := allocFrame_of_find hfind
      exact .inr ⟨f, p', halloc, htook⟩

/-- Frames in use stay in use. -/
theorem Took.mono {p' : Pmm} (h : Took p p' f) {g : Nat} (hg : p.used g = true) :
    p'.used g = true := by
  rw [h.used, hg, Bool.or_true]

/-- The frame itself is in use from now on. -/
theorem Took.self {p' : Pmm} (h : Took p p' f) : p'.used f = true := by
  rw [h.used, decide_eq_true rfl, Bool.true_or]

theorem Took.freeFrames {p' : Pmm} (h : Took p p' f) (limit : Nat) :
    p'.freeFrames limit = (p.freeFrames limit).erase f := by
  ext g
  rw [Finset.mem_erase, mem_freeFrames, mem_freeFrames, h.scanned, h.used]
  by_cases hg : g = f
  · simp [hg]
  · simp [hg]

/-- Taking a frame leaves one frame less. -/
theorem Took.free {p' : Pmm} (h : Took p p' f) (limit : Nat) :
    p'.free limit = p.free limit - if f < limit then 1 else 0 := by
  unfold Pmm.free
  rw [h.freeFrames]
  by_cases hf : f < limit
  · rw [if_pos hf, Finset.card_erase_of_mem (mem_freeFrames.2 ⟨h.inside, hf, h.clear⟩)]
  · rw [if_neg hf, Finset.erase_eq_of_notMem fun hmem => hf (mem_freeFrames.1 hmem).2.1]
    rfl

/-- The lowest frame goes first, so below every `limit` there is one frame less, or none is left. -/
theorem Took.spent {p' : Pmm} (h : Took p p' f) (limit : Nat) :
    p'.free limit ≤ p.free limit - 1 := by
  rw [h.free]
  by_cases hf : f < limit
  · rw [if_pos hf]
  · have hnone : p.freeFrames limit = ∅ := by
      apply Finset.eq_empty_of_forall_notMem
      intro g hg
      obtain ⟨-, hlimit, hclear⟩ := mem_freeFrames.1 hg
      rw [h.lowest g (by omega)] at hclear
      cases hclear
    rw [if_neg hf, Pmm.free, hnone, Finset.card_empty]

/-- While there is a free frame below `limit`, an allocation returns one. -/
theorem allocFrame_of_free {limit : Nat} (h : 0 < p.free limit) :
    ∃ f p', p.allocFrame = (f * pageSize, p') ∧ f < limit ∧ Took p p' f := by
  obtain ⟨g, hg⟩ := Finset.card_pos.1 h
  obtain ⟨hscan, hlimit, hclear⟩ := mem_freeFrames.1 hg
  rcases p.allocFrame_cases with ⟨hfull, -⟩ | ⟨f, p', halloc, htook⟩
  · rw [hfull g hscan] at hclear
    cases hclear
  · refine ⟨f, p', halloc, ?_, htook⟩
    by_contra hf
    rw [htook.lowest g (by omega)] at hclear
    cases hclear

/-! ## After `pmm_init` -/

theorem used_init (bitmap : Nat → BitVec 32) (memSize : Nat)
    (h : f < (init bitmap memSize).scanned) :
    (init bitmap memSize).used f = decide (f < 512) := by
  have hfull : kernelReserved / pageSize / bitsPerWord = 16 := by decide
  have htail : kernelReserved / pageSize % bitsPerWord = 0 := by decide
  have hwords : f / 32 < (memSize / pageSize + bitsPerWord - 1) / bitsPerWord := by
    change f < (memSize / pageSize + bitsPerWord - 1) / bitsPerWord * 32 at h
    omega
  change ((if _ ∧ _ then _ else if _ then _ else _ : BitVec 32).getLsbD _) = _
  rw [htail, hfull, if_neg fun hand => hand.1 rfl]
  by_cases hlow : f / 32 < 16
  · have hlt : f % 32 < 32 := Nat.mod_lt _ (by decide)
    have hones : (0xFFFFFFFF#32 : BitVec 32) = BitVec.allOnes 32 := by decide
    rw [if_pos hlow, hones, BitVec.getLsbD_allOnes]
    have : f < 512 := by omega
    simp [hlt, this]
  · rw [if_neg hlow, if_pos hwords, BitVec.getLsbD_zero]
    have : ¬f < 512 := by omega
    simp [this]

theorem scanned_init (bitmap : Nat → BitVec 32) (memSize : Nat) :
    (init bitmap memSize).scanned = (memSize / 4096 + 31) / 32 * 32 := rfl

end Pmm

end Munux.Memory
