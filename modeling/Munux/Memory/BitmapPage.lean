import Munux.Memory.Frames
import Munux.Lib.ByteMem

/-!
# Where the bitmap lies

The bitmap begins at `BITMAP_BASE_ADDR`, in the page that the linker keeps for the multiboot header;
the kernel's code begins on the next page. How many words it has depends on how much memory
`detect_memory` finds. `bitmap_inside_iff` says on which machines the writes of `pmm.c` stay inside
the page: those with at most 32768 frames.

The calls of `pmm.c` are replayed with a log of the words they write (`initWrites`, `allocWrites`,
`freeWrites`); words that are not in the log keep their value (`bitmap_init_of_notMem` and so on).
-/

namespace Munux.Memory

open ByteMem

/-! ## `detect_memory` -/

/-- `MULTIBOOT_BOOTLOADER_MAGIC` -/
def multibootMagic : Nat := 0x2BADB002

/-- `MEM_FALLBACK_BYTES` -/
def memFallbackBytes : Nat := 32 * 1024 * 1024

/-- `mbi[i]` -/
def mbi (mem : ByteMem) (mbInfoAddr i : Nat) : Nat := load32 mem ((mbInfoAddr + 4 * i) % wordCount)

/-- `total` in `detect_memory`, before the clamp. -/
def reported (mem : ByteMem) (mbInfoAddr : Nat) : Nat :=
  (0x100000 + mbi mem mbInfoAddr 2 * 1024) % wordCount

/-- `detect_memory` -/
def detectMemory (mem : ByteMem) (magic mbInfoAddr : Nat) : Nat :=
  if magic ≠ multibootMagic ∨ mbInfoAddr = 0 then memFallbackBytes
  else if mbi mem mbInfoAddr 0 &&& 1 = 0 then memFallbackBytes
  else if reported mem mbInfoAddr < memFallbackBytes then memFallbackBytes
  else reported mem mbInfoAddr

/-! ## The words that are written -/

/-- `BITMAP_BASE_ADDR` -/
def bitmapBaseAddr : Nat := 0x100000

/-- The address of word `w` of the bitmap. -/
def wordAddr (w : Nat) : Nat := bitmapBaseAddr + 4 * w

namespace Pmm

/-- The words that `pmm_init` writes: all of them, then those of the reserved frames once more. -/
def initWrites (memSize : Nat) : List Nat :=
  let words := (memSize / pageSize + bitsPerWord - 1) / bitsPerWord
  let reservedFrames := kernelReserved / pageSize
  let fullWords := reservedFrames / bitsPerWord
  List.range words ++ List.range fullWords ++
    if reservedFrames % bitsPerWord ≠ 0 then [fullWords] else []

/-- The word that `pmm_alloc_frame` writes, if it finds a frame. -/
def allocWrites (p : Pmm) : List Nat :=
  match p.findFreeFrame with
  | none => []
  | some frame => [frame / bitsPerWord]

/-- The word that `pmm_free_frame` writes. -/
def freeWrites (frameAddr : Nat) : List Nat := [frameAddr / pageSize / bitsPerWord]

variable {p : Pmm} {w : Nat}

theorem bitmap_init_of_notMem (bitmap : Nat → BitVec 32) (memSize : Nat)
    (h : w ∉ initWrites memSize) : (init bitmap memSize).bitmap w = bitmap w := by
  simp only [initWrites, List.mem_append, List.mem_range, not_or] at h
  obtain ⟨⟨hwords, hfull⟩, htail⟩ := h
  simp only [init, if_neg hwords, if_neg hfull]
  refine if_neg fun hand => htail ?_
  rw [if_pos hand.1, hand.2]
  exact List.mem_singleton_self _

theorem bitmap_allocFrame_of_notMem (h : w ∉ p.allocWrites) :
    p.allocFrame.2.bitmap w = p.bitmap w := by
  unfold allocWrites at h
  unfold allocFrame
  cases hfind : p.findFreeFrame with
  | none => rfl
  | some frame =>
      simp only [hfind, List.mem_singleton] at h
      exact Function.update_of_ne h _ _

theorem bitmap_freeFrame_of_notMem {addr : Nat} (h : w ∉ freeWrites addr) :
    (p.freeFrame addr).bitmap w = p.bitmap w := by
  rw [bitmap_freeFrame]
  exact Function.update_of_ne (fun heq => h (List.mem_singleton.2 heq)) _ _

end Pmm

/-- A run from `pmm_init`, with the words written in it. -/
inductive BitmapRun (bitmap : Nat → BitVec 32) (memSize : Nat) : Frames → List Nat → Prop
  | init : BitmapRun bitmap memSize ⟨Pmm.init bitmap memSize, ∅⟩ (Pmm.initWrites memSize)
  | alloc {p p' : Pmm} {held : Finset Nat} {ws : List Nat} {a : Nat}
      (hrun : BitmapRun bitmap memSize ⟨p, held⟩ ws) (hcall : p.allocFrame = (a, p')) :
      BitmapRun bitmap memSize ⟨p', if a = 0 then held else insert a held⟩ (ws ++ p.allocWrites)
  | free {p : Pmm} {held : Finset Nat} {ws : List Nat} {a : Nat}
      (hrun : BitmapRun bitmap memSize ⟨p, held⟩ ws) (ha : a ∈ held) :
      BitmapRun bitmap memSize ⟨p.freeFrame a, held.erase a⟩ (ws ++ Pmm.freeWrites a)

/-- Word `w` lies inside the page of the multiboot header. -/
def InMultibootPage (w : Nat) : Prop := 0x100000 ≤ wordAddr w ∧ wordAddr w + 4 ≤ 0x101000

/-- The boot loader reports no memory size, or one that comes to at most 32768 frames. -/
def FewFrames (mem : ByteMem) (magic mbInfoAddr : Nat) : Prop :=
  magic ≠ multibootMagic ∨ mbInfoAddr = 0 ∨ mbi mem mbInfoAddr 0 &&& 1 = 0 ∨
    reported mem mbInfoAddr < 32769 * 4096

section Bitmap

variable {bitmap : Nat → BitVec 32} {memSize : Nat} {s : Frames} {ws : List Nat} {w : Nat}

theorem BitmapRun.reachable (h : BitmapRun bitmap memSize s ws) :
    FramesReachable bitmap memSize s := by
  induction h with
  | init => exact .refl
  | alloc _ hcall ih => exact ih.tail (.alloc hcall)
  | free _ ha ih => exact ih.tail (.free ha)

theorem inMultibootPage_iff : InMultibootPage w ↔ w < 1024 := by
  unfold InMultibootPage wordAddr bitmapBaseAddr
  omega

/-- Only words that the scan covers are written. -/
theorem BitmapRun.written (hmem : 0x2000000 ≤ memSize) (h : BitmapRun bitmap memSize s ws)
    (hw : w ∈ ws) : w < (memSize / 4096 + 31) / 32 := by
  induction h with
  | init =>
      have hfull : kernelReserved / pageSize / bitsPerWord = 16 := by decide
      have htail : kernelReserved / pageSize % bitsPerWord = 0 := by decide
      simp only [Pmm.initWrites, hfull, htail, List.mem_append, List.mem_range, ne_eq,
        not_true_eq_false, if_false, List.not_mem_nil, or_false] at hw
      rcases hw with hw | hw
      · exact hw
      · omega
  | @alloc p p' held ws a hrun hcall ih =>
      rcases List.mem_append.1 hw with hw | hw
      · exact ih hw
      · have hscan := (totalFrames_reachable hrun.reachable).2
        unfold Pmm.allocWrites at hw
        cases hfind : p.findFreeFrame with
        | none => simp [hfind] at hw
        | some frame =>
            have hlt := (Pmm.findFreeFrame_eq_some.1 hfind).1
            simp only [hfind, List.mem_singleton, bitsPerWord] at hw
            simp only at hscan
            omega
  | @free p held ws a hrun ha ih =>
      rcases List.mem_append.1 hw with hw | hw
      · exact ih hw
      · have hscan := (totalFrames_reachable hrun.reachable).2
        obtain ⟨f, rfl, -, hf⟩ := (accounted_reachable hmem hrun.reachable).held a ha
        rw [Pmm.freeWrites, List.mem_singleton, Nat.mul_div_cancel f (by decide)] at hw
        simp only [bitsPerWord] at hw hf hscan
        omega

theorem detectMemory_ge (mem : ByteMem) (magic mbInfoAddr : Nat) :
    0x2000000 ≤ detectMemory mem magic mbInfoAddr := by
  unfold detectMemory
  split_ifs with h₁ h₂ h₃
  · exact le_rfl
  · exact le_rfl
  · exact le_rfl
  · exact Nat.le_of_not_lt h₃

theorem detectMemory_lt_iff {mem : ByteMem} {magic mbInfoAddr : Nat} :
    detectMemory mem magic mbInfoAddr < 32769 * 4096 ↔ FewFrames mem magic mbInfoAddr := by
  have hfallback : memFallbackBytes < 32769 * 4096 := by decide
  unfold detectMemory FewFrames
  split_ifs with h₁ h₂ h₃
  · exact iff_of_true hfallback (or_assoc.1 (.inl h₁))
  · exact iff_of_true hfallback (.inr (.inr (.inl h₂)))
  · exact iff_of_true hfallback (.inr (.inr (.inr (h₃.trans hfallback))))
  · rw [← or_assoc, or_iff_right h₁, or_iff_right h₂]

/-- **The bitmap stays inside its page** in every run exactly when the boot loader reports no more
than 32768 frames. -/
theorem bitmap_inside_iff (bitmap : Nat → BitVec 32) (mem : ByteMem) (magic mbInfoAddr : Nat) :
    (∀ s ws, BitmapRun bitmap (detectMemory mem magic mbInfoAddr) s ws →
      ∀ w ∈ ws, InMultibootPage w) ↔ FewFrames mem magic mbInfoAddr := by
  have hge := detectMemory_ge mem magic mbInfoAddr
  rw [← detectMemory_lt_iff]
  constructor
  · intro hall
    have hlast := hall _ _ .init ((detectMemory mem magic mbInfoAddr / 4096 + 31) / 32 - 1)
      (List.mem_append_left _ (List.mem_append_left _ (List.mem_range.2 ?_)))
    · rw [inMultibootPage_iff] at hlast
      omega
    · change _ < (detectMemory mem magic mbInfoAddr / 4096 + 31) / 32
      omega
  · intro hlt s ws hrun w hw
    have hwritten := hrun.written hge hw
    rw [inMultibootPage_iff]
    omega

end Bitmap

/-- The information that a boot loader leaves at address 0x9000 on a machine with 256 MiB: the flag
for the memory fields, and 255 MiB above the first one. -/
def info256 : ByteMem := store32 (store32 (fun _ => 0) 0x9000 1) 0x9008 0x3FC00

/-- **Code overwritten.** On a machine with 256 MiB `pmm_init` clears the word at 0x101000, where
the kernel's code begins. -/
theorem bitmap_over_code :
    ∃ s ws w, BitmapRun (fun _ => 0#32) (detectMemory info256 multibootMagic 0x9000) s ws ∧
      w ∈ ws ∧ wordAddr w = 0x101000 ∧ ¬InMultibootPage w := by
  have hmem : detectMemory info256 multibootMagic 0x9000 = 0x10000000 := by decide +kernel
  refine ⟨_, _, 1024, .init, ?_, rfl, fun hin => absurd (inMultibootPage_iff.1 hin) (by decide)⟩
  rw [hmem]
  exact List.mem_append_left _ (List.mem_append_left _ (List.mem_range.2 (by decide)))

end Munux.Memory
