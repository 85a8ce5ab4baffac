import Munux.Memory.Frames

/-!
# Frames that exist

`pmm_get_total_memory` and `pmm_get_free_memory` count frames, the scan counts words: it covers the
32 bits of the last word also when fewer frames are left for it. `counts_exact_iff` says that the
two agree exactly on machines whose number of frames is a multiple of 32; on the others the PMM
hands out frames past the end of memory once the real ones are gone.
-/

namespace Munux.Memory

namespace Pmm

/-- `pmm_get_total_memory` -/
def getTotalMemory (p : Pmm) : Nat := p.totalFrames * pageSize % wordCount

/-- `pmm_get_free_memory` -/
def getFreeMemory (p : Pmm) : Nat :=
  (p.totalFrames + wordCount - p.usedFrames) % wordCount * pageSize % wordCount

/-- How many of `n` allocations in a row get a frame. -/
def granted : (n : Nat) → Pmm → Nat
  | 0, _ => 0
  | n + 1, p =>
      let (a, p') := p.allocFrame
      if a = 0 then 0 else granted n p' + 1

end Pmm

/-- The counts are those of the frames that exist. -/
structure CountsExact (memSize : Nat) (s : Frames) : Prop where
  total : s.pmm.getTotalMemory = memSize / pageSize * pageSize
  inside : s.pmm.allocFrame.1 ≠ 0 → s.pmm.allocFrame.1 < s.pmm.getTotalMemory
  used : s.pmm.usedFrames ≤ s.pmm.totalFrames
  free : ∀ n, s.pmm.scanned ≤ n → s.pmm.getFreeMemory = s.pmm.granted n * pageSize

section Counts

variable {p : Pmm} {s s' : Frames} {bitmap : Nat → BitVec 32} {memSize f n : Nat}

/-- As long as frame 0 is in use, allocations get a frame while there is one. -/
theorem Pmm.granted_eq (h : p.used 0 = true) (n : Nat) :
    p.granted n = min n (p.free p.scanned) := by
  induction n generalizing p with
  | zero => exact (Nat.zero_min _).symm
  | succ n ih =>
      rcases p.allocFrame_cases with ⟨hfull, hnone⟩ | ⟨f, p', halloc, htook⟩
      · have hzero : p.free p.scanned = 0 := by
          refine Finset.card_eq_zero.2 (Finset.eq_empty_of_forall_notMem ?_)
          intro g hg
          obtain ⟨hscan, -, hclear⟩ := Pmm.mem_freeFrames.1 hg
          rw [hfull g hscan] at hclear
          cases hclear
        simp only [granted, hnone, if_true, hzero, Nat.min_zero]
      · have hf : f ≠ 0 := by
          rintro rfl
          have hclear := htook.clear
          rw [h] at hclear
          cases hclear
        have hpos : 0 < p.free p.scanned :=
          Finset.card_pos.2 ⟨f, Pmm.mem_freeFrames.2 ⟨htook.inside, htook.inside, htook.clear⟩⟩
        have hfree := htook.free p.scanned
        rw [if_pos htook.inside] at hfree
        have hne : f * pageSize ≠ 0 := Nat.mul_ne_zero hf (by decide)
        simp only [granted, halloc, if_neg hne, ih (htook.mono h), htook.scanned]
        omega

/-- The scanned frames are in use or free. -/
theorem Accounted.free_add (h : Accounted s) :
    s.pmm.usedFrames + s.pmm.free s.pmm.scanned = s.pmm.scanned := by
  have hused : s.pmm.usedSet.card = s.pmm.usedFrames := s.pmm.card_setBits ▸ h.card_setBits
  have hfree : s.pmm.freeFrames s.pmm.scanned =
      (Finset.range s.pmm.scanned).filter fun f => ¬s.pmm.used f = true := by
    apply Finset.filter_congr
    intro f hf
    rw [Bool.not_eq_true, and_iff_right (Finset.mem_range.1 hf)]
  have hcard := Finset.card_filter_add_card_filter_not (s := Finset.range s.pmm.scanned)
    fun f => s.pmm.used f = true
  rw [← hfree, Finset.card_range] at hcard
  rw [← hused]
  exact hcard

theorem Accounted.granted (h : Accounted s) (hn : s.pmm.scanned ≤ n) :
    s.pmm.granted n = s.pmm.scanned - s.pmm.usedFrames := by
  have hsum := h.free_add
  have hzero : s.pmm.used 0 = true :=
    (h.used 0 (Nat.lt_of_lt_of_le (by decide) h.reserved)).2 (.inl (by decide))
  rw [Pmm.granted_eq hzero]
  omega

/-- Below 4 GiB nothing wraps around, unless more frames are in use than there are. -/
theorem Pmm.getFreeMemory_eq (hle : p.totalFrames < 2 ^ 20) (hused : p.usedFrames ≤ p.totalFrames) :
    p.getFreeMemory = (p.totalFrames - p.usedFrames) * pageSize := by
  have hcount : wordCount = 2 ^ 32 := rfl
  have hdiff : (p.totalFrames + wordCount - p.usedFrames) % wordCount =
      p.totalFrames - p.usedFrames := by
    rw [show p.totalFrames + wordCount - p.usedFrames =
      p.totalFrames - p.usedFrames + wordCount by omega, Nat.add_mod_right]
    exact Nat.mod_eq_of_lt (by omega)
  rw [getFreeMemory, hdiff]
  exact Nat.mod_eq_of_lt (by unfold pageSize; omega)

/-- When the scan covers the frames there are and no others, the counts are exact. -/
theorem Accounted.countsExact (h : Accounted s) (hmem : memSize < 2 ^ 32)
    (htotal : s.pmm.totalFrames = memSize / pageSize)
    (hscan : s.pmm.scanned = s.pmm.totalFrames) : CountsExact memSize s := by
  have hsum := h.free_add
  have hle : memSize / pageSize < 2 ^ 20 := Nat.div_lt_of_lt_mul hmem
  have hmul : memSize / pageSize * pageSize ≤ memSize := Nat.div_mul_le_self _ _
  have hget : s.pmm.getTotalMemory = memSize / pageSize * pageSize := by
    rw [Pmm.getTotalMemory, htotal]
    exact Nat.mod_eq_of_lt (hmul.trans_lt hmem)
  refine ⟨hget, ?_, by omega, ?_⟩
  · intro hne
    rcases s.pmm.allocFrame_cases with ⟨-, hnone⟩ | ⟨f, p', halloc, htook⟩
    · rw [hnone] at hne
      exact absurd rfl hne
    · rw [halloc, hget]
      refine Nat.mul_lt_mul_of_pos_right ?_ (by decide)
      rw [← htotal, ← hscan]
      exact htook.inside
  · intro n hn
    rw [h.granted hn, Pmm.getFreeMemory_eq (by omega) (by omega), hscan]

/-- **The counts are exact** in every run exactly when the frames fill the words of the bitmap. -/
theorem counts_exact_iff (bitmap : Nat → BitVec 32) (hlow : 0x2000000 ≤ memSize)
    (hmem : memSize < 2 ^ 32) :
    (∀ s, FramesReachable bitmap memSize s → CountsExact memSize s) ↔ 32 ∣ memSize / 4096 := by
  constructor
  · intro hall
    have hexact := hall _ .refl
    have hacc : Accounted ⟨Pmm.init bitmap memSize, ∅⟩ := accounted_init hlow
    have htotal : (Pmm.init bitmap memSize).totalFrames = memSize / 4096 := rfl
    have hscan := Pmm.scanned_init bitmap memSize
    have hused : (Pmm.init bitmap memSize).usedFrames = 512 := rfl
    have hfree := hexact.free _ le_rfl
    rw [hacc.granted le_rfl, Pmm.getFreeMemory_eq (by rw [htotal]; omega) hexact.used] at hfree
    have heq := Nat.eq_of_mul_eq_mul_right (by decide) hfree
    simp only [htotal, hscan, hused] at heq
    omega
  · intro hdvd s hrun
    obtain ⟨htotal, hscan⟩ := totalFrames_reachable hrun
    refine (accounted_reachable hlow hrun).countsExact hmem htotal ?_
    rw [hscan, htotal]
    unfold pageSize
    omega

/-- A machine with 32 MiB fills the words of its bitmap. -/
theorem counts_exact_32 :
    CountsExact 0x2000000 ⟨Pmm.init (fun _ => 0#32) 0x2000000, ∅⟩ :=
  (counts_exact_iff (fun _ => 0#32) le_rfl (by decide)).2 (by decide) _ .refl

/-- When the frames below `f` are in use, frame `f` is next. -/
theorem Pmm.allocFrame_next (hf : f < p.scanned)
    (hused : ∀ g < p.scanned, p.used g = decide (g < f)) :
    ∃ p', p.allocFrame = (f * pageSize, p') ∧ Pmm.Took p p' f := by
  rcases p.allocFrame_cases with ⟨hfull, -⟩ | ⟨f', p', halloc, htook⟩
  · have hclear := hused f hf
    rw [hfull f hf, decide_eq_false (Nat.lt_irrefl f)] at hclear
    cases hclear
  · have hlow : ¬f' < f := fun hlt => by
      have hclear := htook.clear
      rw [hused f' htook.inside, decide_eq_true hlt] at hclear
      cases hclear
    have hhigh : ¬f < f' := fun hlt => by
      have htaken := htook.lowest f hlt
      rw [hused f hf, decide_eq_false (Nat.lt_irrefl f)] at htaken
      cases htaken
    obtain rfl : f' = f := by omega
    exact ⟨p', halloc, htook⟩

/-- Allocations alone take the frames one after the other. -/
theorem frames_in_order (bitmap : Nat → BitVec 32) (hf : 512 ≤ f)
    (hscan : f ≤ (Pmm.init bitmap memSize).scanned) :
    ∃ s, FramesReachable bitmap memSize s ∧ s.pmm.usedFrames = f ∧
      ∀ g < s.pmm.scanned, s.pmm.used g = decide (g < f) := by
  induction f, hf using Nat.le_induction with
  | base => exact ⟨_, .refl, rfl, fun g hg => Pmm.used_init bitmap memSize hg⟩
  | succ f hf ih =>
      obtain ⟨s, hrun, hcount, hused⟩ := ih (Nat.le_of_succ_le hscan)
      have hinside : f < s.pmm.scanned := by
        rw [(totalFrames_reachable hrun).2]
        exact hscan
      obtain ⟨p', halloc, htook⟩ := Pmm.allocFrame_next hinside hused
      refine ⟨_, hrun.tail (.alloc halloc), ?_, ?_⟩
      · rw [← hcount]
        exact htook.count
      · intro g hg
        have hg' : g < s.pmm.scanned := htook.scanned ▸ hg
        change p'.used g = _
        rw [htook.used, hused g hg', ← Bool.decide_or]
        exact decide_eq_decide.2 (by omega)

end Counts

/-- **A frame that does not exist.** On a machine with 32 MiB and one frame, when all frames are in
use, the next allocation returns the address just past the end of memory, and after it the count of
free bytes has wrapped around. -/
theorem frame_past_end :
    ∃ s s', FramesReachable (fun _ => 0#32) 0x2001000 s ∧ FrameStep s s' ∧
      s.pmm.allocFrame.1 = 0x2001000 ∧ s.pmm.getTotalMemory = 0x2001000 ∧
      s'.pmm.totalFrames < s'.pmm.usedFrames ∧ s'.pmm.getFreeMemory = 0xFFFFF000 := by
  obtain ⟨s, hrun, hcount, hused⟩ := frames_in_order (fun _ => 0#32)
    (show 512 ≤ 8193 by decide) (show 8193 ≤ (Pmm.init _ 0x2001000).scanned by decide)
  obtain ⟨htotal, hscan⟩ := totalFrames_reachable hrun
  obtain ⟨p', halloc, htook⟩ := Pmm.allocFrame_next (by rw [hscan]; decide) hused
  have hstep : FrameStep s ⟨p', if 8193 * pageSize = 0 then s.held else insert _ s.held⟩ :=
    .alloc halloc
  have htotal' : p'.totalFrames = 8193 := (totalFrames_step hstep).trans htotal
  have hcount' : p'.usedFrames = 8194 := by rw [htook.count, hcount]
  refine ⟨s, _, hrun, hstep, ?_, ?_, ?_, ?_⟩
  · rw [halloc]
    rfl
  · rw [Pmm.getTotalMemory, htotal]
    decide
  · change p'.totalFrames < p'.usedFrames
    rw [htotal', hcount']
    decide
  · change p'.getFreeMemory = _
    rw [Pmm.getFreeMemory, htotal', hcount']
    decide

end Munux.Memory
