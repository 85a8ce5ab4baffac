import Munux.Memory.Pmm
import Mathlib.Data.Finset.Card
import Mathlib.Data.Finset.Prod
import Mathlib.Data.Finset.Range
import Mathlib.Logic.Relation

/-!
# Frames over whole runs

A run starts with `pmm_init` and interleaves allocations with frees, where only addresses that are
allocated are freed. `Accounted` is what every call keeps: a bit is set exactly for the reserved
frames and for the frames somebody holds, and `used_frames` counts both.
-/

namespace Munux.Memory

/-- The frame allocator, with the addresses that its users hold. -/
structure Frames where
  pmm : Pmm
  held : Finset Nat

/-- One call. -/
inductive FrameStep : Frames → Frames → Prop
  | alloc {p p' : Pmm} {held : Finset Nat} {a : Nat} (hcall : p.allocFrame = (a, p')) :
      FrameStep ⟨p, held⟩ ⟨p', if a = 0 then held else insert a held⟩
  | free {p : Pmm} {held : Finset Nat} {a : Nat} (ha : a ∈ held) :
      FrameStep ⟨p, held⟩ ⟨p.freeFrame a, held.erase a⟩

/-- The states a run from `pmm_init` can reach. -/
def FramesReachable (bitmap : Nat → BitVec 32) (memSize : Nat) (s : Frames) : Prop :=
  Relation.ReflTransGen FrameStep ⟨Pmm.init bitmap memSize, ∅⟩ s

/-- The bits that are set in the bitmap, by word and position. -/
def Pmm.setBits (p : Pmm) : Finset (Nat × Nat) :=
  (Finset.range p.bitmapWords ×ˢ Finset.range bitsPerWord).filter
    fun b => (p.bitmap b.1).getLsbD b.2

/-- The frames in use, among those that the scan covers. -/
def Pmm.usedSet (p : Pmm) : Finset Nat := (Finset.range p.scanned).filter fun f => p.used f

/-- A bit of a word is a frame. -/
theorem Pmm.card_setBits (p : Pmm) : p.setBits.card = p.usedSet.card := by
  refine Finset.card_nbij' (fun b => b.1 * 32 + b.2) (fun f => (f / 32, f % 32)) ?_ ?_ ?_ ?_
  · intro b hb
    simp only [setBits, bitsPerWord, Finset.coe_filter, Finset.mem_product, Finset.mem_range,
      Set.mem_ofPred_eq] at hb
    simp only [usedSet, scanned, Finset.coe_filter, Finset.mem_range, Set.mem_ofPred_eq,
      used_bit p b.1 hb.1.2]
    exact ⟨by omega, hb.2⟩
  · intro f hf
    simp only [usedSet, scanned, Finset.coe_filter, Finset.mem_range, Set.mem_ofPred_eq] at hf
    simp only [setBits, bitsPerWord, Finset.coe_filter, Finset.mem_product, Finset.mem_range,
      Set.mem_ofPred_eq]
    exact ⟨by omega, hf.2⟩
  · intro b hb
    simp only [setBits, bitsPerWord, Finset.coe_filter, Finset.mem_product, Finset.mem_range,
      Set.mem_ofPred_eq] at hb
    exact Prod.ext (by simp only; omega) (by simp only; omega)
  · intro f _
    simp only
    omega

/-! ## The invariant -/

/-- The bits are set for the reserved frames and for those held, and the counter agrees. -/
structure Accounted (s : Frames) : Prop where
  reserved : 512 ≤ s.pmm.scanned
  used : ∀ f < s.pmm.scanned, s.pmm.used f = true ↔ f < 512 ∨ f * pageSize ∈ s.held
  held : ∀ a ∈ s.held, ∃ f, a = f * pageSize ∧ 512 ≤ f ∧ f < s.pmm.scanned
  count : s.pmm.usedFrames = 512 + s.held.card

section Steps

variable {s s' : Frames} {p p' : Pmm} {held : Finset Nat} {a f memSize : Nat}
  {bitmap : Nat → BitVec 32}

theorem mul_pageSize_inj {f g : Nat} : f * pageSize = g * pageSize ↔ f = g :=
  Nat.mul_left_inj (by decide)

theorem accounted_init (hmem : 0x2000000 ≤ memSize) : Accounted ⟨Pmm.init bitmap memSize, ∅⟩ := by
  have hscan : (Pmm.init bitmap memSize).scanned = (memSize / 4096 + 31) / 32 * 32 :=
    Pmm.scanned_init bitmap memSize
  refine ⟨by simp only [hscan]; omega, ?_, fun a ha => by simp at ha, rfl⟩
  intro f hf
  rw [Pmm.used_init bitmap memSize hf]
  simp

/-- A frame whose bit was clear is neither reserved nor held. -/
theorem Accounted.fresh (h : Accounted s) (hf : f < s.pmm.scanned) (hclear : s.pmm.used f = false) :
    512 ≤ f ∧ f * pageSize ∉ s.held := by
  have hused := h.used f hf
  rw [hclear] at hused
  simp only [Bool.false_eq_true, false_iff, not_or, Nat.not_lt] at hused
  exact hused

theorem Accounted.took (h : Accounted ⟨p, held⟩) (htook : Pmm.Took p p' f)
    (hcount : p'.usedFrames = p.usedFrames + 1) : Accounted ⟨p', insert (f * pageSize) held⟩ := by
  obtain ⟨hlow, hheld⟩ := h.fresh htook.inside htook.clear
  have hscan := htook.scanned
  refine ⟨hscan ▸ h.reserved, ?_, ?_, ?_⟩
  · intro g hg
    have hused := h.used g (hscan ▸ hg)
    simp only at hused
    rw [htook.used, Bool.or_eq_true, decide_eq_true_iff, hused, Finset.mem_insert,
      mul_pageSize_inj, or_left_comm]
  · intro a ha
    simp only [hscan]
    rcases Finset.mem_insert.1 ha with rfl | ha
    · exact ⟨f, rfl, hlow, htook.inside⟩
    · exact h.held a ha
  · have : p.usedFrames = 512 + held.card := h.count
    simp only
    rw [hcount, Finset.card_insert_of_notMem hheld]
    simp only
    omega

theorem Accounted.free (h : Accounted ⟨p, held⟩) (ha : a ∈ held) :
    Accounted ⟨p.freeFrame a, held.erase a⟩ := by
  obtain ⟨f, rfl, hlow, hf⟩ := h.held a ha
  have hcard : 0 < held.card := Finset.card_pos.2 ⟨_, ha⟩
  have hcount : p.usedFrames = 512 + held.card := h.count
  have hdiv : f * pageSize / pageSize = f := Nat.mul_div_cancel f (by decide)
  have hpmm : p.freeFrame (f * pageSize) =
      { p.markFrameFree f with usedFrames := p.usedFrames - 1 } := by
    unfold Pmm.freeFrame
    rw [hdiv]
    exact if_pos (show 0 < p.usedFrames by omega)
  rw [hpmm]
  refine ⟨h.reserved, ?_, fun a' ha' => h.held a' (Finset.mem_of_mem_erase ha'), ?_⟩
  · intro g hg
    have hused : p.used g = true ↔ g < 512 ∨ g * pageSize ∈ held := h.used g hg
    change (p.markFrameFree f).used g = true ↔ _
    have hne : g * pageSize ≠ f * pageSize ↔ g ≠ f := not_congr mul_pageSize_inj
    rw [Pmm.used_markFrameFree, Bool.and_eq_true, decide_eq_true_iff, hused, Finset.mem_erase, hne]
    constructor
    · rintro ⟨hne, hlt | hmem⟩
      · exact .inl hlt
      · exact .inr ⟨hne, hmem⟩
    · rintro (hlt | ⟨hne, hmem⟩)
      · exact ⟨by omega, .inl hlt⟩
      · exact ⟨hne, .inr hmem⟩
  · simp only
    rw [Finset.card_erase_of_mem ha]
    omega

theorem accounted_step (h : Accounted s) (hstep : FrameStep s s') : Accounted s' := by
  cases hstep with
  | @alloc p p' held a hcall =>
      rcases p.allocFrame_cases with ⟨-, hnone⟩ | ⟨f, q, halloc, htook⟩
      · obtain ⟨rfl, rfl⟩ := Prod.mk.inj (hnone.symm.trans hcall)
        rwa [if_pos rfl]
      · obtain ⟨rfl, rfl⟩ := Prod.mk.inj (halloc.symm.trans hcall)
        have hlow := (h.fresh htook.inside htook.clear).1
        rw [if_neg (show f * pageSize ≠ 0 by unfold pageSize; omega)]
        exact h.took htook htook.count
  | free ha => exact h.free ha

theorem accounted_reachable (hmem : 0x2000000 ≤ memSize)
    (h : FramesReachable bitmap memSize s) : Accounted s := by
  induction h with
  | refl => exact accounted_init hmem
  | tail _ hstep ih => exact accounted_step ih hstep

theorem totalFrames_step (hstep : FrameStep s s') : s'.pmm.totalFrames = s.pmm.totalFrames := by
  cases hstep with
  | @alloc p p' held a hcall =>
      unfold Pmm.allocFrame at hcall
      cases hfind : p.findFreeFrame with
      | none =>
          simp only [hfind] at hcall
          obtain ⟨-, rfl⟩ := Prod.mk.inj hcall
          rfl
      | some f =>
          simp only [hfind] at hcall
          obtain ⟨-, rfl⟩ := Prod.mk.inj hcall
          rfl
  | free ha =>
      unfold Pmm.freeFrame
      simp only
      split_ifs <;> rfl

theorem totalFrames_reachable (h : FramesReachable bitmap memSize s) :
    s.pmm.totalFrames = memSize / pageSize ∧ s.pmm.scanned = (memSize / 4096 + 31) / 32 * 32 := by
  have htotal : s.pmm.totalFrames = memSize / pageSize := by
    induction h with
    | refl => rfl
    | tail _ hstep ih => rw [totalFrames_step hstep, ih]
  refine ⟨htotal, ?_⟩
  rw [Pmm.scanned, Pmm.bitmapWords, htotal]
  rfl

theorem Accounted.card_setBits (h : Accounted s) : s.pmm.setBits.card = s.pmm.usedFrames := by
  -- The set bits are the reserved frames and the frames held, and no frame is both.
  have hset : s.pmm.usedSet = Finset.range 512 ∪ s.held.image (· / pageSize) := by
    ext f
    simp only [Pmm.usedSet, Finset.mem_filter, Finset.mem_range, Finset.mem_union, Finset.mem_image]
    constructor
    · rintro ⟨hf, hused⟩
      rcases (h.used f hf).1 hused with hlt | hmem
      · exact .inl hlt
      · exact .inr ⟨_, hmem, Nat.mul_div_cancel f (by decide)⟩
    · rintro (hlt | ⟨a, ha, rfl⟩)
      · have hf := lt_of_lt_of_le hlt h.reserved
        exact ⟨hf, (h.used f hf).2 (.inl hlt)⟩
      · obtain ⟨g, rfl, -, hg⟩ := h.held a ha
        rw [Nat.mul_div_cancel g (by decide)]
        exact ⟨hg, (h.used g hg).2 (.inr ha)⟩
  have hdisj : Disjoint (Finset.range 512) (s.held.image (· / pageSize)) := by
    rw [Finset.disjoint_left]
    intro f hf hmem
    obtain ⟨a, ha, rfl⟩ := Finset.mem_image.1 hmem
    obtain ⟨g, rfl, hg, -⟩ := h.held a ha
    rw [Nat.mul_div_cancel g (by decide), Finset.mem_range] at hf
    omega
  have hinj : (s.held.image (· / pageSize)).card = s.held.card := by
    apply Finset.card_image_of_injOn
    intro a ha b hb hab
    obtain ⟨f, rfl, -⟩ := h.held a ha
    obtain ⟨g, rfl, -⟩ := h.held b hb
    simp only [Nat.mul_div_cancel _ (show 0 < pageSize by decide)] at hab
    rw [hab]
  rw [Pmm.card_setBits, hset, Finset.card_union_of_disjoint hdisj, hinj, Finset.card_range, h.count]

/-- What the next allocation returns: nothing when every bit is set, else the lowest frame whose
bit is clear, which is page aligned, not reserved, and held by nobody. -/
structure NextFrame (s : Frames) (a : Nat) : Prop where
  exhausted : a = 0 → ∀ f < s.pmm.scanned, s.pmm.used f = true
  aligned : pageSize ∣ a
  lowest : a ≠ 0 → a / pageSize < s.pmm.scanned ∧ s.pmm.used (a / pageSize) = false ∧
    ∀ g < a / pageSize, s.pmm.used g = true
  reserved : a ≠ 0 → 512 ≤ a / pageSize
  exclusive : a ∉ s.held

/-- **Exclusive frames, and an exact count.** -/
theorem frames_reachable (hmem : 0x2000000 ≤ memSize) (hrun : FramesReachable bitmap memSize s) :
    s.pmm.usedFrames = 512 + s.held.card ∧ s.pmm.usedFrames = s.pmm.setBits.card ∧
      NextFrame s s.pmm.allocFrame.1 := by
  have h := accounted_reachable hmem hrun
  refine ⟨h.count, h.card_setBits.symm, ?_⟩
  rcases s.pmm.allocFrame_cases with ⟨hfull, hnone⟩ | ⟨f, p', halloc, htook⟩
  · rw [hnone]
    refine ⟨fun _ => hfull, Nat.dvd_zero _, fun h => absurd rfl h, fun h => absurd rfl h,
      ?_⟩
    intro h0
    obtain ⟨f, hf, hlow, -⟩ := h.held 0 h0
    unfold pageSize at hf
    omega
  · obtain ⟨hlow, hheld⟩ := h.fresh htook.inside htook.clear
    have hdiv : f * pageSize / pageSize = f := Nat.mul_div_cancel f (by decide)
    rw [halloc]
    simp only
    refine ⟨?_, Nat.dvd_mul_left _ _, ?_, ?_, hheld⟩
    · intro h0
      unfold pageSize at h0
      omega
    · intro _
      rw [hdiv]
      exact ⟨htook.inside, htook.clear, htook.lowest⟩
    · intro _
      rwa [hdiv]

/-- One frame taken from 32 MiB. -/
theorem frames_reachable_one :
    ∃ p', (Pmm.init (fun _ => 0#32) 0x2000000).allocFrame = (0x200000, p') ∧
      p'.usedFrames = 513 ∧ p'.setBits.card = 513 ∧
      NextFrame ⟨p', {0x200000}⟩ p'.allocFrame.1 := by
  have hfirst : (Pmm.init (fun _ => 0#32) 0x2000000).allocFrame.1 = 0x200000 := by decide +kernel
  have hcall : (Pmm.init (fun _ => 0#32) 0x2000000).allocFrame =
      (0x200000, (Pmm.init (fun _ => 0#32) 0x2000000).allocFrame.2) := Prod.ext hfirst rfl
  have hrun : FramesReachable (fun _ => 0#32) 0x2000000
      ⟨(Pmm.init (fun _ => 0#32) 0x2000000).allocFrame.2, {0x200000}⟩ :=
    .single (.alloc hcall)
  obtain ⟨hcount, hbits, hnext⟩ := frames_reachable le_rfl hrun
  have h513 : 512 + ({0x200000} : Finset Nat).card = 513 := rfl
  exact ⟨_, hcall, hcount.trans h513, hbits.symm.trans (hcount.trans h513), hnext⟩

end Steps

end Munux.Memory
