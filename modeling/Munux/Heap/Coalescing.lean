import Munux.Heap.Invariant
import Mathlib.Data.List.Chain

/-!
# Full coalescing

`deallocate` makes two local merges, and `allocate` splits a block without a look at its
neighbours. All the same, no two neighbours are ever both free. The fact that carries the induction
is about the blocks on either side of an owned one: both sides are coalesced, whatever they are. A
freed block is merged with the one behind it, whose own successor is then owned, and with the one
in front, whose own predecessor is.
-/

namespace Munux.Heap

/-- No two neighbours are both free. -/
def Coalesced (bs : List Blk) : Prop :=
  bs.IsChain fun b c => ¬ (b.owner = none ∧ c.owner = none)

section Blocks

variable {b c p : Blk} {bs pre post xs ys : List Blk}

/-- An owned block keeps its two sides apart. -/
theorem coalesced_owned (hown : b.owner ≠ none) :
    Coalesced (pre ++ b :: post) ↔ Coalesced pre ∧ Coalesced post := by
  unfold Coalesced
  rw [List.isChain_append, List.isChain_cons]
  constructor
  · intro h
    exact ⟨h.1, h.2.1.2⟩
  · intro h
    refine ⟨h.1, ⟨fun c _ hand => hown hand.1, h.2⟩, fun x _ y hy hand => hown ?_⟩
    obtain rfl := Option.some.inj hy
    exact hand.2

theorem Coalesced.head (h : Coalesced (b :: bs)) (hown : c.owner = b.owner) :
    Coalesced (c :: bs) := by
  unfold Coalesced at h ⊢
  rw [List.isChain_cons] at h ⊢
  rw [hown]
  exact h

/-- Only the owners count: two runs of blocks that meet in equally owned blocks can be joined. -/
theorem Coalesced.join (hxs : Coalesced (xs ++ [p])) (hys : Coalesced (c :: ys))
    (hown : c.owner = p.owner) : Coalesced (xs ++ c :: ys) := by
  unfold Coalesced at hxs hys ⊢
  rw [List.isChain_append] at hxs ⊢
  refine ⟨hxs.1, hys, ?_⟩
  intro x hx y hy
  obtain rfl := Option.some.inj hy
  rw [hown]
  exact hxs.2.2 x hx p rfl

theorem mergeNext_cons (b : Blk) (bs : List Blk) :
    ∃ c rest, mergeNext (b :: bs) = c :: rest ∧ c.owner = b.owner := by
  cases bs with
  | nil => exact ⟨b, [], rfl, rfl⟩
  | cons n bs =>
      rw [mergeNext]
      by_cases hfree : b.owner = none ∧ n.owner = none
      · rw [if_pos hfree]
        exact ⟨_, bs, rfl, hfree.1.symm⟩
      · rw [if_neg hfree]
        exact ⟨b, n :: bs, rfl, rfl⟩

/-- One merge in front of a coalesced run is enough. -/
theorem coalesced_mergeNext (h : Coalesced bs) (b : Blk) : Coalesced (mergeNext (b :: bs)) := by
  unfold Coalesced at h ⊢
  cases bs with
  | nil => exact List.isChain_singleton b
  | cons n bs =>
      rw [mergeNext]
      by_cases hfree : b.owner = none ∧ n.owner = none
      · rw [if_pos hfree]
        rw [List.isChain_cons] at h ⊢
        refine ⟨fun c hc hand => h.1 c hc ⟨hfree.2, hand.2⟩, h.2⟩
      · rw [if_neg hfree]
        exact List.isChain_cons_cons.2 ⟨hfree, h⟩

theorem coalesced_release (hpre : Coalesced pre) (hpost : Coalesced post) (b : Blk) :
    Coalesced (release pre b post) := by
  have hback := coalesced_mergeNext hpost { b with owner := none }
  unfold release
  rcases List.eq_nil_or_concat pre with rfl | ⟨pre, p, rfl⟩
  · exact hback
  · rw [List.concat_eq_append] at hpre ⊢
    simp only [List.getLast?_append, List.getLast?_singleton, Option.some_or, List.dropLast_concat]
    have hfront := coalesced_mergeNext hback p
    obtain ⟨c, rest, heq, hown⟩ := mergeNext_cons p (mergeNext ({ b with owner := none } :: post))
    rw [heq] at hfront ⊢
    exact hpre.join hfront hown

theorem coalesced_splitBlk {needed : Nat} {a : Alloc} (h : Coalesced (pre ++ b :: post))
    (hfree : b.owner = none) : Coalesced (pre ++ splitBlk needed a b ++ post) := by
  have hpre : Coalesced pre := (List.isChain_append.1 h).1
  have hpost : Coalesced (b :: post) := (List.isChain_append.1 h).2.1
  rw [splitBlk, List.append_assoc]
  by_cases hworth : b.size ≤ needed + minSplitRemainder
  · rw [if_pos hworth, List.singleton_append]
    exact (coalesced_owned (by simp)).2 ⟨hpre, hpost.tail⟩
  · rw [if_neg hworth, List.cons_append, List.singleton_append]
    refine (coalesced_owned (by simp)).2 ⟨hpre, ?_⟩
    -- The remainder is free, and stands where the free block stood.
    exact hpost.head hfree.symm

/-- Every move keeps the blocks coalesced. -/
theorem Move.coalesced {G : Nat → Nat → Nat → Prop} {v v' : Nat × List Blk} (h : Move G v v')
    (hc : Coalesced v.2) : Coalesced v'.2 := by
  cases h with
  | take hfree _ => exact coalesced_splitBlk hc hfree
  | attach _ => exact (coalesced_owned (by simp)).2 ⟨hc, List.isChain_nil⟩
  | realign hown => exact (coalesced_owned (by simp)).2 ((coalesced_owned hown).1 hc)
  | @release _ b _ _ hown =>
      have hsides := (coalesced_owned hown).1 hc
      exact coalesced_release hsides.1 hsides.2 b

/-- With no owner left there is one block. -/
theorem Coalesced.eq_singleton (h : Coalesced bs) (hne : bs ≠ []) (hfree : owners bs = []) :
    ∃ b, bs = [b] ∧ b.owner = none := by
  have hall : ∀ b ∈ bs, b.owner = none := List.filterMap_eq_nil_iff.1 hfree
  match bs with
  | [] => exact absurd rfl hne
  | [b] => exact ⟨b, rfl, hall b List.mem_cons_self⟩
  | b :: c :: bs =>
      have hboth := (List.isChain_cons_cons.1 h).1
      exact absurd ⟨hall b List.mem_cons_self, hall c (by simp)⟩ hboth

end Blocks

section Runs

variable {start initialSize max : Nat} {σ : Sys}

theorem coalesced_reachable (hstart : 4 ∣ start) (hinit : 4 ∣ initialSize) (hle : initialSize ≤ max)
    (h : Reachable start initialSize max σ) :
    ∃ bs, Holding start σ bs ∧ σ.state.heap.max = start + max ∧ Coalesced bs := by
  obtain ⟨m, s₀, hnew, hrun⟩ := h
  induction hrun with
  | refl =>
      obtain ⟨hhold, hmax, -⟩ := holding_new hstart hinit hle hnew
      exact ⟨_, hhold, hmax, List.isChain_singleton _⟩
  | tail _ hstep ih =>
      obtain ⟨bs, hhold, hmax, hco⟩ := ih
      obtain ⟨bs', hhold', hmax', hco'⟩ := (moves_step hhold hstep).invariant
        (P := fun v => Coalesced v.2) (fun _ _ hmove => hmove.coalesced) hco
      exact ⟨bs', hhold', hmax'.trans hmax, hco'⟩

/-- **Full coalescing.** In every state that a run from `Heap::new` reaches, no two consecutive
blocks of the list are both free; when every allocation has been freed, the list is one free block
at `start`. -/
theorem reachable_coalesced (hstart : 4 ∣ start) (hinit : 4 ∣ initialSize) (hle : initialSize ≤ max)
    (h : Reachable start initialSize max σ) :
    ∃ hs os, RepInv start max σ hs os ∧
      hs.IsChain (fun x y => ¬ (isFreeOf σ.state.mem x = 1 ∧ isFreeOf σ.state.mem y = 1)) ∧
      (σ.live = [] → hs = [start] ∧ isFreeOf σ.state.mem start = 1) := by
  obtain ⟨bs, hhold, hmax, hco⟩ := coalesced_reachable hstart hinit hle h
  obtain ⟨os, hinv⟩ := hhold.repInv hmax
  have hflag : ∀ b ∈ bs, isFreeOf σ.state.mem b.addr = 1 → b.owner = none := by
    intro b hb hfree
    by_contra hown
    rw [(hhold.rep.holds b hb).flag, if_neg hown] at hfree
    cases hfree
  refine ⟨_, os, hinv, ?_, ?_⟩
  · refine (List.isChain_map Blk.addr).2 (List.IsChain.imp_of_mem_imp ?_ hco)
    intro b c hb hc hboth hand
    exact hboth ⟨hflag b hb hand.1, hflag c hc hand.2⟩
  · intro hlive
    have hnone : owners bs = [] := List.perm_nil.1 (hlive ▸ hhold.owners)
    obtain ⟨b, rfl, hown⟩ := hco.eq_singleton hhold.rep.nonempty hnone
    have haddr : b.addr = start := hhold.rep.linked.1.symm.trans hhold.rep.head
    refine ⟨by rw [List.map_singleton, haddr], ?_⟩
    rw [← haddr, (hhold.rep.holds b List.mem_cons_self).flag, if_pos hown]

/-- The first page of a two-page heap, handed out in part and freed again. -/
theorem reachable_coalesced_one_page :
    ∃ σ, Reachable 4096 4096 8192 σ ∧ σ.live = [] ∧ ∃ hs os, RepInv 4096 8192 σ hs os ∧
      hs.IsChain (fun x y => ¬ (isFreeOf σ.state.mem x = 1 ∧ isFreeOf σ.state.mem y = 1)) ∧
      (σ.live = [] → hs = [4096] ∧ isFreeOf σ.state.mem 4096 = 1) := by
  let a : Alloc := ⟨4108, 100, .plain⟩
  have ha : a ∈ [a] := List.mem_singleton.2 rfl
  obtain ⟨s₁, h₁⟩ : ∃ s, Reachable 4096 4096 8192 ⟨s, [a]⟩ := reachable_one_page
  obtain ⟨bs, hhold, -⟩ := coalesced_reachable (by decide) (by decide) (by decide) h₁
  obtain ⟨s₂, hfree, -⟩ := moves_deallocate (G := fun _ _ _ => True) hhold ha rfl
  obtain ⟨m, s, hnew', hrun⟩ := h₁
  have h₂ : Reachable 4096 4096 8192 ⟨s₂, [a].erase a⟩ :=
    ⟨m, s, hnew', hrun.tail (.deallocate ha rfl hfree)⟩
  have hnil : [a].erase a = [] := List.erase_cons_head ..
  rw [hnil] at h₂
  exact ⟨_, h₂, rfl, reachable_coalesced (by decide) (by decide) (by decide) h₂⟩

end Runs

end Munux.Heap
