import Mathlib.Data.List.Infix

/-!
# Properties of every state of a run

A run is a list of inputs, and its states are those after its prefixes. If one input keeps a
property exactly when it meets some condition, then the property holds throughout a run exactly when
all of its inputs meet the condition.

A counted loop is a run too. Two nested ones that go over a grid row by row are one loop over its
cells (`foldl_grid`).
-/

namespace Munux

theorem forall_prefix_iff {α : Type} {P : List α → Prop} {ok : List α → α → Prop} (h0 : P [])
    (hstep : ∀ l a, P l → (P (l ++ [a]) ↔ ok l a)) (l : List α) :
    (∀ p, p <+: l → P p) ↔ ∀ p a, p ++ [a] <+: l → ok p a := by
  constructor
  · intro h p a hbefore
    exact (hstep p a (h p ((List.prefix_append p [a]).trans hbefore))).1 (h _ hbefore)
  · intro h p hbefore
    induction p using List.reverseRecOn with
    | nil => exact h0
    | append_singleton p a ih =>
        exact (hstep p a (ih ((List.prefix_append p [a]).trans hbefore))).2 (h p a hbefore)

section Loop

variable {σ : Type} {I : Nat → σ → Prop} {s : σ}

theorem foldl_range {f : σ → Nat → σ} (n : Nat) (h0 : I 0 s)
    (hstep : ∀ k t, k < n → I k t → I (k + 1) (f t k)) : I n ((List.range n).foldl f s) := by
  induction n with
  | zero => exact h0
  | succ n ih =>
      rw [List.range_succ, List.foldl_concat]
      exact hstep n _ (Nat.lt_succ_self n) (ih fun k t hk => hstep k t (hk.trans n.lt_succ_self))

theorem foldl_grid {f : σ → Nat → Nat → σ} (height width : Nat) (h0 : I 0 s)
    (hstep : ∀ y x t, y < height → x < width → I (y * width + x) t →
      I (y * width + x + 1) (f t y x)) :
    I (height * width)
      ((List.range height).foldl (fun t y => (List.range width).foldl (f · y) t) s) := by
  refine foldl_range (I := fun y t => I (y * width) t) height ?_ fun y t hy ht => ?_
  · rwa [Nat.zero_mul]
  · rw [Nat.succ_mul]
    exact foldl_range (I := fun x t => I (y * width + x) t) width ht fun x t hx => hstep y x t hy hx

end Loop

end Munux
