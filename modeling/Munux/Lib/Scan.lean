import Mathlib.Algebra.Order.Ring.Nat
import Mathlib.Data.Fintype.Basic
import Mathlib.Data.List.FinRange

/-!
# Scanning a table of slots

A table is a function from slots to optional entries. `IsFirstMax` says that a scan stopped at the
first slot with the greatest key, and `foldl_isFirstMax` that a left fold which prefers a later slot
only for a greater key finds it. The entries in slot order are a `filterMap` over the slots;
`entries_clear` takes one out, `entries_packed` reads off a table that is filled from slot 0 on, and
`eq_of_first_empty` finds the end of it.
-/

namespace Munux.Scan

variable {ι κ α : Type}

/-! ## The first maximum -/

section Max

variable [LinearOrder ι] [LinearOrder κ] {key : ι → Option κ} {l : List ι} {best : Option ι} {i : ι}

/-- One turn of the scan. -/
def better (key : ι → Option κ) (best : Option ι) (i : ι) : Option ι :=
  match key i, best.bind key with
  | none, _ => best
  | some _, none => some i
  | some k, some k' => if k' < k then some i else best

/-- No slot of `l` has a key, or `i` is the first one with the greatest key. -/
def IsFirstMax (key : ι → Option κ) (l : List ι) : Option ι → Prop
  | none => ∀ j ∈ l, key j = none
  | some i => i ∈ l ∧ ∃ k, key i = some k ∧
      ∀ j ∈ l, ∀ k', key j = some k' → k' ≤ k ∧ (k' = k → i ≤ j)

theorem IsFirstMax.isSome (h : IsFirstMax key l best) : ∀ b ∈ best, (key b).isSome := by
  intro b hb
  obtain rfl := Option.mem_def.1 hb
  obtain ⟨-, k, hk, -⟩ := h
  rw [hk]
  rfl

/-- The next slot of an increasing scan. -/
theorem IsFirstMax.snoc (h : IsFirstMax key l best) (hlt : ∀ j ∈ l, j < i) :
    IsFirstMax key (l ++ [i]) (better key best i) := by
  unfold better
  cases hi : key i with
  | none =>
      cases best with
      | none =>
          intro j hj
          rcases List.mem_append.1 hj with hj | hj
          · exact h j hj
          · rwa [List.mem_singleton.1 hj]
      | some b =>
          obtain ⟨hb, k, hk, hmax⟩ := h
          refine ⟨List.mem_append_left _ hb, k, hk, ?_⟩
          intro j hj k' hk'
          rcases List.mem_append.1 hj with hj | hj
          · exact hmax j hj k' hk'
          · rw [List.mem_singleton.1 hj, hi] at hk'
            cases hk'
  | some k =>
      cases best with
      | none =>
          refine ⟨by simp, k, hi, ?_⟩
          intro j hj k' hk'
          rcases List.mem_append.1 hj with hj | hj
          · rw [h j hj] at hk'
            cases hk'
          · rw [List.mem_singleton.1 hj, hi] at hk'
            obtain rfl := Option.some.inj hk'
            exact ⟨le_rfl, fun _ => (List.mem_singleton.1 hj).ge⟩
      | some b =>
          obtain ⟨hb, kb, hkb, hmax⟩ := h
          rw [Option.bind_some, hkb]
          simp only
          by_cases hgt : kb < k
          · rw [if_pos hgt]
            refine ⟨by simp, k, hi, ?_⟩
            intro j hj k' hk'
            rcases List.mem_append.1 hj with hj | hj
            · have hlt' : k' < k := (hmax j hj k' hk').1.trans_lt hgt
              exact ⟨hlt'.le, fun heq => absurd heq hlt'.ne⟩
            · rw [List.mem_singleton.1 hj, hi] at hk'
              obtain rfl := Option.some.inj hk'
              exact ⟨le_rfl, fun _ => (List.mem_singleton.1 hj).ge⟩
          · rw [if_neg hgt]
            refine ⟨List.mem_append_left _ hb, kb, hkb, ?_⟩
            intro j hj k' hk'
            rcases List.mem_append.1 hj with hj | hj
            · exact hmax j hj k' hk'
            · rw [List.mem_singleton.1 hj, hi] at hk'
              obtain rfl := Option.some.inj hk'
              rw [List.mem_singleton.1 hj]
              exact ⟨not_lt.1 hgt, fun _ => (hlt b hb).le⟩

/-- **The scan finds the first maximum.** -/
theorem foldl_isFirstMax {f : Option ι → ι → Option ι}
    (hf : ∀ best i, (∀ b ∈ best, (key b).isSome) → f best i = better key best i)
    (hl : l.Pairwise (· < ·)) : IsFirstMax key l (l.foldl f none) := by
  induction l using List.reverseRecOn with
  | nil => exact fun j hj => absurd hj List.not_mem_nil
  | append_singleton l i ih =>
      obtain ⟨hl, -, hlt⟩ := List.pairwise_append.1 hl
      have h := ih hl
      rw [List.foldl_append, List.foldl_cons, List.foldl_nil, hf _ _ h.isSome]
      exact h.snoc fun j hj => hlt j hj i (List.mem_singleton_self i)

end Max

/-! ## The entries in slot order -/

section Entries

variable {n : Nat} {f : Fin n → Option α} {i : Fin n} {a : α}

/-- The entries of a table, in slot order. -/
def entries (f : Fin n → Option α) : List α := (List.finRange n).filterMap f

theorem mem_entries : a ∈ entries f ↔ ∃ i, f i = some a := by
  simp [entries]

/-- Clearing a slot takes its entry out. -/
theorem entries_clear (h : f i = some a) :
    ∃ xs ys, entries f = xs ++ a :: ys ∧ entries (Function.update f i none) = xs ++ ys := by
  obtain ⟨l, r, hlr⟩ := List.append_of_mem (List.mem_finRange i)
  have hnd := List.nodup_finRange n
  rw [hlr] at hnd
  have hother : ∀ j ∈ l ++ r, Function.update f i none j = f j := by
    intro j hj
    refine Function.update_of_ne ?_ _ _
    intro heq
    subst heq
    exact (List.nodup_middle.1 hnd).notMem hj
  refine ⟨l.filterMap f, r.filterMap f, ?_, ?_⟩
  · rw [entries, hlr, List.filterMap_append, List.filterMap_cons_some h]
  · rw [entries, hlr, List.filterMap_append,
      List.filterMap_cons_none (Function.update_self i none f),
      List.filterMap_congr fun j hj => hother j (List.mem_append_left _ hj),
      List.filterMap_congr fun j hj => hother j (List.mem_append_right _ hj)]

/-- In a table that is filled from slot 0 on, the first empty slot comes right behind the others. -/
theorem eq_of_first_empty {k : Nat} (hfill : ∀ i : Fin n, (f i).isSome ↔ i.val < k)
    (hnone : f i = none) (hbelow : ∀ j < i, (f j).isSome) : i.val = k := by
  have hge : ¬ i.val < k := fun hlt => by
    have hsome := (hfill i).2 hlt
    rw [hnone] at hsome
    cases hsome
  by_contra hne
  have hk : k < i.val := by omega
  have hsome := hbelow ⟨k, hk.trans i.isLt⟩ hk
  exact absurd ((hfill _).1 hsome) (lt_irrefl k)

/-- A table that is filled from slot 0 on. -/
theorem entries_packed {l : List α} (hlen : l.length ≤ n) (h : ∀ i : Fin n, f i = l[i.val]?) :
    entries f = l := by
  induction n generalizing l with
  | zero =>
      obtain rfl := List.length_eq_zero_iff.1 (Nat.le_zero.1 hlen)
      rfl
  | succ n ih =>
      rw [entries, List.finRange_succ]
      cases l with
      | nil =>
          apply List.filterMap_eq_nil_iff.2
          intro i _
          rw [h i]
          rfl
      | cons a l =>
          rw [List.filterMap_cons_some (h 0), List.filterMap_map]
          have hlen' : l.length ≤ n := Nat.le_of_succ_le_succ hlen
          exact congrArg (a :: ·) (ih (f := f ∘ Fin.succ) hlen' fun i => h i.succ)

end Entries

end Munux.Scan
