import Mathlib.Data.List.Nodup
import Mathlib.Data.List.Perm.Subperm
import Mathlib.Logic.Function.Iterate
import Munux.Lib.Word

/-!
# Linked lists in a store

A linked list is what one meets by following a `next` pointer. `Seg next a xs z` says that,
starting at `a`, the nodes met are `xs` and the walk then stands at `z`. It covers the three
shapes a kernel uses:

* a null-terminated list is a segment that ends at the null pointer;
* a ring is a segment that ends where it started;
* a loop that has run for a while has crossed a segment.

`follow` is the loop itself: step along `next` until a test holds. It is bounded by the number of
addresses. A walk that does not write and makes more steps than there are addresses has visited
one of them twice and will never stop, so running out of the bound *is* divergence.
-/

namespace Munux

variable {α : Type}

/-- From `a`, following `next`, one meets exactly `xs` and then stands at `z`. -/
def Seg (next : α → α) : α → List α → α → Prop
  | a, [], z => a = z
  | a, x :: xs, z => a = x ∧ Seg next (next x) xs z

instance decidableSeg [DecidableEq α] (next : α → α) :
    (a : α) → (xs : List α) → (z : α) → Decidable (Seg next a xs z)
  | a, [], z => inferInstanceAs (Decidable (a = z))
  | a, x :: xs, z =>
      have := decidableSeg next (next x) xs z
      inferInstanceAs (Decidable (a = x ∧ Seg next (next x) xs z))

section Seg

variable {next next' : α → α} {a x z : α} {xs ys pre post : List α}

@[simp] theorem seg_nil : Seg next a [] z ↔ a = z := Iff.rfl

@[simp] theorem seg_cons : Seg next a (x :: xs) z ↔ a = x ∧ Seg next (next x) xs z := Iff.rfl

theorem seg_append : Seg next a (xs ++ ys) z ↔ ∃ w, Seg next a xs w ∧ Seg next w ys z := by
  induction xs generalizing a with
  | nil => simp
  | cons x xs ih =>
      simp only [List.cons_append, seg_cons, ih]
      constructor
      · rintro ⟨h, w, hw⟩
        exact ⟨w, ⟨h, hw.1⟩, hw.2⟩
      · rintro ⟨w, ⟨h, hw⟩, hw'⟩
        exact ⟨h, w, hw, hw'⟩

/-- A segment cut at one of its nodes. -/
theorem seg_split : Seg next a (pre ++ x :: post) z ↔
    Seg next a pre x ∧ Seg next (next x) post z := by
  rw [seg_append]
  constructor
  · rintro ⟨w, hpre, rfl, hpost⟩
    exact ⟨hpre, hpost⟩
  · rintro ⟨hpre, hpost⟩
    exact ⟨x, hpre, rfl, hpost⟩

/-- A segment reads only the `next` of its own nodes. -/
theorem Seg.congr (h : Seg next a xs z) (hag : ∀ x ∈ xs, next' x = next x) :
    Seg next' a xs z := by
  induction xs generalizing a with
  | nil => exact h
  | cons x xs ih =>
      refine ⟨h.1, ?_⟩
      rw [hag x List.mem_cons_self]
      exact ih h.2 fun y hy => hag y (List.mem_cons_of_mem _ hy)

/-- The last node of a segment points at its end. -/
theorem Seg.next_last (h : Seg next a (pre ++ [x]) z) : next x = z :=
  (seg_split.1 h).2

/-- Following `next` from a node that is not the last stays in the segment. -/
theorem Seg.next_mem (h : Seg next a (pre ++ [x]) z) {y : α} (hy : y ∈ pre) :
    next y ∈ pre ++ [x] := by
  obtain ⟨l, r, rfl⟩ := List.append_of_mem hy
  rw [List.append_assoc, List.cons_append, seg_split] at h
  cases r with
  | nil => simp [(show next y = x from h.2.1)]
  | cons w r => simp [(show next y = w from h.2.1)]

/-- A walk that has not left the segment stands at one of its nodes. -/
theorem Seg.mem_of_walk {y : α} (h : Seg next a xs z) (hne : xs ≠ []) (hwalk : Seg next a ys y)
    (hys : ∀ x ∈ ys, next x ≠ z) : y ∈ xs := by
  induction ys generalizing a xs with
  | nil =>
      cases xs with
      | nil => exact absurd rfl hne
      | cons x xs =>
          rw [← show a = y from hwalk, h.1]
          exact List.mem_cons_self
  | cons w ys ih =>
      cases xs with
      | nil => exact absurd rfl hne
      | cons x xs =>
          obtain ⟨rfl, hwalk⟩ := hwalk
          obtain ⟨rfl, h⟩ := h
          refine List.mem_cons_of_mem _
            (ih h ?_ hwalk fun x hx => hys x (List.mem_cons_of_mem _ hx))
          rintro rfl
          exact hys a List.mem_cons_self h

/-- Two segments from one node that reach the same end, without crossing it, are equal. -/
theorem Seg.unique (h : Seg next a xs z) (h' : Seg next a ys z) (hx : z ∉ xs) (hy : z ∉ ys) :
    xs = ys := by
  induction xs generalizing a ys with
  | nil =>
      cases ys with
      | nil => rfl
      | cons y ys =>
          have hay : a = y := h'.1
          have haz : a = z := h
          exact absurd (by simp [← haz, hay]) hy
  | cons x xs ih =>
      cases ys with
      | nil =>
          have hax : a = x := h.1
          have haz : a = z := h'
          exact absurd (by simp [← haz, hax]) hx
      | cons y ys =>
          obtain ⟨rfl, hs⟩ := h
          obtain ⟨rfl, hs'⟩ := h'
          rw [ih hs hs' (fun hm => hx (List.mem_cons_of_mem _ hm))
            (fun hm => hy (List.mem_cons_of_mem _ hm))]

/-- Take out the node behind `x`. -/
theorem Seg.unlink {p : α} (h : Seg next a (pre ++ x :: p :: post) z) (hx : next' x = next p)
    (hag : ∀ y ∈ pre ++ post, next' y = next y) : Seg next' a (pre ++ x :: post) z := by
  obtain ⟨hpre, -, hpost⟩ := seg_split.1 h
  refine seg_split.2 ⟨hpre.congr fun y hy => hag y (List.mem_append_left _ hy), ?_⟩
  rw [hx]
  exact hpost.congr fun y hy => hag y (List.mem_append_right _ hy)

/-- Put a node at the end. -/
theorem Seg.snoc {p : α} (h : Seg next a (pre ++ [x]) z) (hx : next' x = p)
    (hag : ∀ y ∈ pre, next' y = next y) : Seg next' a (pre ++ [x] ++ [p]) (next' p) := by
  have hpre := (seg_split.1 h).1.congr hag
  exact seg_append.2 ⟨p, seg_append.2 ⟨x, hpre, rfl, hx⟩, rfl, rfl⟩

end Seg

/-! ## Rings -/

/-- The nodes of a circular list, from the node `h` on. -/
structure Ring (next : α → α) (h : α) (xs : List α) : Prop where
  seg : Seg next h xs h
  nodup : xs.Nodup
  nonempty : xs ≠ []

section Ring

variable {next next' : α → α} {h x y p : α} {xs pre post : List α}

theorem Ring.head_mem (hr : Ring next h xs) : h ∈ xs := by
  cases xs with
  | nil => exact absurd rfl hr.nonempty
  | cons x xs => simp [hr.seg.1]

/-- A ring is its head followed by the rest. -/
theorem Ring.eq_cons (hr : Ring next h xs) : ∃ t, xs = h :: t := by
  cases xs with
  | nil => exact absurd rfl hr.nonempty
  | cons x t => exact ⟨t, by rw [hr.seg.1]⟩

/-- Following `next` does not leave a ring. -/
theorem Ring.next_mem (hr : Ring next h xs) (hx : x ∈ xs) : next x ∈ xs := by
  obtain ⟨l, r, rfl⟩ := List.append_of_mem hx
  have hs := (seg_split.1 hr.seg).2
  cases r with
  | nil =>
      have hnx : next x = h := hs
      exact hnx ▸ hr.head_mem
  | cons y r => simp [(show next x = y from hs.1)]

theorem Seg.iterate (hs : Seg next h pre x) : next^[pre.length] h = x := by
  induction pre generalizing h with
  | nil => exact hs
  | cons y pre ih =>
      obtain ⟨rfl, hs⟩ := hs
      simpa [Function.iterate_succ_apply] using ih hs

/-- The members of a ring are what can be reached from its head. -/
theorem Ring.mem_iff (hr : Ring next h xs) : x ∈ xs ↔ ∃ n, next^[n] h = x := by
  constructor
  · intro hx
    obtain ⟨l, r, rfl⟩ := List.append_of_mem hx
    exact ⟨l.length, (seg_split.1 hr.seg).1.iterate⟩
  · rintro ⟨n, rfl⟩
    induction n with
    | zero => exact hr.head_mem
    | succ n ih =>
        rw [Function.iterate_succ_apply']
        exact hr.next_mem ih

theorem Ring.congr (hr : Ring next h xs) (hag : ∀ x ∈ xs, next' x = next x) : Ring next' h xs :=
  ⟨hr.seg.congr hag, hr.nodup, hr.nonempty⟩

/-- Moving the head on by one node. -/
theorem Ring.rotate {t : List α} (hr : Ring next h (h :: t)) : Ring next (next h) (t ++ [h]) := by
  refine ⟨?_, (List.perm_append_singleton h t).nodup_iff.2 hr.nodup, by simp⟩
  exact seg_append.2 ⟨h, hr.seg.2, rfl, rfl⟩

/-- Only the last node of a ring points at its head. -/
theorem Ring.next_eq_head (hr : Ring next h (pre ++ x :: post)) : next x = h ↔ post = [] := by
  have hs := (seg_split.1 hr.seg).2
  constructor
  · intro hx
    cases post with
    | nil => rfl
    | cons y post =>
        exfalso
        have hxy : next x = y := hs.1
        have hyh : y = h := hxy.symm.trans hx
        obtain ⟨t, ht⟩ := hr.eq_cons
        have hnd := hr.nodup
        cases pre with
        | nil =>
            obtain ⟨rfl, -⟩ := List.cons.inj ht
            exact (List.nodup_cons.1 hnd).1 (by simp [hyh])
        | cons z pre =>
            obtain ⟨rfl, -⟩ := List.cons.inj ht
            exact (List.nodup_cons.1 hnd).1 (by simp [hyh])
  · rintro rfl
    exact hs

/-- Cut the ring after `x`: point `x` back at the head. Everything after `x` is dropped. -/
theorem Ring.cut (hr : Ring next h (pre ++ x :: post)) (hx : next' x = h)
    (hag : ∀ y ∈ pre, next' y = next y) : Ring next' h (pre ++ [x]) := by
  refine ⟨?_, ?_, by simp⟩
  · have hs := (seg_split.1 hr.seg).1
    exact seg_append.2 ⟨x, hs.congr hag, rfl, hx⟩
  · have hnd := hr.nodup
    rw [List.append_cons] at hnd
    exact hnd.of_append_left

/-- Link `p` in between the last node and the head. -/
theorem Ring.append (hr : Ring next h (pre ++ [x])) (hp : p ∉ pre ++ [x]) (hx : next' x = p)
    (hph : next' p = h) (hag : ∀ y ∈ pre, next' y = next y) :
    Ring next' h (pre ++ [x] ++ [p]) := by
  refine ⟨?_, ?_, by simp⟩
  · have hs := (seg_split.1 hr.seg).1
    exact seg_append.2 ⟨p, seg_append.2 ⟨x, hs.congr hag, rfl, hx⟩, rfl, hph⟩
  · exact (List.perm_append_singleton p _).nodup_iff.2 (List.nodup_cons.2 ⟨hp, hr.nodup⟩)

/-- Take the node behind `x` out of a ring. -/
theorem Ring.unlink (hr : Ring next h (pre ++ x :: p :: post)) (hx : next' x = next p)
    (hag : ∀ y ∈ pre ++ post, next' y = next y) : Ring next' h (pre ++ x :: post) := by
  refine ⟨hr.seg.unlink hx hag, hr.nodup.sublist ?_, by simp⟩
  exact ((List.sublist_cons_self p post).cons_cons x).append_left pre

end Ring

/-! ## Walking -/

/-- Step along `next` until `stop` holds, for at most `fuel` tests. -/
def followFuel (stop : α → Bool) (next : α → α) : Nat → α → Outcome α
  | 0, _ => .diverge
  | fuel + 1, a => if stop a then .ok a else followFuel stop next fuel (next a)

/-- The loop `while (!stop(a)) a = a->next`. -/
def follow (stop : α → Bool) (next : α → α) (a : α) : Outcome α :=
  followFuel stop next wordCount a

theorem followFuel_seg {stop : α → Bool} {next : α → α} {pre : List α} {a x : α} {fuel : Nat}
    (hseg : Seg next a pre x) (hpre : ∀ y ∈ pre, stop y = false) (hx : stop x = true)
    (hfuel : pre.length < fuel) : followFuel stop next fuel a = .ok x := by
  induction pre generalizing a fuel with
  | nil =>
      obtain ⟨fuel, rfl⟩ := Nat.exists_eq_add_of_lt hfuel
      have hax : a = x := hseg
      simp [followFuel, hax, hx]
  | cons y pre ih =>
      obtain ⟨rfl, hseg⟩ := hseg
      cases fuel with
      | zero => simp at hfuel
      | succ fuel =>
          simp only [List.length_cons, Nat.add_lt_add_iff_right] at hfuel
          rw [followFuel, hpre a List.mem_cons_self]
          exact ih hseg (fun w hw => hpre w (List.mem_cons_of_mem _ hw)) hfuel

/-- Where a walk that stops has come from. -/
theorem followFuel_eq_ok {stop : α → Bool} {next : α → α} {fuel : Nat} {a x : α}
    (h : followFuel stop next fuel a = .ok x) :
    ∃ pre, Seg next a pre x ∧ (∀ y ∈ pre, stop y = false) ∧ stop x = true := by
  induction fuel generalizing a with
  | zero => cases h
  | succ fuel ih =>
      rw [followFuel] at h
      by_cases ha : stop a = true
      · rw [if_pos ha] at h
        obtain rfl := Outcome.ok.inj h
        exact ⟨[], rfl, by simp, ha⟩
      · rw [if_neg ha] at h
        obtain ⟨pre, hseg, hpre, hx⟩ := ih h
        refine ⟨a :: pre, ⟨rfl, hseg⟩, ?_, hx⟩
        intro y hy
        rcases List.mem_cons.1 hy with rfl | hy
        · simpa using ha
        · exact hpre y hy

/-- Two walks from one node stop at the same place. -/
theorem Seg.first_unique {stop : α → Bool} {next : α → α} {a x y : α} {xs ys : List α}
    (hx : Seg next a xs x) (hxs : ∀ w ∈ xs, stop w = false) (hsx : stop x = true)
    (hy : Seg next a ys y) (hys : ∀ w ∈ ys, stop w = false) (hsy : stop y = true) : x = y := by
  induction xs generalizing a ys with
  | nil =>
      obtain rfl : a = x := hx
      cases ys with
      | nil => exact hy
      | cons w ys =>
          obtain ⟨rfl, -⟩ := hy
          exact absurd (hys a List.mem_cons_self) (by simp [hsx])
  | cons w xs ih =>
      obtain ⟨rfl, hx⟩ := hx
      cases ys with
      | nil =>
          obtain rfl : a = y := hy
          exact absurd (hxs a List.mem_cons_self) (by simp [hsy])
      | cons v ys =>
          obtain ⟨rfl, hy⟩ := hy
          exact ih hx (fun w hw => hxs w (List.mem_cons_of_mem _ hw)) hy
            fun w hw => hys w (List.mem_cons_of_mem _ hw)

/-- A walk inside a set that `next` does not leave, and on which the test fails, never stops. -/
theorem followFuel_closed {stop : α → Bool} {next : α → α} {P : α → Prop} {a : α}
    (ha : P a) (hclosed : ∀ y, P y → P (next y)) (hstop : ∀ y, P y → stop y = false) (fuel : Nat) :
    followFuel stop next fuel a = .diverge := by
  induction fuel generalizing a with
  | zero => rfl
  | succ fuel ih =>
      rw [followFuel, hstop a ha]
      exact ih (hclosed a ha)

/-- A list of distinct 32-bit values has at most `2 ^ 32` entries. -/
theorem length_le_of_nodup_lt {xs : List Nat} (hnd : xs.Nodup) {n : Nat}
    (hlt : ∀ x ∈ xs, x < n) : xs.length ≤ n := by
  have hsub : xs ⊆ List.range n := fun x hx => List.mem_range.2 (hlt x hx)
  simpa using (hnd.subperm hsub).length_le

/-- **The loop rule.** A walk over distinct addresses stops at the first node that passes the
test. -/
theorem follow_seg {stop : Nat → Bool} {next : Nat → Nat} {pre : List Nat} {a x : Nat}
    (hseg : Seg next a pre x) (hpre : ∀ y ∈ pre, stop y = false) (hx : stop x = true)
    (hnd : (pre ++ [x]).Nodup) (hlt : ∀ y ∈ pre ++ [x], y < wordCount) :
    follow stop next a = .ok x := by
  have hlen := length_le_of_nodup_lt hnd hlt
  rw [List.length_append, List.length_singleton] at hlen
  exact followFuel_seg hseg hpre hx hlen

/-- Looking for the last node of a ring finds it. -/
theorem Ring.follow_last {next : Nat → Nat} {h x : Nat} {pre : List Nat}
    (hr : Ring next h (pre ++ [x])) (hlt : ∀ y ∈ pre ++ [x], y < wordCount) :
    follow (fun y => next y == h) next h = .ok x := by
  refine follow_seg (seg_split.1 hr.seg).1 ?_ ?_ hr.nodup hlt
  · intro y hy
    obtain ⟨l, r, rfl⟩ := List.append_of_mem hy
    have hr' : Ring next h (l ++ y :: (r ++ [x])) := by simpa using hr
    simpa using fun hc => by simpa using hr'.next_eq_head.1 hc
  · simpa using hr.seg.next_last

/-- Looking for the node in front of `p` finds it, if `p` is a member other than the head. -/
theorem Ring.follow_before {next : Nat → Nat} {h p x : Nat} {pre post : List Nat}
    (hr : Ring next h (pre ++ x :: p :: post)) (hlt : ∀ y ∈ pre ++ x :: p :: post, y < wordCount) :
    follow (fun y => next y == p || next y == h) next h = .ok x := by
  have hsplit : pre ++ x :: p :: post = (pre ++ [x]) ++ p :: post := by simp
  have hnd := hsplit ▸ hr.nodup
  have hseg := hsplit ▸ hr.seg
  have hmem : ∀ y ∈ pre ++ [x], y ∈ pre ++ x :: p :: post := by
    intro y hy
    rw [hsplit]
    exact List.mem_append_left _ hy
  refine follow_seg (seg_split.1 hr.seg).1 ?_ ?_ hnd.of_append_left fun y hy => hlt y (hmem y hy)
  · intro y hy
    have hnext : next y ≠ p := by
      intro hyp
      have hin := (seg_split.1 hseg).1.next_mem hy
      exact List.disjoint_of_nodup_append hnd hin (hyp ▸ List.mem_cons_self)
    have hhead : next y ≠ h := by
      obtain ⟨l, r, rfl⟩ := List.append_of_mem hy
      have hr' : Ring next h (l ++ y :: (r ++ x :: p :: post)) := by simpa using hr
      exact fun hyh => by simpa using hr'.next_eq_head.1 hyh
    simp [hnext, hhead]
  · simp [(seg_split.1 hseg).1.next_last]

/-- If `p` is the head, or no member at all, the search ends at the last node. -/
theorem Ring.follow_around {next : Nat → Nat} {h p x : Nat} (pre : List Nat)
    (hr : Ring next h (pre ++ [x])) (hlt : ∀ y ∈ pre ++ [x], y < wordCount)
    (hp : p = h ∨ p ∉ pre ++ [x]) : follow (fun y => next y == p || next y == h) next h = .ok x := by
  refine follow_seg (seg_split.1 hr.seg).1 ?_ ?_ hr.nodup hlt
  · intro y hy
    have hhead : next y ≠ h := by
      obtain ⟨l, r, rfl⟩ := List.append_of_mem hy
      have hr' : Ring next h (l ++ y :: (r ++ [x])) := by simpa using hr
      exact fun hyh => by simpa using hr'.next_eq_head.1 hyh
    have hnext : next y ≠ p := by
      intro hyp
      rcases hp with rfl | hp
      · exact hhead hyp
      · exact hp (hyp ▸ hr.next_mem (List.mem_append_left _ hy))
    simp [hnext, hhead]
  · simp [hr.seg.next_last]

/-- A search along a null-terminated list finds the first node that passes the test, or null. -/
theorem Seg.follow_find {next : Nat → Nat} {a : Nat} {xs : List Nat} (h : Seg next a xs 0)
    (hnd : xs.Nodup) (haddr : ∀ x ∈ xs, x ≠ 0 ∧ x < wordCount) (test : Nat → Bool) :
    follow (fun x => x == 0 || test x) next a = .ok ((xs.find? test).getD 0) := by
  cases hfind : xs.find? test with
  | none =>
      refine follow_seg h ?_ (by simp) ?_ ?_
      · intro y hy
        have htest := List.find?_eq_none.1 hfind y hy
        simp [(haddr y hy).1, htest]
      · refine (List.perm_append_singleton 0 xs).nodup_iff.2 (List.nodup_cons.2 ⟨?_, hnd⟩)
        intro h0
        exact (haddr 0 h0).1 rfl
      · intro y hy
        rcases List.mem_append.1 hy with hy | hy
        · exact (haddr y hy).2
        · rw [List.mem_singleton.1 hy]
          exact Nat.two_pow_pos 32
  | some y =>
      obtain ⟨htest, pre, post, rfl, hpre⟩ := List.find?_eq_some_iff_append.1 hfind
      refine follow_seg (seg_split.1 h).1 ?_ (by simp [htest]) ?_ ?_
      · intro w hw
        have hw0 := (haddr w (List.mem_append_left _ hw)).1
        simpa [hw0] using hpre w hw
      · rw [List.append_cons] at hnd
        exact hnd.of_append_left
      · intro w hw
        refine (haddr w ?_).2
        rw [List.append_cons]
        exact List.mem_append_left _ hw

/-- The walk to the last node of a null-terminated list. -/
theorem Seg.follow_end {next : Nat → Nat} {a x : Nat} {pre : List Nat}
    (h : Seg next a (pre ++ [x]) 0) (hnd : (pre ++ [x]).Nodup)
    (haddr : ∀ y ∈ pre ++ [x], y ≠ 0 ∧ y < wordCount) :
    follow (fun y => next y == 0) next a = .ok x := by
  refine follow_seg (seg_split.1 h).1 ?_ ?_ hnd fun y hy => (haddr y hy).2
  · intro y hy
    have hnext := (haddr _ (h.next_mem hy)).1
    simpa using hnext
  · simpa using h.next_last

theorem follow_closed {stop : α → Bool} {next : α → α} {P : α → Prop} {a : α}
    (ha : P a) (hclosed : ∀ y, P y → P (next y)) (hstop : ∀ y, P y → stop y = false) :
    follow stop next a = .diverge :=
  followFuel_closed ha hclosed hstop wordCount

end Munux
