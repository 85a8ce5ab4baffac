import Munux.Process.ReadyQueue

/-!
# Taking a process out of its queue

`scheduler_remove_process` looks for the member in front of the process and unlinks it. A queue with
one member is emptied without a look at which process that is.

`remove_many` is the call on a longer ring: the process is its head, or behind a member, or not in
it. `remove_iff` says when the call removes the process and nothing else.
-/

namespace Munux.Process

open State

/-- `scheduler_remove_process` -/
def schedulerRemoveProcess (s : State) (process : Nat) : Outcome State := do
  if process = 0 then
    return s
  let prio := s.prio process
  if s.readyQueue prio = 0 then
    return s
  if s.next (s.readyQueue prio) = s.readyQueue prio then
    return s.setQueue prio 0
  -- The loop leaves at the member in front of `process`, or at the last one.
  let p ← follow (fun p => s.next p == process || s.next p == s.readyQueue prio) s.next
    (s.readyQueue prio)
  if s.next p = process then
    let s := s.setNext p (s.next process)
    if s.readyQueue prio = process then
      return s.setQueue prio (s.next process)
    return s
  return s

/-- The queues without `p`, each in the order it had; and if there was no `p` in them, nothing has
changed at all. -/
structure Removed (s s' : State) (r : Fin 4 → List Nat) (p : Nat) : Prop where
  rings : Rings s' fun q => (r q).erase p
  frame : (∀ q, p ∉ r q) → s' = s

section Remove

variable {s s' : State} {r : Fin 4 → List Nat} {p x : Nat} {q : Fin 4} {pre post : List Nat}

/-- Only the queue of its own priority can have the process. -/
theorem Rings.erase_eq (h : Rings s r) (p : Nat) :
    (fun q => (r q).erase p) = Function.update r (s.prio p) ((r (s.prio p)).erase p) := by
  funext q
  by_cases hq : q = s.prio p
  · rw [hq, Function.update_self]
  · rw [Function.update_of_ne hq, List.erase_of_not_mem]
    intro hp
    exact hq (h.prio q p hp).symm

theorem Rings.erase_of_not_mem (h : Rings s r) (hp : p ∉ r (s.prio p)) :
    (fun q => (r q).erase p) = r := by
  rw [h.erase_eq, List.erase_of_not_mem hp, Function.update_eq_self]

/-- A process in no queue: the call must not change anything. -/
theorem Rings.removed_refl (h : Rings s r) (hp : p ∉ r (s.prio p)) : Removed s s r p := by
  refine ⟨?_, fun _ => rfl⟩
  rw [h.erase_of_not_mem hp]
  exact h

/-- A queue is emptied. -/
theorem Rings.vacate (h : Rings s r) (q : Fin 4) :
    Rings (s.setQueue q 0) (Function.update r q []) := by
  have hcases : ∀ q', q' = q ∨ (q' ≠ q ∧ Function.update r q [] q' = r q' ∧
      (s.setQueue q 0).readyQueue q' = s.readyQueue q') := by
    intro q'
    by_cases hq : q' = q
    · exact .inl hq
    · exact .inr ⟨hq, Function.update_of_ne hq _ _, setQueue_readyQueue_of_ne hq⟩
  constructor <;> intro q' <;> rcases hcases q' with rfl | ⟨-, hr, hqueue⟩
  · exact fun _ => setQueue_readyQueue_self
  · rw [hr, hqueue]
    exact h.empty q'
  · rw [Function.update_self]
    exact fun hne => absurd rfl hne
  · rw [hr, hqueue]
    exact h.ring q'
  · rw [Function.update_self]
    exact fun x hx => absurd hx List.not_mem_nil
  · rw [hr]
    exact h.prio q'
  · rw [Function.update_self]
    exact fun x hx => absurd hx List.not_mem_nil
  · rw [hr]
    exact h.addr q'

/-- The head of a ring is unlinked from the last member. -/
theorem Rings.unlink_first (h : Rings s r) (hr : r q = p :: (pre ++ [x])) :
    Rings ((s.setNext x (s.next p)).setQueue q (s.next p))
      (Function.update r q (pre ++ [x])) := by
  have hring := h.ring q (by simp [hr])
  obtain ⟨t, ht⟩ := hring.eq_cons
  have hhead : s.readyQueue q = p := by
    rw [hr] at ht
    exact (List.cons.inj ht).1.symm
  rw [hr, hhead] at hring
  have hnd := hring.nodup
  have hrot := hring.rotate
  rw [List.append_assoc, List.singleton_append] at hrot
  refine h.update (by simp) ?_ ?_ ?_
  · rw [setQueue_readyQueue_self, setQueue_next]
    refine hrot.unlink setNext_next_self ?_
    intro y hy
    apply setNext_next_of_ne
    intro hyx
    rw [List.append_nil, hyx] at hy
    exact List.disjoint_of_nodup_append (List.nodup_cons.1 hnd).2 hy List.mem_cons_self
  · intro y hy
    have hyr : y ∈ r q := by
      rw [hr]
      exact List.mem_cons_of_mem _ hy
    exact ⟨h.prio q y hyr, h.addr q y hyr⟩
  · intro q' hne
    refine ⟨setQueue_readyQueue_of_ne hne, ?_⟩
    intro y hy
    rw [setQueue_next]
    apply setNext_next_of_ne
    intro hyx
    exact h.not_mem_of_ne hne (hr ▸ by simp : x ∈ r q) (hyx ▸ hy)

/-- A queue with more than one member has a head and a last member. -/
theorem Rings.head_last (h : Rings s r) (hne : r q ≠ [])
    (hmany : s.next (s.readyQueue q) ≠ s.readyQueue q) :
    ∃ pre last, r q = s.readyQueue q :: (pre ++ [last]) := by
  have hring := h.ring q hne
  obtain ⟨t, ht⟩ := hring.eq_cons
  rcases List.eq_nil_or_concat t with rfl | ⟨pre, last, heq⟩
  · rw [ht] at hring
    exact absurd hring.seg.2 hmany
  · exact ⟨pre, last, by rw [ht, heq, List.concat_eq_append]⟩

section Many

variable (h : Rings s r) (hp : p ≠ 0) (hne : r (s.prio p) ≠ [])
  (hmany : s.next (s.readyQueue (s.prio p)) ≠ s.readyQueue (s.prio p))

include h hp hne hmany

/-- The walk that the call comes down to, in a queue with more than one member. -/
theorem remove_walk :
    schedulerRemoveProcess s p =
      (follow (fun x => s.next x == p || s.next x == s.readyQueue (s.prio p)) s.next
        (s.readyQueue (s.prio p)) >>= fun x =>
      if s.next x = p then
        if s.readyQueue (s.prio p) = p then
          .ok ((s.setNext x (s.next p)).setQueue (s.prio p) ((s.setNext x (s.next p)).next p))
        else .ok (s.setNext x (s.next p))
      else .ok s) := by
  have hzero : s.readyQueue (s.prio p) ≠ 0 := (h.addr _ _ (h.ring _ hne).head_mem).1
  simp only [schedulerRemoveProcess, if_neg hp, if_neg hzero, if_neg hmany, Outcome.pure_eq,
    setNext_readyQueue]
  rfl

/-- The member in front of the head is the last one. -/
theorem remove_head (hhead : s.readyQueue (s.prio p) = p) :
    ∃ s', schedulerRemoveProcess s p = .ok s' ∧ Removed s s' r p := by
  obtain ⟨pre, last, hr⟩ := h.head_last hne hmany
  have hring := h.ring _ hne
  have hlt : ∀ y ∈ r (s.prio p), y < wordCount := fun y hy => (h.addr _ y hy).2
  rw [remove_walk h hp hne hmany]
  rw [hr, hhead] at hring hlt
  rw [hhead] at hr ⊢
  have hlast : s.next last = p := hring.seg.2.next_last
  have hfollow := Ring.follow_around (p :: pre) hring hlt (.inl rfl)
  rw [hfollow, Outcome.ok_bind, if_pos hlast, if_pos rfl]
  have hpl : p ≠ last := by
    rintro rfl
    exact (List.nodup_cons.1 hring.nodup).1 (by simp)
  rw [setNext_next_of_ne hpl]
  have hin : p ∈ r (s.prio p) := hr ▸ List.mem_cons_self
  refine ⟨_, rfl, ?_, fun hout => absurd hin (hout _)⟩
  rw [h.erase_eq, hr, List.erase_cons_head]
  exact h.unlink_first hr

/-- Any other member has the one in front of it. -/
theorem remove_behind (hr : r (s.prio p) = pre ++ x :: p :: post) :
    ∃ s', schedulerRemoveProcess s p = .ok s' ∧ Removed s s' r p := by
  have hring := h.ring _ hne
  have hlt : ∀ y ∈ r (s.prio p), y < wordCount := fun y hy => (h.addr _ y hy).2
  have hin : p ∈ r (s.prio p) := by simp [hr]
  rw [remove_walk h hp hne hmany]
  rw [hr] at hring hlt
  have hx : s.next x = p := (seg_split.1 hring.seg).2.1
  have hout : p ∉ pre ++ [x] := by
    have hnd := hring.nodup
    rw [List.append_cons] at hnd
    exact fun hc => List.disjoint_of_nodup_append hnd hc List.mem_cons_self
  have hfirst : s.readyQueue (s.prio p) ≠ p := fun hhead =>
    List.cons_ne_nil p post (hring.next_eq_head.1 (hx.trans hhead.symm))
  rw [hring.follow_before hlt, Outcome.ok_bind, if_pos hx, if_neg hfirst]
  refine ⟨_, rfl, ?_, fun hnone => absurd hin (hnone _)⟩
  rw [h.erase_eq, hr, List.append_cons, List.erase_append_right _ hout, List.erase_cons_head,
    List.append_assoc, List.singleton_append]
  exact h.unlink_behind hr

/-- If the process is no member, the search ends at the last one and nothing is done. -/
theorem remove_absent (hout : p ∉ r (s.prio p)) : schedulerRemoveProcess s p = .ok s := by
  obtain ⟨pre, last, hr⟩ := h.head_last hne hmany
  have hring := h.ring _ hne
  have hlt : ∀ y ∈ r (s.prio p), y < wordCount := fun y hy => (h.addr _ y hy).2
  rw [remove_walk h hp hne hmany]
  rw [hr] at hring hlt hout
  have hlast : s.next last ≠ p := by
    intro heq
    have hhead : s.next last = s.readyQueue (s.prio p) := hring.seg.2.next_last
    have hmem : s.next last ∈ (s.readyQueue (s.prio p) :: pre) ++ [last] :=
      hhead ▸ List.mem_cons_self
    exact hout (heq ▸ hmem)
  have hfollow := Ring.follow_around (s.readyQueue (s.prio p) :: pre) hring hlt (.inr hout)
  rw [hfollow, Outcome.ok_bind, if_neg hlast]

/-- What the call does with a queue that has more than one member. -/
theorem remove_many : ∃ s', schedulerRemoveProcess s p = .ok s' ∧ Removed s s' r p := by
  by_cases hin : p ∈ r (s.prio p)
  · obtain ⟨pre, post, hr⟩ := List.append_of_mem hin
    rcases List.eq_nil_or_concat pre with rfl | ⟨pre, x, rfl⟩
    · obtain ⟨t, ht⟩ := (h.ring _ hne).eq_cons
      have hhead : s.readyQueue (s.prio p) = p := (List.cons.inj (ht.symm.trans hr)).1
      exact remove_head h hp hne hmany hhead
    · rw [List.concat_eq_append, List.append_assoc, List.singleton_append] at hr
      exact remove_behind h hp hne hmany hr
  · exact ⟨s, remove_absent h hp hne hmany hin, h.removed_refl hin⟩

end Many

/-- What it does with a queue of one. -/
theorem remove_one (h : Rings s r) (hp : p ≠ 0) (hr : r (s.prio p) = [x]) :
    schedulerRemoveProcess s p = .ok (s.setQueue (s.prio p) 0) := by
  have hring := h.ring (s.prio p) (by simp [hr])
  have hzero : s.readyQueue (s.prio p) ≠ 0 := (h.addr _ _ hring.head_mem).1
  rw [hr] at hring
  have hloop : s.next (s.readyQueue (s.prio p)) = s.readyQueue (s.prio p) := by
    have hx : s.readyQueue (s.prio p) = x := hring.seg.1
    rw [hx] at hring ⊢
    exact hring.seg.2
  simp only [schedulerRemoveProcess, if_neg hp, if_neg hzero, if_pos hloop, Outcome.pure_eq]

/-- It is right when the one member is the process. -/
theorem removed_one (h : Rings s r) (hr : r (s.prio p) = [x]) :
    Removed s (s.setQueue (s.prio p) 0) r p ↔ p = x := by
  constructor
  · intro hrem
    by_contra hne
    have hout : ∀ q, p ∉ r q := by
      intro q hq
      rw [← h.prio q p hq, hr, List.mem_singleton] at hq
      exact hne hq
    have hring := h.ring (s.prio p) (by simp [hr])
    have hsame := congrArg (State.readyQueue · (s.prio p)) (hrem.frame hout)
    rw [setQueue_readyQueue_self] at hsame
    exact (h.addr _ _ hring.head_mem).1 hsame.symm
  · rintro rfl
    refine ⟨?_, fun hout => absurd (by simp [hr]) (hout (s.prio p))⟩
    rw [h.erase_eq, hr, List.erase_cons_head]
    exact h.vacate (s.prio p)

/-- **Removing a process removes only it**, exactly when its queue does not consist of one process
that is another. -/
theorem remove_iff (h : Rings s r) (p : Nat) :
    ∃ s', schedulerRemoveProcess s p = .ok s' ∧
      (Removed s s' r p ↔ ∀ x, r (s.prio p) = [x] → p = 0 ∨ p = x) := by
  by_cases hp : p = 0
  · have hout : p ∉ r (s.prio p) := fun hmem => (h.addr _ p hmem).1 hp
    refine ⟨s, ?_, iff_of_true (h.removed_refl hout) fun _ _ => .inl hp⟩
    simp only [schedulerRemoveProcess, if_pos hp, Outcome.pure_eq]
  by_cases hnil : r (s.prio p) = []
  · have hout : p ∉ r (s.prio p) := by simp [hnil]
    refine ⟨s, ?_, iff_of_true (h.removed_refl hout) fun x hx => ?_⟩
    · simp only [schedulerRemoveProcess, if_neg hp, if_pos (h.empty _ hnil), Outcome.pure_eq]
    · rw [hnil] at hx
      cases hx
  by_cases hone : ∃ x, r (s.prio p) = [x]
  · obtain ⟨x, hx⟩ := hone
    refine ⟨_, remove_one h hp hx, (removed_one h hx).trans ?_⟩
    constructor
    · intro hpx y hy
      rw [hx] at hy
      exact .inr (hpx.trans (List.cons.inj hy).1)
    · exact fun hall => (hall x hx).resolve_left hp
  · have hmany : s.next (s.readyQueue (s.prio p)) ≠ s.readyQueue (s.prio p) := by
      intro hloop
      have hring := h.ring _ hnil
      obtain ⟨t, ht⟩ := hring.eq_cons
      have hsplit : r (s.prio p) = [] ++ s.readyQueue (s.prio p) :: t := ht
      rw [hsplit] at hring
      have hlast : t = [] := hring.next_eq_head.1 hloop
      exact hone ⟨_, by rw [ht, hlast]⟩
    obtain ⟨s', hcall, hrem⟩ := remove_many h hp hnil hmany
    exact ⟨s', hcall, iff_of_true hrem fun x hx => absurd ⟨x, hx⟩ hone⟩

/-- The process at 32 is ready, and nobody else. -/
theorem exists_one_ready : ∃ s, (∀ x, s.prio x = idleOnly.prio x) ∧
    Rings s (Function.update (fun _ => []) 1 [32]) := by
  obtain ⟨s, -, hadd, hrings⟩ :=
    schedulerAddProcess_spec (inv_booted booted_idleOnly).rings (p := 32) (by decide) (by decide)
  exact ⟨s, fun x => congrFun hadd.prio x, hrings⟩

/-- **Another process is lost.** The one at 48, of the same priority, is in no queue; removing it
empties the queue. -/
theorem other_process_lost :
    ∃ s r, Rings s r ∧ r 1 = [32] ∧ (∀ q, 48 ∉ r q) ∧
      ∃ s', schedulerRemoveProcess s 48 = .ok s' ∧ s'.readyQueue 1 = 0 ∧ ¬Removed s s' r 48 := by
  obtain ⟨s, hprio, hrings⟩ := exists_one_ready
  have hq : s.prio 48 = 1 := hprio 48
  have hr : Function.update (fun _ => []) 1 [32] (s.prio 48) = [32] := by
    rw [hq, Function.update_self]
  have hout : ∀ q, 48 ∉ Function.update (fun _ : Fin 4 => ([] : List Nat)) 1 [32] q := by
    decide
  refine ⟨s, _, hrings, Function.update_self .., hout, _, remove_one hrings (by decide) hr, ?_, ?_⟩
  · rw [hq, setQueue_readyQueue_self]
  · rw [removed_one hrings hr]
    decide

/-- The one that is ready can be removed. -/
theorem remove_iff_one_ready :
    ∃ s r s', Rings s r ∧ r 1 = [32] ∧ schedulerRemoveProcess s 32 = .ok s' ∧
      Rings s' fun _ => [] := by
  obtain ⟨s, hprio, hrings⟩ := exists_one_ready
  have hq : s.prio 32 = 1 := hprio 32
  obtain ⟨s', hcall, hiff⟩ := remove_iff hrings 32
  have hrem := hiff.2 fun x hx => by
    rw [hq, Function.update_self] at hx
    exact .inr (List.cons.inj hx).1
  refine ⟨s, _, s', hrings, Function.update_self .., hcall, ?_⟩
  have hempty : (fun q => (Function.update (fun _ : Fin 4 => ([] : List Nat)) 1 [32] q).erase 32) =
      fun _ => [] := by decide
  rw [← hempty]
  exact hrem.rings

end Remove

end Munux.Process
