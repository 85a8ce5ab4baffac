import Mathlib.Logic.Function.Basic
import Mathlib.Data.List.Basic

/-!
# Circular buffers

A buffer of `n` cells, a position to read from and a position to write to, both taken modulo `n`.
The elements lie between the two positions, from the one that is read; the positions are equal when
there are none, so at most `n - 1` elements fit.

* `RingHolds`: the elements that lie in the buffer.
* `RingHolds.push`, `RingHolds.pop`: one more at the end, one less at the front.
* `RingHolds.empty_iff`, `RingHolds.full_iff`: what the positions say about the number of elements.
-/

namespace Munux

variable {α : Type}

/-- The cells from `read` on, up to `write`, hold the elements `xs`. -/
structure RingHolds (buf : Nat → α) (n read write : Nat) (xs : List α) : Prop where
  read_lt : read < n
  room : xs.length < n
  write_eq : write = (read + xs.length) % n
  cell : ∀ i, (h : i < xs.length) → buf ((read + i) % n) = xs[i]

section Ring

variable {buf : Nat → α} {n read write : Nat} {x : α} {xs : List α}

/-- One turn around the buffer is enough. -/
theorem wrap_eq {i : Nat} (hread : read < n) (hi : i ≤ n) :
    (read + i) % n = if read + i < n then read + i else read + i - n := by
  split_ifs with h
  · exact Nat.mod_eq_of_lt h
  · rw [Nat.mod_eq_sub_mod (Nat.not_lt.1 h)]
    exact Nat.mod_eq_of_lt (by omega)

theorem ringHolds_nil (h : read < n) : RingHolds buf n read read [] :=
  ⟨h, Nat.zero_lt_of_lt h, (Nat.mod_eq_of_lt h).symm, fun _ hi => absurd hi (Nat.not_lt_zero _)⟩

namespace RingHolds

theorem write_lt (h : RingHolds buf n read write xs) : write < n :=
  h.write_eq ▸ Nat.mod_lt _ (Nat.zero_lt_of_lt h.read_lt)

/-- The positions meet when there is no element. -/
theorem empty_iff (h : RingHolds buf n read write xs) : read = write ↔ xs = [] := by
  have hread := h.read_lt
  have hroom := h.room
  rw [h.write_eq, wrap_eq hread (Nat.le_of_lt hroom), ← List.length_eq_zero_iff]
  split_ifs <;> omega

/-- The position after `write` is `read` when there is room for no other element. -/
theorem full_iff (h : RingHolds buf n read write xs) :
    (write + 1) % n = read ↔ xs.length + 1 = n := by
  have hread := h.read_lt
  have hroom := h.room
  rw [h.write_eq, Nat.mod_add_mod, Nat.add_assoc, wrap_eq hread hroom]
  split_ifs <;> omega

/-- Writing the cell at `write` adds an element at the end. -/
theorem push (h : RingHolds buf n read write xs) (hfree : (write + 1) % n ≠ read) (x : α) :
    RingHolds (Function.update buf write x) n read ((write + 1) % n) (xs ++ [x]) := by
  have hread := h.read_lt
  have hroom := h.room
  have hlen : xs.length + 1 < n := by
    have := mt h.full_iff.2 hfree
    omega
  refine ⟨hread, by simpa using hlen, ?_, ?_⟩
  · rw [h.write_eq, Nat.mod_add_mod, List.length_append, List.length_singleton, Nat.add_assoc]
  · intro i hi
    rw [List.length_append, List.length_singleton] at hi
    by_cases hlast : i = xs.length
    · subst hlast
      rw [← h.write_eq, Function.update_self, List.getElem_concat_length]
      rfl
    · -- An element that was there lies in another cell.
      have hne : (read + i) % n ≠ write := by
        rw [h.write_eq, wrap_eq hread (by omega), wrap_eq hread (Nat.le_of_lt hroom)]
        split_ifs <;> omega
      rw [Function.update_of_ne hne, List.getElem_append_left (by omega)]
      exact h.cell i (by omega)

/-- The cell at `read` is the first element, and moving `read` on removes it. -/
theorem pop (h : RingHolds buf n read write (x :: xs)) :
    buf read = x ∧ RingHolds buf n ((read + 1) % n) write xs := by
  have hread := h.read_lt
  have hroom := h.room
  rw [List.length_cons] at hroom
  refine ⟨?_, Nat.mod_lt _ (Nat.zero_lt_of_lt hread), by omega, ?_, ?_⟩
  · have hfirst := h.cell 0 (Nat.succ_pos _)
    rwa [Nat.add_zero, Nat.mod_eq_of_lt hread] at hfirst
  · rw [h.write_eq, List.length_cons, Nat.mod_add_mod, Nat.add_assoc, Nat.add_comm 1]
  · intro i hi
    have hnext := h.cell (i + 1) (Nat.succ_lt_succ hi)
    rw [Nat.mod_add_mod, Nat.add_assoc, Nat.add_comm 1]
    exact hnext

end RingHolds

end Ring

end Munux
