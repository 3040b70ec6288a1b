import Mathlib.Data.List.Rotate
import Mathlib.Data.Nat.ModEq
import Mathlib.Tactic.Common

/-!
# Ring buffers

A list of slots that is written and read in circles. What is unread is a window of it: the `n` entries
from slot `r` on, going around the end. The slots outside the window keep whatever they held.

* `window_read`: reading the slot at the front shortens the window by its first entry;
* `window_write`: writing the slot behind it lengthens the window by one entry;
* `slot_ne`, `slot_eq_last_iff`: the slot that is written is none of the window, and it is the one that
  was read last exactly when the window leaves a single slot out.
-/

namespace S2Pac.Lib

variable {α : Type}

/-- The `n` entries from slot `r` on. -/
def window (slots : List α) (r n : ℕ) : List α := (slots.rotate r).take n

@[simp] theorem window_zero (slots : List α) (r : ℕ) : window slots r 0 = [] := rfl

theorem length_window {slots : List α} {n : ℕ} (h : n ≤ slots.length) (r : ℕ) :
    (window slots r n).length = n := by
  rw [window, List.length_take, List.length_rotate]
  exact Nat.min_eq_left h

theorem window_mod (slots : List α) (r n : ℕ) :
    window slots (r % slots.length) n = window slots r n := by
  rw [window, List.rotate_mod, window]

theorem getElem?_window (slots : List α) (r : ℕ) {n i : ℕ} (hn : n ≤ slots.length) (hi : i < n) :
    (window slots r n)[i]? = slots[(r + i) % slots.length]? := by
  rw [window, List.getElem?_take_of_lt hi, List.getElem?_rotate (by omega), Nat.add_comm i r]

theorem window_read {slots : List α} {n : ℕ} (hn : n < slots.length) (r : ℕ) :
    ∃ x, slots[r % slots.length]? = some x ∧
      window slots r (n + 1) = x :: window slots (r + 1) n := by
  have hlt : r % slots.length < slots.length := Nat.mod_lt _ (by omega)
  refine ⟨slots[r % slots.length], List.getElem?_eq_getElem hlt, ?_⟩
  refine List.ext_getElem? fun i => ?_
  rcases i with _ | i
  · rw [getElem?_window slots r (by omega) (by omega), Nat.add_zero, List.getElem?_cons_zero,
      List.getElem?_eq_getElem hlt]
  · rw [List.getElem?_cons_succ]
    by_cases hi : i < n
    · rw [getElem?_window slots r (by omega) (by omega),
        getElem?_window slots (r + 1) (by omega) hi, Nat.add_assoc, Nat.add_comm 1 i]
    · rw [List.getElem?_eq_none (by rw [length_window (by omega)]; omega),
        List.getElem?_eq_none (by rw [length_window (by omega)]; omega)]

theorem slot_ne {m r n i : ℕ} (hn : n < m) (hi : i < n) : (r + i) % m ≠ (r + n) % m := by
  intro h
  have hmod : Nat.ModEq m i n := Nat.ModEq.add_left_cancel' r h
  rw [Nat.ModEq, Nat.mod_eq_of_lt (by omega), Nat.mod_eq_of_lt hn] at hmod
  omega

theorem window_write {slots : List α} {n : ℕ} (hn : n < slots.length) (r : ℕ) (x : α) :
    window (slots.set ((r + n) % slots.length) x) r (n + 1) = window slots r n ++ [x] := by
  have hlt : (r + n) % slots.length < slots.length := Nat.mod_lt _ (by omega)
  refine List.ext_getElem? fun i => ?_
  rcases Nat.lt_trichotomy i n with hi | rfl | hi
  · -- an old entry
    rw [getElem?_window _ r (by rw [List.length_set]; omega) (by omega), List.length_set,
      List.getElem?_set_ne (Ne.symm (slot_ne hn hi)),
      List.getElem?_append_left (by rw [length_window (by omega)]; exact hi),
      getElem?_window slots r (by omega) hi]
  · rw [getElem?_window _ r (by rw [List.length_set]; omega) (by omega), List.length_set,
      List.getElem?_set_self hlt,
      List.getElem?_append_right (by rw [length_window (by omega)]),
      length_window (by omega), Nat.sub_self, List.getElem?_cons_zero]
  · rw [List.getElem?_eq_none (by rw [length_window (by rw [List.length_set]; omega)]; omega),
      List.getElem?_eq_none]
    rw [List.length_append, length_window (by omega), List.length_singleton]
    omega

/-- The slot behind a window that starts at `r + 1` is slot `r` when the window leaves out one slot. -/
theorem slot_eq_last_iff {m r n : ℕ} (hr : r < m) (hn : n < m) :
    (r + 1 + n) % m = r ↔ n + 1 = m := by
  by_cases hlt : r + 1 + n < m
  · rw [Nat.mod_eq_of_lt hlt]
    omega
  · rw [Nat.mod_eq_sub_mod (by omega), Nat.mod_eq_of_lt (by omega)]
    omega

end S2Pac.Lib
