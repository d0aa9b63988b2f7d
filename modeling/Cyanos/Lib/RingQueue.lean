import Mathlib.Data.List.Basic
import Mathlib.Data.Nat.ModEq
import Mathlib.Logic.Function.Basic

/-!
# Queues in a ring

A queue of at most `n` entries kept in a ring of `n` cells: the oldest entry is in cell `r`, the
next one goes to cell `w`, and both move on modulo `n`.

* `Queued.put` : writing cell `w` and moving on appends an entry.
* `Queued.get` : cell `r` has the oldest entry, and moving on removes it.
-/

namespace Lib

open List Nat

variable {α : Type _} {n r w : ℕ} {buf : ℕ → α} {l : List α} {a : α}

/-- The cells from `r` up to `w` hold the entries of `l`, the oldest first. -/
structure Queued (n : ℕ) (buf : ℕ → α) (r w : ℕ) (l : List α) : Prop where
  lt : r < n
  room : l.length ≤ n
  next : w = (r + l.length) % n
  cell : ∀ i, ∀ h : i < l.length, buf ((r + i) % n) = l[i]

namespace Queued

theorem nil (h : r < n) : Queued n buf r r [] where
  lt := h
  room := zero_le _
  next := (mod_eq_of_lt h).symm
  cell i hi := absurd hi (not_lt_zero i)

/-- Entries less than a round apart are in different cells. -/
theorem cell_ne {i j : ℕ} (hij : i < j) (hj : j < n) : (r + i) % n ≠ (r + j) % n := by
  intro h
  have hmod : i ≡ j [MOD n] := ModEq.add_left_cancel' r h
  exact Nat.ne_of_lt hij (hmod.eq_of_lt_of_lt (hij.trans hj) hj)

/-- **Writing the next cell appends an entry.** -/
theorem put (h : Queued n buf r w l) (hl : l.length < n) (a : α) :
    Queued n (Function.update buf w a) r ((w + 1) % n) (l ++ [a]) where
  lt := h.lt
  room := by rw [length_append]; exact hl
  next := by rw [h.next, length_append, length_singleton, mod_add_mod, Nat.add_assoc]
  cell i hi := by
    rw [length_append, length_singleton] at hi
    rcases Nat.lt_or_eq_of_le (Nat.le_of_lt_succ hi) with hi | rfl
    · have hne : (r + i) % n ≠ w := h.next ▸ cell_ne hi hl
      rw [Function.update_of_ne hne, h.cell i hi, getElem_append_left hi]
    · rw [← h.next, Function.update_self, getElem_concat_length rfl]

/-- **The first cell has the oldest entry; moving on removes it.** -/
theorem get (h : Queued n buf r w (a :: l)) : buf r = a ∧ Queued n buf ((r + 1) % n) w l := by
  have hlen : l.length + 1 ≤ n := h.room
  refine ⟨?_, mod_lt _ (by omega), by omega, ?_, fun i hi => ?_⟩
  · have hcell := h.cell 0 (succ_pos _)
    rwa [add_zero, mod_eq_of_lt h.lt] at hcell
  · rw [h.next, mod_add_mod, length_cons]
    congr 1
    omega
  · have hcell := h.cell (i + 1) (succ_lt_succ hi)
    rw [mod_add_mod, add_assoc, add_comm 1 i, hcell, getElem_cons_succ]

end Queued

end Lib
