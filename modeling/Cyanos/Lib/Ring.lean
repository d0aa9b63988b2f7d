import Mathlib.Data.List.Basic
import Mathlib.Tactic.SplitIfs

/-!
# A ring that keeps the last entries

A ring of `n` slots is written one slot after the other, and from the start again.  It holds the
last `n` entries written, or all of them while there are fewer.
-/

namespace Lib

open List

variable {α : Type _} {n idx j : ℕ} {slots : List (Option α)} {l : List α} {a : α}

/-- The slot written `j` entries before the last one, when the next entry goes to `idx`. -/
def ringBack (n idx j : ℕ) : ℕ := if j < idx then idx - 1 - j else idx + n - 1 - j

/-- The slots have the first `n` entries of the list, which has the latest first; the next entry
goes to `idx`. -/
structure RingOf (n : ℕ) (slots : List (Option α)) (idx : ℕ) (l : List α) : Prop where
  length : slots.length = n
  lt : idx < n
  get : ∀ j < n, slots[ringBack n idx j]? = some l[j]?

namespace RingOf

theorem nil (h : 0 < n) : RingOf n (replicate n (none : Option α)) 0 [] where
  length := length_replicate
  lt := h
  get j hj := by
    rw [getElem?_replicate, if_pos (by unfold ringBack; split <;> omega)]
    rfl

/-- Writing an entry. -/
theorem cons (h : RingOf n slots idx l) (a : α) :
    RingOf n (slots.set idx (some a)) ((idx + 1) % n) (a :: l) := by
  have hlt := h.lt
  have hnext : (idx + 1) % n = if idx + 1 = n then 0 else idx + 1 := by
    split
    · next he => rw [he, Nat.mod_self]
    · exact Nat.mod_eq_of_lt (by omega)
  refine ⟨by rw [length_set, h.length], Nat.mod_lt _ (by omega), fun j hj => ?_⟩
  cases j with
  | zero =>
    have hback : ringBack n ((idx + 1) % n) 0 = idx := by
      rw [hnext, ringBack]
      split_ifs <;> omega
    rw [hback, getElem?_set_self (by rwa [h.length])]
    rfl
  | succ j =>
    have hback : ringBack n ((idx + 1) % n) (j + 1) = ringBack n idx j ∧ ringBack n idx j ≠ idx := by
      rw [hnext, ringBack, ringBack]
      split_ifs <;> omega
    rw [hback.1, getElem?_set_ne hback.2.symm, h.get j (by omega)]
    rfl

/-- One of the last `n` entries is in the ring. -/
theorem mem (h : RingOf n slots idx l) (hj : j < n) (ha : l[j]? = some a) : some a ∈ slots := by
  have hget := h.get j hj
  rw [ha] at hget
  exact mem_of_getElem? hget

/-- What is in the ring has been written. -/
theorem mem_of_mem (h : RingOf n slots idx l) (ha : some a ∈ slots) : a ∈ l := by
  obtain ⟨k, hk, hka⟩ := getElem_of_mem ha
  have hlt := h.lt
  rw [h.length] at hk
  have hback : ringBack n idx (ringBack n idx k) = k ∧ ringBack n idx k < n := by
    rw [ringBack, ringBack]
    split_ifs <;> omega
  have hget := h.get _ hback.2
  rw [hback.1, getElem?_eq_getElem (by rwa [h.length]), hka] at hget
  exact mem_of_getElem? (Option.some.inj hget).symm

end RingOf

end Lib
