import Mathlib.Data.List.Basic

/-!
# Lists of slots

What belongs to the entries of a list, taken together, changes with one entry by what belongs to
that entry.  Where an entry with some property is found first depends on which entries have it.
The keys of the filled slots are different where no key is in two slots.
-/

namespace Lib

open List

variable {α β : Type _} {f : α → List β} {l : List α} {i : ℕ} {a : α} {b : α} {p : α → Bool}

/-- Everything that belongs to the entries, before and after one of them is replaced. -/
theorem flatMap_set (h : l[i]? = some a) (b : α) :
    ∃ rest, (l.flatMap f).Perm (f a ++ rest) ∧ ((l.set i b).flatMap f).Perm (f b ++ rest) := by
  obtain ⟨hi, rfl⟩ := List.getElem?_eq_some_iff.1 h
  refine ⟨(l.take i).flatMap f ++ (l.drop (i + 1)).flatMap f, ?_, ?_⟩
  · conv_lhs => rw [← take_append_drop i l, drop_eq_getElem_cons hi]
    rw [flatMap_append, flatMap_cons]
    exact perm_append_comm_assoc _ _ _
  · rw [set_eq_take_append_cons_drop, if_pos hi, flatMap_append, flatMap_cons]
    exact perm_append_comm_assoc _ _ _

/-- A search does not notice the replacement of an entry by one that is like it. -/
theorem findIdx?_set (h : l[i]? = some a) (hp : p b = p a) :
    (l.set i b).findIdx? p = l.findIdx? p := by
  obtain ⟨hi, rfl⟩ := List.getElem?_eq_some_iff.1 h
  have hmap : (l.set i b).map p = l.map p := by
    rw [map_set, hp, ← getElem_map p (h := by rwa [length_map]), set_getElem_self]
  have hid : ∀ l : List α, l.findIdx? p = (l.map p).findIdx? id := fun l => by
    rw [findIdx?_map, Function.id_comp]
  rw [hid, hid, hmap]

/-- Nor does it notice an entry losing the property if an earlier one has it. -/
theorem findIdx?_set_of_ne {j : ℕ} (h : l.findIdx? p = some j) (hne : j ≠ i)
    (hb : p b = false) : (l.set i b).findIdx? p = some j := by
  obtain ⟨hj, hp, hbefore⟩ := findIdx?_eq_some_iff_getElem.1 h
  refine findIdx?_eq_some_iff_getElem.2 ⟨by rwa [length_set], ?_, fun m hm => ?_⟩
  · rwa [getElem_set_ne hne.symm]
  · rw [getElem_set]
    split
    · rw [hb]
      exact Bool.false_ne_true
    · exact hbefore m hm

/-- The first entry with the property, where there was none. -/
theorem findIdx?_set_self (h : l.findIdx? p = none) (hi : i < l.length)
    (hb : p b = true) : (l.set i b).findIdx? p = some i := by
  rw [findIdx?_eq_none_iff] at h
  refine findIdx?_eq_some_iff_getElem.2 ⟨by rwa [length_set], ?_, fun m hm => ?_⟩
  · rwa [getElem_set_self]
  · rw [getElem_set_ne (by omega), h _ (getElem_mem _)]
    exact Bool.false_ne_true

/-- What is in the other slots stays. -/
theorem mem_set_of_ne (h : a ∈ l) (hne : ∀ hi, l[i] ≠ a) : a ∈ l.set i b := by
  obtain ⟨j, hj, rfl⟩ := getElem_of_mem h
  have hij : i ≠ j := fun hij => hne (hij ▸ hj) (by simp only [hij])
  refine mem_of_getElem? (i := j) ?_
  rw [getElem?_set_ne hij, getElem?_eq_getElem hj]

/-- The keys of some of the filled slots are all different if no two slots are filled with the
same key. -/
theorem nodup_filterMap_keys {slots : List (Option α)} {g : Option α → Option β} {key : α → β}
    (hg : ∀ slot k, g slot = some k → ∃ a, slot = some a ∧ key a = k)
    (hkey : ∀ (i j : ℕ) a b, slots[i]? = some (some a) → slots[j]? = some (some b) →
      key a = key b → i = j) : (slots.filterMap g).Nodup := by
  rw [List.Nodup, pairwise_filterMap, pairwise_iff_getElem]
  intro i j hi hj hij k hk k' hk' heq
  obtain ⟨a, ha, rfl⟩ := hg _ _ hk
  obtain ⟨b, hb, rfl⟩ := hg _ _ hk'
  exact Nat.ne_of_lt hij (hkey i j a b (by rw [getElem?_eq_getElem hi, ha])
    (by rw [getElem?_eq_getElem hj, hb]) heq)

end Lib
