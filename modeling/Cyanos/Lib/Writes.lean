import Mathlib.Data.List.Pairwise
import Mathlib.Logic.Function.Basic

/-!
# Tables written one entry after the other

A table is a partial function.  A write may be refused, but only where the table has no entry.
`Write.allThere_iff` says when, after a list of writes, each of those that matter can be found: none
of them was refused, and none was overwritten.
-/

namespace Lib

open List

variable {K V : Type _} [DecidableEq K]

/-- A write to a table. -/
structure Write (K V : Type _) where
  /-- Where. -/
  key : K
  /-- What. -/
  value : V
  /-- Whether it was carried out. -/
  done : Bool
  /-- Whether anyone is going to look for it. -/
  wanted : Bool

namespace Write

/-- The table after a write. -/
def apply (t : K → Option V) (c : Write K V) : K → Option V :=
  if c.done then Function.update t c.key (some c.value) else t

/-- Writes are refused only where the table has no entry. -/
def Honest : (K → Option V) → List (Write K V) → Prop
  | _, [] => True
  | t, c :: cs => (c.done = false → t c.key = none) ∧ Honest (c.apply t) cs

variable {t : K → Option V} {c : Write K V} {cs cs' : List (Write K V)} {k : K}

theorem honest_append : Honest t (cs ++ cs') ↔ Honest t cs ∧ Honest (cs.foldl apply t) cs' := by
  induction cs generalizing t with
  | nil => exact ⟨fun h => ⟨trivial, h⟩, fun h => h.2⟩
  | cons c cs ih => exact ⟨fun h => ⟨⟨h.1, (ih.1 h.2).1⟩, (ih.1 h.2).2⟩,
      fun h => ⟨h.1.1, ih.2 ⟨h.1.2, h.2⟩⟩⟩

theorem apply_of_ne (h : c.key ≠ k) : c.apply t k = t k := by
  unfold apply
  split
  · exact Function.update_of_ne h.symm _ _
  · rfl

theorem apply_self (h : c.done = true) : c.apply t c.key = some c.value := by
  rw [apply, if_pos h, Function.update_self]

theorem foldl_of_ne (h : ∀ c ∈ cs, c.key ≠ k) : cs.foldl apply t k = t k := by
  induction cs generalizing t with
  | nil => rfl
  | cons c cs ih =>
    rw [foldl_cons, ih fun c hc => h c (.tail _ hc), apply_of_ne (h c (.head _))]

/-- An entry is the one from before, or was written. -/
theorem foldl_cases (t : K → Option V) (cs : List (Write K V)) (k : K) :
    cs.foldl apply t k = t k ∨ ∃ c ∈ cs, c.key = k ∧ cs.foldl apply t k = some c.value := by
  induction cs generalizing t with
  | nil => exact .inl rfl
  | cons c cs ih =>
    rw [foldl_cons]
    rcases ih (c.apply t) with h | ⟨d, hd, hk, h⟩
    · by_cases hck : c.key = k
      · cases hdone : c.done with
        | true => exact .inr ⟨c, (.head _), hck, by rw [h, ← hck, apply_self hdone]⟩
        | false => exact .inl (by rw [h, apply, if_neg (by rw [hdone]; decide)])
      · exact .inl (by rw [h, apply_of_ne hck])
    · exact .inr ⟨d, mem_cons_of_mem _ hd, hk, h⟩

/-- Where there is an entry, a write is carried out. -/
theorem exists_of_some {v : V} (hon : Honest t cs) (ht : t k = some v) (hk : ∃ c ∈ cs, c.key = k) :
    ∃ c ∈ cs, cs.foldl apply t k = some c.value := by
  induction cs generalizing t v with
  | nil => obtain ⟨c, hc, -⟩ := hk; cases hc
  | cons c cs ih =>
    rw [foldl_cons]
    obtain ⟨hrefused, hrest⟩ := hon
    by_cases hck : c.key = k
    · have hdone : c.done = true := by
        cases hd : c.done with
        | true => rfl
        | false => rw [← hck, hrefused hd] at ht; cases ht
      have hself : c.apply t k = some c.value := hck ▸ apply_self hdone
      rcases foldl_cases (c.apply t) cs k with h | ⟨d, hd, -, h⟩
      · exact ⟨c, (.head _), h.trans hself⟩
      · exact ⟨d, mem_cons_of_mem _ hd, h⟩
    · have hrest' : ∃ c ∈ cs, c.key = k := by
        obtain ⟨d, hd, hdk⟩ := hk
        rcases mem_cons.1 hd with rfl | hd
        · exact absurd hdk hck
        · exact ⟨d, hd, hdk⟩
      obtain ⟨d, hd, h⟩ := ih hrest ((apply_of_ne hck).trans ht) hrest'
      exact ⟨d, mem_cons_of_mem _ hd, h⟩

/-- **Everything wanted is there** when none of it was refused or overwritten, provided that no two
writes are of the same value. -/
theorem allThere_iff (hon : Honest t cs) (hdiff : cs.Pairwise fun c d => c.value ≠ d.value) :
    (∀ c ∈ cs, c.wanted = true → cs.foldl apply t c.key = some c.value) ↔
      (∀ c ∈ cs, c.wanted = true → c.done = true) ∧
        cs.Pairwise fun c d => c.wanted = true → c.key ≠ d.key := by
  induction cs generalizing t with
  | nil => exact ⟨fun _ => ⟨nofun, .nil⟩, nofun⟩
  | cons c cs ih =>
    obtain ⟨hrefused, hrest⟩ := hon
    obtain ⟨hc, hdiff⟩ := pairwise_cons.1 hdiff
    simp only [foldl_cons, forall_mem_cons, pairwise_cons]
    rw [ih hrest hdiff]
    -- it remains to compare what is said of the first write
    have hfirst : (c.wanted = true → cs.foldl apply (c.apply t) c.key = some c.value) ↔
        (c.wanted = true → c.done = true) ∧ ∀ d ∈ cs, c.wanted = true → c.key ≠ d.key := by
      constructor
      · intro h
        have hdone : c.wanted = true → c.done = true := by
          intro hw
          by_contra hd
          have hd' : c.done = false := Bool.eq_false_iff.2 hd
          have happ : c.apply t = t := if_neg hd
          rcases foldl_cases (c.apply t) cs c.key with h' | ⟨d, hd, -, h'⟩
          · rw [h hw, happ, hrefused hd'] at h'
            cases h'
          · rw [h hw] at h'
            exact hc d hd (Option.some.inj h')
        refine ⟨hdone, fun d hd hw hkey => ?_⟩
        obtain ⟨e, he, h'⟩ := exists_of_some hrest (apply_self (hdone hw)) ⟨d, hd, hkey.symm⟩
        rw [h hw] at h'
        exact hc e he (Option.some.inj h')
      · rintro ⟨hdone, hkeys⟩ hw
        rw [foldl_of_ne fun d hd => (hkeys d hd hw).symm, apply_self (hdone hw)]
    rw [hfirst]
    exact and_and_and_comm

end Write

end Lib
