import Mathlib.Algebra.Group.Nat.Defs
import Mathlib.Data.List.Basic
import Mathlib.Logic.Function.Basic

/-!
# Straight-line code and the words on its stack

Code is a list of instructions that are carried out one after the other; an instruction may jump
over some of those that follow.  `exec` carries the number of instructions still to be jumped over,
so that code may be cut anywhere (`exec_append`).

`updates` writes values one after the other, to registers or to memory.  `OnStack mem sp l` says
that the words from `sp` on, upward, are those of `l`.  Storing at the stack pointer, pushing and
popping are what they are on lists.
-/

namespace Lib

open List Function

section Code

variable {I S : Type _}

/-- The next instruction, if it is not one to be jumped over. -/
def advance (step : I → S → S × ℕ) (c : S × ℕ) (i : I) : S × ℕ :=
  match c.2 with
  | 0 => step i c.1
  | k + 1 => (c.1, k)

/-- Carry out the instructions: the state, and how many of those that follow are to be jumped
over. -/
def exec (step : I → S → S × ℕ) (is : List I) (c : S × ℕ) : S × ℕ := is.foldl (advance step) c

variable {step : I → S → S × ℕ} {i : I} {is js : List I} {s : S}

theorem exec_nil {c : S × ℕ} : exec step [] c = c := rfl

theorem exec_cons : exec step (i :: is) (s, 0) = exec step is (step i s) := rfl

theorem exec_append {c : S × ℕ} : exec step (is ++ js) c = exec step js (exec step is c) :=
  foldl_append

end Code

/-! ### One write after the other -/

section Updates

variable {A V : Type _} [DecidableEq A] {l l' : List (A × V)} {g : A → V} {a : A} {v : V}

/-- Write the values at their places, one after the other. -/
def updates (l : List (A × V)) (g : A → V) : A → V :=
  l.foldl (fun g q => Function.update g q.1 q.2) g

theorem updates_append : updates (l ++ l') g = updates l' (updates l g) := foldl_append

theorem updates_of_notMem (h : a ∉ l.map Prod.fst) : updates l g a = g a := by
  induction l generalizing g with
  | nil => rfl
  | cons q l ih =>
    rw [map_cons, mem_cons, not_or] at h
    exact (ih h.2).trans (update_of_ne h.1 _ _)

/-- Every value is there if no place is written twice. -/
theorem updates_of_mem (hnodup : (l.map Prod.fst).Nodup) (h : (a, v) ∈ l) : updates l g a = v := by
  induction l generalizing g with
  | nil => cases h
  | cons q l ih =>
    obtain ⟨hq, hnodup⟩ := nodup_cons.1 hnodup
    obtain rfl | h := mem_cons.1 h
    · exact (updates_of_notMem hq).trans (update_self _ _ _)
    · exact ih hnodup h

/-- Where the value depends on the place alone, it does not matter how often it is written. -/
theorem updates_map (ks : List A) (x : A → V) :
    updates (ks.map fun k => (k, x k)) g a = if a ∈ ks then x a else g a := by
  induction ks generalizing g with
  | nil => rfl
  | cons k ks ih =>
    refine ih.trans ?_
    by_cases hk : a = k
    · simp [hk]
    · simp [hk]

end Updates

/-! ### Words on the stack -/

section Stack

variable {mem mem' : BitVec 64 → BitVec 64} {sp v : BitVec 64} {l : List (BitVec 64)} {k : ℕ}

/-- The address of the word number `k` from `sp` on. -/
def wordAt (sp : BitVec 64) (k : ℕ) : BitVec 64 := sp + BitVec.ofNat 64 (8 * k)

/-- The words from `sp` on are those of the list. -/
def OnStack (mem : BitVec 64 → BitVec 64) (sp : BitVec 64) (l : List (BitVec 64)) : Prop :=
  ∀ k v, l[k]? = some v → mem (wordAt sp k) = v

theorem offset_inj {a b : ℕ} (ha : a < 2 ^ 64) (hb : b < 2 ^ 64)
    (h : sp + BitVec.ofNat 64 a = sp + BitVec.ofNat 64 b) : a = b := by
  have h := congrArg BitVec.toNat h
  simp only [BitVec.toNat_add, BitVec.toNat_ofNat, Nat.mod_eq_of_lt hb] at h
  omega

theorem wordAt_inj {j : ℕ} (hk : 8 * k < 2 ^ 64) (hj : 8 * j < 2 ^ 64)
    (h : wordAt sp k = wordAt sp j) : k = j :=
  Nat.eq_of_mul_eq_mul_left (by decide) (offset_inj hk hj h)

theorem wordAt_add (j : ℕ) : wordAt (wordAt sp k) j = wordAt sp (k + j) := by
  rw [wordAt, wordAt, wordAt, BitVec.add_assoc, ← BitVec.ofNat_add, Nat.mul_add]

section

variable (h : OnStack mem sp l)
include h

theorem OnStack.congr
    (heq : ∀ k < l.length, mem' (wordAt sp k) = mem (wordAt sp k)) : OnStack mem' sp l := by
  intro k v hv
  rw [heq k (List.getElem?_eq_some_iff.1 hv).1, h k v hv]

theorem OnStack.store (hlen : 8 * l.length ≤ 2 ^ 64) (hk : k < l.length)
    (v : BitVec 64) : OnStack (update mem (wordAt sp k) v) sp (l.set k v) := by
  intro j w hw
  by_cases hjk : k = j
  · subst hjk
    rw [getElem?_set_self hk] at hw
    rw [update_self, Option.some.inj hw]
  · rw [getElem?_set_ne hjk] at hw
    have hj := (List.getElem?_eq_some_iff.1 hw).1
    rw [update_of_ne, h j w hw]
    exact fun he => hjk (wordAt_inj (by omega) (by omega) he.symm)

theorem OnStack.drop (n : ℕ) : OnStack mem (wordAt sp n) (l.drop n) := by
  intro k v hv
  rw [wordAt_add]
  rw [getElem?_drop] at hv
  exact h (n + k) v hv

theorem OnStack.push (hlen : 8 * (l.length + 1) ≤ 2 ^ 64) (v : BitVec 64) :
    OnStack (update mem (sp - 8) v) (sp - 8) (v :: l) := by
  have hzero : wordAt (sp - 8) 0 = sp - 8 := by simp [wordAt]
  have hsucc : ∀ k, wordAt (sp - 8) (k + 1) = wordAt sp k := by
    intro k
    simp only [wordAt]
    bv_omega
  intro k w hw
  cases k with
  | zero =>
    rw [hzero, update_self]
    exact Option.some.inj hw
  | succ k =>
    have hk := (List.getElem?_eq_some_iff.1 hw).1
    rw [length_cons] at hk
    rw [update_of_ne, hsucc]
    · exact h k w hw
    · intro he
      exact absurd (wordAt_inj (by omega) (by omega) (he.trans hzero.symm)) (Nat.succ_ne_zero k)

end

end Stack

end Lib
