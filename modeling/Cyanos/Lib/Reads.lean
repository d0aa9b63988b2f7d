import Cyanos.Lib.Heap

/-!
# Memory that can be read in places

A program sees memory as a function from addresses to bytes that is undefined where a read would
fault.  `Shows read a bs` says that the bytes `bs` are there to be read from `a` on, `Words` says the
same of words, and `CStringAt` of a string that ends with a zero byte.  `StringArray` is an array of
pointers to strings that ends with a null pointer.
-/

namespace Lib

open List

variable {read : ℕ → Option UInt8} {a x : ℕ}

/-! ### Bytes -/

/-- The bytes `bs` can be read from `a` on. -/
def Shows (read : ℕ → Option UInt8) : ℕ → List UInt8 → Prop
  | _, [] => True
  | a, b :: bs => read a = some b ∧ Shows read (a + 1) bs

/-- The `n` bytes at `a`. -/
def readBytes (read : ℕ → Option UInt8) : ℕ → ℕ → Option (List UInt8)
  | _, 0 => some []
  | a, n + 1 => do
    let b ← read a
    let bs ← readBytes read (a + 1) n
    some (b :: bs)

/-- The word at `a`. -/
def readWord (read : ℕ → Option UInt8) (a : ℕ) : Option ℕ := (readBytes read a 8).map ofLeBytes

theorem shows_append {bs cs : List UInt8} :
    Shows read a (bs ++ cs) ↔ Shows read a bs ∧ Shows read (a + bs.length) cs := by
  induction bs generalizing a with
  | nil => simp [Shows]
  | cons b bs ih =>
    simp only [cons_append, Shows, ih, and_assoc, length_cons]
    rw [show a + 1 + bs.length = a + (bs.length + 1) by omega]

theorem shows_of_getElem {bs : List UInt8} (h : ∀ i (hi : i < bs.length), read (a + i) = some bs[i]) :
    Shows read a bs := by
  induction bs generalizing a with
  | nil => trivial
  | cons b bs ih =>
    refine ⟨h 0 (Nat.succ_pos _), ih fun i hi => ?_⟩
    have hi' := h (i + 1) (Nat.succ_lt_succ hi)
    rwa [getElem_cons_succ, show a + (i + 1) = a + 1 + i by omega] at hi'

theorem Shows.readBytes {bs : List UInt8} (h : Shows read a bs) :
    readBytes read a bs.length = some bs := by
  induction bs generalizing a with
  | nil => rfl
  | cons b bs ih =>
    obtain ⟨hb, hbs⟩ := h
    simp [readBytes, hb, ih hbs]

/-! ### Words -/

theorem Shows.readWord (h : Shows read a (leBytes 8 x)) : readWord read a = some (x % 2 ^ 64) := by
  have hbytes := h.readBytes
  rw [length_leBytes] at hbytes
  rw [Lib.readWord, hbytes, Option.map_some, ofLeBytes_leBytes_mod]
  rfl

/-- The words can be read from `a` on. -/
def Words (read : ℕ → Option UInt8) : ℕ → List ℕ → Prop
  | _, [] => True
  | a, x :: xs => readWord read a = some (x % 2 ^ 64) ∧ Words read (a + 8) xs

theorem words_append {xs ys : List ℕ} :
    Words read a (xs ++ ys) ↔ Words read a xs ∧ Words read (a + 8 * xs.length) ys := by
  induction xs generalizing a with
  | nil => simp [Words]
  | cons x xs ih =>
    simp only [cons_append, Words, ih, and_assoc, length_cons]
    rw [show a + 8 + 8 * xs.length = a + 8 * (xs.length + 1) by omega]

theorem length_flatMap_leBytes (xs : List ℕ) : (xs.flatMap (leBytes 8)).length = 8 * xs.length := by
  induction xs with
  | nil => rfl
  | cons x xs ih =>
    rw [flatMap_cons, length_append, length_leBytes, ih, length_cons]
    omega

theorem Shows.words {xs : List ℕ} (h : Shows read a (xs.flatMap (leBytes 8))) : Words read a xs := by
  induction xs generalizing a with
  | nil => trivial
  | cons x xs ih =>
    rw [flatMap_cons, shows_append, length_leBytes] at h
    exact ⟨h.1.readWord, ih h.2⟩

/-! ### Strings -/

/-- The string `s`, with the zero byte that ends it, is at `p`. -/
def CStringAt (read : ℕ → Option UInt8) (p : ℕ) (s : List UInt8) : Prop :=
  0 ∉ s ∧ Shows read p (s ++ [0])

/-- An array of pointers to the strings, which a null pointer ends. -/
def StringArray (read : ℕ → Option UInt8) : ℕ → List (List UInt8) → Prop
  | a, [] => readWord read a = some 0
  | a, s :: ss => (∃ p, readWord read a = some p ∧ p ≠ 0 ∧ CStringAt read p s) ∧
    StringArray read (a + 8) ss

/-- Pointers in memory to strings in memory. -/
theorem Words.stringArray {ps : List ℕ} {ss : List (List UInt8)} (h : Words read a (ps ++ [0]))
    (hps : List.Forall₂ (fun p s => p ≠ 0 ∧ p < 2 ^ 64 ∧ CStringAt read p s) ps ss) :
    StringArray read a ss := by
  induction hps generalizing a with
  | nil => exact h.1
  | cons hp _ ih =>
    obtain ⟨hne, hlt, hs⟩ := hp
    obtain ⟨hword, hrest⟩ := h
    rw [Nat.mod_eq_of_lt hlt] at hword
    exact ⟨⟨_, hword, hne, hs⟩, ih hrest⟩

end Lib
