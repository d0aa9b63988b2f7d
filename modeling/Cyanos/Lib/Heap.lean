import Cyanos.Lib.Word
import Mathlib.Data.List.Basic

/-!
# Lists threaded through memory

Memory is a function from addresses to bytes; words in it are eight bytes, the lowest first.  An
`Extent` is a range of addresses.  A `Chain` is a linked list: every node holds the address of the
next one, and `0` ends the list.  Changes of memory outside the nodes leave a chain as it is
(`Chain.congr`).
-/

namespace Lib

open List Nat

/-! ### Bytes and words -/

section Bytes

variable {mem mem' : ℕ → UInt8} {a b n x : ℕ}

/-- Memory after the bytes `bs` were stored at `a`. -/
def storeBytes (mem : ℕ → UInt8) (a : ℕ) (bs : List UInt8) : ℕ → UInt8 :=
  fun x => if a ≤ x ∧ x < a + bs.length then bs.getD (x - a) 0 else mem x

/-- The `n` bytes at `a`. -/
def loadBytes (mem : ℕ → UInt8) (a n : ℕ) : List UInt8 := (List.range n).map fun i => mem (a + i)

/-- Memory after the word `x` was stored at `a`. -/
def storeWord (mem : ℕ → UInt8) (a x : ℕ) : ℕ → UInt8 := storeBytes mem a (leBytes 8 x)

/-- The word at `a`. -/
def loadWord (mem : ℕ → UInt8) (a : ℕ) : ℕ := ofLeBytes (loadBytes mem a 8)

theorem length_leBytes (n x : ℕ) : (leBytes n x).length = n := by
  rw [leBytes, length_map, length_range]

theorem leBytes_succ (n x : ℕ) : leBytes (n + 1) x = UInt8.ofNat x :: leBytes n (x / 256) := by
  rw [leBytes, range_succ_eq_map, map_cons, map_map, pow_zero, Nat.div_one]
  refine congrArg _ (map_congr_left fun i _ => ?_)
  rw [Function.comp_apply, pow_succ', ← Nat.div_div_eq_div_mul]

/-- What is read back from the bytes of a number. -/
theorem ofLeBytes_leBytes_mod (n x : ℕ) : ofLeBytes (leBytes n x) = x % 256 ^ n := by
  induction n generalizing x with
  | zero =>
    rw [pow_zero, mod_one]
    rfl
  | succ n ih =>
    have hmod : x % 256 ^ (n + 1) = x % 256 + 256 * (x / 256 % 256 ^ n) := by
      rw [pow_succ', mod_mul]
    rw [leBytes_succ, ofLeBytes, ih, UInt8.toNat_ofNat', hmod]

theorem ofLeBytes_lt (bs : List UInt8) : ofLeBytes bs < 256 ^ bs.length := by
  induction bs with
  | nil => exact one_pos
  | cons b =>
    have hb : b.toNat < 256 := b.toNat_lt
    rw [ofLeBytes, length_cons, pow_succ']
    omega

theorem storeBytes_of_not_mem {bs : List UInt8} (h : ¬ (a ≤ x ∧ x < a + bs.length)) :
    storeBytes mem a bs x = mem x := if_neg h

theorem loadBytes_storeBytes (mem : ℕ → UInt8) (a : ℕ) (bs : List UInt8) :
    loadBytes (storeBytes mem a bs) a bs.length = bs := by
  refine ext_getElem (by rw [loadBytes, length_map, length_range]) fun i _ hi => ?_
  simp only [loadBytes, getElem_map, getElem_range]
  rw [storeBytes, if_pos ⟨by omega, by omega⟩, Nat.add_sub_cancel_left,
    getD_eq_getElem?_getD, getElem?_eq_getElem hi, Option.getD_some]

theorem loadWord_congr (h : ∀ i < 8, mem' (a + i) = mem (a + i)) :
    loadWord mem' a = loadWord mem a := by
  rw [loadWord, loadWord, loadBytes, loadBytes]
  exact congrArg _ (map_congr_left fun i hi => h i (mem_range.1 hi))

theorem loadWord_storeWord (h : x < 2 ^ 64) : loadWord (storeWord mem a x) a = x := by
  have hload := loadBytes_storeBytes mem a (leBytes 8 x)
  rw [length_leBytes] at hload
  rw [loadWord, storeWord, hload, ofLeBytes_leBytes_mod, mod_eq_of_lt (by exact h)]

/-- A word apart from the one that is stored. -/
theorem loadWord_storeWord_of_apart (h : a + 8 ≤ b ∨ b + 8 ≤ a) :
    loadWord (storeWord mem a x) b = loadWord mem b := by
  refine loadWord_congr fun i hi => storeBytes_of_not_mem ?_
  rw [length_leBytes]
  omega

end Bytes

/-! ### Extents -/

/-- A range of addresses. -/
structure Extent where
  /-- The first address. -/
  addr : ℕ
  /-- The number of addresses. -/
  size : ℕ
  deriving DecidableEq, Repr

namespace Extent

variable {e f g : Extent}

/-- One range ends where or before the other begins. -/
def Apart (e f : Extent) : Prop := e.addr + e.size ≤ f.addr ∨ f.addr + f.size ≤ e.addr

/-- One range is inside the other. -/
def Inside (e f : Extent) : Prop := f.addr ≤ e.addr ∧ e.addr + e.size ≤ f.addr + f.size

theorem Apart.symm (h : e.Apart f) : f.Apart e := Or.symm h

theorem Apart.mono (h : f.Apart g) (he : e.Inside f) : e.Apart g := by
  unfold Apart Inside at *
  omega

end Extent

/-! ### Chains -/

/-- The nodes of a linked list with the first node `head`, where `next` reads the link in a node. -/
def Chain (next : ℕ → ℕ) : ℕ → List ℕ → Prop
  | head, [] => head = 0
  | head, a :: l => head = a ∧ a ≠ 0 ∧ Chain next (next a) l

namespace Chain

variable {next next' : ℕ → ℕ} {head : ℕ} {l : List ℕ}

/-- Only the links in the nodes matter. -/
theorem congr (h : Chain next head l) (hnext : ∀ a ∈ l, next' a = next a) : Chain next' head l := by
  induction l generalizing head with
  | nil => exact h
  | cons a l ih =>
    obtain ⟨rfl, hne, hl⟩ := h
    refine ⟨rfl, hne, ?_⟩
    rw [hnext _ mem_cons_self]
    exact ih hl fun b hb => hnext b (.tail _ hb)

/-- A list that does not end at once. -/
theorem of_ne_zero (h : Chain next head l) (hne : head ≠ 0) :
    ∃ l', l = head :: l' ∧ Chain next (next head) l' := by
  cases l with
  | nil => exact absurd h hne
  | cons a l =>
    obtain ⟨rfl, -, hl⟩ := h
    exact ⟨l, rfl, hl⟩

/-- The head is a node, or ends the list. -/
theorem head_mem (h : Chain next head l) : head = 0 ∨ head ∈ l := by
  cases l with
  | nil => exact .inl h
  | cons => exact .inr (h.1 ▸ (.head _))

end Chain

end Lib
