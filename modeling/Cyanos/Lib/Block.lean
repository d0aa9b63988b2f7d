import Cyanos.Lib.Word
import Mathlib.Algebra.BigOperators.Group.List.Basic
import Mathlib.Algebra.Order.BigOperators.Group.List
import Mathlib.Data.List.Count

/-!
# Blocks of a buddy system

A block of order `o` over pages of `p` bytes is an interval of `p * 2 ^ o` bytes.  Quantities that
a buddy system conserves are *measures* of blocks: functions `μ` that give a block the sum of what
they give its two halves (`Splits`).  Summed over a list of blocks (`total μ bs`) a measure is
unchanged by splitting a block and by merging two buddies (`Splits.merge`).

Two measures are used: the number of pages (`pages`), and for an address `x` the indicator of the
blocks that contain it (`holds p x`), whose sum `cover p bs x` is the number of owners of `x`.
-/

namespace Lib

open Nat

/-- A block: its first address and its order. -/
structure Block where
  /-- First address. -/
  addr : ℕ
  /-- The block is `2 ^ order` pages long. -/
  order : ℕ
  deriving DecidableEq, Repr

namespace Block

variable (p : ℕ)

/-- Bytes in the block. -/
def size (b : Block) : ℕ := p * 2 ^ b.order

/-- The address `x` lies in the block. -/
def Has (b : Block) (x : ℕ) : Prop := b.addr ≤ x ∧ x < b.addr + b.size p

instance (b : Block) (x : ℕ) : Decidable (b.Has p x) := inferInstanceAs (Decidable (_ ∧ _))

/-- The block starts at a multiple of its own size. -/
def Aligned (b : Block) : Prop := b.size p ∣ b.addr

/-- An aligned block inside the 64-bit address space. -/
structure Fits (b : Block) : Prop where
  aligned : b.Aligned p
  le : b.addr + b.size p ≤ 2 ^ 64

/-- No address lies in both blocks. -/
def Apart (b c : Block) : Prop := ∀ x, ¬ (b.Has p x ∧ c.Has p x)

instance : Std.Symm (Apart p) := ⟨fun _ _ h x hx => h x hx.symm⟩

variable {p}

theorem has_addr (hp : 0 < p) (b : Block) : b.Has p b.addr :=
  ⟨le_rfl, Nat.lt_add_of_pos_right (mul_pos hp (Nat.two_pow_pos _))⟩

theorem addr_lt {b : Block} {m : ℕ} (hp : 0 < p) (h : b.addr + b.size p ≤ m) : b.addr < m :=
  lt_of_lt_of_le (has_addr hp b).2 h

/-- The halves of an aligned block are aligned. -/
theorem Aligned.halves {a o : ℕ} (h : Aligned p ⟨a, o + 1⟩) :
    Aligned p ⟨a, o⟩ ∧ Aligned p ⟨a + p * 2 ^ o, o⟩ := by
  have h' : p * 2 ^ o ∣ a := Dvd.dvd.trans ⟨2, by rw [size]; ring⟩ h
  exact ⟨h', Nat.dvd_add h' (dvd_refl _)⟩

/-- The halves of a block that fits do. -/
theorem Fits.halves {a o : ℕ} (h : Fits p ⟨a, o + 1⟩) :
    Fits p ⟨a, o⟩ ∧ Fits p ⟨a + p * 2 ^ o, o⟩ := by
  have hle := h.le
  have h2 : p * 2 ^ (o + 1) = p * 2 ^ o + p * 2 ^ o := by ring
  simp only [size] at hle
  exact ⟨⟨h.aligned.halves.1, by simp only [size]; omega⟩,
    ⟨h.aligned.halves.2, by simp only [size]; omega⟩⟩

end Block

open Block Nat

/-! ### Measures -/

/-- The sum of `μ` over a list of blocks. -/
def total (μ : Block → ℕ) (bs : List Block) : ℕ := (bs.map μ).sum

section Total

variable {μ : Block → ℕ}

@[simp] theorem total_nil : total μ [] = 0 := rfl

@[simp] theorem total_cons (b : Block) (bs : List Block) :
    total μ (b :: bs) = μ b + total μ bs := rfl

@[simp] theorem total_append (bs cs : List Block) : total μ (bs ++ cs) = total μ bs + total μ cs := by
  simp [total]

theorem total_perm {bs cs : List Block} (h : bs.Perm cs) : total μ bs = total μ cs :=
  (h.map μ).sum_eq

theorem le_total_of_mem {b : Block} {bs : List Block} (h : b ∈ bs) : μ b ≤ total μ bs :=
  List.single_le_sum (fun _ _ => zero_le _) _ (List.mem_map_of_mem h)

end Total

/-- `μ` gives a block the sum of what it gives the two halves. -/
def Splits (p : ℕ) (μ : Block → ℕ) : Prop := ∀ a o, μ ⟨a, o + 1⟩ = μ ⟨a, o⟩ + μ ⟨a + p * 2 ^ o, o⟩

/-- The pages of a block. -/
def pages (b : Block) : ℕ := 2 ^ b.order

/-- Indicator of the blocks that contain `x`. -/
def holds (p x : ℕ) (b : Block) : ℕ := if b.Has p x then 1 else 0

/-- The number of blocks of `bs` that contain `x`. -/
def cover (p : ℕ) (bs : List Block) (x : ℕ) : ℕ := total (holds p x) bs

theorem holds_mk (p x a o : ℕ) :
    holds p x ⟨a, o⟩ = if a ≤ x ∧ x < a + p * 2 ^ o then 1 else 0 := if_congr Iff.rfl rfl rfl

theorem splits_pages (p : ℕ) : Splits p pages := fun _ _ => by simp only [pages]; ring

theorem splits_holds (p x : ℕ) : Splits p (holds p x) := by
  intro a o
  have h2 : p * 2 ^ (o + 1) = p * 2 ^ o + p * 2 ^ o := by ring
  rw [holds_mk, holds_mk, holds_mk, h2]
  split_ifs <;> omega

theorem cover_pos {p : ℕ} {bs : List Block} {x : ℕ} : 0 < cover p bs x ↔ ∃ b ∈ bs, b.Has p x := by
  constructor
  · intro h
    by_contra hno
    have hz : ∀ n ∈ bs.map (holds p x), n = 0 := by
      intro n hn
      obtain ⟨b, hb, rfl⟩ := List.mem_map.1 hn
      exact if_neg fun hx => hno ⟨b, hb, hx⟩
    exact absurd h (by simp [cover, total, List.sum_eq_zero hz])
  · rintro ⟨b, hb, hx⟩
    have hle : holds p x b ≤ total (holds p x) bs := le_total_of_mem hb
    rw [holds, if_pos hx] at hle
    exact hle

/-- Blocks that cover no address twice are pairwise apart. -/
theorem pairwise_apart_of_cover_le_one {p : ℕ} {bs : List Block} (h : ∀ x, cover p bs x ≤ 1) :
    bs.Pairwise (Apart p) := by
  rw [List.pairwise_iff_forall_sublist]
  intro b c hsub x ⟨hb, hc⟩
  have hle : total (holds p x) [b, c] ≤ total (holds p x) bs :=
    (hsub.map _).sum_le_sum fun _ _ => zero_le _
  simp only [total_cons, holds, if_pos hb, if_pos hc] at hle
  exact absurd (h x) (by unfold cover; omega)

/-! ### Buddies -/

variable {k a o : ℕ}

/-- The buddy of an aligned block is the other half of the pair of order `o + 1` it belongs to:
after it when the block is the left half of the pair, before it when it is the right half. -/
theorem xor_of_aligned (h : 2 ^ k * 2 ^ o ∣ a) :
    (2 ^ k * 2 ^ (o + 1) ∣ a ∧ a ^^^ (2 ^ k * 2 ^ o) = a + 2 ^ k * 2 ^ o) ∨
      ∃ b, 2 ^ k * 2 ^ (o + 1) ∣ b ∧ a = b + 2 ^ k * 2 ^ o ∧ a ^^^ (2 ^ k * 2 ^ o) = b := by
  obtain ⟨q, rfl⟩ := h
  have hxor : 2 ^ k * 2 ^ o * q ^^^ 2 ^ k * 2 ^ o = 2 ^ k * 2 ^ o * (q ^^^ 1) := by
    have hsh : ∀ n, 2 ^ k * 2 ^ o * n = n <<< (k + o) := fun n => by
      rw [shiftLeft_eq, pow_add]; ring
    conv_lhs => rw [← mul_one (2 ^ k * 2 ^ o), mul_assoc _ 1 q, one_mul, hsh q, hsh 1]
    rw [← shiftLeft_xor_distrib, hsh]
  rcases even_or_odd' q with ⟨m, rfl | rfl⟩
  · left
    refine ⟨⟨m, by ring⟩, ?_⟩
    rw [hxor, xor_one_of_even (even_two_mul m)]
    ring
  · right
    refine ⟨2 ^ k * 2 ^ o * (2 * m), ⟨m, by ring⟩, by ring, ?_⟩
    rw [hxor, Nat.xor_one_of_odd (odd_two_mul_add_one m), Nat.add_sub_cancel]

/-- The pair a block and its buddy form is aligned for the next order, and fits when both do. -/
theorem Block.Fits.merge (h : Fits (2 ^ k) ⟨a, o⟩) (h' : Fits (2 ^ k) ⟨a ^^^ (2 ^ k * 2 ^ o), o⟩) :
    Fits (2 ^ k) ⟨min a (a ^^^ (2 ^ k * 2 ^ o)), o + 1⟩ := by
  have hle := h.le
  have hle' := h'.le
  have h2 : 2 ^ k * 2 ^ (o + 1) = 2 ^ k * 2 ^ o + 2 ^ k * 2 ^ o := by ring
  simp only [size] at hle hle'
  rcases xor_of_aligned (k := k) (a := a) (o := o) h.aligned with ⟨hd, hx⟩ | ⟨b, hd, rfl, hx⟩
  · rw [hx] at hle' ⊢
    rw [min_eq_left (le_add_right _ _)]
    exact ⟨hd, by simp only [size, h2]; omega⟩
  · rw [hx] at hle' ⊢
    rw [min_eq_right (le_add_right _ _)]
    exact ⟨hd, by simp only [size, h2]; omega⟩

/-- The lower of a block and its buddy is the block of the next order that contains them. -/
theorem min_xor_eq_alignDown (h : 2 ^ k * 2 ^ o ∣ a) :
    min a (a ^^^ (2 ^ k * 2 ^ o)) = alignDown a (2 ^ k * 2 ^ (o + 1)) := by
  rcases xor_of_aligned h with ⟨hd, hx⟩ | ⟨b, hd, rfl, hx⟩
  · rw [hx, min_eq_left (le_add_right _ _), alignDown_of_dvd hd]
  · rw [hx, min_eq_right (le_add_right _ _)]
    obtain ⟨c, rfl⟩ := hd
    have hpos : 0 < 2 ^ k * 2 ^ o := Nat.mul_pos (Nat.two_pow_pos k) (Nat.two_pow_pos o)
    have h2 : 2 ^ k * 2 ^ (o + 1) = 2 ^ k * 2 ^ o + 2 ^ k * 2 ^ o := by ring
    rw [alignDown, mul_add_div (by omega), div_eq_of_lt (by omega)]
    ring

/-- Merging a block with its buddy keeps every measure. -/
theorem Splits.merge {μ : Block → ℕ} (hμ : Splits (2 ^ k) μ) (h : Aligned (2 ^ k) ⟨a, o⟩) :
    μ ⟨min a (a ^^^ (2 ^ k * 2 ^ o)), o + 1⟩ = μ ⟨a, o⟩ + μ ⟨a ^^^ (2 ^ k * 2 ^ o), o⟩ := by
  rcases xor_of_aligned (k := k) (a := a) (o := o) h with ⟨-, hx⟩ | ⟨b, -, rfl, hx⟩
  · rw [hx, min_eq_left (le_add_right _ _)]
    exact hμ a o
  · rw [hx, min_eq_right (le_add_right _ _), hμ b o, add_comm]

end Lib
