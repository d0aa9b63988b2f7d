import Mathlib.Data.Nat.Bitwise
import Mathlib.Tactic.NormNum
import Mathlib.Tactic.Ring

/-!
# 64-bit machine words as natural numbers

Addresses and lengths are natural numbers below `2 ^ 64`; the operations that can overflow are
written with the reduction modulo `2 ^ 64` they perform (`wadd`, `wsub`), the checked addition
returns `none` instead (`checkedAdd`), and `signed` reads a word as a two's complement number.
Rounding to a power of two is `alignDown` and `alignUp`; `alignDown_eq_land` is the bit-mask form.
In memory the lowest byte of a number comes first (`leBytes`, `ofLeBytes`).
-/

namespace Lib

open Nat

/-- Wrapping addition. -/
def wadd (a b : ℕ) : ℕ := (a + b) % 2 ^ 64

/-- Wrapping subtraction of words. -/
def wsub (a b : ℕ) : ℕ := (a + (2 ^ 64 - b)) % 2 ^ 64

/-- Addition that reports an overflow. -/
def checkedAdd (a b : ℕ) : Option ℕ := if a + b < 2 ^ 64 then some (a + b) else none

/-- The signed number with the same bits as the word `x`. -/
def signed (x : ℕ) : ℤ := if x < 2 ^ 63 then x else x - 2 ^ 64

/-- `x` rounded down to a multiple of `a`. -/
def alignDown (x a : ℕ) : ℕ := x / a * a

/-- `x` rounded up to a multiple of `a`; the addition wraps. -/
def alignUp (x a : ℕ) : ℕ := alignDown (wadd x (a - 1)) a

/-- The lowest `n` bytes of `x`, lowest first. -/
def leBytes (n x : ℕ) : List UInt8 := (List.range n).map fun i => UInt8.ofNat (x / 256 ^ i)

/-- The number whose bytes, lowest first, are in the list. -/
def ofLeBytes : List UInt8 → ℕ
  | [] => 0
  | b :: bs => b.toNat + 256 * ofLeBytes bs

theorem wadd_lt (a b : ℕ) : wadd a b < 2 ^ 64 := mod_lt _ (by norm_num)

variable {a x b : ℕ}

theorem wadd_of_lt (h : a + b < 2 ^ 64) : wadd a b = a + b := mod_eq_of_lt h

theorem wadd_zero (h : a < 2 ^ 64) : wadd a 0 = a := wadd_of_lt h

theorem wsub_lt (a b : ℕ) : wsub a b < 2 ^ 64 := mod_lt _ (by norm_num)

theorem wsub_of_le (ha : a < 2 ^ 64) (h : b ≤ a) : wsub a b = a - b := by
  unfold wsub; omega

theorem checkedAdd_eq_some {c : ℕ} : checkedAdd a b = some c ↔ a + b < 2 ^ 64 ∧ c = a + b := by
  unfold checkedAdd
  split
  · next h => simp only [Option.some.injEq, h, true_and]; exact eq_comm
  · next h =>
    simp only [reduceCtorEq, false_iff, not_and]
    exact fun h' => absurd h' h

theorem alignDown_le (x a : ℕ) : alignDown x a ≤ x := div_mul_le_self x a

theorem dvd_alignDown (x a : ℕ) : a ∣ alignDown x a := dvd_mul_left ..

theorem lt_alignDown_add (x : ℕ) (ha : 0 < a) : x < alignDown x a + a := by
  have := lt_div_mul_add ha (a := x)
  simpa [alignDown] using this

theorem alignDown_of_dvd (h : a ∣ x) : alignDown x a = x := Nat.div_mul_cancel h

theorem alignDown_eq (hb : a ∣ b) (hle : b ≤ x) (hlt : x < b + a) : alignDown x a = b := by
  obtain ⟨q, rfl⟩ := hb
  have hq : x / a = q := Nat.div_eq_of_lt_le (by rwa [mul_comm]) (by rw [succ_mul, mul_comm]; exact hlt)
  rw [alignDown, hq, mul_comm]

theorem alignDown_mono {y : ℕ} (a : ℕ) (h : x ≤ y) : alignDown x a ≤ alignDown y a :=
  mul_le_mul_right a (Nat.div_le_div_right h)

/-- Rounding to a finer alignment first makes no difference. -/
theorem alignDown_alignDown (x : ℕ) (h : a ∣ b) : alignDown (alignDown x a) b = alignDown x b := by
  obtain ⟨c, rfl⟩ := h
  rcases Nat.eq_zero_or_pos a with rfl | ha
  · simp [alignDown]
  · simp only [alignDown]
    rw [mul_comm (x / a) a, Nat.mul_div_mul_left _ _ ha, Nat.div_div_eq_div_mul]

/-- Rounding down is clearing the low bits: `x & !(2 ^ k - 1)`. -/
theorem alignDown_eq_land (k : ℕ) (hx : x < 2 ^ 64) (hk : k ≤ 64) :
    alignDown x (2 ^ k) = x &&& (2 ^ 64 - 2 ^ k) := by
  have hmask : ∀ i, (2 ^ 64 - 2 ^ k).testBit i = (decide (k ≤ i) && decide (i < 64)) := by
    intro i
    have hsplit : 2 ^ 64 - 2 ^ k = (2 ^ (64 - k) - 1) <<< k := by
      rw [Nat.shiftLeft_eq, Nat.sub_mul, ← pow_add, Nat.sub_add_cancel hk, one_mul]
    rw [hsplit, testBit_shiftLeft, testBit_two_pow_sub_one]
    by_cases hki : k ≤ i
    · simp only [ge_iff_le, hki, decide_true, Bool.true_and, decide_eq_decide]; omega
    · simp [hki]
  apply eq_of_testBit_eq
  intro i
  rw [testBit_land, hmask, alignDown, ← shiftLeft_eq, ← shiftRight_eq_div_pow,
    testBit_shiftLeft, testBit_shiftRight]
  by_cases hki : k ≤ i
  · rw [Nat.add_sub_cancel' hki]
    by_cases hi : i < 64
    · simp [hki, hi]
    · have : x.testBit i = false :=
        Nat.testBit_lt_two_pow (lt_of_lt_of_le hx (Nat.pow_le_pow_right (by norm_num) (by omega)))
      simp [this]
  · simp [hki]

theorem alignUp_of_lt (h : x + (a - 1) < 2 ^ 64) : alignUp x a = alignDown (x + (a - 1)) a := by
  rw [alignUp, wadd_of_lt h]

theorem dvd_alignUp (x a : ℕ) : a ∣ alignUp x a := dvd_alignDown _ _

theorem alignUp_lt (x a : ℕ) : alignUp x a < 2 ^ 64 :=
  lt_of_le_of_lt (alignDown_le _ _) (wadd_lt _ _)

/-- Without overflow, rounding up does not go below the argument. -/
theorem le_alignUp (ha : 0 < a) (h : x + (a - 1) < 2 ^ 64) : x ≤ alignUp x a := by
  rw [alignUp_of_lt h]
  have := lt_alignDown_add (x + (a - 1)) ha
  omega

end Lib
