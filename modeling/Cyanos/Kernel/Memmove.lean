import Cyanos.Lib.Word
import Mathlib.Data.List.Basic
import Mathlib.Logic.Function.Basic

/-!
# Moving bytes

`memmove` of `kernel/src/mem.rs` and of `userland/libc/src/mem.rs`.

* `memmove_moves` : **both move the bytes, however the ranges overlap**.
-/

namespace Cyanos.Memmove

open Lib Function List

abbrev Memory := ℕ → UInt8

/-- The destination range has the bytes that were in the source range; nothing else has changed. -/
def Moved (dest src count : ℕ) (mem mem' : Memory) : Prop :=
  ∀ a, mem' a = if dest ≤ a ∧ a < dest + count then mem (src + (a - dest)) else mem a

/-- `*dst.add(i) = *src.add(i)`. -/
def copyByte (dst src : ℕ) (mem : Memory) (i : ℕ) : Memory := update mem (dst + i) (mem (src + i))

/-- `memcpy` of the kernel, which steps both pointers. -/
def kernelMemcpy : ℕ → ℕ → ℕ → Memory → Memory
  | _, _, 0, mem => mem
  | dst, src, count + 1, mem => kernelMemcpy (dst + 1) (src + 1) count (copyByte dst src mem 0)

/-- The loop of the kernel's `memmove` that steps both pointers down, but not below the ranges. -/
def copyDown (dest src : ℕ) : ℕ → ℕ → ℕ → Memory → Memory
  | 0, _, _, mem => mem
  | n + 1, dst, srcPtr, mem =>
    copyDown dest src n (if dst ≠ dest then dst - 1 else dst)
      (if srcPtr ≠ src then srcPtr - 1 else srcPtr) (copyByte dst srcPtr mem 0)

/-- `memmove` of the kernel.  The pointers are not used if `count` is `0`. -/
def kernelMemmove (dest src count : ℕ) (mem : Memory) : ℕ × Memory :=
  if dest = src then (dest, mem)
  else if dest < src then (dest, kernelMemcpy dest src count mem)
  else (dest, copyDown dest src count (dest + (count - 1)) (src + (count - 1)) mem)

/-- `memcpy` of the C library. -/
def libcMemcpy (dst src n : ℕ) (mem : Memory) : Memory := (range n).foldl (copyByte dst src) mem

/-- `memmove` of the C library. -/
def libcMemmove (dst src n : ℕ) (mem : Memory) : ℕ × Memory :=
  if dst ≤ src ∨ wadd src n ≤ dst then (dst, libcMemcpy dst src n mem)
  else (dst, (range n).reverse.foldl (copyByte dst src) mem)

variable {dest src count : ℕ} {mem mem' : Memory}

/-- The first byte is copied first. -/
theorem Moved.first (hap : dest ≤ src ∨ src + (count + 1) ≤ dest)
    (h : Moved (dest + 1) (src + 1) count (copyByte dest src mem 0) mem') :
    Moved dest src (count + 1) mem mem' := by
  intro a
  rw [h a]
  simp only [copyByte, update_apply]
  split_ifs <;> first | omega | congr 1 <;> omega

/-- The last byte is copied first. -/
theorem Moved.last (hlt : src < dest)
    (h : Moved dest src count (copyByte dest src mem count) mem') :
    Moved dest src (count + 1) mem mem' := by
  intro a
  rw [h a]
  simp only [copyByte, update_apply]
  split_ifs <;> first | omega | congr 1 <;> omega

theorem moved_kernelMemcpy (hap : dest ≤ src ∨ src + count ≤ dest) :
    Moved dest src count mem (kernelMemcpy dest src count mem) := by
  induction count generalizing dest src mem with
  | zero => intro a; rw [if_neg (by omega)]; rfl
  | succ n ih => exact .first hap (ih (by omega))

theorem libcMemcpy_eq : libcMemcpy dest src count mem = kernelMemcpy dest src count mem := by
  induction count generalizing dest src mem with
  | zero => rfl
  | succ n ih =>
    have hnext : copyByte (dest + 1) (src + 1) = fun mem i => copyByte dest src mem (i + 1) := by
      funext mem i
      simp only [copyByte, Nat.add_assoc, Nat.add_comm 1]
    rw [kernelMemcpy, ← ih, libcMemcpy, libcMemcpy, hnext, range_succ_eq_map, foldl_cons, foldl_map]

theorem moved_reverse (hlt : src < dest) :
    Moved dest src count mem ((range count).reverse.foldl (copyByte dest src) mem) := by
  induction count generalizing mem with
  | zero => intro a; rw [if_neg (by omega)]; rfl
  | succ n ih =>
    rw [range_succ, reverse_concat, foldl_cons]
    exact .last hlt ih

theorem copyDown_eq : copyDown dest src count (dest + (count - 1)) (src + (count - 1)) mem =
    (range count).reverse.foldl (copyByte dest src) mem := by
  induction count generalizing mem with
  | zero => rfl
  | succ n ih =>
    rw [range_succ, reverse_concat, foldl_cons, ← ih, copyDown]
    cases n with
    | zero => rfl
    | succ n => simp [copyByte]

/-- **Both versions of `memmove` move the bytes.** -/
theorem memmove_moves (mem : Memory) (hdest : dest + count ≤ 2 ^ 64)
    (hsrc : src + count ≤ 2 ^ 64) :
    Moved dest src count mem (kernelMemmove dest src count mem).2 ∧
      Moved dest src count mem (libcMemmove dest src count mem).2 := by
  constructor
  · unfold kernelMemmove
    split_ifs with heq hlt
    · intro a
      split_ifs
      · rw [heq, Nat.add_sub_of_le (by omega)]
      · rfl
    · exact moved_kernelMemcpy (.inl hlt.le)
    · rw [copyDown_eq]
      exact moved_reverse (by omega)
  · unfold libcMemmove
    split_ifs with h
    · rw [libcMemcpy_eq]
      refine moved_kernelMemcpy ?_
      rcases Nat.lt_or_eq_of_le hsrc with hlt | htop
      · rwa [wadd_of_lt hlt] at h
      · omega
    · exact moved_reverse (by omega)

/-- Three bytes move up by one. -/
theorem memmove_moves_up : Moved 1 0 3 UInt8.ofNat (kernelMemmove 1 0 3 UInt8.ofNat).2 ∧
    Moved 1 0 3 UInt8.ofNat (libcMemmove 1 0 3 UInt8.ofNat).2 :=
  memmove_moves _ (by decide) (by decide)

end Cyanos.Memmove
