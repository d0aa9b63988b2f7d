import Cyanos.Lib.Reads

/-!
# The start of a program

`__libc_start_main` and `parse_auxv` of `userland/libc/src/start.rs`.  At its first instruction a
program finds at its stack pointer the number of its arguments, the array of pointers to them, the
array of pointers to its environment, and the auxiliary vector.

A read that faults is `none`.  The two loops run until they find a zero; `fuel` bounds their turns,
and running out of it is `none` as well.  The message that is printed first and what follows `main`
are left out.
-/

namespace Cyanos.Libc

open Lib

variable (read : ℕ → Option UInt8)

/-- What `main` is called with. -/
structure MainArgs where
  /-- The number of arguments, an `i32`. -/
  argc : ℤ
  /-- The address of the array of arguments. -/
  argv : ℕ
  /-- The address of the array of environment strings. -/
  envp : ℕ
  deriving DecidableEq, Repr

/-- `while !(*ep).is_null() { ep = ep.add(1); }`. -/
def skipStrings : ℕ → ℕ → Option ℕ
  | 0, _ => none
  | fuel + 1, ep => do
    let p ← readWord read ep
    if p = 0 then some ep else skipStrings fuel (wadd ep 8)

/-- `parse_auxv(av)`; the result is where it stops. -/
def parseAuxv : ℕ → ℕ → Option ℕ
  | 0, _ => none
  | fuel + 1, av => do
    let tag ← readWord read av
    let av := wadd av 8
    let _val ← readWord read av
    let av := wadd av 8
    if tag = 0 then some av else parseAuxv fuel av

/-- `__libc_start_main(sp)`, up to the call of `main`. -/
def libcStartMain (fuel sp : ℕ) : Option MainArgs := do
  -- `*sp as i32`, and back with `argc as usize`
  let argc := Int.bmod (← readWord read sp) (2 ^ 32)
  let argv := wadd sp 8
  let envp := wadd argv (8 * ((argc % 2 ^ 64).toNat + 1))
  let ep ← skipStrings read fuel envp
  let auxv := wadd ep 8
  let _ ← parseAuxv read fuel auxv
  some ⟨argc, argv, envp⟩

variable {read}

/-- A small number survives the casts to `i32` and back. -/
theorem bmod_spec {n : ℕ} (h : n < 2 ^ 31) :
    Int.bmod (n : ℤ) (2 ^ 32) = n ∧ ((n : ℤ) % 2 ^ 64).toNat = n := by
  constructor
  · exact Int.bmod_eq_of_le (by omega) (by omega)
  · omega

/-- The loop over an array of strings stops at its end. -/
theorem skipStrings_eq {ss : List (List UInt8)} {a fuel : ℕ} (h : StringArray read a ss)
    (ha : a + 8 * ss.length < 2 ^ 64) (hfuel : ss.length < fuel) :
    skipStrings read fuel a = some (a + 8 * ss.length) := by
  induction ss generalizing a fuel with
  | nil =>
    obtain ⟨fuel, rfl⟩ := Nat.exists_eq_add_of_lt hfuel
    have hnull : readWord read a = some 0 := h
    simp [skipStrings, hnull]
  | cons s ss ih =>
    obtain ⟨fuel, rfl⟩ := Nat.exists_eq_add_of_lt hfuel
    obtain ⟨⟨p, hp, hne, -⟩, hrest⟩ := h
    rw [List.length_cons] at ha
    have hnext : wadd a 8 = a + 8 := wadd_of_lt (by omega)
    have hskip : skipStrings read (ss.length + 1 + fuel) (a + 8) = some (a + 8 + 8 * ss.length) :=
      ih hrest (by omega) (by omega)
    simp only [List.length_cons, skipStrings, hp, Option.bind_eq_bind, Option.bind_some, if_neg hne,
      hnext, hskip]
    rw [Nat.mul_add, Nat.add_assoc, Nat.add_comm 8]

/-- The loop over pairs with tags that are not `0` stops behind the pair with tag `0`. -/
theorem parseAuxv_eq {pairs : List (ℕ × ℕ)} {a fuel v : ℕ}
    (h : Words read a (pairs.flatMap (fun p => [p.1, p.2]) ++ [0, v]))
    (htags : ∀ p ∈ pairs, p.1 % 2 ^ 64 ≠ 0) (ha : a + 16 * (pairs.length + 1) < 2 ^ 64)
    (hfuel : pairs.length < fuel) :
    parseAuxv read fuel a = some (a + 16 * (pairs.length + 1)) := by
  induction pairs generalizing a fuel with
  | nil =>
    obtain ⟨fuel, rfl⟩ := Nat.exists_eq_add_of_lt hfuel
    obtain ⟨htag, hval, -⟩ := h
    rw [List.length_nil] at ha
    have h8 : wadd a 8 = a + 8 := wadd_of_lt (by omega)
    have h16 : wadd (a + 8) 8 = a + 16 := wadd_of_lt (by omega)
    simp [parseAuxv, htag, h8, hval, h16]
  | cons p pairs ih =>
    obtain ⟨fuel, rfl⟩ := Nat.exists_eq_add_of_lt hfuel
    obtain ⟨htag, hval, hrest⟩ := h
    have hne := htags p (.head _)
    rw [List.length_cons] at ha
    have h8 : wadd a 8 = a + 8 := wadd_of_lt (by omega)
    have h16 : wadd (a + 8) 8 = a + 16 := wadd_of_lt (by omega)
    have hnext : parseAuxv read (pairs.length + 1 + fuel) (a + 16) =
        some (a + 16 + 16 * (pairs.length + 1)) :=
      ih hrest (fun q hq => htags q (.tail _ hq)) (by omega) (by omega)
    simp only [List.length_cons, parseAuxv, htag, Option.bind_eq_bind, Option.bind_some, h8, hval, h16,
      if_neg hne]
    rw [hnext]
    refine congrArg some ?_
    omega

end Cyanos.Libc
