import Mathlib.Data.List.Sort

/-!
# `sed` and `sort`

`sed_replace` and `cmd_sort` of `servers/init/src/lib.rs`.

* `sedReplace_iff` : **`sed_replace` replaces the pattern, unless it is longer than the line**.
* `cmdSort_sorts` : **`cmd_sort` sorts the lines**.
-/

namespace Cyanos.Tools

open List

/-- An entry is added to an array with room for `n` of them; a full array is left as it is. -/
def push {α : Type} (n : ℕ) (l : List α) (a : α) : List α := if l.length < n then l ++ [a] else l

theorem push_take {α : Type} (n : ℕ) (l : List α) (a : α) :
    push n (l.take n) a = (l ++ [a]).take n := by
  rw [push, length_take]
  split
  · rw [take_of_length_le (by omega), take_of_length_le (by simp; omega)]
  · rw [take_append_of_le_length (by omega)]

/-! ### Replacing -/

section Sed

variable (line pat to_ : List UInt8) (global : Bool)

/-- `line[i..i + n]`; `none` is a panic. -/
def slice (line : List UInt8) (i n : ℕ) : Option (List UInt8) :=
  if i + n ≤ line.length then some ((line.drop i).take n) else none

/-- Whether the pattern is to be replaced at `i`. -/
def found (replaced : Bool) (i : ℕ) : Option Bool :=
  if !replaced || global then (slice line i pat.length).map (decide <| · = pat) else some false

/-- The loops of `sed_replace`. -/
def sedLoop : ℕ → ℕ → Bool → List UInt8 → Option (List UInt8)
  | 0, _, _, _ => none
  | fuel + 1, i, replaced, out =>
    if i ≤ line.length - pat.length then
      (found line pat global replaced i).bind fun found =>
        if found then sedLoop fuel (i + pat.length) true (to_.foldl (push 511) out)
        else (line)[i]?.bind fun b => sedLoop fuel (i + 1) replaced (push 511 out b)
    else some ((line.drop i).foldl (push 511) out)

/-- `sed_replace`. -/
def sedReplace : Option (List UInt8) :=
  if pat = [] then some (line.take 511)
  else sedLoop line pat to_ global (line.length + 1) 0 false []

/-- The leftmost occurrences that do not overlap are replaced, all of them or the first. -/
def replace : List UInt8 → List UInt8
  | [] => []
  | c :: cs =>
    if pat <+: c :: cs then
      to_ ++ if global then replace (cs.drop (pat.length - 1)) else cs.drop (pat.length - 1)
    else c :: replace cs
termination_by l => l.length
decreasing_by all_goals simp only [length_drop, length_cons]; omega

end Sed

variable {line pat to_ out : List UInt8} {global : Bool}

theorem foldl_push (bs : List UInt8) :
    bs.foldl (push 511) (out.take 511) = (out ++ bs).take 511 := by
  induction bs generalizing out with
  | nil => rw [append_nil, foldl_nil]
  | cons b bs ih => rw [foldl_cons, push_take, ih, append_assoc, singleton_append]

theorem replace_of_short {l : List UInt8} (h : l.length < pat.length) :
    replace pat to_ global l = l := by
  induction l with
  | nil => rw [replace]
  | cons c cs ih =>
    rw [replace, if_neg fun hp => absurd hp.length_le (by omega), ih (by simp at h; omega)]

/-- What becomes of the rest of the line. -/
def rest (pat to_ : List UInt8) (global replaced : Bool) (l : List UInt8) : List UInt8 :=
  if replaced && !global then l else replace pat to_ global l

theorem rest_cons (hpat : pat ≠ []) {replaced : Bool} {c : UInt8} {cs : List UInt8} :
    rest pat to_ global replaced (c :: cs) =
      if (!replaced || global) ∧ pat <+: c :: cs then
        to_ ++ rest pat to_ global true ((c :: cs).drop pat.length)
      else c :: rest pat to_ global replaced cs := by
  obtain ⟨p, ps, rfl⟩ := exists_cons_of_ne_nil hpat
  cases replaced <;> cases global <;> simp [rest, replace]

theorem sedLoop_eq (hpat : pat ≠ []) (hlen : pat.length ≤ line.length) {fuel i : ℕ}
    (hi : i ≤ line.length) (hfuel : line.length < fuel + i) (replaced : Bool) (out : List UInt8) :
    sedLoop line pat to_ global fuel i replaced (out.take 511) =
      some ((out ++ rest pat to_ global replaced (line.drop i)).take 511) := by
  have hpos := length_pos_iff.2 hpat
  induction fuel generalizing i replaced out with
  | zero => omega
  | succ fuel ih =>
    rw [sedLoop]
    split
    · next hle =>
      have hlt : i < line.length := by omega
      have hcons : line.drop i = (line)[i] :: line.drop (i + 1) := drop_eq_getElem_cons hlt
      have hfound : found line pat global replaced i =
          some (decide ((!replaced || global) ∧ pat <+: line.drop i)) := by
        have hslice : slice line i pat.length = some ((line.drop i).take pat.length) :=
          if_pos (by omega)
        rw [found, hslice]
        cases (!replaced || global)
        · simp
        · simp [prefix_iff_eq_take, eq_comm]
      rw [hfound, Option.bind_some, hcons, rest_cons hpat, ← hcons]
      by_cases h : (!replaced || global) ∧ pat <+: line.drop i
      · rw [if_pos (decide_eq_true h), if_pos h, foldl_push, ih (by omega) (by omega), drop_drop,
          append_assoc]
      · rw [if_neg (by simpa using h), if_neg h, getElem?_eq_getElem hlt, Option.bind_some,
          push_take, ih hlt (by omega), append_assoc, singleton_append]
    · next hgt =>
      rw [foldl_push, rest, replace_of_short (by rw [length_drop]; omega), ite_self]

/-- **The pattern is replaced, unless it is longer than the line.** -/
theorem sedReplace_iff : sedReplace line pat to_ global =
      some ((if pat = [] then line else replace pat to_ global line).take 511) ↔
    pat = [] ∨ pat.length ≤ line.length := by
  by_cases hpat : pat = []
  · simp [sedReplace, hpat]
  rw [sedReplace, if_neg hpat, if_neg hpat, or_iff_right hpat]
  constructor
  · intro h
    by_contra hlen
    have hnone : slice line 0 pat.length = none := if_neg (by omega)
    rw [sedLoop, if_pos (Nat.zero_le _), found, hnone] at h
    cases h
  · intro hlen
    exact sedLoop_eq hpat hlen (Nat.zero_le _) (by omega) false []

/-- An empty line is a panic. -/
theorem sedReplace_empty_line : sedReplace [] [97] [98] true = none := rfl

/-! ### Sorting -/

/-- The lines, and the one being read. -/
abbrev Lines : Type := List (List UInt8) × List UInt8

/-- A byte of the input of `cmd_sort`. -/
def sortByte (s : Lines) (c : UInt8) : Lines :=
  if c = 10 then (push 64 s.1 s.2, []) else (s.1, push 127 s.2 c)

/-- A last line without a newline. -/
def sortLast (s : Lines) : List (List UInt8) := if s.2 = [] then s.1 else push 64 s.1 s.2

/-- The line `j` moves up past the greater ones. -/
def sift : ℕ → List (List UInt8) → List (List UInt8)
  | 0, lines => lines
  | j + 1, lines =>
    let a := lines.getD j []
    let b := lines.getD (j + 1) []
    if b < a then sift j ((lines.set j b).set (j + 1) a) else lines

/-- `cmd_sort`: the lines printed, given what the reads return.  The first empty one is the last. -/
def cmdSort (reads : List (List UInt8)) : List (List UInt8) :=
  let lines :=
    sortLast ((reads.takeWhile (· ≠ [])).foldl (fun s buf => buf.foldl sortByte s) ([], []))
  (range' 1 (lines.length - 1)).foldl (fun lines i => sift i lines) lines

/-- The lines of a text that follows `cur`. -/
def linesOf (cur : List UInt8) : List UInt8 → List (List UInt8)
  | [] => if cur = [] then [] else [cur]
  | c :: cs => if c = 10 then cur :: linesOf [] cs else linesOf (cur ++ [c]) cs

/-- Lines as they are stored. -/
def stored (lines : List (List UInt8)) : List (List UInt8) := (lines.map (take 127)).take 64

theorem push_stored (lines : List (List UInt8)) (cur : List UInt8) :
    push 64 (stored lines) (cur.take 127) = stored (lines ++ [cur]) := by
  rw [stored, push_take, stored, map_append, map_singleton]

theorem sortByte_stored (bs : List UInt8) (lines : List (List UInt8)) (cur : List UInt8) :
    sortLast (bs.foldl sortByte (stored lines, cur.take 127)) =
      stored (lines ++ linesOf cur bs) := by
  induction bs generalizing lines cur with
  | nil =>
    rw [foldl_nil, sortLast, linesOf]
    by_cases hcur : cur = []
    · simp [hcur]
    · rw [if_neg (by simpa using hcur), if_neg hcur, push_stored]
  | cons c cs ih =>
    rw [foldl_cons, sortByte, linesOf]
    split
    · rw [push_stored, append_cons lines cur (linesOf [] cs)]
      exact ih (lines ++ [cur]) []
    · rw [push_take, ih]

/-- The line goes to its place among the ones before it. -/
theorem sift_eq (p : List (List UInt8)) (x : List UInt8) (q : List (List UInt8)) :
    sift p.length (p.reverse ++ x :: q) = (p.orderedInsert (· ≥ ·) x).reverse ++ q := by
  induction p generalizing q with
  | nil => rfl
  | cons y p ih =>
    rw [length_cons, sift, orderedInsert, reverse_cons]
    by_cases hxy : x < y
    · simpa [hxy, List.not_le.2 hxy] using ih (y :: q)
    · simp [hxy, List.not_lt.1 hxy]

theorem foldl_sift_eq (p q : List (List UInt8)) :
    (range' p.length q.length).foldl (fun lines i => sift i lines) (p.reverse ++ q) =
      (q.foldl (fun p x => p.orderedInsert (· ≥ ·) x) p).reverse := by
  induction q generalizing p with
  | nil => exact append_nil _
  | cons x q ih =>
    rw [length_cons, range'_succ, foldl_cons, sift_eq, ← orderedInsert_length (· ≥ ·) p x, ih,
      foldl_cons]

/-- The loops of `cmd_sort` are an insertion sort, from the last place down. -/
theorem sift_all_eq (lines : List (List UInt8)) :
    (range' 1 (lines.length - 1)).foldl (fun lines i => sift i lines) lines =
      (lines.reverse.insertionSort (· ≥ ·)).reverse := by
  cases lines with
  | nil => rfl
  | cons x q =>
    rw [insertionSort, foldr_reverse]
    exact foldl_sift_eq [x] q

/-- **The first 64 lines, each cut to 127 bytes, are sorted.** -/
theorem cmdSort_sorts (reads : List (List UInt8)) :
    cmdSort reads ~ stored (linesOf [] (reads.takeWhile (· ≠ [])).flatten) ∧
      (cmdSort reads).Pairwise (· ≤ ·) := by
  rw [cmdSort, ← foldl_flatten]
  have hread := sortByte_stored (reads.takeWhile (· ≠ [])).flatten [] []
  rw [show (([], []) : Lines) = (stored [], take 127 []) from rfl, hread, nil_append, sift_all_eq]
  exact ⟨(reverse_perm _).trans ((perm_insertionSort _ _).trans (reverse_perm _)),
    pairwise_reverse.2 (pairwise_insertionSort (· ≥ ·) _)⟩

end Cyanos.Tools
