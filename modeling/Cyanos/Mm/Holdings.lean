import Cyanos.Lib.Slots
import Cyanos.Mm.Vmm
import Mathlib.Data.Nat.Log
import Mathlib.Tactic.Linarith

/-!
# What an address space holds

A `Holding` is a block of physical memory that a region holds, with the pages of virtual memory the
region maps to it: the one block of an eager region, or one of the pages of a lazy region.  The
operations of the memory manager add holdings and give them back (`retire`: unmap the pages, then
free the block); the lemmas here say which.
-/

namespace Cyanos

open Lib Machine List Option VmaRegion Nat

/-! ### `pages_to_order` -/

theorem growOrder_eq (pages : ℕ) :
    ∀ fuel order, pages ≤ 2 ^ (order + fuel) → (order = 0 ∨ 2 ^ (order - 1) < pages) →
      growOrder pages fuel (2 ^ order) order = Nat.clog 2 pages := by
  intro fuel
  induction fuel with
  | zero =>
    intro order hle hlt
    have hge : clog 2 pages ≤ order := clog_le_of_le_pow hle
    rcases hlt with rfl | hlt
    · simp only [growOrder]; omega
    · have := (lt_clog_iff_pow_lt (by norm_num)).2 hlt
      simp only [growOrder]; omega
  | succ fuel ih =>
    intro order hle hlt
    simp only [growOrder]
    split
    · next h =>
      rw [shiftLeft_eq, ← pow_add]
      exact ih (order + 1) (by rwa [add_right_comm, add_assoc]) (.inr (by simpa using h))
    · next h =>
      have hge : clog 2 pages ≤ order := clog_le_of_le_pow (not_lt.1 h)
      rcases hlt with rfl | hlt
      · omega
      · have := (lt_clog_iff_pow_lt (by norm_num)).2 hlt
        omega

theorem pagesToOrder_eq {pages : ℕ} (h : pages ≤ 2 ^ 52) : pagesToOrder pages = clog 2 pages :=
  growOrder_eq pages 64 0 (h.trans (Nat.pow_le_pow_right (by norm_num) (by norm_num))) (.inl rfl)

/-- The block of that order holds the pages. -/
theorem le_two_pow_pagesToOrder {pages : ℕ} (h : pages ≤ 2 ^ 52) :
    pages ≤ 2 ^ pagesToOrder pages := by
  rw [pagesToOrder_eq h]
  exact le_pow_clog (by norm_num) pages

theorem mul_le_size {pages addr : ℕ} (h : pages ≤ 2 ^ 52) :
    pages * pageSize ≤ Block.size pageSize ⟨addr, pagesToOrder pages⟩ := by
  rw [Block.size, mul_comm]
  exact mul_le_mul_left _ (le_two_pow_pagesToOrder h)

/-- A page of a block in memory. -/
theorem wadd_page {b : Block} {j n : ℕ} (hb : b.addr + b.size pageSize ≤ 2 ^ 64) (hn : n ≤ 2 ^ b.order)
    (hj : j < n) : wadd b.addr (j * pageSize) = b.addr + j * pageSize ∧
      b.Has pageSize (b.addr + j * pageSize) := by
  have hlt : j * pageSize < b.size pageSize := by
    rw [Block.size, mul_comm]
    exact mul_lt_mul_of_pos_left (by omega) (by decide)
  exact ⟨wadd_of_lt (by omega), by omega, by omega⟩

theorem pagesToOrder_mono {m n : ℕ} (h : m ≤ n) (hn : n ≤ 2 ^ 52) :
    pagesToOrder m ≤ pagesToOrder n := by
  rw [pagesToOrder_eq hn, pagesToOrder_eq (h.trans hn)]
  exact clog_mono_right 2 h

theorem VmaRegion.pages_le (r : VmaRegion) : r.pages ≤ 2 ^ 52 := by
  have := wsub_lt r.end_ r.start
  unfold pages pageSize
  omega

/-! ### Holdings -/

/-- A block of physical memory and the pages mapped to it. -/
structure Holding where
  /-- The block. -/
  block : Block
  /-- First virtual address. -/
  virt : ℕ
  /-- Number of pages. -/
  pages : ℕ

/-- The blocks of holdings. -/
def blocksOf (hs : List Holding) : List Block := hs.map Holding.block

/-- The address is that of one of the pages. -/
def Holding.At (h : Holding) (va : ℕ) : Prop := ∃ i < h.pages, va = wadd h.virt (i * pageSize)

/-- The pages of a lazy region from index `i` on. -/
def lazyHoldings (start : ℕ) : ℕ → List ℕ → List Holding
  | _, [] => []
  | i, f :: fs =>
    if f ≠ 0 then ⟨⟨f, 0⟩, wadd start (i * pageSize), 1⟩ :: lazyHoldings start (i + 1) fs
    else lazyHoldings start (i + 1) fs

/-- What a region holds.  A block at address `0` counts as none. -/
def VmaRegion.holdings (r : VmaRegion) : List Holding :=
  if r.lazy then lazyHoldings r.start 0 r.lazyPages
  else if r.phys ≠ 0 then [⟨⟨r.phys, pagesToOrder r.pages⟩, r.start, r.pages⟩]
  else []

variable {r : VmaRegion}

theorem VmaRegion.holdings_of_lazy (hl : r.lazy = true) :
    r.holdings = lazyHoldings r.start 0 r.lazyPages := if_pos hl

theorem VmaRegion.holdings_of_eager (hl : r.lazy = false) (hp : r.phys ≠ 0) :
    r.holdings = [⟨⟨r.phys, pagesToOrder r.pages⟩, r.start, r.pages⟩] := by
  rw [holdings, if_neg (by simp [hl]), if_pos hp]

theorem VmaRegion.holdings_of_phys_zero (hl : r.lazy = false) (hp : r.phys = 0) :
    r.holdings = [] := by
  rw [holdings, if_neg (by simp [hl]), if_neg (by simp [hp])]

/-- What the regions in the slots hold. -/
def holdings (slots : List (Option VmaRegion)) : List Holding :=
  slots.flatMap fun slot => slot.elim [] VmaRegion.holdings

@[simp] theorem holdings_cons (slot : Option VmaRegion) (slots : List (Option VmaRegion)) :
    holdings (slot :: slots) = slot.elim [] VmaRegion.holdings ++ holdings slots := rfl

/-- Filling a slot changes the holdings by those of the region it had and has now. -/
theorem holdings_setRegion {s : AddressSpace} {slot : ℕ} {old : Option VmaRegion}
    (hs gone : List Holding) (hget : s.regions[slot]? = some old)
    (hr : (hs ++ old.elim [] VmaRegion.holdings).Perm (gone ++ r.holdings)) :
    (hs ++ holdings s.regions).Perm (gone ++ holdings (s.setRegion slot r).regions) := by
  obtain ⟨rest, hold, hnew⟩ := flatMap_set hget (some r)
  refine ((hold.append_left hs).trans ?_).trans (hnew.symm.append_left gone)
  rw [← append_assoc, ← append_assoc]
  exact hr.append_right rest

/-- An aligned address is as many pages from another as their difference says. -/
theorem add_wsub_div {a b : ℕ} (hb : b < 2 ^ 64) (hda : pageSize ∣ a)
    (hdb : pageSize ∣ b) : a % 2 ^ 64 = (b + wsub a b / pageSize * pageSize) % 2 ^ 64 := by
  have hd : pageSize ∣ wsub a b := by
    rw [wsub, dvd_mod_iff (by decide)]
    exact Nat.dvd_add hda (Nat.dvd_sub (by decide) hdb)
  rw [Nat.div_mul_cancel hd, wsub]
  omega

section Lazy

variable {start : ℕ}

@[simp] theorem lazyHoldings_zero (i : ℕ) (fs : List ℕ) :
    lazyHoldings start i (0 :: fs) = lazyHoldings start (i + 1) fs := rfl

theorem lazyHoldings_append (i : ℕ) (fs gs : List ℕ) :
    lazyHoldings start i (fs ++ gs) =
      lazyHoldings start i fs ++ lazyHoldings start (i + fs.length) gs := by
  induction fs generalizing i with
  | nil => rfl
  | cons f fs ih =>
    simp only [cons_append, lazyHoldings, ih]
    rw [add_right_comm i 1, add_assoc i]
    split <;> rfl

theorem lazyHoldings_replicate_zero (i n : ℕ) : lazyHoldings start i (replicate n 0) = [] := by
  induction n generalizing i with
  | zero => rfl
  | succ n ih => rw [replicate_succ, lazyHoldings_zero, ih]

/-- Counting the pages from a later address on. -/
theorem lazyHoldings_shift {start' k : ℕ} (h : start' % 2 ^ 64 = (start + k * pageSize) % 2 ^ 64)
    (i : ℕ) (fs : List ℕ) : lazyHoldings start (k + i) fs = lazyHoldings start' i fs := by
  induction fs generalizing i with
  | nil => rfl
  | cons f fs ih =>
    have hva : wadd start ((k + i) * pageSize) = wadd start' (i * pageSize) := by
      rw [wadd, wadd, add_mul, ← add_assoc, add_mod, ← h, ← add_mod]
    simp only [lazyHoldings, hva, add_assoc, ih]

theorem lazyHoldings_split {start' k : ℕ}
    (h : start' % 2 ^ 64 = (start + k * pageSize) % 2 ^ 64) (fs : List ℕ) :
    lazyHoldings start 0 fs =
      lazyHoldings start 0 (fs.take k) ++ lazyHoldings start' 0 (fs.drop k) := by
  conv_lhs => rw [← take_append_drop k fs, lazyHoldings_append]
  rcases lt_or_ge fs.length k with hk | hk
  · rw [drop_eq_nil_of_le hk.le]
    rfl
  · rw [length_take, min_eq_left hk, zero_add, ← lazyHoldings_shift h 0, add_zero]

/-- Backing one page adds its holding. -/
theorem lazyHoldings_set (start : ℕ) {f : ℕ} (hf : f ≠ 0) (i idx : ℕ) (fs : List ℕ)
    (h : fs.getD idx 0 = 0) :
    (lazyHoldings start i ((fs ++ replicate (idx + 1 - fs.length) 0).set idx f)).Perm
      (⟨⟨f, 0⟩, wadd start ((i + idx) * pageSize), 1⟩ :: lazyHoldings start i fs) := by
  induction fs generalizing i idx with
  | nil =>
    -- past the end of the list the vector is filled up with zeros first
    simp only [length_nil, Nat.sub_zero, nil_append, lazyHoldings]
    rw [replicate_succ', set_append_right _ _ (by simp)]
    simp [lazyHoldings_append, lazyHoldings_replicate_zero, lazyHoldings, hf]
  | cons g gs ih =>
    cases idx with
    | zero =>
      obtain rfl : g = 0 := by simpa using h
      simp [lazyHoldings, hf]
    | succ idx =>
      have hlen : idx + 1 + 1 - (g :: gs).length = idx + 1 - gs.length := by
        rw [length_cons]; omega
      have hih := ih (i + 1) idx (by simpa using h)
      rw [show i + 1 + idx = i + (idx + 1) by omega] at hih
      rw [hlen, cons_append, set_cons_succ]
      simp only [lazyHoldings]
      split
      · exact (hih.cons _).trans (.swap _ _ _)
      · exact hih

/-- A page at address `0` counts as none. -/
theorem lazyHoldings_set_zero (i idx : ℕ) (fs : List ℕ) (h : fs.getD idx 0 = 0) :
    lazyHoldings start i ((fs ++ replicate (idx + 1 - fs.length) 0).set idx 0) =
      lazyHoldings start i fs := by
  induction fs generalizing i idx with
  | nil => simp [set_replicate_self, lazyHoldings_replicate_zero, lazyHoldings]
  | cons g gs ih =>
    cases idx with
    | zero =>
      obtain rfl : g = 0 := by simpa using h
      simp
    | succ idx =>
      have hlen : idx + 1 + 1 - (g :: gs).length = idx + 1 - gs.length := by
        rw [length_cons]; omega
      rw [hlen, cons_append, set_cons_succ]
      simp only [lazyHoldings, ih (i + 1) idx (by simpa using h)]

end Lazy

/-! ### Giving holdings back -/

section Retire

variable {W : Type} [Machine W] {w w' : W} {root i virt : ℕ}
  {f : W → Option VmaRegion → Option (Option VmaRegion × W)} {slots : List (Option VmaRegion)}

/-- Unmap the pages of a holding and free its block. -/
def retire (root : ℕ) (w : W) (h : Holding) : Option W :=
  buddyFree (unmapPages w root h.virt h.pages) h.block.addr h.block.order

/-- `lazy_pages` after `freeLazy`. -/
def clearPages (first last : ℕ) : ℕ → List ℕ → List ℕ
  | _, [] => []
  | i, f :: fs => (if first ≤ i ∧ i < last then 0 else f) :: clearPages first last (i + 1) fs

theorem getElem?_clearPages (first last i j : ℕ) (fs : List ℕ) :
    (clearPages first last i fs)[j]? =
      fs[j]?.map fun f => if first ≤ i + j ∧ i + j < last then 0 else f := by
  induction fs generalizing i j with
  | nil => rfl
  | cons f fs ih =>
    cases j with
    | zero => rfl
    | succ =>
      simp only [clearPages, getElem?_cons_succ, ih, add_right_comm i 1, add_assoc i]

theorem unmapPages_succ (w : W) (root virt n : ℕ) :
    unmapPages w root virt (n + 1) =
      unmapPage (unmapPages w root virt n) root (wadd virt (n * pageSize)) := by
  rw [unmapPages, range_succ, foldl_append]
  rfl

theorem unmapPages_one (w : W) (root : ℕ) {va : ℕ} (h : va < 2 ^ 64) :
    unmapPages w root va 1 = unmapPage w root va := by
  simp [unmapPages, wadd_zero h]

/-- What unmapping each of the pages keeps. -/
theorem unmapPages_keeps {J : W → Prop} {n : ℕ}
    (hJ : ∀ i < n, ∀ w, J w → J (unmapPage w root (wadd virt (i * pageSize)))) (hw : J w) :
    J (unmapPages w root virt n) := by
  induction n with
  | zero => exact hw
  | succ n ih =>
    rw [unmapPages_succ]
    exact hJ n (by omega) _ (ih fun i hi => hJ i (by omega))

/-- What mapping each of the pages keeps. -/
theorem mapPages_keeps {J : W → Prop} {phys n : ℕ} {flags : PageFlags} {res : Option ℕ}
    (hJ : ∀ j w, i ≤ j → j < i + n → J w →
      J (mapPage w root (wadd virt (j * pageSize)) (wadd phys (j * pageSize)) flags).2)
    (h : mapPages root virt phys flags n i w = (res, w')) (hw : J w) : J w' := by
  induction n generalizing i w with
  | zero =>
    cases h
    exact hw
  | succ n ih =>
    have h1 := hJ i w le_rfl (by omega) hw
    rw [mapPages] at h
    split at h
    · next w₁ hmap =>
      rw [hmap] at h1
      exact ih (fun j w hj hj' => hJ j w (by omega) (by omega)) h h1
    · next w₁ hmap =>
      rw [hmap] at h1
      cases h
      exact h1

/-- The page that `mapPages` reports is one it tried to map. -/
theorem mapPages_index {phys n k : ℕ} {flags : PageFlags}
    (h : mapPages root virt phys flags n i w = (some k, w')) : i ≤ k ∧ k < i + n := by
  induction n generalizing i w with
  | zero => cases (Prod.mk.inj h).1
  | succ n ih =>
    rw [mapPages] at h
    split at h
    · have := ih h
      omega
    · cases h
      omega

theorem mapPages_getD_le {phys n : ℕ} {flags : PageFlags} {res : Option ℕ}
    (h : mapPages root virt phys flags n 0 w = (res, w')) : res.getD n ≤ n := by
  cases res with
  | none => exact le_rfl
  | some =>
    have := mapPages_index h
    rw [getD_some]
    omega

/-- **What `freeLazy` does**: it clears the entries in its range and gives back what they hold. -/
theorem freeLazy_spec {start first last : ℕ} {fs fs' : List ℕ}
    (h : freeLazy root start first last i fs w = some (fs', w')) :
    fs' = clearPages first last i fs ∧
      ∃ gone, (lazyHoldings start i fs).Perm (gone ++ lazyHoldings start i fs') ∧
        gone.foldlM (retire root) w = some w' := by
  induction fs generalizing i fs' w with
  | nil =>
    cases h
    exact ⟨rfl, [], .refl _, rfl⟩
  | cons f fs ih =>
    simp only [freeLazy] at h
    split at h
    · next hf =>
      obtain ⟨w₁, hfree, h⟩ := bind_eq_some_iff.1 h
      obtain ⟨⟨gs, w₂⟩, hrest, h⟩ := bind_eq_some_iff.1 h
      cases h
      obtain ⟨rfl, gone, hperm, hgone⟩ := ih hrest
      refine ⟨by rw [clearPages, if_pos ⟨hf.1, hf.2.1⟩],
        ⟨⟨f, 0⟩, wadd start (i * pageSize), 1⟩ :: gone, ?_, ?_⟩
      · simp only [lazyHoldings, if_pos hf.2.2]
        exact hperm.cons _
      · simp only [foldlM_cons, retire, unmapPages_one _ _ (wadd_lt _ _), hfree]
        exact hgone
    · next hf =>
      obtain ⟨⟨gs, w₂⟩, hrest, h⟩ := bind_eq_some_iff.1 h
      cases h
      obtain ⟨rfl, gone, hperm, hgone⟩ := ih hrest
      have hhead : (if first ≤ i ∧ i < last then 0 else f) = f := by
        split
        · by_contra h0
          exact hf ⟨by omega, by omega, fun h => h0 h.symm⟩
        · rfl
      refine ⟨by rw [clearPages, hhead], gone, ?_, hgone⟩
      simp only [lazyHoldings]
      split
      · exact (hperm.cons _).trans perm_middle.symm
      · exact hperm

/-! ### What `unmap_range` does to a slot -/

namespace AddressSpace

variable {root virt end_ : ℕ} {r : VmaRegion} {slot : Option VmaRegion} {w w' : W}

theorem unmapSlot_of_not_meets (h : ¬ r.Meets virt end_) :
    unmapSlot root virt end_ w (some r) = some (some r, w) := by
  rw [unmapSlot, if_neg h]

/-- A lazy region gives back the pages in the range, and keeps those of the region it becomes. -/
theorem unmapSlot_lazy (hm : r.Meets virt end_) (hl : r.lazy = true)
    (h : unmapSlot root virt end_ w (some r) = some (slot, w')) :
    ∃ fs, freeLazy root r.start (wsub (max virt r.start) r.start / pageSize)
        (wadd (wsub (min end_ r.end_) r.start) (pageSize - 1) / pageSize) 0 r.lazyPages w =
          some (fs, w') ∧
      ((virt ≤ r.start ∧ r.end_ ≤ end_ ∧ slot = none) ∨
      (virt ≤ r.start ∧ end_ < r.end_ ∧ slot = some
        { r with start := end_, lazyPages := fs.drop (wsub end_ r.start / pageSize) }) ∨
      r.start < virt ∧ slot = some { r with end_ := virt, lazyPages := fs }) := by
  simp only [unmapSlot, if_pos hm, hl, if_true, Bool.not_true, Bool.false_eq_true, false_and,
    if_false] at h
  obtain ⟨⟨fs, w₁⟩, hfree, h⟩ := bind_eq_some_iff.1 h
  refine ⟨fs, ?_⟩
  split at h
  · cases h
    exact ⟨hfree, .inl ⟨by omega, by omega, rfl⟩⟩
  split at h
  · have hlt : end_ < r.end_ := by omega
    rw [min_eq_left hlt.le] at h
    cases h
    exact ⟨hfree, .inr (.inl ⟨by omega, hlt, by rw [hl]⟩)⟩
  · have hlt : r.start < virt := by omega
    rw [max_eq_left hlt.le] at h
    cases h
    exact ⟨hfree, .inr (.inr ⟨hlt, by rw [hl]⟩)⟩

/-- An eager region has the pages in the range unmapped; its block is freed when all of them are. -/
theorem unmapSlot_eager (hm : r.Meets virt end_) (hl : r.lazy = false)
    (h : unmapSlot root virt end_ w (some r) = some (slot, w')) :
    (virt ≤ r.start ∧ r.end_ ≤ end_ ∧ slot = none ∧
      (if r.phys ≠ 0 then retire root w ⟨⟨r.phys, pagesToOrder r.pages⟩, r.start, r.pages⟩
        else some (unmapPages w root r.start r.pages)) = some w') ∨
    (virt ≤ r.start ∧ end_ < r.end_ ∧ w' = unmapPages w root r.start (wsub end_ r.start / pageSize) ∧
      slot = some
        { r with
          start := end_
          phys := if r.phys ≠ 0 then wadd r.phys (wsub end_ r.start) else r.phys }) ∨
    (r.start < virt ∧ w' = unmapPages w root virt (wsub (min end_ r.end_) virt / pageSize) ∧
      slot = some { r with end_ := virt }) := by
  simp only [unmapSlot, if_pos hm, hl, Bool.false_eq_true, if_false, Bool.not_false, true_and] at h
  obtain ⟨⟨fs, w₁⟩, hw1, h⟩ := bind_eq_some_iff.1 h
  cases hw1
  split at h
  · next hw =>
    rw [hw.1, hw.2] at h
    refine .inl ⟨by omega, by omega, ?_⟩
    split at h
    · next hp =>
      obtain ⟨w₂, hfree, h⟩ := bind_eq_some_iff.1 h
      cases h
      exact ⟨rfl, (if_pos hp).trans hfree⟩
    · next hp =>
      cases h
      exact ⟨rfl, if_neg hp⟩
  split at h
  · next hf =>
    have hlt : end_ < r.end_ := by omega
    rw [hf, min_eq_left hlt.le] at h
    cases h
    exact .inr (.inl ⟨by omega, hlt, rfl, by rw [hl]⟩)
  · have hlt : r.start < virt := by omega
    rw [max_eq_left hlt.le] at h
    cases h
    exact .inr (.inr ⟨hlt, rfl, by rw [hl]⟩)

/-- What is left of a region: all of it if it does not meet the range, or else what lies behind the
range or in front of it. -/
theorem unmapSlot_left {r' : VmaRegion}
    (h : unmapSlot root virt end_ w (some r) = some (some r', w')) :
    (¬ r.Meets virt end_ ∧ r' = r) ∨ r.Meets virt end_ ∧
      ((end_ < r.end_ ∧ ∃ phys fs, r' = { r with start := end_, phys := phys, lazyPages := fs }) ∨
      r.start < virt ∧ ∃ fs, r' = { r with end_ := virt, lazyPages := fs }) := by
  by_cases hm : r.Meets virt end_
  swap
  · rw [unmapSlot_of_not_meets hm] at h
    cases h
    exact .inl ⟨hm, rfl⟩
  refine .inr ⟨hm, ?_⟩
  by_cases hl : r.lazy = true
  · obtain ⟨fs, -, ⟨-, -, hs⟩ | ⟨-, hlt, hs⟩ | ⟨hlt, hs⟩⟩ := unmapSlot_lazy hm hl h
    · cases hs
    · exact .inl ⟨hlt, r.phys, _, some.inj hs⟩
    · exact .inr ⟨hlt, fs, some.inj hs⟩
  · rcases unmapSlot_eager hm (by simpa using hl) h with
      ⟨-, -, hs, -⟩ | ⟨-, hlt, -, hs⟩ | ⟨hlt, -, hs⟩
    · cases hs
    · exact .inl ⟨hlt, _, r.lazyPages, some.inj hs⟩
    · exact .inr ⟨hlt, r.lazyPages, some.inj hs⟩

end AddressSpace

/-! ### Shapes of regions -/

/-- Page-aligned bounds; in order, for an eager region. -/
structure VmaRegion.Shaped (r : VmaRegion) : Prop where
  dvd_start : pageSize ∣ r.start
  dvd_end : pageSize ∣ r.end_
  start_lt : r.start < 2 ^ 64
  end_lt : r.end_ < 2 ^ 64
  le : r.lazy = false → r.start ≤ r.end_

/-- If `[virt, end_)` meets an eager region it reaches the region's end. -/
def VmaRegion.CutAtEnd (virt end_ : ℕ) (r : VmaRegion) : Prop :=
  r.lazy = false → r.phys ≠ 0 → r.Meets virt end_ → r.end_ ≤ end_

instance (virt end_ : ℕ) (r : VmaRegion) : Decidable (r.CutAtEnd virt end_) :=
  inferInstanceAs (Decidable (_ → _))

/-- A slot keeps its shape, and does not meet the range any more. -/
theorem AddressSpace.shaped_unmapSlot {end_ : ℕ} {slot slot' : Option VmaRegion}
    (hr : ∀ r, slot = some r → r.Shaped) (hvirt : pageSize ∣ virt) (hvirt' : virt < 2 ^ 64)
    (hend : pageSize ∣ end_) (h : unmapSlot root virt end_ w slot = some (slot', w')) :
    ∀ r, slot' = some r → r.Shaped ∧ ¬ r.Meets virt end_ := by
  rintro r' rfl
  cases slot with
  | none => cases h
  | some r =>
    have hr := hr r rfl
    rcases unmapSlot_left h with ⟨hm, rfl⟩ | ⟨-, ⟨hlt, phys, fs, rfl⟩ | ⟨hlt, fs, rfl⟩⟩
    · exact ⟨hr, hm⟩
    · -- what is left starts where the range ends
      exact ⟨⟨hend, hr.dvd_end, hlt.trans hr.end_lt, hr.end_lt, fun _ => hlt.le⟩,
        fun hm' => lt_irrefl _ hm'.1⟩
    · exact ⟨⟨hr.dvd_start, hvirt, hr.start_lt, hvirt', fun _ => hlt.le⟩,
        fun hm' => lt_irrefl _ hm'.2⟩

/-! ### Loops over the slots -/

omit [Machine W] in
/-- What each turn keeps of a region and of what is held, the whole loop keeps. -/
theorem forSlots_kept {P : VmaRegion → Prop} {J : List Holding → W → Prop}
    (hperm : ∀ {hs hs' w}, hs.Perm hs' → J hs w → J hs' w)
    (hstep : ∀ {w slot slot' w' rest}, f w slot = some (slot', w') → (∀ r, slot = some r → P r) →
      J (slot.elim [] VmaRegion.holdings ++ rest) w →
      (∀ r, slot' = some r → P r) ∧ J (slot'.elim [] VmaRegion.holdings ++ rest) w')
    {slots' : List (Option VmaRegion)} (h : forSlots f w slots = some (slots', w'))
    (hP : ∀ r, some r ∈ slots → P r) (rest : List Holding) (hJ : J (rest ++ holdings slots) w) :
    (∀ r, some r ∈ slots' → P r) ∧ J (rest ++ holdings slots') w' := by
  induction slots generalizing w slots' rest with
  | nil =>
    cases h
    exact ⟨hP, hJ⟩
  | cons slot slots ih =>
    obtain ⟨⟨slot₁, w₁⟩, hf, h⟩ := bind_eq_some_iff.1 h
    obtain ⟨⟨slots₁, w₂⟩, hrest, h⟩ := bind_eq_some_iff.1 h
    cases h
    rw [holdings_cons] at hJ ⊢
    obtain ⟨hP1, hJ1⟩ := hstep hf (fun r hr => hP r (hr ▸ .head _))
      (hperm (perm_append_comm_assoc ..) hJ)
    rw [← append_assoc] at hJ1
    obtain ⟨hP2, hJ2⟩ := ih hrest (fun r hr => hP r (.tail _ hr)) _ hJ1
    rw [append_assoc] at hJ2
    refine ⟨fun r hr => ?_, hperm (perm_append_comm_assoc ..) hJ2⟩
    rcases mem_cons.1 hr with hr | hr
    · exact hP1 r hr.symm
    · exact hP2 r hr

omit [Machine W] in
/-- Each slot is what its turn made of it. -/
theorem forSlots_getElem? {slots' : List (Option VmaRegion)}
    (h : forSlots f w slots = some (slots', w')) {slot' : Option VmaRegion}
    (hi : slots'[i]? = some slot') :
    ∃ slot w₁ w₂, slots[i]? = some slot ∧ f w₁ slot = some (slot', w₂) := by
  induction slots generalizing w slots' i with
  | nil =>
    cases h
    cases hi
  | cons slot slots ih =>
    obtain ⟨⟨slot₁, w₁⟩, hf, h⟩ := bind_eq_some_iff.1 h
    obtain ⟨⟨slots₁, w₂⟩, hrest, h⟩ := bind_eq_some_iff.1 h
    cases h
    cases i with
    | zero =>
      cases hi
      exact ⟨slot, w, w₁, rfl, hf⟩
    | succ => exact ih hrest hi

omit [Machine W] in
theorem forSlots_unchanged (hf : ∀ slot ∈ slots, f w slot = some (slot, w)) :
    forSlots f w slots = some (slots, w) := by
  induction slots with
  | nil => rfl
  | cons slot slots ih =>
    rw [forSlots, hf slot mem_cons_self]
    simp [ih fun slot h => hf slot (.tail _ h)]

omit [Machine W] in
/-- A loop that leaves all slots but one alone. -/
theorem forSlots_set {x : Option VmaRegion} (hi : i < slots.length)
    (hf : ∀ slot ∈ slots, ∀ w, f w slot = some (slot, w)) :
    forSlots f w (slots.set i x) = (f w x).map fun (x', w') => (slots.set i x', w') := by
  induction slots generalizing i with
  | nil => cases hi
  | cons slot slots ih =>
    have hrest : ∀ slot ∈ slots, ∀ w, f w slot = some (slot, w) := fun slot h => hf slot (.tail _ h)
    cases i with
    | zero =>
      cases hx : f w x with
      | none => simp [forSlots, hx]
      | some r => simp [forSlots, hx, forSlots_unchanged fun slot h => hrest slot h r.2]
    | succ i =>
      have hi' : i < slots.length := lt_of_succ_lt_succ hi
      rw [set_cons_succ, forSlots, hf slot mem_cons_self]
      simp only [bind_eq_bind, bind_some, ih hi' hrest]
      cases f w x with
      | none => rfl
      | some => rfl

end Retire

end Cyanos
