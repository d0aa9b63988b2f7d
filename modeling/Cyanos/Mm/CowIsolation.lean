import Cyanos.Lib.OptionRel
import Cyanos.Lib.Run
import Cyanos.Mm.Host
import Cyanos.Mm.VmmSpec
import Mathlib.Tactic.IntervalCases

/-!
# A cloned address space is a copy of its own

`clone_as` gives the child the same regions, with every page that is there copied to a new one.  A
page made during the call was not held before it, so nothing that was held is written to, and later
copies do not touch earlier ones.

## Main results

* `cloneSlots_copied` : every region is copied, page by page, to pages of its own.
* `cloneAs_isolated` : **the child has the parent's memory, in pages of its own**.
-/

namespace Cyanos

open Lib Machine MemMachine VmaRegion List Option Nat AddressSpace

/-- The page of the address is held. -/
def Live (log : List Event) (x : ℕ) : Prop := pageState pageSize (alignDown x pageSize) log = .held

instance (log : List Event) (x : ℕ) : Decidable (Live log x) := inferInstanceAs (Decidable (_ = _))

/-! ### What making pages leaves -/

namespace Host

variable {root va virt phys order a n i : ℕ} {flags : PageFlags} {w w₁ w₂ w' : Host}

/-- What is left of a machine when pages are made and mapped under the root: what was held still is,
with its contents, and so are the other page tables. -/
structure Extends (root : ℕ) (w w' : Host) : Prop where
  live : ∀ {x}, Live w.log x → Live w'.log x
  mem : ∀ {x}, Live w.log x → w'.mem x = w.mem x
  pt : ∀ {r}, r ≠ root → w'.pt r = w.pt r
  answer : w'.answer = w.answer

theorem Extends.refl (root : ℕ) (w : Host) : Extends root w w :=
  ⟨fun h => h, fun _ => rfl, fun _ => rfl, rfl⟩

theorem Extends.trans (h : Extends root w w₁) (h' : Extends root w₁ w') : Extends root w w' :=
  ⟨fun hx => h'.live (h.live hx), fun hx => (h'.mem (h.live hx)).trans (h.mem hx),
    fun hr => (h'.pt hr).trans (h.pt hr), h'.answer.trans h.answer⟩

theorem Extends.neverZero (h : Extends root w w') (hz : w.NeverZero) : w'.NeverZero := by
  intro tick order
  rw [h.answer]
  exact hz tick order

theorem extends_mapPage : Extends root w (mapPage w root va phys flags).2 where
  live hx := by rw [mapPage_toFrames, Frames.mapPage_log]; exact hx
  mem _ := rfl
  pt hr := by rw [mapPage_toFrames, Frames.mapPage_pt_of_ne hr]
  answer := by rw [mapPage_toFrames, Frames.answer_mapPage]

theorem extends_mapAll : Extends root w (mapAll root virt phys flags n w) := by
  induction n with
  | zero => exact .refl ..
  | succ n ih =>
    rw [mapAll, range_succ, foldl_concat]
    exact ih.trans extends_mapPage

@[simp] theorem mapAll_mem : (mapAll root virt phys flags n w).mem = w.mem := by
  induction n with
  | zero => rfl
  | succ n ih =>
    rw [mapAll, range_succ, foldl_concat]
    exact ih

/-- A page that was not held before and is now. -/
structure NewPage (w w' : Host) (a : ℕ) : Prop where
  dvd : pageSize ∣ a
  le : a + pageSize ≤ 2 ^ 64
  not_live : ¬ Live w.log a
  live : Live w'.log a

/-- The addresses in a page are live when the page is. -/
theorem live_add {log : List Event} {k : ℕ} (hd : pageSize ∣ a) (hk : k < pageSize) :
    Live log (a + k) ↔ Live log a := by
  unfold Live
  rw [alignDown_eq hd (le_add_right a k) (by omega), alignDown_of_dvd hd]

theorem NewPage.mono (h : NewPage w₁ w₂ a) (hw : Extends root w w₁) (hw' : Extends root w₂ w') :
    NewPage w w' a :=
  ⟨h.dvd, h.le, fun hl => h.not_live (hw.live hl), hw'.live h.live⟩

/-- A new block, and a copy made to it. -/
theorem copy_new (root src : ℕ) (h : buddyAlloc w order = some (some a, w₁))
    (hn : n ≤ 2 ^ order * pageSize) :
    Extends root w (copyBytes w₁ src a n) ∧
      (∀ i < 2 ^ order, NewPage w (copyBytes w₁ src a n) (a + i * pageSize)) ∧
      (∀ k < n, (copyBytes w₁ src a n).mem (a + k) = w.mem (src + k)) ∧
      (w.NeverZero → a ≠ 0) := by
  obtain ⟨hframes, hmem⟩ := buddyAlloc_toFrames h
  obtain ⟨-, hfresh, hlog, hpt, hans⟩ := Frames.buddyAlloc_some hframes
  have hd : pageSize ∣ a := hfresh.1
  have hsize : Block.size pageSize ⟨a, order⟩ = 2 ^ order * pageSize := mul_comm _ _
  have hle : a + 2 ^ order * pageSize ≤ 2 ^ 64 := hsize ▸ hfresh.2.1
  -- what is live is outside of the block
  have hout : ∀ {x}, Live w.log x → ¬ Block.Has pageSize ⟨a, order⟩ x := by
    intro x hx hhas
    exact hfresh.not_has (dvd_alignDown x pageSize) hx (Held.has_alignDown hd hhas)
  have hlive : ∀ {x}, Live w.log x → Live w₁.log x := by
    intro x hx
    unfold Live
    rw [hlog, pageState_alloc_of_not_has]
    · exact hx
    · exact hfresh.not_has (dvd_alignDown x pageSize) hx
  refine ⟨⟨hlive, fun {x} hx => ?_, fun _ => by rw [copyBytes_toFrames, hpt],
    (Frames.oracles_of_buddyAlloc hframes).1⟩, fun i hi => ?_, fun k hk => ?_, fun hz ha => ?_⟩
  · rw [← hmem]
    refine if_neg fun hin => hout hx ⟨hin.1, ?_⟩
    rw [hsize]
    exact lt_of_lt_of_le hin.2 (Nat.add_le_add_left hn a)
  · have hi' : (i + 1) * pageSize ≤ 2 ^ order * pageSize := mul_le_mul_right _ hi
    have hdvd : pageSize ∣ a + i * pageSize := Nat.dvd_add hd (Nat.dvd_mul_left _ _)
    have hhas : Block.Has pageSize ⟨a, order⟩ (a + i * pageSize) := by
      refine ⟨le_add_right _ _, ?_⟩
      rw [hsize]
      have : 0 < pageSize := by decide
      rw [add_mul] at hi'
      simp only
      omega
    refine ⟨hdvd, by rw [add_mul] at hi'; omega, ?_, ?_⟩
    · unfold Live
      rw [alignDown_of_dvd hdvd]
      exact hfresh.2.2 i hi
    · unfold Live
      rw [alignDown_of_dvd hdvd, copyBytes_toFrames, hlog]
      exact pageState_alloc_of_has hhas
  · rw [← hmem]
    have hin : a ≤ a + k ∧ a + k < a + n := by omega
    refine (if_pos hin).trans ?_
    rw [Nat.add_sub_cancel_left]
  · exact hz _ _ (ha ▸ hans)

end Host

open Host

/-! ### Frames -/

/-- The frame behind the page with index `j` of a region. -/
def VmaRegion.frame (r : VmaRegion) (j : ℕ) : Option ℕ :=
  if r.lazy then
    let f := r.lazyPages.getD j 0
    if f = 0 then none else some f
  else if r.phys ≠ 0 ∧ j < r.pages then some (r.phys + j * pageSize)
  else none

/-- A region of whole pages whose frames are all held; the block of an eager region has an address
other than `0`. -/
@[mk_iff] structure VmaRegion.Backed (r : VmaRegion) (log : List Event) : Prop where
  dvd_start : pageSize ∣ r.start
  dvd_end : pageSize ∣ r.end_
  le : r.start ≤ r.end_
  end_lt : r.end_ < 2 ^ 64
  phys_ne : r.lazy = false → r.phys ≠ 0
  dvd : ∀ {j f}, r.frame j = some f → pageSize ∣ f
  frame_le : ∀ {j f}, r.frame j = some f → f + pageSize ≤ 2 ^ 64
  live : ∀ {j f}, r.frame j = some f → Live log f

theorem VmaRegion.Backed.mono {r : VmaRegion} {root : ℕ} {w w' : Host} (h : r.Backed w.log)
    (hw : Extends root w w') : r.Backed w'.log :=
  { h with live := fun hf => hw.live (h.live hf) }

/-- A new page with the contents of another one. -/
structure PageCopy (w w' : Host) (f f' : ℕ) : Prop extends NewPage w w' f' where
  bytes : ∀ k < pageSize, w'.mem (f' + k) = w.mem (f + k)

/-- The pages on the left are copied, one by one, to those on the right. -/
structure PagesCopied (w w' : Host) (src dst : ℕ → Option ℕ) : Prop where
  rel : ∀ j, Option.Rel (PageCopy w w') (src j) (dst j)
  inj : ∀ {j j' f}, dst j = some f → dst j' = some f → j = j'

/-- One region is a copy of another one, in new pages. -/
structure Copied (w w' : Host) (r r' : VmaRegion) : Prop
    extends PagesCopied w w' r.frame r'.frame where
  same : r' = { r with phys := r'.phys, lazyPages := r'.lazyPages }
  phys_ne : r.lazy = false → r'.phys ≠ 0

section Copied

variable {root i : ℕ} {w w₁ w₂ w' : Host} {r r' dst dst' : VmaRegion} {pages : List ℕ} {f j : ℕ}
  {pg pg' : ℕ → Option ℕ}
  {slots dsts : List (Option VmaRegion)}

theorem PagesCopied.new (h : PagesCopied w w' pg pg') (hf : pg' j = some f) : NewPage w w' f := by
  obtain ⟨_, -, hcopy⟩ := exists_of_rel_some (hf ▸ h.rel j)
  exact hcopy.toNewPage

/-- The copy is backed as the original is. -/
theorem Copied.backed (h : Copied w w' r r') (hr : r.Backed w.log) : r'.Backed w'.log where
  dvd_start := by rw [h.same]; exact hr.dvd_start
  dvd_end := by rw [h.same]; exact hr.dvd_end
  le := by rw [h.same]; exact hr.le
  end_lt := by rw [h.same]; exact hr.end_lt
  phys_ne hl := h.phys_ne (by rw [h.same] at hl; exact hl)
  dvd hf := (h.new hf).dvd
  frame_le hf := (h.new hf).le
  live hf := (h.new hf).live

/-- The copy of a page that was held stays one. -/
theorem rel_pageCopy_mono {s d : Option ℕ} (h : Rel (PageCopy w₁ w₂) s d)
    (hs : ∀ f, s = some f → pageSize ∣ f ∧ Live w.log f) (hw : Extends root w w₁)
    (hw' : Extends root w₂ w') : Rel (PageCopy w w') s d := by
  refine rel_mono h fun f hf f' hcopy => ⟨hcopy.mono hw hw', fun k hk => ?_⟩
  obtain ⟨hd, hlive⟩ := hs f hf
  rw [hw'.mem ((live_add hcopy.dvd hk).2 hcopy.live), hcopy.bytes k hk,
    hw.mem ((live_add hd hk).2 hlive)]

/-- A copy stays one. -/
theorem Copied.mono (h : Copied w₁ w₂ r r') (hr : r.Backed w.log) (hw : Extends root w w₁)
    (hw' : Extends root w₂ w') : Copied w w' r r' :=
  { h with rel := fun j => rel_pageCopy_mono (h.rel j) (fun _ hf => ⟨hr.dvd hf, hr.live hf⟩) hw hw' }

/-! ### Lazy regions -/

/-- The page a list has for an index. -/
def pageAt (pages : List ℕ) (j : ℕ) : Option ℕ :=
  if pages.getD j 0 = 0 then none else some (pages.getD j 0)

/-- The copy of the first page, and then those of the rest. -/
theorem PagesCopied.cons (hpg : ∀ j f, pg j = some f → pageSize ∣ f ∧ Live w.log f)
    (h0 : Rel (PageCopy w w₁) (pg 0) (pg' 0)) (hw : Extends root w w₁) (hw' : Extends root w₁ w')
    (h : PagesCopied w₁ w' (fun j => pg (j + 1)) fun j => pg' (j + 1)) :
    PagesCopied w w' pg pg' where
  rel j := by
    cases j with
    | zero => exact rel_pageCopy_mono h0 (hpg 0) (.refl root w) hw'
    | succ j => exact rel_pageCopy_mono (h.rel j) (hpg (j + 1)) hw (.refl root w')
  inj {j j' f} hj hj' := by
    -- the first copy is live when the others are made
    have hne : ∀ {j}, pg' 0 = some f → pg' (j + 1) ≠ some f := by
      intro j hz hs
      obtain ⟨_, -, hcopy⟩ := exists_of_rel_some (hz ▸ h0)
      exact (h.new hs).not_live hcopy.live
    cases j with
    | zero =>
      cases j' with
      | zero => rfl
      | succ => exact absurd hj' (hne hj)
    | succ =>
      cases j' with
      | zero => exact absurd hj (hne hj')
      | succ => rw [h.inj hj hj']

/-- The list after the copy of one page was entered. -/
theorem getD_grow_set {fs : List ℕ} (h : fs.length ≤ i) (a j : ℕ) :
    ((fs ++ replicate (i + 1 - fs.length) 0).set i a).getD j 0 =
      if j = i then a else fs.getD j 0 := by
  by_cases hj : j = i
  · subst hj
    rw [if_pos rfl, getD_eq_getElem?_getD, getElem?_set_self, getD_some]
    rw [length_append, length_replicate]
    omega
  · rw [if_neg hj, getD_eq_getElem?_getD, getElem?_set_ne (Ne.symm hj), getD_eq_getElem?_getD]
    by_cases hlt : j < fs.length
    · rw [getElem?_append_left hlt]
    · rw [getElem?_append_right (by omega), getElem?_replicate, getElem?_eq_none (by omega)]
      split <;> rfl

theorem length_padded_set {fs : List ℕ} {i a : ℕ} (h : fs.length ≤ i) :
    ((fs ++ replicate (i + 1 - fs.length) 0).set i a).length ≤ i + 1 := by
  rw [length_set, length_append, length_replicate]
  omega

theorem cloneLazy_copied (h : cloneLazy root r i pages dst w = some (true, dst', w'))
    (hlen : dst.lazyPages.length ≤ i) (hz : w.NeverZero)
    (hpages : ∀ j f, pageAt pages j = some f → pageSize ∣ f ∧ Live w.log f) :
    Extends root w w' ∧ ∃ fs, dst' = { dst with lazyPages := fs } ∧
      (∀ j < i, fs.getD j 0 = dst.lazyPages.getD j 0) ∧
      PagesCopied w w' (pageAt pages) fun j => pageAt fs (i + j) := by
  induction pages generalizing i dst w with
  | nil =>
    obtain ⟨-, rfl, rfl⟩ := triple_inj h
    have hnone : ∀ j, pageAt dst.lazyPages (i + j) = none := fun j =>
      if_pos (getD_eq_default _ _ (by omega))
    refine ⟨.refl root w, dst.lazyPages, rfl, fun _ _ => rfl, fun j => ?_, fun {j _ f} hj => ?_⟩
    · rw [hnone j]
      exact .none
    · cases (hnone j).symm.trans hj
  | cons f pages ih =>
    have hrest := fun j => hpages (j + 1)
    by_cases hf : f = 0
    · rw [cloneLazy, if_pos hf] at h
      obtain ⟨hext, fs, hdst, hold, hcopied⟩ := ih h (by omega) hz hrest
      refine ⟨hext, fs, hdst, fun j hj => hold j (by omega), .cons hpages ?_ (.refl root w) hext ?_⟩
      · rw [show pageAt (f :: pages) 0 = none from if_pos hf, show pageAt fs (i + 0) = none from
          if_pos ((hold i (by omega)).trans (getD_eq_default _ _ hlen))]
        exact .none
      · simp only [add_assoc, add_comm 1] at hcopied
        exact hcopied
    · obtain ⟨hok, -⟩ | ⟨a, w₁, w₂, halloc, hw2, hlazy⟩ := cloneLazy_cons h hf
      · cases hok
      · obtain ⟨hext1, hnew, hbytes, ha⟩ := copy_new root f halloc (n := pageSize) (by simp)
        have hnew1 := hnew 0 (by norm_num)
        rw [zero_mul, add_zero] at hnew1
        -- the machine after the page was copied and mapped
        have hmap : Extends root (copyBytes w₁ f a pageSize) w₂ := hw2 ▸ extends_mapPage
        have hmem2 : w₂.mem = (copyBytes w₁ f a pageSize).mem := by rw [← hw2]; rfl
        have hext2 := hext1.trans hmap
        obtain ⟨hext, fs, hdst, hold, hcopied⟩ := ih hlazy (length_padded_set hlen) (hext2.neverZero hz)
          fun j f hf => ⟨(hrest j f hf).1, hext2.live (hrest j f hf).2⟩
        have hfs : fs.getD i 0 = a := by
          rw [hold i (by omega)]
          exact (getD_grow_set hlen a i).trans (if_pos rfl)
        refine ⟨hext2.trans hext, fs, hdst, fun j hj => ?_, .cons hpages ?_ hext2 hext ?_⟩
        · rw [hold j (by omega)]
          exact (getD_grow_set hlen a j).trans (if_neg (by omega))
        · rw [show pageAt (f :: pages) 0 = some f from if_neg hf, add_zero, pageAt, hfs,
            if_neg (ha hz)]
          exact .some ⟨hnew1.mono (.refl root w) hmap, hmem2 ▸ hbytes⟩
        · simp only [add_assoc, add_comm 1] at hcopied
          exact hcopied

/-! ### Regions -/

theorem VmaRegion.frame_of_lazy (hl : r.lazy = true) : r.frame = pageAt r.lazyPages :=
  funext fun _ => if_pos hl

theorem VmaRegion.frame_lazy_eq_some (hl : r.lazy = true) :
    r.frame j = some f ↔ f ≠ 0 ∧ r.lazyPages.getD j 0 = f := by
  rw [r.frame_of_lazy hl, pageAt]
  split
  · next h0 =>
    refine ⟨nofun, ?_⟩
    rintro ⟨hf, rfl⟩
    exact absurd h0 hf
  · next h0 =>
    constructor
    · rintro ⟨⟩
      exact ⟨h0, rfl⟩
    · rintro ⟨-, rfl⟩
      rfl

theorem VmaRegion.frame_eager_eq_some (hl : r.lazy = false) :
    r.frame j = some f ↔ r.phys ≠ 0 ∧ j < r.pages ∧ r.phys + j * pageSize = f := by
  rw [frame, if_neg (by rw [hl]; decide)]
  split
  · next h => simp [h]
  · next h =>
    refine ⟨nofun, ?_⟩
    rintro ⟨h0, hj, -⟩
    exact absurd ⟨h0, hj⟩ h

theorem VmaRegion.frame_of_eager (hl : r.lazy = false) (h0 : r.phys ≠ 0) (j : ℕ) :
    r.frame j = if j < r.pages then some (r.phys + j * pageSize) else none := by
  simp only [frame, hl, h0, Bool.false_eq_true, if_false, ne_eq, not_false_eq_true, true_and]

/-- **The clone of a region is a copy of it.** -/
theorem cloneRegion_copied (h : cloneRegion root r w = some (true, r', w')) (hr : r.Backed w.log)
    (hz : w.NeverZero) : Extends root w w' ∧ Copied w w' r r' := by
  obtain ⟨hl, hlazy⟩ | ⟨hl, hp, -⟩ | ⟨-, -, hok, -⟩ | ⟨hl, hp, -, a, w₁, halloc, rfl, rfl⟩ :=
    cloneRegion_cases h
  · have hpages : ∀ j f, pageAt r.lazyPages j = some f → pageSize ∣ f ∧ Live w.log f := by
      intro j f hf
      rw [← r.frame_of_lazy hl] at hf
      exact ⟨hr.dvd hf, hr.live hf⟩
    obtain ⟨hext, fs, rfl, -, hcopied⟩ := cloneLazy_copied hlazy (zero_le _) hz hpages
    simp only [zero_add] at hcopied
    refine ⟨hext, ?_, rfl, fun h => absurd (hl.symm.trans h) (by decide)⟩
    rw [r.frame_of_lazy hl, frame_of_lazy (r := { r with phys := 0, lazyPages := fs }) hl]
    exact hcopied
  · exact absurd hp (hr.phys_ne hl)
  · cases hok
  · have hpages := le_two_pow_pagesToOrder r.pages_le
    obtain ⟨hext, hnew, hbytes, ha⟩ := copy_new root r.phys halloc (mul_le_mul_right _ hpages)
    have hmap : Extends root (copyBytes w₁ r.phys a (r.pages * pageSize))
        (mapAll root r.start a r.flags r.pages (copyBytes w₁ r.phys a (r.pages * pageSize))) :=
      extends_mapAll
    have hframe := frame_of_eager (r := { r with phys := a, lazyPages := [] }) hl (ha hz)
    refine ⟨hext.trans hmap, ⟨fun j => ?_, ?_⟩, rfl, fun _ => ha hz⟩
    · rw [hframe, r.frame_of_eager hl (hr.phys_ne hl)]
      change Rel _ _ (if j < r.pages then some (a + j * pageSize) else none)
      split
      · next hj =>
        refine .some ⟨(hnew j (lt_of_lt_of_le hj hpages)).mono (.refl root w) hmap, fun k hk => ?_⟩
        have hlt : j * pageSize + k < r.pages * pageSize := by
          have : (j + 1) * pageSize ≤ r.pages * pageSize := mul_le_mul_right _ hj
          rw [add_mul] at this
          omega
        rw [mapAll_mem, add_assoc, hbytes _ hlt, add_assoc]
      · exact .none
    · intro j j' f hf hf'
      obtain ⟨-, -, rfl⟩ := (frame_eager_eq_some (by exact hl)).1 hf
      obtain ⟨-, -, he⟩ := (frame_eager_eq_some (by exact hl)).1 hf'
      have hpos : 0 < pageSize := by decide
      exact (eq_of_mul_eq_mul_right hpos (add_left_cancel he)).symm

/-! ### Address spaces -/

/-- No frame is behind pages of two different regions. -/
def Unshared (slots : List (Option VmaRegion)) : Prop :=
  slots.Pairwise fun s s' => ∀ r ∈ s, ∀ r' ∈ s', ∀ j j' f, r.frame j = some f → r'.frame j' ≠ some f

/-- A region that is in a slot on the right is related to one on the left. -/
theorem exists_of_forall₂ {R : VmaRegion → VmaRegion → Prop}
    (h : Forall₂ (Rel R) slots dsts) (hr' : some r' ∈ dsts) :
    ∃ r, some r ∈ slots ∧ R r r' := by
  induction h with
  | nil => cases hr'
  | @cons s d slots dsts hsd _ ih =>
    rcases mem_cons.1 hr' with rfl | hr'
    · cases hsd with
      | @some r _ hR => exact ⟨r, (.head _), hR⟩
    · obtain ⟨r, hr, hR⟩ := ih hr'
      exact ⟨r, mem_cons_of_mem _ hr, hR⟩

theorem forall₂_copied_mono (h : Forall₂ (Rel (Copied w₁ w')) slots dsts)
    (hw : Extends root w w₁) (hslots : ∀ r, some r ∈ slots → r.Backed w.log) :
    Forall₂ (Rel (Copied w w')) slots dsts := by
  induction h with
  | nil => exact .nil
  | cons hsd _ ih =>
    refine .cons (rel_mono hsd fun r hr r' hc => ?_) (ih fun r hr => hslots r (.tail _ hr))
    exact hc.mono (hslots r (mem_def.1 hr ▸ .head _)) hw (.refl ..)

/-- **Every region is copied**, to pages of its own. -/
theorem cloneSlots_copied (h : cloneSlots root slots w = some (true, dsts, w'))
    (hslots : ∀ r, some r ∈ slots → r.Backed w.log) (hz : w.NeverZero) :
    Extends root w w' ∧ List.Forall₂ (Option.Rel (Copied w w')) slots dsts ∧ Unshared dsts := by
  induction slots generalizing w dsts with
  | nil =>
    obtain ⟨-, rfl, rfl⟩ := triple_inj h
    exact ⟨.refl root w, .nil, .nil⟩
  | cons slot slots ih =>
    cases slot with
    | none =>
      obtain ⟨rest, hrest, rfl⟩ := cloneSlots_cons_none h
      obtain ⟨hext, hcopied, hun⟩ := ih hrest (fun r hr => hslots r (.tail _ hr)) hz
      refine ⟨hext, .cons .none hcopied, .cons (fun s' _ r hr => ?_) hun⟩
      cases hr
    | some r =>
      obtain ⟨d, hregion, hok, -⟩ | ⟨d, w₁, rest, hregion, hrest, rfl⟩ := cloneSlots_cons_some h
      · cases hok
      have hr := hslots r (.head _)
      obtain ⟨hext1, hcopied1⟩ := cloneRegion_copied hregion hr hz
      have hslots1 : ∀ r, some r ∈ slots → r.Backed w₁.log := fun r hr =>
        (hslots r (.tail _ hr)).mono hext1
      obtain ⟨hext2, hcopied2, hun⟩ := ih hrest hslots1 (hext1.neverZero hz)
      refine ⟨hext1.trans hext2, .cons (.some (hcopied1.mono hr (.refl root w) hext2)) ?_, ?_⟩
      · exact forall₂_copied_mono hcopied2 hext1 fun r hr => hslots r (.tail _ hr)
      · refine .cons ?_ hun
        rintro s' hs' _ ⟨⟩ r' hr' j j' f hf hf'
        -- the first region's frames are live when the others are copied
        obtain rfl := mem_def.1 hr'
        obtain ⟨r₀, -, hcopied⟩ := exists_of_forall₂ hcopied2 hs'
        exact (hcopied.new hf').not_live (hcopied1.new hf).live

end Copied

/-! ### Addresses -/

section Addresses

variable {w w' : Host} {src dst : AddressSpace} {v : ℕ} {log : List Event} {r r' : VmaRegion}

/-- Where the byte at an address of the region is. -/
def VmaRegion.physOf (r : VmaRegion) (v : ℕ) : Option ℕ :=
  (r.frame ((v - r.start) / pageSize)).map (· + (v - r.start) % pageSize)

/-- Where a byte is, and where its copy is. -/
theorem Copied.physOf (h : Copied w w' r r') (v : ℕ) :
    Rel (fun a b => w'.mem b = w.mem a) (r.physOf v) (r'.physOf v) := by
  have hstart : r'.start = r.start := by rw [h.same]
  rw [VmaRegion.physOf, VmaRegion.physOf, hstart, map_eq_bind, map_eq_bind]
  exact rel_bind (h.rel _) fun hcopy => .some (hcopy.bytes _ (mod_lt _ (by decide)))

/-- An address in an eager region is in one of its pages. -/
theorem VmaRegion.Backed.index_lt (hr : r.Backed log) (hv : r.Covers v) :
    (v - r.start) / pageSize < r.pages := by
  obtain ⟨a, ha⟩ := hr.dvd_start
  obtain ⟨b, hb⟩ := hr.dvd_end
  have hle := hr.le
  have hend := hr.end_lt
  obtain ⟨hv1, hv2⟩ := hv
  rw [VmaRegion.pages, wsub_of_le hend hle]
  simp only [pageSize] at *
  omega

/-- `virt_to_phys` is a lookup of the frame. -/
theorem virtToPhys_eq {s : AddressSpace} (hs : ∀ r, some r ∈ s.regions → r.Backed log) :
    s.virtToPhys v = (s.find v).bind fun r => r.physOf v := by
  unfold virtToPhys
  cases hfind : s.find v with
  | none => rfl
  | some r =>
    obtain ⟨hmem, hcov⟩ := find_spec hfind
    have hr := hs r hmem
    have hsplit := div_add_mod' (v - r.start) pageSize
    have hmod : (v - r.start) % pageSize < pageSize := mod_lt _ (by decide)
    simp only [bind_some, physOf]
    cases hl : r.lazy with
    | true =>
      have hframe := congrFun (r.frame_of_lazy hl) ((v - r.start) / pageSize)
      rw [if_pos rfl, hframe, pageAt]
      split
      · rfl
      · next h0 =>
        rw [pageAt, if_neg h0] at hframe
        have hle := hr.frame_le hframe
        rw [wadd_of_lt (by omega)]
        rfl
    | false =>
      have hframe : r.frame ((v - r.start) / pageSize) =
          some (r.phys + (v - r.start) / pageSize * pageSize) :=
        (r.frame_eager_eq_some hl).2 ⟨hr.phys_ne hl, hr.index_lt hcov, rfl⟩
      have hle := hr.frame_le hframe
      rw [if_neg Bool.false_ne_true, hframe, map_some, wadd_of_lt (by omega)]
      congr 1
      omega

/-- Corresponding slots are found for an address. -/
theorem find_rel {R : VmaRegion → VmaRegion → Prop}
    (hR : ∀ r r', R r r' → r'.start = r.start ∧ r'.end_ = r.end_)
    (h : Forall₂ (Rel R) src.regions dst.regions) :
    Rel R (src.find v) (dst.find v) := by
  rw [find_eq, find_eq]
  generalize src.regions = l, dst.regions = l' at h
  induction h with
  | nil => exact .none
  | cons hsd _ ih =>
    cases hsd with
    | none => exact ih
    | @some r r' hrr =>
      obtain ⟨hstart, hend⟩ := hR r r' hrr
      have hcov : r'.Covers v ↔ r.Covers v := by rw [Covers, hstart, hend]; rfl
      by_cases hc : r.Covers v
      · simpa [Option.filter, hcov, hc] using hrr
      · simpa [filter, hcov, hc] using ih

/-- The frame behind a page of the region in a slot. -/
def AddressSpace.frame (s : AddressSpace) (slot j : ℕ) : Option ℕ :=
  (s.regions.getD slot none).bind fun r => r.frame j

/-- `dst` is an independent copy of `src`, made under the new root. -/
structure IsolatedCopy (src dst : AddressSpace) (root : ℕ) (w w' : Host) : Prop where
  /-- The same regions, with the same bounds and flags. -/
  regions : List.Forall₂ (Option.Rel fun r r' : VmaRegion =>
    r'.start = r.start ∧ r'.end_ = r.end_ ∧ r'.flags = r.flags ∧ r'.lazy = r.lazy)
    src.regions dst.regions
  /-- The same heap. -/
  heap : dst.heapStart = src.heapStart ∧ dst.heapEnd = src.heapEnd
  /-- The same addresses are backed. -/
  defined : ∀ v, (dst.virtToPhys v).isSome = (src.virtToPhys v).isSome
  /-- The bytes behind an address are the same. -/
  bytes : ∀ v a b, src.virtToPhys v = some a → dst.virtToPhys v = some b → w'.mem b = w.mem a
  /-- No frame is behind both. -/
  apart : ∀ slot slot' j j' f, src.frame slot j = some f → dst.frame slot' j' ≠ some f
  /-- No frame is behind two pages. -/
  unshared : ∀ slot slot' j j' f, dst.frame slot j = some f → dst.frame slot' j' = some f →
    slot = slot' ∧ j = j'
  /-- The source's memory is unchanged. -/
  memory : ∀ v a, src.virtToPhys v = some a → w'.mem a = w.mem a
  /-- So are all page tables but the new one. -/
  tables : ∀ r, r ≠ root → w'.pt r = w.pt r

theorem AddressSpace.frame_eq_some {s : AddressSpace} {slot j f : ℕ} (h : s.frame slot j = some f) :
    ∃ r, s.regions[slot]? = some (some r) ∧ r.frame j = some f := by
  obtain ⟨r, hr, hf⟩ := bind_eq_some_iff.1 h
  refine ⟨r, ?_, hf⟩
  rw [getD_eq_getElem?_getD] at hr
  cases hget : s.regions[slot]? with
  | none => rw [hget] at hr; cases hr
  | some => rw [hget] at hr; exact congrArg some hr

/-- **Fork isolation.**  A clone of an address space whose frames are held is an independent copy of
it: the same memory, in pages that neither the source nor another page of the copy uses. -/
theorem cloneAs_isolated {root : ℕ} (hsrc : ∀ r, some r ∈ src.regions → r.Backed w.log)
    (hz : w.NeverZero) (h : cloneAs src root w = some (some dst, w')) :
    IsolatedCopy src dst root w w' := by
  obtain ⟨ok, regions, w₁, hslots, hres⟩ := cloneAs_cases h
  obtain ⟨rfl, hdst, rfl⟩ | ⟨-, hdst, -⟩ := hres
  swap
  · cases hdst
  cases hdst
  obtain ⟨hext, hcopied, hun⟩ := cloneSlots_copied hslots hsrc hz
  have hdst : ∀ r', some r' ∈ regions → r'.Backed w'.log := by
    intro r' hr'
    obtain ⟨r, hr, hc⟩ := exists_of_forall₂ hcopied hr'
    exact hc.backed (hsrc r hr)
  have hphys : ∀ v, Rel (fun a b => w'.mem b = w.mem a) (src.virtToPhys v)
      (virtToPhys ⟨root, regions, src.heapStart, src.heapEnd⟩ v) := by
    intro v
    rw [virtToPhys_eq hsrc, virtToPhys_eq hdst]
    exact rel_bind (find_rel (fun r r' hc => ⟨by rw [hc.same], by rw [hc.same]⟩) hcopied)
      fun hc => hc.physOf v
  refine ⟨hcopied.imp ?_, ⟨rfl, rfl⟩, fun v => ?_, fun v a b ha hb => ?_, ?_, ?_, fun v a ha => ?_,
    fun r hr => hext.pt hr⟩
  · intro s d hsd
    refine rel_mono hsd fun r _ r' hc => ?_
    rw [hc.same]
    exact ⟨rfl, rfl, rfl, rfl⟩
  · exact isSome_of_rel (hphys v)
  · have hv := hphys v
    rw [ha, hb] at hv
    cases hv with
    | some hmem => exact hmem
  · -- the frames behind the source are live, the new ones were not
    intro slot slot' j j' f hf hf'
    obtain ⟨r, hr, hrf⟩ := src.frame_eq_some hf
    obtain ⟨r', hr', hrf'⟩ := frame_eq_some hf'
    obtain ⟨r₀, -, hc⟩ := exists_of_forall₂ hcopied (mem_of_getElem? hr')
    exact (hc.new hrf').not_live ((hsrc r (mem_of_getElem? hr)).live hrf)
  · intro slot slot' j j' f hf hf'
    obtain ⟨r, hr, hrf⟩ := frame_eq_some hf
    obtain ⟨r', hr', hrf'⟩ := frame_eq_some hf'
    obtain ⟨hlt, hget⟩ := List.getElem?_eq_some_iff.1 hr
    obtain ⟨hlt', hget'⟩ := List.getElem?_eq_some_iff.1 hr'
    have hpair := pairwise_iff_getElem.1 hun
    rcases lt_trichotomy slot slot' with hlt0 | rfl | hlt0
    · exact absurd hrf' (hpair slot slot' hlt hlt' hlt0 r hget r' hget' j j' f hrf)
    · obtain rfl : r = r' := mem_unique hget hget'
      obtain ⟨r₀, -, hc⟩ := exists_of_forall₂ hcopied (mem_of_getElem? hr)
      exact ⟨rfl, hc.inj hrf hrf'⟩
    · exact absurd hrf (hpair slot' slot hlt' hlt hlt0 r' hget' r hget j' j f hrf')
  · rw [virtToPhys_eq hsrc] at ha
    obtain ⟨r, hr, ha⟩ := bind_eq_some_iff.1 ha
    have hback := hsrc _ (find_spec hr).1
    obtain ⟨f, hf, rfl⟩ := map_eq_some_iff.1 ha
    exact hext.mem ((live_add (hback.dvd hf) (mod_lt _ (by decide))).2 (hback.live hf))

/-- An eager region of two pages. -/
def twoPageRegion : VmaRegion := ⟨0x10000, 0x12000, 0x800000, .ofUser true false, false, []⟩

/-- A lazy region of four pages, the second of which is there. -/
def lazyPageRegion : VmaRegion := ⟨0x20000, 0x24000, 0, .ofUser true false, true, [0, 0x900000]⟩

/-- A machine on which the frames behind both are held. -/
def copyHost : Host :=
  { Host.roomy with log := [.alloc ⟨0x800000, 1⟩, .alloc ⟨0x900000, 0⟩] }

instance {p : ℕ → ℕ → Prop} [∀ j f, Decidable (p j f)] (r : VmaRegion) :
    Decidable (∀ j f, r.frame j = some f → p j f) := by
  refine decidable_of_iff (∀ j < max r.lazyPages.length r.pages, ∀ f ∈ r.frame j, p j f)
    ⟨fun h j f hf => h j ?_ f hf, fun h j _ => h j⟩
  cases hl : r.lazy with
  | true =>
    obtain ⟨h0, rfl⟩ := (r.frame_lazy_eq_some hl).1 hf
    by_contra hlt
    exact h0 (getD_eq_default _ _ ((le_max_left _ _).trans (not_lt.1 hlt)))
  | false => exact lt_max_of_lt_right ((r.frame_eager_eq_some hl).1 hf).2.1

instance (r : VmaRegion) (log : List Event) : Decidable (r.Backed log) :=
  decidable_of_iff' _ (r.backed_iff log)

theorem cloneAs_isolated_twoRegions : ∃ dst w',
    cloneAs ⟨0x1000, [some twoPageRegion, some lazyPageRegion], 0, 0⟩ 0x2000 copyHost =
      some (some dst, w') ∧ dst.virtToPhys 0x11234 = some 0x101234 ∧
    IsolatedCopy ⟨0x1000, [some twoPageRegion, some lazyPageRegion], 0, 0⟩ dst 0x2000 copyHost w' := by
  have hsrc : ∀ r, some r ∈ [some twoPageRegion, some lazyPageRegion] → r.Backed copyHost.log := by
    decide +kernel
  have hz : copyHost.NeverZero := by
    intro tick order h
    have := some.inj h
    omega
  obtain ⟨⟨res, w'⟩, hclone, hp⟩ : ∃ x,
      cloneAs ⟨0x1000, [some twoPageRegion, some lazyPageRegion], 0, 0⟩ 0x2000 copyHost = some x ∧
      (x.1.bind fun dst => dst.virtToPhys 0x11234) = some 0x101234 :=
    exists_of_any (by decide +kernel)
  cases res with
  | none => cases hp
  | some dst => exact ⟨dst, w', hclone, hp, cloneAs_isolated hsrc hz hclone⟩

end Addresses

end Cyanos
