import Cyanos.Mm.Space

/-!
# Invariants of what is held

An invariant `I hs w` relates the holdings of an address space to the machine.  `Upkeep` lists the
rules such an invariant has to satisfy for the operations of the memory manager to keep it: blocks
are adopted with the pages mapped to them, retired, trimmed and mapped again.  The rules may be
restricted to the virtual pages in `Q`; the operations then keep the invariant as long as the
regions are within `Q`.

## Main results

* `Upkeep.map`, `Upkeep.mapLazy`, `Upkeep.handleUserPageFault`, `Upkeep.unmapRange`,
  `Upkeep.mprotect`, `Upkeep.brk` : every operation keeps the invariant.
-/

namespace Cyanos

open Lib Machine Block AddressSpace VmaRegion List Option Nat

/-- All pages of the region, and all pages mapped for it, are in `Q`. -/
structure VmaRegion.Within (Q : ℕ → Prop) (r : VmaRegion) : Prop where
  covers : ∀ va, pageSize ∣ va → r.Covers va → Q va
  holds : ∀ h ∈ r.holdings, ∀ va, h.At va → Q va

/-- A cut of an eager region by `[virt, end_)` is one of those that `C` allows. -/
def VmaRegion.CutsBy (C : ℕ → ℕ → VmaRegion → Prop) (virt end_ : ℕ) (r : VmaRegion) : Prop :=
  r.lazy = false → r.phys ≠ 0 → r.Meets virt end_ → C virt end_ r

variable {W : Type} [Machine W]

/-- The rules for an invariant of the holdings and the machine, for the page table at `root`. -/
structure Upkeep (root : ℕ) (Q : ℕ → Prop) (C : ℕ → ℕ → VmaRegion → Prop)
    (I : List Holding → W → Prop) : Prop where
  /-- The order of the holdings does not matter. -/
  perm : ∀ {hs hs' w}, hs.Perm hs' → I hs w → I hs' w
  /-- Holdings may be forgotten. -/
  sublist : ∀ {hs hs' w}, hs'.Sublist hs → I hs w → I hs' w
  /-- What is held is at a word address. -/
  addr_lt : ∀ {hs w} {h : Holding}, h ∈ hs → I hs w → h.block.addr < 2 ^ 64
  /-- Addresses of new blocks are words. -/
  word : ∀ {w w' : W} {order a}, buddyAlloc w order = some (some a, w') → a < 2 ^ 64
  /-- The allocator may fail. -/
  fail : ∀ {hs w w' order}, buddyAlloc w order = some (none, w') → I hs w → I hs w'
  /-- A new block is zeroed and mapped, up to the page that fails. -/
  adopt : ∀ {hs w w₁ w₂ order a v n flags res}, buddyAlloc w order = some (some a, w₁) →
    n ≤ 2 ^ order → (∀ i < n, Q (wadd v (i * pageSize))) →
    mapPages root v a flags n 0 (zeroBytes w₁ a (n * pageSize)) = (res, w₂) →
    I hs w → I (⟨⟨a, order⟩, v, res.getD n⟩ :: hs) w₂
  /-- A holding is unmapped and freed. -/
  retire : ∀ {h hs w w'}, (∀ va, h.At va → Q va) → retire root w h = some w' →
    I (h :: hs) w → I hs w'
  /-- A page is unmapped. -/
  unmap : ∀ {hs w va}, Q va → I hs w → I hs (unmapPage w root va)
  /-- A page of a holding is mapped again, at its place. -/
  remap : ∀ {h hs w i flags}, h ∈ hs → i < h.pages → i < 2 ^ h.block.order →
    Q (wadd h.virt (i * pageSize)) → I hs w →
    I hs (mapPage w root (wadd h.virt (i * pageSize)) (wadd h.block.addr (i * pageSize)) flags).2
  /-- An eager region may go as a whole. -/
  whole : ∀ {virt end_} {r : VmaRegion}, virt ≤ r.start → r.end_ ≤ end_ → C virt end_ r
  /-- No eager region is cut at its front only. -/
  front : ∀ {virt end_ r}, C virt end_ r → virt ≤ r.start → r.end_ ≤ end_
  /-- An eager region is cut at its back. -/
  trim : ∀ {hs w virt end_} {r : VmaRegion}, C virt end_ r → r.Shaped → r.lazy = false →
    pageSize ∣ virt → r.start < virt → virt < r.end_ →
    (∀ i < wsub (min end_ r.end_) virt / pageSize, Q (wadd virt (i * pageSize))) →
    I (⟨⟨r.phys, pagesToOrder r.pages⟩, r.start, r.pages⟩ :: hs) w →
    I (⟨⟨r.phys, pagesToOrder ({ r with end_ := virt } : VmaRegion).pages⟩, r.start,
      ({ r with end_ := virt } : VmaRegion).pages⟩ :: hs)
      (unmapPages w root virt (wsub (min end_ r.end_) virt / pageSize))

namespace AddressSpace

/-- Every region is within `Q`. -/
def Within (Q : ℕ → Prop) (s : AddressSpace) : Prop := ∀ r, some r ∈ s.regions → r.Within Q

/-- Shapes, places, and the invariant of what is held. -/
structure Kept (root : ℕ) (Q : ℕ → Prop) (I : List Holding → W → Prop) (s : AddressSpace) (w : W) :
    Prop where
  root_eq : s.pageTableRoot = root
  shaped : s.Shaped
  within : s.Within Q
  holds : I (holdings s.regions) w

end AddressSpace

namespace Upkeep

variable {root : ℕ} {Q : ℕ → Prop} {C : ℕ → ℕ → VmaRegion → Prop} {I : List Holding → W → Prop}
  {hs gone : List Holding} {w w' : W}

theorem retireAll (U : Upkeep root Q C I) (hQ : ∀ h ∈ gone, ∀ va, h.At va → Q va)
    (hret : gone.foldlM (Cyanos.retire root) w = some w') (hI : I (gone ++ hs) w) : I hs w' := by
  refine (foldlM_keeps (J := fun gone w => (∀ h ∈ gone, ∀ va, h.At va → Q va) ∧ I (gone ++ hs) w)
    (fun h1 hJ => ?_) hret ⟨hQ, hI⟩).2
  obtain ⟨hh, hrest⟩ := forall_mem_cons.1 hJ.1
  exact ⟨hrest, U.retire hh h1 hJ.2⟩

theorem unmapPages (U : Upkeep root Q C I) {virt n : ℕ} (hQ : ∀ i < n, Q (wadd virt (i * pageSize)))
    (hI : I hs w) : I hs (unmapPages w root virt n) :=
  unmapPages_keeps (fun i hi _ => U.unmap (hQ i hi)) hI

end Upkeep

/-! ### Regions within a set of pages -/

namespace VmaRegion

variable {Q : ℕ → Prop} {r : VmaRegion} {r' : VmaRegion}

/-- The pages from one address of a region up to another are pages of the region. -/
theorem Within.pages (h : r.Within Q) (hr : r.Shaped) {a b : ℕ} (ha : pageSize ∣ a)
    (hra : r.start ≤ a) (hb : b ≤ r.end_) (hab : a ≤ b) :
    ∀ i < wsub b a / pageSize, Q (wadd a (i * pageSize)) := by
  intro i hi
  have hend := hr.end_lt
  rw [wsub_of_le (by omega) hab] at hi
  have hlt : i * pageSize < b - a := by
    have h1 : (i + 1) * pageSize ≤ b - a := (le_div_iff_mul_le (by decide)).1 hi
    have h2 : i * pageSize < (i + 1) * pageSize := mul_lt_mul_of_pos_right (by omega) (by decide)
    omega
  rw [wadd_of_lt (by omega)]
  exact h.covers _ (Nat.dvd_add ha (Nat.dvd_mul_left _ _)) ⟨by omega, by omega⟩

/-- A new region is within `Q` when its range is. -/
theorem Within.of_range {v n phys : ℕ} {flags : PageFlags} {lazy : Bool}
    (hv : pageSize ∣ v) (hlt : v + n * pageSize < 2 ^ 64)
    (h : ∀ va, pageSize ∣ va → v ≤ va → va < v + n * pageSize → Q va) :
    Within Q ⟨v, v + n * pageSize, phys, flags, lazy, []⟩ := by
  refine ⟨fun va hd hc => h va hd hc.1 hc.2, fun k hk va hva => ?_⟩
  cases lazy with
  | true => cases hk
  | false =>
    have hk' : k ∈ (eagerRegion v n phys flags).holdings := hk
    rw [holdings_eagerRegion hlt] at hk'
    split at hk'
    · obtain rfl := mem_singleton.1 hk'
      obtain ⟨i, hi, rfl⟩ := hva
      have hlt' : i * pageSize < n * pageSize := mul_lt_mul_of_pos_right hi (by decide)
      rw [wadd_of_lt (by simp only; omega)]
      exact h _ (Nat.dvd_add hv (Nat.dvd_mul_left _ _)) (Nat.le_add_right _ _) (by simp only; omega)
    · cases hk'

/-- A region that covers less and maps less. -/
theorem Within.mono (h : r.Within Q) (hc : ∀ va, r'.Covers va → r.Covers va)
    (hh : ∀ k' ∈ r'.holdings, ∃ k ∈ r.holdings, ∀ va, k'.At va → k.At va) : r'.Within Q := by
  refine ⟨fun va hd hva => h.covers va hd (hc va hva), fun k' hk' va hva => ?_⟩
  obtain ⟨k, hk, hat⟩ := hh k' hk'
  exact h.holds k hk va (hat va hva)

end VmaRegion

/-! ### Unmapping -/

namespace Upkeep

variable {root : ℕ} {Q : ℕ → Prop} {C : ℕ → ℕ → VmaRegion → Prop} {I : List Holding → W → Prop}
  {virt end_ : ℕ} {r : VmaRegion} {slot slot' : Option VmaRegion} {rest : List Holding}
  {s s' : AddressSpace} {w w' : W}

section

variable (U : Upkeep root Q C I) {flags : PageFlags} {ok : Bool} {size addr : ℕ}
include U

theorem unmapSlot_lazy (hr : r.Shaped) (hQ : r.Within Q)
    (hend : pageSize ∣ end_) (hm : r.Meets virt end_) (hl : r.lazy = true)
    (hI : I (r.holdings ++ rest) w)
    (h : AddressSpace.unmapSlot root virt end_ w (some r) = some (slot', w')) :
    (∀ r', slot' = some r' → r'.Within Q) ∧ I (slot'.elim [] VmaRegion.holdings ++ rest) w' := by
  obtain ⟨fs, hfree, hslot⟩ := AddressSpace.unmapSlot_lazy hm hl h
  obtain ⟨-, gone, hperm, hgone⟩ := freeLazy_spec hfree
  rw [holdings_of_lazy hl] at hI
  have hperm' := hperm.append_right rest
  rw [append_assoc] at hperm'
  have hmem : ∀ k ∈ gone ++ lazyHoldings r.start 0 fs, k ∈ r.holdings := fun k hk => by
    rw [holdings_of_lazy hl]
    exact hperm.symm.subset hk
  have hI' := U.retireAll (fun k hk => hQ.holds k (hmem k (mem_append_left _ hk))) hgone
    (U.perm hperm' hI)
  rcases hslot with ⟨-, -, rfl⟩ | ⟨-, -, rfl⟩ | ⟨-, rfl⟩
  · exact ⟨nofun, U.sublist (sublist_append_right _ _) hI'⟩
  · -- the front trim renumbers the pages that are kept
    rw [lazyHoldings_split (add_wsub_div hr.start_lt hend hr.dvd_start) fs] at hmem hI'
    refine ⟨?_, ?_⟩
    · rintro _ ⟨⟩
      refine hQ.mono (fun va hc => ⟨hm.1.le.trans hc.1, hc.2⟩)
        fun k hk => ⟨k, hmem k ?_, fun _ h => h⟩
      rw [holdings_of_lazy (by exact hl)] at hk
      exact mem_append_right _ (mem_append_right _ hk)
    · rw [Option.elim, holdings_of_lazy (by exact hl)]
      exact U.sublist ((sublist_append_right _ _).append_right rest) hI'
  · refine ⟨?_, ?_⟩
    · rintro _ ⟨⟩
      refine hQ.mono (fun va hc => ⟨hc.1, hc.2.trans hm.2⟩) fun k hk => ⟨k, hmem k ?_, fun _ h => h⟩
      rw [holdings_of_lazy (by exact hl)] at hk
      exact mem_append_right _ hk
    · rw [Option.elim, holdings_of_lazy (by exact hl)]
      exact hI'

theorem unmapSlot_eager (hr : r.Shaped) (hQ : r.Within Q)
    (hcut : r.CutsBy C virt end_) (hvirt : pageSize ∣ virt) (hbounds : virt ≤ end_)
    (hm : r.Meets virt end_) (hl : r.lazy = false) (hI : I (r.holdings ++ rest) w)
    (h : AddressSpace.unmapSlot root virt end_ w (some r) = some (slot', w')) :
    (∀ r', slot' = some r' → r'.Within Q) ∧ I (slot'.elim [] VmaRegion.holdings ++ rest) w' := by
  have hle := hr.le hl
  obtain ⟨hm1, hm2⟩ := hm
  have hclip (hlt : r.start < virt) := hQ.pages hr hvirt hlt.le (min_le_right end_ r.end_)
    (le_min hbounds hm2.le)
  have hall := hQ.pages hr hr.dvd_start le_rfl le_rfl hle
  by_cases hp : r.phys = 0
  · -- nothing is held, and leaves only go away
    have hempty (r' : VmaRegion) (w' : W) (hl' : r'.lazy = r.lazy) (hp' : r'.phys = r.phys)
        (hc : ∀ va, r'.Covers va → r.Covers va) (hI : I ([] ++ rest) w') :
        (∀ r'', some r' = some r'' → r''.Within Q) ∧
          I ((some r').elim [] VmaRegion.holdings ++ rest) w' := by
      have hn := holdings_of_phys_zero (hl' ▸ hl) (hp' ▸ hp)
      refine ⟨?_, by rw [Option.elim, hn]; exact hI⟩
      rintro _ ⟨⟩
      exact hQ.mono hc fun k hk => by rw [hn] at hk; cases hk
    rw [holdings_of_phys_zero hl hp] at hI
    rcases AddressSpace.unmapSlot_eager ⟨hm1, hm2⟩ hl h with
      ⟨-, -, rfl, hw'⟩ | ⟨-, hlt, rfl, rfl⟩ | ⟨hlt, rfl, rfl⟩
    · rw [if_neg (by simpa using hp)] at hw'
      cases hw'
      exact ⟨nofun, U.unmapPages hall hI⟩
    · exact hempty _ _ rfl (by simp [hp]) (fun va hc => ⟨hm1.le.trans hc.1, hc.2⟩)
        (U.unmapPages (hQ.pages hr hr.dvd_start le_rfl hlt.le hm1.le) hI)
    · exact hempty _ _ rfl rfl (fun va hc => ⟨hc.1, hc.2.trans hm2⟩) (U.unmapPages (hclip hlt) hI)
  · have hC := hcut hl hp ⟨hm1, hm2⟩
    rw [holdings_of_eager hl hp] at hI
    rcases AddressSpace.unmapSlot_eager ⟨hm1, hm2⟩ hl h with
      ⟨-, -, rfl, hw'⟩ | ⟨hs, hlt, -⟩ | ⟨hgt, rfl, rfl⟩
    · rw [if_pos hp] at hw'
      refine ⟨nofun, U.retire (fun va hva => ?_) hw' hI⟩
      refine hQ.holds _ ?_ va hva
      rw [holdings_of_eager hl hp]
      exact mem_singleton_self _
    · exact absurd (U.front hC hs) (Nat.not_le_of_lt hlt)
    · have hlt := hr.end_lt
      refine ⟨?_, ?_⟩
      · rintro _ ⟨⟩
        refine hQ.mono (fun va hc => ⟨hc.1, hc.2.trans hm2⟩) fun k hk => ?_
        rw [holdings_of_eager (by exact hl) (by exact hp)] at hk
        obtain rfl := mem_singleton.1 hk
        rw [holdings_of_eager hl hp]
        refine ⟨_, mem_singleton_self _, fun va hva => ?_⟩
        obtain ⟨i, hi, rfl⟩ := hva
        refine ⟨i, hi.trans_le ?_, rfl⟩
        simp only [VmaRegion.pages]
        rw [wsub_of_le (by omega) hgt.le, wsub_of_le hlt hle]
        exact Nat.div_le_div_right (by omega)
      · rw [Option.elim, holdings_of_eager (by exact hl) (by exact hp)]
        exact U.trim hC hr hl hvirt hgt hm2 (hclip hgt) hI

theorem unmapSlot (hr : ∀ r, slot = some r → r.Shaped)
    (hQ : ∀ r, slot = some r → r.Within Q) (hcut : ∀ r, slot = some r → r.CutsBy C virt end_)
    (hvirt : pageSize ∣ virt) (hend : pageSize ∣ end_) (hbounds : virt ≤ end_)
    (hI : I (slot.elim [] VmaRegion.holdings ++ rest) w)
    (h : unmapSlot root virt end_ w slot = some (slot', w')) :
    (∀ r', slot' = some r' → r'.Within Q) ∧ I (slot'.elim [] VmaRegion.holdings ++ rest) w' := by
  cases slot with
  | none =>
    cases h
    exact ⟨hQ, hI⟩
  | some r =>
    by_cases hm : r.Meets virt end_
    · cases hl : r.lazy with
      | true => exact U.unmapSlot_lazy (hr r rfl) (hQ r rfl) hend hm hl hI h
      | false => exact U.unmapSlot_eager (hr r rfl) (hQ r rfl) (hcut r rfl) hvirt hbounds hm hl hI h
    · rw [unmapSlot_of_not_meets hm] at h
      cases h
      exact ⟨hQ, hI⟩

theorem unmapRange {len : ℕ} (hk : s.Kept root Q I w)
    (hcut : ∀ lo hi, unmapBounds virt len = some (lo, hi) → ∀ r, some r ∈ s.regions → r.CutsBy C lo hi)
    (h : s.unmapRange w virt len = some (s', w')) : s'.Kept root Q I w' := by
  have hshaped := shaped_unmapRange hk.shaped h
  rcases unmapRange_cases h with ⟨-, rfl, rfl⟩ | ⟨lo, hi, slots, hb, hloop, rfl⟩
  · exact hk
  obtain ⟨hlo, hhi, hle, hlt⟩ := unmapBounds_spec hb
  rw [hk.root_eq] at hloop
  -- slots already visited do not meet the range any more, so the cuts stay allowed
  have hinv := forSlots_kept (P := fun r => r.Shaped ∧ r.Within Q ∧ r.CutsBy C lo hi) (J := I) U.perm
    ?_ hloop (fun r hr => ⟨hk.shaped r hr, hk.within r hr, hcut lo hi hb r hr⟩) [] hk.holds
  · exact ⟨hk.root_eq, hshaped, fun r hr => (hinv.1 r hr).2.1, hinv.2⟩
  intro w slot slot' w' rest hf hreg hI
  have hslot := shaped_unmapSlot (fun r hr => (hreg r hr).1) hlo (by omega) hhi hf
  obtain ⟨hQ, hI'⟩ := U.unmapSlot (fun r hr => (hreg r hr).1) (fun r hr => (hreg r hr).2.1)
    (fun r hr => (hreg r hr).2.2) hlo hhi hle hI hf
  exact ⟨fun r hr => ⟨(hslot r hr).1, hQ r hr, fun _ _ hm => absurd hm (hslot r hr).2⟩, hI'⟩

/-! ### Protection -/

theorem remapPages {start end_ i : ℕ} {fs : List ℕ} {hs : List Holding}
    (hsub : ∀ h ∈ lazyHoldings start i fs, h ∈ hs)
    (hQ : ∀ h ∈ lazyHoldings start i fs, ∀ va, h.At va → Q va) (hI : I hs w) :
    I hs (AddressSpace.remapPages root start addr end_ flags i fs w) := by
  induction fs generalizing i w with
  | nil => exact hI
  | cons f fs ih =>
    have htail : ∀ h ∈ lazyHoldings start (i + 1) fs, h ∈ lazyHoldings start i (f :: fs) := by
      intro h hh
      simp only [lazyHoldings]
      split
      · exact mem_cons_of_mem _ hh
      · exact hh
    refine ih (fun h hh => hsub h (htail h hh)) (fun h hh => hQ h (htail h hh)) ?_
    split
    · next hf =>
      have hmem : ⟨⟨f, 0⟩, wadd start (i * pageSize), 1⟩ ∈ lazyHoldings start i (f :: fs) := by
        rw [lazyHoldings, if_pos hf.1]
        exact .head _
      have hat : Q (wadd (wadd start (i * pageSize)) (0 * pageSize)) :=
        hQ _ hmem _ ⟨0, one_pos, rfl⟩
      have hmap : I hs (mapPage w root (wadd (wadd start (i * pageSize)) (0 * pageSize))
          (wadd f (0 * pageSize)) flags).2 := U.remap (hsub _ hmem) one_pos (by simp) hat hI
      simpa only [zero_mul, wadd_zero (wadd_lt _ _), wadd_zero (U.addr_lt (hsub _ hmem) hI)]
        using hmap
    · exact hI

theorem protectSlot {end_ : ℕ} (hQ : ∀ r, slot = some r → r.Within Q)
    (hI : I (slot.elim [] VmaRegion.holdings ++ rest) w) :
    (∀ r, (AddressSpace.protectSlot root addr end_ flags w slot).1 = some r → r.Within Q) ∧
    I ((AddressSpace.protectSlot root addr end_ flags w slot).1.elim [] VmaRegion.holdings ++ rest)
      (AddressSpace.protectSlot root addr end_ flags w slot).2 := by
  cases slot with
  | none => exact ⟨hQ, hI⟩
  | some r =>
    have hr := hQ r rfl
    simp only [AddressSpace.protectSlot]
    split
    swap
    · exact ⟨hQ, hI⟩
    have hhold : ({ r with flags := flags } : VmaRegion).holdings = r.holdings := rfl
    simp only [Option.elim, hhold] at hI ⊢
    refine ⟨?_, ?_⟩
    · rintro _ ⟨⟩
      exact ⟨hr.covers, hr.holds⟩
    split
    · next hl =>
      rw [holdings_of_lazy hl] at hI ⊢
      refine U.remapPages (fun h hh => mem_append_left _ hh) (fun h hh => hr.holds h ?_) hI
      rwa [holdings_of_lazy hl]
    split
    swap
    · exact hI
    next hl hp =>
    have hhs := holdings_of_eager (by simpa using hl) hp
    have hmem : ⟨⟨r.phys, pagesToOrder r.pages⟩, r.start, r.pages⟩ ∈ r.holdings := by
      rw [hhs]
      exact mem_singleton_self _
    have hpages := le_two_pow_pagesToOrder r.pages_le
    have hloop : ∀ n ≤ r.pages, I (r.holdings ++ rest)
        ((range n).foldl (fun w i =>
          if addr ≤ wadd r.start (i * pageSize) ∧ wadd r.start (i * pageSize) < end_ then
            (mapPage w root (wadd r.start (i * pageSize)) (wadd r.phys (i * pageSize)) flags).2
          else w) w) := by
      intro n
      induction n with
      | zero => exact fun _ => hI
      | succ n ih =>
        intro hn
        rw [range_succ, foldl_append, foldl_cons, foldl_nil]
        split
        · exact U.remap (mem_append_left rest hmem) hn (by simp only; omega)
            (hr.holds _ hmem _ ⟨n, hn, rfl⟩) (ih (by omega))
        · exact ih (by omega)
    exact hloop r.pages le_rfl

theorem mprotect {len prot : ℕ} (hk : s.Kept root Q I w)
    (h : s.mprotect w addr len prot = some (ok, s', w')) : s'.Kept root Q I w' := by
  have hshaped := shaped_mprotect hk.shaped h
  rcases mprotect_cases h with ⟨-, rfl, rfl⟩ | ⟨end_, slots, -, -, hloop, rfl⟩
  · exact hk
  rw [hk.root_eq] at hloop
  have hinv := forSlots_kept (J := I) U.perm (fun hf hreg hI => ?_) hloop hk.within [] hk.holds
  · exact ⟨hk.root_eq, hshaped, hinv.1, hinv.2⟩
  obtain ⟨rfl, rfl⟩ := pair_inj hf
  exact U.protectSlot hreg hI

/-! ### Mapping and the heap -/

/-- A region that holds as much as the one in its slot did, besides `hs`. -/
theorem setRegion (hs : List Holding) {slot : ℕ} {old : Option VmaRegion}
    (hget : s.regions[slot]? = some old)
    (hr : r.holdings.Perm (hs ++ old.elim [] VmaRegion.holdings))
    (hI : I (hs ++ holdings s.regions) w) : I (holdings (s.setRegion slot r).regions) w :=
  U.perm (holdings_setRegion hs [] hget hr.symm) hI

omit [Machine W] U in
theorem within_setRegion {slot : ℕ} (h : s.Within Q) (hr : r.Within Q) :
    (s.setRegion slot r).Within Q := All.setRegion h hr

/-- The range that `map` and `map_lazy` would map is in `Q`. -/
def PlacedIn (Q : ℕ → Prop) (s : AddressSpace) (virt size : ℕ) : Prop :=
  ∀ slot v n, s.place virt size = some (slot, v, n) →
    ∀ va, pageSize ∣ va → v ≤ va → va < v + n * pageSize → Q va

omit [Machine W] U in
theorem PlacedIn.index {slot v n : ℕ} (hQ : PlacedIn Q s virt size)
    (hplace : s.place virt size = some (slot, v, n)) : ∀ i < n, Q (wadd v (i * pageSize)) := by
  obtain ⟨-, -, hv, -, hend, -⟩ := place_spec hplace
  intro i hi
  have hlt : i * pageSize < n * pageSize := mul_lt_mul_of_pos_right hi (by decide)
  rw [wadd_of_lt (by omega)]
  exact hQ slot v n hplace _ (Nat.dvd_add (hv ▸ dvd_alignDown _ _) (Nat.dvd_mul_left _ _))
    (le_add_right _ _) (by omega)

section

variable (hk : s.Kept root Q I w)
include hk

/-- The block that `map` has put behind a region is among the holdings, whatever the caller does
with the machine next. -/
theorem map_block (hQ : PlacedIn Q s virt size)
    (h : s.map w virt size flags = some (true, s', w')) :
    ∃ slot v n phys, s.place virt size = some (slot, v, n) ∧ n ≤ 2 ^ pagesToOrder n ∧
      s' = s.setRegion slot (eagerRegion v n phys flags) ∧
      I (⟨⟨phys, pagesToOrder n⟩, v, n⟩ :: holdings s.regions) w' ∧
      ∀ w'', I (⟨⟨phys, pagesToOrder n⟩, v, n⟩ :: holdings s.regions) w'' → s'.Kept root Q I w'' := by
  have hshaped := shaped_map hk.shaped h
  obtain ⟨hroot, -, hwithin, hI⟩ := hk
  rcases map_cases h with ⟨h, -⟩ | ⟨slot, v, n, phys, w₁, hplace, halloc, h⟩
  · cases h
  rcases h with ⟨hmap, -, rfl⟩ | ⟨_, _, -, -, h, -⟩
  swap
  · cases h
  obtain ⟨-, hslot, hv, -, hend, -⟩ := place_spec hplace
  have hn := le_two_pow_pagesToOrder (place_pages_le hplace)
  rw [hroot] at hmap
  refine ⟨slot, v, n, phys, hplace, hn, rfl,
    U.adopt halloc hn (hQ.index hplace) hmap hI, fun w'' hI' => ?_⟩
  refine ⟨hroot, hshaped, within_setRegion hwithin
    (.of_range (hv ▸ dvd_alignDown _ _) hend (hQ slot v n hplace)), ?_⟩
  by_cases hp : phys = 0
  · refine U.setRegion [] hslot ?_ (U.sublist (sublist_cons_self _ _) hI')
    rw [holdings_eagerRegion hend, if_neg (by simpa using hp)]
    rfl
  · refine U.setRegion [⟨⟨phys, pagesToOrder n⟩, v, n⟩] hslot ?_ hI'
    rw [holdings_eagerRegion hend, if_pos hp]
    rfl

theorem map (hQ : PlacedIn Q s virt size)
    (h : s.map w virt size flags = some (ok, s', w')) : s'.Kept root Q I w' := by
  cases ok with
  | true =>
    obtain ⟨_, _, _, _, -, -, -, hI, hkept⟩ := U.map_block hk hQ h
    exact hkept w' hI
  | false =>
    obtain ⟨hroot, hs, hwithin, hI⟩ := hk
    rcases map_cases h with
      ⟨-, rfl, rfl | ⟨_, halloc⟩⟩ | ⟨slot, v, n, phys, w₁, hplace, halloc, h⟩
    · exact ⟨hroot, hs, hwithin, hI⟩
    · exact ⟨hroot, hs, hwithin, U.fail halloc hI⟩
    rcases h with ⟨-, h, -⟩ | ⟨i, w₂, hmap, hfree, -, rfl⟩
    · cases h
    -- what was mapped before the failure is unmapped again
    have hQi := hQ.index hplace
    have hn := le_two_pow_pagesToOrder (place_pages_le hplace)
    rw [hroot] at hmap hfree
    refine ⟨hroot, hs, hwithin, U.retire (h := ⟨⟨phys, pagesToOrder n⟩, v, i⟩) (fun va hva => ?_)
      hfree (U.adopt halloc hn hQi hmap hI)⟩
    obtain ⟨j, hj, rfl⟩ := hva
    exact hQi j (lt_trans hj (by simpa using (mapPages_index hmap).2))

theorem mapLazy (hQ : PlacedIn Q s virt size)
    (h : s.mapLazy virt size flags = (ok, s')) : s'.Kept root Q I w := by
  have hshaped := shaped_mapLazy hk.shaped h
  rcases mapLazy_cases h with ⟨-, rfl⟩ | ⟨slot, v, n, hplace, -, rfl⟩
  · exact hk
  · obtain ⟨-, hslot, hv, -, hend, -⟩ := place_spec hplace
    refine ⟨hk.root_eq, hshaped, within_setRegion hk.within
      (.of_range (hv ▸ dvd_alignDown _ _) hend (hQ slot v n hplace)), ?_⟩
    exact U.setRegion [] hslot (.refl _) hk.holds

theorem handleUserPageFault {va : ℕ}
    (h : s.handleUserPageFault w va = some (ok, s', w')) : s'.Kept root Q I w' := by
  have hshaped := shaped_handleUserPageFault hk.shaped h
  obtain ⟨hroot, hs, hwithin, hI⟩ := hk
  rcases handleUserPageFault_cases h with
    ⟨-, rfl, rfl | halloc⟩ | ⟨slot, r, phys, w₁, hlook, hl, hnone, halloc, h⟩
  · exact ⟨hroot, hshaped, hwithin, hI⟩
  · exact ⟨hroot, hshaped, hwithin, U.fail halloc hI⟩
  obtain ⟨hget, hc⟩ := lookup_spec hlook
  have hmem := mem_of_getElem? hget
  have hva := pageVa_eq (hs r hmem) hc
  have hlt : alignDown va pageSize < 2 ^ 64 := hva ▸ wadd_lt _ _
  have hQva : Q (alignDown va pageSize) := by
    refine (hwithin r hmem).covers _ (dvd_alignDown _ _) ⟨?_, lt_of_le_of_lt (alignDown_le _ _) hc.2⟩
    rw [← alignDown_of_dvd (hs r hmem).dvd_start]
    exact alignDown_mono _ hc.1
  -- the one page is mapped as a block of one page is
  have hadopt : ∀ {ok w₂}, mapPage (zeroBytes w₁ phys pageSize) root (alignDown va pageSize) phys
      r.flags = (ok, w₂) →
      I (⟨⟨phys, 0⟩, alignDown va pageSize, if ok then 1 else 0⟩ :: holdings s.regions) w₂ := by
    intro ok w₂ hmap
    have hmaps : mapPages root (alignDown va pageSize) phys r.flags 1 0
        (zeroBytes w₁ phys (1 * pageSize)) = (if ok then none else some 0, w₂) := by
      simp only [mapPages, zero_mul, one_mul, wadd_zero hlt, wadd_zero (U.word halloc), hmap]
      cases ok <;> rfl
    have hI' := U.adopt halloc (by simp) (fun i hi => ?_) hmaps hI
    · cases ok <;> exact hI'
    · obtain rfl : i = 0 := by omega
      rwa [zero_mul, wadd_zero hlt]
  rw [hroot] at h
  rcases h with ⟨hmap, -, rfl⟩ | ⟨w₂, hmap, hfree, -, rfl⟩
  · have hI' := hadopt hmap
    rw [if_pos rfl] at hI'
    have hhold : ∃ hs, (hs = [] ∨ hs = [⟨⟨phys, 0⟩, alignDown va pageSize, 1⟩]) ∧
        (backPage r (wsub (alignDown va pageSize) r.start / pageSize) phys).holdings.Perm
          (hs ++ r.holdings) := by
      rw [holdings_of_lazy hl, holdings_of_lazy (by exact hl)]
      by_cases hp : phys = 0
      · subst hp
        exact ⟨[], .inl rfl, .of_eq (lazyHoldings_set_zero 0 _ r.lazyPages hnone)⟩
      · have hset := lazyHoldings_set r.start hp 0 _ r.lazyPages hnone
        rw [zero_add, hva] at hset
        exact ⟨_, .inr rfl, hset⟩
    obtain ⟨hs', hcase, hperm⟩ := hhold
    refine ⟨hroot, hshaped, within_setRegion hwithin ⟨(hwithin r hmem).covers, fun k hk va' hva' => ?_⟩,
      U.setRegion hs' hget hperm ?_⟩
    · rcases mem_append.1 (hperm.subset hk) with hk | hk
      · rcases hcase with rfl | rfl
        · cases hk
        · obtain rfl := mem_singleton.1 hk
          obtain ⟨i, hi, rfl⟩ := hva'
          obtain rfl : i = 0 := by simpa using hi
          rwa [zero_mul, wadd_zero hlt]
      · exact (hwithin r hmem).holds k hk va' hva'
    · rcases hcase with rfl | rfl
      · exact U.sublist (sublist_cons_self _ _) hI'
      · exact hI'
  · have hI' := hadopt hmap
    rw [if_neg (by simp)] at hI'
    refine ⟨hroot, hshaped, hwithin,
      U.retire (h := ⟨⟨phys, 0⟩, alignDown va pageSize, 0⟩) (fun va' hva' => ?_) hfree hI'⟩
    obtain ⟨i, hi, -⟩ := hva'
    cases hi

end

/-- The pages up to the new break are in `Q`. -/
def BreakIn (Q : ℕ → Prop) (s : AddressSpace) (newEnd : ℕ) : Prop :=
  ∀ va, pageSize ∣ va → alignDown s.heapStart pageSize ≤ va → va < alignUp newEnd pageSize → Q va

theorem brk {b newEnd : ℕ} (hk : s.Kept root Q I w)
    (hlazy : ∀ r, some r ∈ s.regions → r.start = s.heapStart → r.lazy = true)
    (hQ : BreakIn Q s newEnd) (h : s.brk w newEnd = some (b, s', w')) : s'.Kept root Q I w' := by
  have hshaped := shaped_brk hk.shaped hlazy h
  rcases brk_cases h with
    ⟨rfl, rfl, -⟩ | ⟨s₁, hmap, hlt, rfl, rfl, rfl, -⟩ | ⟨idx, r, ⟨rfl, -⟩, hget, hstart, h⟩
  · exact hk
  · have hk1 := U.mapLazy hk (fun slot v n hplace va hd hge hlt' => ?_) hmap
    · exact ⟨hk1.root_eq, hshaped, hk1.within, hk1.holds⟩
    obtain ⟨-, -, rfl, rfl, -⟩ := place_spec hplace
    refine hQ va hd hge (lt_of_lt_of_le hlt' ?_)
    have hnew := alignUp_lt newEnd pageSize
    obtain ⟨k, hk'⟩ := dvd_alignUp newEnd pageSize
    simp only [alignDown, wadd, pageSize] at hk' hnew hlt ⊢
    omega
  · have hmem := mem_of_getElem? hget
    have hl := hlazy r hmem hstart
    have hr := hk.within r hmem
    have hcov : ∀ fs va, pageSize ∣ va →
        ({ r with end_ := alignUp newEnd pageSize, lazyPages := fs } : VmaRegion).Covers va → Q va :=
      fun fs va hd hc => hQ va hd ((alignDown_le _ _).trans (hstart ▸ hc.1)) hc.2
    rcases h with ⟨-, -, rfl, rfl⟩ | ⟨fs, -, hfree, rfl⟩
    · have hhold : ({ r with end_ := alignUp newEnd pageSize } : VmaRegion).holdings = r.holdings := by
        rw [holdings_of_lazy hl, holdings_of_lazy (by exact hl)]
      refine ⟨hk.root_eq, hshaped, within_setRegion hk.within ⟨hcov r.lazyPages, ?_⟩,
        U.setRegion [] hget (.of_eq hhold) hk.holds⟩
      rw [hhold]
      exact hr.holds
    · rw [hk.root_eq] at hfree
      obtain ⟨-, gone, hperm, hgone⟩ := freeLazy_spec hfree
      have hhold : VmaRegion.holdings { r with end_ := alignUp newEnd pageSize, lazyPages := fs } =
          lazyHoldings r.start 0 fs := holdings_of_lazy hl
      rw [← hhold, ← holdings_of_lazy hl] at hperm
      have hQh (k : Holding) (hk' : k ∈ gone ++ _) : ∀ va, k.At va → Q va :=
        hr.holds k (hperm.symm.subset hk')
      exact ⟨hk.root_eq, hshaped,
        within_setRegion hk.within ⟨hcov fs, fun k hk' => hQh k (mem_append_right _ hk')⟩,
        U.retireAll (fun k hk' => hQh k (mem_append_left _ hk')) hgone
          (U.perm (holdings_setRegion [] gone hget hperm) hk.holds)⟩

end

/-- Every call keeps the invariant, where `unmap_range` cuts eager regions as `C` allows and `brk`
finds a lazy heap. -/
theorem step (U : Upkeep root (fun _ => True) C I) {s s' : Space W} {c : Space.Call}
    (hk : s.as.Kept root (fun _ => True) I s.w)
    (hcut : ∀ virt len, c = .unmapRange virt len → ∀ lo hi,
      unmapBounds virt len = some (lo, hi) →
      ∀ r, some r ∈ s.as.regions → r.CutsBy C lo hi)
    (hheap : ∀ newEnd, c = .brk newEnd → s.HeapLazy) (h : s.step c = some s') :
    s'.as.Kept root (fun _ => True) I s'.w := by
  cases c with
  | map =>
    obtain ⟨⟨ok, as, w⟩, hop, rfl⟩ := map_eq_some_iff.1 h
    exact U.map hk (fun _ _ _ _ _ _ _ _ => trivial) hop
  | mapLazy =>
    cases h
    exact U.mapLazy hk (fun _ _ _ _ _ _ _ _ => trivial) rfl
  | fault =>
    obtain ⟨⟨ok, as, w⟩, hop, rfl⟩ := map_eq_some_iff.1 h
    exact U.handleUserPageFault hk hop
  | unmapRange virt len =>
    obtain ⟨⟨as, w⟩, hop, rfl⟩ := map_eq_some_iff.1 h
    exact U.unmapRange hk (hcut virt len rfl) hop
  | mprotect =>
    obtain ⟨⟨ok, as, w⟩, hop, rfl⟩ := map_eq_some_iff.1 h
    exact U.mprotect hk hop
  | brk newEnd =>
    obtain ⟨⟨b, as, w⟩, hop, rfl⟩ := map_eq_some_iff.1 h
    exact U.brk hk (hheap newEnd rfl) (fun _ _ _ _ => trivial) hop

end Upkeep

end Cyanos
