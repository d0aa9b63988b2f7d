import Cyanos.Lib.Ends
import Cyanos.Mm.Cow
import Cyanos.Mm.RegionUpkeep

/-!
# The orders the memory manager asks for

`buddy::alloc` and `buddy::free` assert that the order is below `MAX_ORDER`.  The memory manager
computes orders from the sizes of ranges: from the size it is given in `map`, and from the bounds of
an eager region everywhere else.  As long as every eager region is at most one largest block long,
and `map` is called for no more, all of them pass the assertion.

## Main results

* `Machine.AssertsOrder` : the allocator fails on nothing but such an order.
* `AddressSpace.ends_map`, `AddressSpace.ends_unmapRange`, `AddressSpace.ends_brk`,
  `AddressSpace.ends_drop`, `ends_cloneAs` : on such a machine the operations end, with regions that
  are small again.
-/

namespace Cyanos

open Lib Machine MemMachine

/-- The allocator fails on an order it does not have, and on nothing else. -/
class Machine.AssertsOrder (W : Type) [Machine W] : Prop where
  alloc : ∀ (w : W) (order : ℕ), order < maxOrder → (buddyAlloc w order).isSome
  free : ∀ (w : W) (addr order : ℕ), order < maxOrder → (buddyFree w addr order).isSome

/-- The size of the largest block, 4 MiB. -/
def maxBlock : ℕ := pageSize <<< (maxOrder - 1)

/-- An eager region is a range no longer than the largest block. -/
def VmaRegion.Small (r : VmaRegion) : Prop :=
  r.lazy = false → r.start ≤ r.end_ ∧ r.end_ < 2 ^ 64 ∧ r.end_ ≤ r.start + maxBlock

theorem pagesToOrder_lt {pages : ℕ} (h : pages * pageSize ≤ maxBlock) :
    pagesToOrder pages < maxOrder := by
  have hle : pages ≤ 2 ^ 10 := by
    have hmax : maxBlock = 2 ^ 10 * pageSize := by decide
    exact Nat.le_of_mul_le_mul_right (hmax ▸ h) (by decide)
  have hmono := pagesToOrder_mono hle (by norm_num)
  have hten : pagesToOrder (2 ^ 10) = 10 := by decide
  exact lt_of_le_of_lt (hten ▸ hmono) (by decide)

theorem VmaRegion.Small.order_lt {r : VmaRegion} (h : r.Small) (hl : r.lazy = false) :
    pagesToOrder r.pages < maxOrder := by
  obtain ⟨hle, hlt, hsmall⟩ := h hl
  refine pagesToOrder_lt ?_
  rw [VmaRegion.pages, wsub_of_le hlt hle]
  exact (Nat.div_mul_le_self _ _).trans (by omega)

/-- What the operations do to single regions keeps them small. -/
theorem small_upkeep {W : Type} [Machine W] :
    RegionUpkeep (W := W) VmaRegion.Small (fun _ => True) (fun _ => True) where
  alloc _ _ := trivial
  free _ _ := trivial
  zero _ _ _ := trivial
  mapped _ _ _ _ _ := trivial
  unmapped _ := trivial
  flags _ := trivial
  backed _ _ hr := hr
  front hr hlo hhi hl := by
    obtain ⟨-, hlt, hsmall⟩ := hr hl
    exact ⟨hhi.le, hlt, hsmall.trans (Nat.add_le_add_right hlo.le _)⟩
  back hr hlo hhi hl := by
    obtain ⟨-, hlt, hsmall⟩ := hr hl
    exact ⟨hlo.le, hhi.trans hlt, hhi.le.trans hsmall⟩
  protect hr _ := hr

section Loops

variable {W : Type} [Machine W] [AssertsOrder W] {w : W}

theorem ends_alloc {order : ℕ} (h : order < maxOrder) : Ends (buddyAlloc w order) fun _ => True := by
  obtain ⟨a, ha⟩ := Option.isSome_iff_exists.1 (AssertsOrder.alloc w order h)
  exact ⟨a, ha, trivial⟩

theorem ends_free {addr order : ℕ} (h : order < maxOrder) :
    Ends (buddyFree w addr order) fun _ => True := by
  obtain ⟨a, ha⟩ := Option.isSome_iff_exists.1 (AssertsOrder.free w addr order h)
  exact ⟨a, ha, trivial⟩

theorem ends_freeLazy (root start first last i : ℕ) (fs : List ℕ) :
    Ends (freeLazy root start first last i fs w) fun _ => True := by
  induction fs generalizing i w with
  | nil => exact ends_some trivial
  | cons f fs ih =>
    rw [freeLazy]
    split
    · exact (ends_free (by decide)).bind fun w _ => (ih ..).finish
    · exact (ih ..).finish

omit [Machine W] [AssertsOrder W] in
theorem ends_forSlots {f : W → Option VmaRegion → Option (Option VmaRegion × W)}
    {slots : List (Option VmaRegion)} (h : ∀ w, ∀ slot ∈ slots, Ends (f w slot) fun _ => True) :
    Ends (forSlots f w slots) fun _ => True := by
  induction slots generalizing w with
  | nil => exact ends_some trivial
  | cons slot slots ih =>
    rw [forSlots]
    refine (h w slot (.head _)).bind fun a _ => ?_
    exact (ih fun w slot hs => h w slot (.tail _ hs)).finish

end Loops

namespace AddressSpace

variable {W : Type} [Machine W] [AssertsOrder W] {s : AddressSpace} {w : W} {virt size : ℕ}
  {flags : PageFlags}

/-- Every eager region is small. -/
abbrev Small (s : AddressSpace) : Prop := s.All VmaRegion.Small

theorem small_eagerRegion {slot v n phys : ℕ} (h : s.place virt size = some (slot, v, n))
    (hsize : alignUp size pageSize ≤ maxBlock) : (eagerRegion v n phys flags).Small := by
  obtain ⟨-, -, -, rfl, hlt, -⟩ := place_spec h
  exact fun _ => ⟨Nat.le_add_right _ _, hlt, Nat.add_le_add_left hsize _⟩

/-- `map` ends if the block it asks for is not too large. -/
theorem ends_map_of_place
    (h : ∀ slot v n, s.place virt size = some (slot, v, n) → n * pageSize ≤ maxBlock) :
    Ends (s.map w virt size flags) fun _ => True := by
  unfold map
  split
  · exact ends_some trivial
  · next slot v n hplace =>
    have horder := pagesToOrder_lt (h slot v n hplace)
    refine (ends_alloc horder).bind ?_
    rintro ⟨_ | phys, w₁⟩ -
    · exact ends_some trivial
    · simp only
      split
      · exact ends_some trivial
      · exact (ends_free horder).finish

theorem ends_map (h : s.Small) (hsize : alignUp size pageSize ≤ maxBlock) :
    Ends (s.map w virt size flags) fun r => r.2.1.Small := by
  have hends : Ends (s.map w virt size flags) fun _ => True := by
    refine ends_map_of_place fun slot v n hplace => ?_
    obtain ⟨-, -, -, rfl, -⟩ := place_spec hplace
    exact hsize
  refine hends.of_eq fun r hr => ?_
  exact (small_upkeep.map trivial (fun _ _ _ _ hplace => small_eagerRegion hplace hsize) hr h
    trivial).1

theorem small_mapLazy {s' : AddressSpace} {ok : Bool} (h : s.Small)
    (hm : s.mapLazy virt size flags = (ok, s')) : s'.Small :=
  h.mapLazy (fun _ _ _ _ hl => by cases hl) hm

theorem ends_handleUserPageFault (va : ℕ) (h : s.Small) :
    Ends (s.handleUserPageFault w va) fun r => r.2.1.Small := by
  have hends : Ends (s.handleUserPageFault w va) fun _ => True := by
    simp only [handleUserPageFault]
    split
    · exact ends_some trivial
    split
    · exact ends_some trivial
    split
    · exact ends_some trivial
    refine (ends_alloc (by decide)).bind ?_
    rintro ⟨_ | phys, w₁⟩ -
    · exact ends_some trivial
    · simp only
      split
      · exact (ends_free (by decide)).finish
      · exact ends_some trivial
  refine hends.of_eq fun r hr => ?_
  exact (small_upkeep.handleUserPageFault hr h trivial).1

theorem ends_unmapSlot (root lo hi : ℕ) {slot : Option VmaRegion}
    (h : ∀ r, slot = some r → r.Small) : Ends (unmapSlot root lo hi w slot) fun _ => True := by
  cases slot with
  | none => exact ends_some trivial
  | some r =>
    simp only [unmapSlot]
    split
    swap
    · exact ends_some trivial
    split
    · next hl =>
      refine (ends_freeLazy _ _ _ _ _ _).bind fun a _ => ?_
      simp only [hl, Bool.not_true, Bool.false_eq_true, false_and, if_false]
      split
      · exact ends_some trivial
      · split <;> exact ends_some trivial
    · next hl =>
      have horder := (h r rfl).order_lt (by simpa using hl)
      split
      · split
        · exact (ends_free horder).finish
        · exact ends_some trivial
      · split <;> exact ends_some trivial

theorem ends_unmapRange (virt len : ℕ) (h : s.Small) :
    Ends (s.unmapRange w virt len) fun r => r.1.Small := by
  have hends : Ends (s.unmapRange w virt len) fun _ => True := by
    unfold unmapRange
    split
    · exact ends_some trivial
    simp only
    split
    · exact ends_some trivial
    · refine (ends_forSlots fun w slot hslot => ends_unmapSlot _ _ _ ?_).finish
      rintro r rfl
      exact h r hslot
  refine hends.of_eq fun r hr => ?_
  exact (small_upkeep.unmapRange hr h trivial).1

omit [AssertsOrder W] in
theorem ends_mprotect (addr len prot : ℕ) (h : s.Small) :
    Ends (s.mprotect w addr len prot) fun r => r.2.1.Small := by
  have hends : Ends (s.mprotect w addr len prot) fun _ => True := by
    unfold mprotect
    split
    · exact ends_some trivial
    simp only
    split
    · exact ends_some trivial
    · exact (ends_forSlots fun _ _ _ => ends_some trivial).finish
  refine hends.of_eq fun r hr => ?_
  exact (small_upkeep.mprotect hr h trivial).1

/-- The break is put where an eager region at the start of the heap stays small. -/
def BreakSmall (s : AddressSpace) (newEnd : ℕ) : Prop :=
  newEnd ≠ 0 → s.heapStart ≠ 0 → ∀ r, some r ∈ s.regions → r.start = s.heapStart → r.lazy = false →
    s.heapStart ≤ alignUp newEnd pageSize ∧ alignUp newEnd pageSize ≤ s.heapStart + maxBlock

theorem brk_returns (s : AddressSpace) (w : W) (newEnd : ℕ) :
    Ends (s.brk w newEnd) fun _ => True := by
  unfold brk
  split
  · exact ends_some trivial
  split
  · exact ends_some trivial
  simp only
  split
  · split
    · exact ends_some trivial
    split <;> exact ends_some trivial
  · split
    · exact ends_some trivial
    split
    · split <;> exact ends_some trivial
    · exact (ends_freeLazy _ _ _ _ _ _).finish

theorem ends_brk {newEnd : ℕ} (h : s.Small) (hb : s.BreakSmall newEnd) :
    Ends (s.brk w newEnd) fun r => r.2.1.Small := by
  by_cases h0 : newEnd = 0
  · rw [brk, if_pos h0]
    exact ends_some h
  by_cases hs : s.heapStart = 0
  · rw [brk, if_neg h0, if_pos hs]
    exact ends_some h
  refine (brk_returns s w newEnd).of_eq fun r hr => ?_
  refine (small_upkeep.brk (fun _ _ _ _ _ hl => by cases hl) (fun r fs hmem hstart hl => ?_) hr h
    trivial).1
  obtain ⟨hlo, hhi⟩ := hb h0 hs r hmem hstart hl
  exact ⟨hstart ▸ hlo, alignUp_lt _ _, hstart ▸ hhi⟩

theorem ends_freePages (fs : List ℕ) : Ends (freePages fs w) fun _ => True := by
  induction fs generalizing w with
  | nil => exact ends_some trivial
  | cons f fs ih =>
    rw [freePages]
    split
    · exact (ends_free (by decide)).bind fun _ _ => ih
    · exact ih

theorem ends_drop (h : s.Small) : Ends (s.drop w) fun _ => True := by
  refine (Ends.foldlM (Q := fun _ => True) (fun w _ slot hslot => ?_) trivial).bind fun w _ => ?_
  · cases slot with
    | none => exact ends_some trivial
    | some r =>
      rw [dropSlot]
      split
      · exact ends_freePages _
      · next hl =>
        split
        · exact ends_free ((h r hslot).order_lt (by simpa using hl))
        · exact ends_some trivial
  · split
    · exact ends_free (by decide)
    · exact ends_some trivial

end AddressSpace

/-! ### Clones -/

section Clones

variable {W : Type} [MemMachine W] [AssertsOrder W] {w : W} {root : ℕ}

theorem ends_cloneLazy {r dst : VmaRegion} (i : ℕ) (fs : List ℕ) (hd : dst.Small) :
    Ends (cloneLazy root r i fs dst w) fun a => a.2.1.Small := by
  induction fs generalizing i dst w with
  | nil => exact ends_some hd
  | cons f fs ih =>
    rw [cloneLazy]
    split
    · exact ih (i + 1) hd
    · refine (ends_alloc (by decide)).bind ?_
      rintro ⟨_ | a, w₁⟩ -
      · exact ends_some hd
      · exact ih (i + 1) hd

theorem ends_cloneRegion {r : VmaRegion} (h : r.Small) :
    Ends (cloneRegion root r w) fun a => a.2.1.Small := by
  have hd : ({ r with phys := 0, lazyPages := [] } : VmaRegion).Small := h
  rw [cloneRegion]
  split
  · exact ends_cloneLazy 0 _ hd
  next hl =>
  split
  swap
  · exact ends_some hd
  refine (ends_alloc (h.order_lt (by simpa using hl))).bind ?_
  rintro ⟨_ | a, w₁⟩ -
  · exact ends_some hd
  · exact ends_some h

theorem ends_cloneSlots {slots : List (Option VmaRegion)} (h : ∀ r, some r ∈ slots → r.Small) :
    Ends (cloneSlots root slots w) fun a => ∀ r, some r ∈ a.2.1 → r.Small := by
  induction slots generalizing w with
  | nil => exact ends_some h
  | cons slot slots ih =>
    have hrest : ∀ r, some r ∈ slots → r.Small := fun r hr => h r (.tail _ hr)
    cases slot with
    | none =>
      refine (ih hrest).bind fun a ha => ends_some fun r hr => ha r ?_
      simpa using hr
    | some r =>
      refine (ends_cloneRegion (h r (.head _))).bind ?_
      rintro ⟨_ | _, d, w₁⟩ hd
      · refine ends_some fun r' hr' => ?_
        rcases List.mem_cons.1 hr' with hr' | hr'
        · exact Option.some.inj hr' ▸ hd
        · cases List.eq_of_mem_replicate hr'
      · refine (ih hrest).bind fun a ha => ends_some fun r' hr' => ?_
        rcases List.mem_cons.1 hr' with hr' | hr'
        · exact Option.some.inj hr' ▸ hd
        · exact ha r' hr'

/-- Cloning ends: the half-built clone that is dropped when memory runs out is small too. -/
theorem ends_cloneAs {s : AddressSpace} (h : s.Small) :
    Ends (cloneAs s root w) fun a => ∀ dst, a.1 = some dst → dst.Small := by
  refine (ends_cloneSlots h).bind ?_
  rintro ⟨_ | _, regions, w₁⟩ hr
  · refine (AddressSpace.ends_drop (s := ⟨root, regions, s.heapStart, s.heapEnd⟩) hr).bind
      fun _ _ => ends_some ?_
    rintro _ ⟨⟩
  · refine ends_some ?_
    rintro _ ⟨⟩
    exact hr

end Clones

end Cyanos
