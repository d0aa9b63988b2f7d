import Cyanos.Mm.Holdings

/-!
# The outcomes of the memory manager's operations

One lemma for each operation of an address space that lists its outcomes, on any machine.  Every
invariant of the memory manager is proved from these.
-/

namespace Cyanos

open Lib Machine List Option

namespace AddressSpace

variable {W : Type} [Machine W] {s s' : AddressSpace} {w w' : W} {virt size : ℕ} {flags : PageFlags}
  {va v n slot phys len : ℕ} {r : VmaRegion} {ok : Bool}

/-! ### Finding a place and finding a region -/

/-- The place found is a free slot and a range of whole pages that no region overlaps. -/
theorem place_spec (h : s.place virt size = some (slot, v, n)) :
    size ≠ 0 ∧ s.regions[slot]? = some none ∧ v = alignDown virt pageSize ∧
      n = wadd size (pageSize - 1) / pageSize ∧ v + n * pageSize < 2 ^ 64 ∧
      ∀ r, some r ∈ s.regions → ¬ (v < r.end_ ∧ r.start < v + n * pageSize) := by
  unfold place at h
  split at h
  · cases h
  · next hsize =>
    obtain ⟨slot', hslot, h⟩ := bind_eq_some_iff.1 h
    obtain ⟨e, he, h⟩ := bind_eq_some_iff.1 h
    obtain ⟨hlt, rfl⟩ := checkedAdd_eq_some.1 he
    split at h
    · cases h
    · next hover =>
      cases h
      obtain ⟨hi, hnone, -⟩ := findIdx?_eq_some_iff_getElem.1 hslot
      refine ⟨hsize, ?_, rfl, rfl, hlt, fun r hr hlap => hover ?_⟩
      · rw [getElem?_eq_getElem hi, isNone_iff_eq_none.1 hnone]
      · exact any_eq_true.2 ⟨some r, hr, by simpa using hlap⟩

theorem place_pages_le (h : s.place virt size = some (slot, v, n)) : n ≤ 2 ^ 52 := by
  obtain ⟨-, -, -, rfl, -⟩ := place_spec h
  have := wadd_lt size (pageSize - 1)
  unfold pageSize at *
  omega

theorem lookup_spec {i : ℕ} (h : s.lookup va = some (i, r)) :
    s.regions[i]? = some (some r) ∧ r.Covers va := by
  obtain ⟨⟨slot, j⟩, hmem, hf⟩ := exists_of_findSome?_eq_some h
  cases slot with
  | none => cases hf
  | some =>
    simp only at hf
    split at hf
    · next hc =>
      cases hf
      exact ⟨mem_zipIdx_iff_getElem?.1 hmem, hc⟩
    · cases hf

theorem find_spec (h : s.find va = some r) : some r ∈ s.regions ∧ r.Covers va := by
  obtain ⟨⟨i, r'⟩, hlook, rfl⟩ := map_eq_some_iff.1 h
  obtain ⟨hi, hcov⟩ := lookup_spec hlook
  exact ⟨mem_of_getElem? hi, hcov⟩

/-- The slot a region is found in does not matter. -/
theorem find_eq : s.find va = s.regions.findSome? fun slot => slot.filter (·.Covers va) := by
  rw [find, lookup, ← zipIdx_map_fst 0 s.regions, findSome?_map, map_findSome?, zipIdx_map_fst]
  congr 1
  funext ⟨slot, i⟩
  cases slot with
  | none => rfl
  | some r => by_cases hc : r.Covers va <;> simp [Option.filter, hc]

/-- Only which regions cover the address matters. -/
theorem find_congr {va' : ℕ} (h : ∀ r, some r ∈ s.regions → (r.Covers va ↔ r.Covers va')) :
    s.find va = s.find va' := by
  rw [find_eq, find_eq]
  generalize s.regions = l at h
  induction l with
  | nil => rfl
  | cons slot l ih =>
    have hslot : slot.filter (·.Covers va) = slot.filter (·.Covers va') := by
      cases slot with
      | none => rfl
      | some r => simp only [Option.filter_some, h r (.head _)]
    rw [findSome?_cons, findSome?_cons, hslot, ih fun r hr => h r (.tail _ hr)]

theorem find_eq_none (h : s.find va = none) (r : VmaRegion) (hr : some r ∈ s.regions) :
    ¬ r.Covers va := by
  intro hc
  have hnone := findSome?_eq_none_iff.1 (find_eq ▸ h) _ hr
  simp [hc] at hnone

/-- The region of a place that was found is the only one there. -/
theorem find_setRegion {slot v n va : ℕ} {r : VmaRegion}
    (hplace : s.place virt size = some (slot, v, n)) (hstart : r.start = v)
    (hend : r.end_ = v + n * pageSize) (hva : v ≤ va) (hlt : va < v + n * pageSize) :
    (s.setRegion slot r).find va = some r := by
  obtain ⟨-, hslot, -, -, -, hfree⟩ := place_spec hplace
  have hmem : some r ∈ (s.setRegion slot r).regions :=
    mem_set (List.getElem?_eq_some_iff.1 hslot).1 _
  cases hfind : (s.setRegion slot r).find va with
  | none => exact absurd ⟨hstart ▸ hva, hend ▸ hlt⟩ (find_eq_none hfind r hmem)
  | some r'' =>
    obtain ⟨hmem', hcov⟩ := find_spec hfind
    rcases mem_or_eq_of_mem_set hmem' with hold | hnew
    · -- a region that was there before overlaps the place
      exact absurd ⟨lt_of_le_of_lt hva hcov.2, lt_of_le_of_lt hcov.1 hlt⟩ (hfree r'' hold)
    · exact hnew

/-! ### Mapping -/

/-- The region `map` creates. -/
def eagerRegion (v n phys : ℕ) (flags : PageFlags) : VmaRegion :=
  ⟨v, v + n * pageSize, phys, flags, false, []⟩

/-- The region `map_lazy` creates. -/
def lazyRegion (v n : ℕ) (flags : PageFlags) : VmaRegion :=
  ⟨v, v + n * pageSize, 0, flags, true, []⟩

theorem pages_eagerRegion {flags : PageFlags} (h : v + n * pageSize < 2 ^ 64) :
    (eagerRegion v n phys flags).pages = n := by
  rw [VmaRegion.pages, eagerRegion, wsub_of_le h (Nat.le_add_right _ _), Nat.add_sub_cancel_left,
    Nat.mul_div_cancel _ (by decide)]

theorem holdings_eagerRegion {flags : PageFlags} (h : v + n * pageSize < 2 ^ 64) :
    (eagerRegion v n phys flags).holdings =
      if phys ≠ 0 then [⟨⟨phys, pagesToOrder n⟩, v, n⟩] else [] := by
  rw [VmaRegion.holdings, pages_eagerRegion h]
  rfl

/-- The outcomes of `map`. -/
theorem map_cases (h : s.map w virt size flags = some (ok, s', w')) :
    (ok = false ∧ s' = s ∧ (w' = w ∨ ∃ order, buddyAlloc w order = some (none, w'))) ∨
    ∃ slot v n phys w₁, s.place virt size = some (slot, v, n) ∧
      buddyAlloc w (pagesToOrder n) = some (some phys, w₁) ∧
      ((mapPages s.pageTableRoot v phys flags n 0 (zeroBytes w₁ phys (n * pageSize)) = (none, w') ∧
        ok = true ∧
        s' = s.setRegion slot (eagerRegion v n phys flags)) ∨
      ∃ i w₂, mapPages s.pageTableRoot v phys flags n 0 (zeroBytes w₁ phys (n * pageSize)) =
          (some i, w₂) ∧
        buddyFree (unmapPages w₂ s.pageTableRoot v i) phys (pagesToOrder n) = some w' ∧
        ok = false ∧ s' = s) := by
  unfold map at h
  split at h
  · cases h
    exact .inl ⟨rfl, rfl, .inl rfl⟩
  · next slot v n hplace =>
    obtain ⟨⟨res, w₁⟩, halloc, h⟩ := bind_eq_some_iff.1 h
    cases res with
    | none =>
      cases h
      exact .inl ⟨rfl, rfl, .inr ⟨_, halloc⟩⟩
    | some phys =>
      refine .inr ⟨slot, v, n, phys, w₁, hplace, halloc, ?_⟩
      simp only at h
      split at h
      · next w₂ hmap =>
        cases h
        exact .inl ⟨hmap, rfl, rfl⟩
      · next i w₂ hmap =>
        obtain ⟨w₃, hfree, h⟩ := bind_eq_some_iff.1 h
        cases h
        exact .inr ⟨i, w₂, hmap, hfree, rfl, rfl⟩

/-- The outcomes of `map_lazy`. -/
theorem mapLazy_cases (h : s.mapLazy virt size flags = (ok, s')) :
    (ok = false ∧ s' = s) ∨
    ∃ slot v n, s.place virt size = some (slot, v, n) ∧ ok = true ∧
      s' = s.setRegion slot (lazyRegion v n flags) := by
  unfold mapLazy at h
  split at h
  · cases h
    exact .inl ⟨rfl, rfl⟩
  · next slot v n hplace =>
    cases h
    exact .inr ⟨slot, v, n, hplace, rfl, rfl⟩

theorem mapLazy_false (h : s.mapLazy virt size flags = (false, s')) :
    s' = s ∧ s.place virt size = none := by
  unfold mapLazy at h
  split at h
  · next hnone => exact ⟨(Prod.mk.inj h).2.symm, hnone⟩
  · cases h

/-- The region after page `idx` has been backed by `phys`. -/
def backPage (r : VmaRegion) (idx phys : ℕ) : VmaRegion :=
  { r with
    lazyPages := (r.lazyPages ++ List.replicate (idx + 1 - r.lazyPages.length) 0).set idx phys }

/-- A faulting page is at its index from the start of the region. -/
theorem pageVa_eq (hr : r.Shaped) (hc : r.Covers va) :
    wadd r.start (wsub (alignDown va pageSize) r.start / pageSize * pageSize) =
      alignDown va pageSize := by
  have hlt : alignDown va pageSize < 2 ^ 64 :=
    lt_of_le_of_lt (alignDown_le _ _) (lt_trans hc.2 hr.end_lt)
  rw [wadd, ← add_wsub_div hr.start_lt (dvd_alignDown _ _) hr.dvd_start]
  exact Nat.mod_eq_of_lt hlt

/-- The outcomes of `handle_user_page_fault`. -/
theorem handleUserPageFault_cases (h : s.handleUserPageFault w va = some (ok, s', w')) :
    (ok = false ∧ s' = s ∧ (w' = w ∨ buddyAlloc w 0 = some (none, w'))) ∨
    ∃ slot r phys w₁, s.lookup va = some (slot, r) ∧ r.lazy = true ∧
      r.lazyPages.getD (wsub (alignDown va pageSize) r.start / pageSize) 0 = 0 ∧
      buddyAlloc w 0 = some (some phys, w₁) ∧
      ((mapPage (zeroBytes w₁ phys pageSize) s.pageTableRoot (alignDown va pageSize) phys r.flags =
          (true, w') ∧ ok = true ∧
        s' = s.setRegion slot
          (backPage r (wsub (alignDown va pageSize) r.start / pageSize) phys)) ∨
      ∃ w₂, mapPage (zeroBytes w₁ phys pageSize) s.pageTableRoot (alignDown va pageSize) phys r.flags =
          (false, w₂) ∧ buddyFree w₂ phys 0 = some w' ∧ ok = false ∧ s' = s) := by
  simp only [handleUserPageFault] at h
  split at h
  · cases h
    exact .inl ⟨rfl, rfl, .inl rfl⟩
  · next slot r hlook =>
    split at h
    · cases h
      exact .inl ⟨rfl, rfl, .inl rfl⟩
    · next hlazy =>
      split at h
      · cases h
        exact .inl ⟨rfl, rfl, .inl rfl⟩
      · next hback =>
        obtain ⟨⟨res, w₁⟩, halloc, h⟩ := bind_eq_some_iff.1 h
        cases res with
        | none =>
          cases h
          exact .inl ⟨rfl, rfl, .inr halloc⟩
        | some phys =>
          refine .inr ⟨slot, r, phys, w₁, hlook, by simpa using hlazy, not_not.1 hback, halloc, ?_⟩
          simp only at h
          split at h
          · next w₂ hmap =>
            obtain ⟨w₃, hfree, h⟩ := bind_eq_some_iff.1 h
            cases h
            exact .inr ⟨w₂, hmap, hfree, rfl, rfl⟩
          · next w₂ hmap =>
            cases h
            exact .inl ⟨hmap, rfl, rfl⟩

/-- A fault that is handled. -/
theorem handleUserPageFault_eq {va slot phys : ℕ} {r : VmaRegion} {w₁ : W}
    (hlook : s.lookup va = some (slot, r)) (hl : r.lazy = true)
    (hnone : r.lazyPages.getD (wsub (alignDown va pageSize) r.start / pageSize) 0 = 0)
    (halloc : buddyAlloc w 0 = some (some phys, w₁))
    (hmap : mapPage (zeroBytes w₁ phys pageSize) s.pageTableRoot (alignDown va pageSize) phys r.flags =
      (true, w')) :
    s.handleUserPageFault w va = some (true, s.setRegion slot
      (backPage r (wsub (alignDown va pageSize) r.start / pageSize) phys), w') := by
  simp only [handleUserPageFault, hlook, hl, hnone, Bool.not_true, Bool.false_eq_true, if_false,
    ne_eq, not_true_eq_false]
  rw [halloc]
  simp only [bind_eq_bind, bind_some, hmap, backPage, hl]

/-! ### Unmapping and protection -/

/-- The range `unmap_range` works on, if there is one. -/
def unmapBounds (virt len : ℕ) : Option (ℕ × ℕ) :=
  if len = 0 then none
  else (checkedAdd (alignDown virt pageSize) (alignUp len pageSize)).map
    (alignDown virt pageSize, ·)

theorem unmapBounds_spec {virt lo hi : ℕ} (h : unmapBounds virt len = some (lo, hi)) :
    pageSize ∣ lo ∧ pageSize ∣ hi ∧ lo ≤ hi ∧ hi < 2 ^ 64 := by
  unfold unmapBounds at h
  split at h
  · cases h
  · obtain ⟨e, he, h⟩ := map_eq_some_iff.1 h
    cases h
    obtain ⟨hlt, rfl⟩ := checkedAdd_eq_some.1 he
    exact ⟨dvd_alignDown _ _, Nat.dvd_add (dvd_alignDown _ _) (dvd_alignUp _ _),
      Nat.le_add_right _ _, hlt⟩

/-- The outcomes of `unmap_range`. -/
theorem unmapRange_cases (h : s.unmapRange w virt len = some (s', w')) :
    (unmapBounds virt len = none ∧ s' = s ∧ w' = w) ∨
    ∃ lo hi slots, unmapBounds virt len = some (lo, hi) ∧
      forSlots (unmapSlot s.pageTableRoot lo hi) w s.regions = some (slots, w') ∧
      s' = { s with regions := slots } := by
  unfold unmapRange at h
  unfold unmapBounds
  split at h
  · next hlen =>
    cases h
    exact .inl ⟨if_pos hlen, rfl, rfl⟩
  · next hlen =>
    rw [if_neg hlen]
    simp only at h
    split at h
    · next hnone =>
      cases h
      exact .inl ⟨by rw [hnone]; rfl, rfl, rfl⟩
    · next e he =>
      obtain ⟨⟨slots, w₁⟩, hloop, h⟩ := bind_eq_some_iff.1 h
      cases h
      exact .inr ⟨_, e, slots, by rw [he]; rfl, hloop, rfl⟩

/-- The outcomes of `mprotect`. -/
theorem mprotect_cases {addr prot : ℕ} (h : s.mprotect w addr len prot = some (ok, s', w')) :
    (ok = false ∧ s' = s ∧ w' = w) ∨
    ∃ end_ slots, ¬ (prot.testBit 1 = true ∧ prot.testBit 2 = true) ∧
      checkedAdd (alignDown addr pageSize) (alignUp len pageSize) = some end_ ∧
      forSlots (fun w slot => some (protectSlot s.pageTableRoot (alignDown addr pageSize) end_
        (protFlags prot) w slot)) w s.regions = some (slots, w') ∧
      s' = { s with regions := slots } := by
  unfold mprotect at h
  split at h
  · cases h
    exact .inl ⟨rfl, rfl, rfl⟩
  · next hwx =>
    simp only at h
    split at h
    · cases h
      exact .inl ⟨rfl, rfl, rfl⟩
    · next e he =>
      obtain ⟨⟨slots, w₁⟩, hloop, h⟩ := bind_eq_some_iff.1 h
      cases h
      exact .inr ⟨e, slots, hwx, he, hloop, rfl⟩

/-- A region that is protected gets other flags. -/
theorem protectSlot_some {root addr end_ : ℕ} {slot : Option VmaRegion}
    (h : (protectSlot root addr end_ flags w slot).1 = some r) :
    ∃ r₀, slot = some r₀ ∧ (r = r₀ ∨ r = { r₀ with flags := flags }) := by
  cases slot with
  | none => cases h
  | some r₀ =>
    simp only [protectSlot] at h
    split at h
    · exact ⟨r₀, rfl, .inr (some.inj h).symm⟩
    · exact ⟨r₀, rfl, .inl (some.inj h).symm⟩

/-- What mapping a page keeps, protecting a region keeps. -/
theorem protectSlot_keeps {root addr end_ : ℕ} {slot : Option VmaRegion} {J : W → Prop}
    (hmap : ∀ {w : W} {va phys}, J w → J (mapPage w root va phys flags).2) (hJ : J w) :
    J (protectSlot root addr end_ flags w slot).2 := by
  have hremap : ∀ start i fs (w : W), J w → J (remapPages root start addr end_ flags i fs w) := by
    intro start i fs
    induction fs generalizing i with
    | nil => exact fun _ hJ => hJ
    | cons f fs ih =>
      intro w hJ
      refine ih (i + 1) _ ?_
      split
      · exact hmap hJ
      · exact hJ
  cases slot with
  | none => exact hJ
  | some r =>
    simp only [protectSlot]
    split
    swap
    · exact hJ
    split
    · exact hremap _ _ _ _ hJ
    split
    swap
    · exact hJ
    refine foldlRecOn (motive := J) _ _ hJ fun w hJ i _ => ?_
    split
    · exact hmap hJ
    · exact hJ

/-! ### The heap -/

/-- The heap and its slot. -/
def heap (s : AddressSpace) : Option (ℕ × VmaRegion) :=
  s.heapSlot.bind fun idx => (s.regions.getD idx none).map (idx, ·)

theorem heap_spec {idx : ℕ} (h : s.heap = some (idx, r)) :
    s.regions[idx]? = some (some r) ∧ r.start = s.heapStart := by
  obtain ⟨i, hi, h⟩ := bind_eq_some_iff.1 h
  obtain ⟨r', hr', h⟩ := map_eq_some_iff.1 h
  obtain ⟨rfl, rfl⟩ := Prod.mk.inj h
  obtain ⟨hlt, hany, -⟩ := findIdx?_eq_some_iff_getElem.1 hi
  have hget : s.regions[i]? = some (some r') := by
    rw [getD_eq_getElem?_getD, getElem?_eq_getElem hlt, getD_some] at hr'
    rw [getElem?_eq_getElem hlt, hr']
  refine ⟨hget, ?_⟩
  rw [getElem?_eq_getElem hlt] at hget
  rw [some.inj hget] at hany
  simpa using hany

/-- The outcomes of `brk`. -/
theorem brk_cases {b newEnd : ℕ} (h : s.brk w newEnd = some (b, s', w')) :
    (s' = s ∧ w' = w ∧ (b = s.currentBreak ∨
      b = alignUp newEnd pageSize ∧ s.heap.map (·.2.end_) = some b)) ∨
    (∃ s₁, s.mapLazy s.heapStart (b - s.heapStart) (.ofUser true false) = (true, s₁) ∧
      s.heapStart < b ∧ s' = { s₁ with heapEnd := b } ∧ w' = w ∧ b = alignUp newEnd pageSize ∧
      s.heap = none) ∨
    ∃ idx r, (b = alignUp newEnd pageSize ∧ s.heap = some (idx, r)) ∧
      s.regions[idx]? = some (some r) ∧ r.start = s.heapStart ∧
      ((r.end_ < b ∧ s.growthBlocked idx r.end_ b = false ∧ w' = w ∧
          s' = { s.setRegion idx { r with end_ := b } with heapEnd := b }) ∨
        ∃ fs, b < r.end_ ∧
          freeLazy s.pageTableRoot r.start (wsub b r.start / pageSize)
            (wadd (wsub r.end_ r.start) (pageSize - 1) / pageSize) 0 r.lazyPages w = some (fs, w') ∧
          s' = { s.setRegion idx { r with end_ := b, lazyPages := fs } with heapEnd := b }) := by
  unfold brk at h
  split at h
  · cases h
    exact .inl ⟨rfl, rfl, .inl rfl⟩
  split at h
  · cases h
    exact .inl ⟨rfl, rfl, .inl rfl⟩
  simp only at h
  split at h
  · next hnone =>
    split at h
    · cases h
      exact .inl ⟨rfl, rfl, .inl rfl⟩
    · next hgt =>
      split at h
      · next s₁ hmap =>
        cases h
        exact .inr (.inl ⟨s₁, hmap, by omega, rfl, rfl, rfl, hnone⟩)
      · next s₁ hmap =>
        cases h
        rcases mapLazy_cases hmap with ⟨-, rfl⟩ | ⟨_, _, _, _, h, _⟩
        · exact .inl ⟨rfl, rfl, .inl rfl⟩
        · cases h
  · next idx r hheap =>
    obtain ⟨hget, hstart⟩ := heap_spec hheap
    split at h
    · next heq =>
      cases h
      exact .inl ⟨rfl, rfl, .inr ⟨rfl, by rw [show s.heap = _ from hheap, heq]; rfl⟩⟩
    · next hne =>
      split at h
      · next hgt =>
        split at h
        · cases h
          exact .inl ⟨rfl, rfl, .inl rfl⟩
        · next hfree =>
          cases h
          exact .inr (.inr ⟨idx, r, ⟨rfl, hheap⟩, hget, hstart,
            .inl ⟨hgt, by simpa using hfree, rfl, rfl⟩⟩)
      · next hgt =>
        obtain ⟨⟨fs, w₁⟩, hloop, h⟩ := bind_eq_some_iff.1 h
        cases h
        exact .inr (.inr ⟨idx, r, ⟨rfl, hheap⟩, hget, hstart, .inr ⟨fs, by omega, hloop, rfl⟩⟩)

/-! ### Dropping -/

/-- Free the blocks one after the other. -/
def freeBlocks (w : W) (bs : List Block) : Option W :=
  bs.foldlM (fun w b => buddyFree w b.addr b.order) w

theorem freePages_eq (start i : ℕ) (fs : List ℕ) :
    freePages fs w = freeBlocks w (blocksOf (lazyHoldings start i fs)) := by
  induction fs generalizing i w with
  | nil => rfl
  | cons f fs ih =>
    rw [freePages, lazyHoldings]
    split
    · simp only [ih (i + 1), freeBlocks, blocksOf, map_cons, foldlM_cons]
    · exact ih ..

theorem dropSlot_eq (w : W) (slot : Option VmaRegion) :
    dropSlot w slot = freeBlocks w (blocksOf (slot.elim [] VmaRegion.holdings)) := by
  cases slot with
  | none => rfl
  | some r =>
    rw [dropSlot, Option.elim, VmaRegion.holdings]
    split
    · exact freePages_eq ..
    · split
      · simp [freeBlocks, blocksOf]
      · rfl

/-- Dropping the regions frees the blocks that they hold. -/
theorem dropSlots_eq (w : W) (slots : List (Option VmaRegion)) :
    slots.foldlM dropSlot w = freeBlocks w (blocksOf (holdings slots)) := by
  induction slots generalizing w with
  | nil => rfl
  | cons slot slots ih =>
    rw [foldlM_cons, holdings_cons, blocksOf, map_append, freeBlocks, foldlM_append]
    exact congrArg₂ _ (dropSlot_eq w slot) (funext ih)

/-- Dropping an address space does nothing but free blocks. -/
theorem drop_keeps {J : W → Prop}
    (hfree : ∀ {w w' : W} {a order}, buddyFree w a order = some w' → J w → J w')
    (h : s.drop w = some w') (hJ : J w) : J w' := by
  obtain ⟨w₁, h1, h⟩ := bind_eq_some_iff.1 h
  rw [dropSlots_eq] at h1
  have hJ1 : J w₁ := foldlM_keeps (J := fun _ => J) hfree h1 hJ
  split at h
  · exact hfree h hJ1
  · cases h
    exact hJ1

end AddressSpace

end Cyanos
