import Cyanos.Mm.VmmSpec

/-!
# Invariants of single regions

An invariant of the form "every region satisfies `P`, and the machine satisfies `J`".
`RegionUpkeep` lists what `P` and `J` have to satisfy for the operations of the memory manager to
keep it: regions are cut, backed and protected, and pages are mapped only with flags in `F`.
An operation that creates or grows a region keeps the invariant if that region satisfies `P`.

## Main results

* `RegionUpkeep.unmapRange`, `RegionUpkeep.mprotect`, `RegionUpkeep.handleUserPageFault` : these
  keep the invariant.
* `RegionUpkeep.map`, `AddressSpace.All.mapLazy`, `RegionUpkeep.brk` : these keep it if the new
  region satisfies `P`.
* `RegionUpkeep.drop` : what is left of the invariant when an address space is dropped.
-/

namespace Cyanos

open Lib Machine AddressSpace List

namespace AddressSpace

/-- Every region satisfies `P`. -/
def All (P : VmaRegion → Prop) (s : AddressSpace) : Prop := ∀ r, some r ∈ s.regions → P r

variable {P : VmaRegion → Prop} {s : AddressSpace}

theorem all_new (root : ℕ) : (new root).All P := by
  intro r hr
  cases eq_of_mem_replicate hr

theorem All.setRegion {slot : ℕ} {r : VmaRegion} (h : s.All P) (hr : P r) :
    (s.setRegion slot r).All P := by
  intro r' hr'
  rcases mem_or_eq_of_mem_set hr' with hr' | hr'
  · exact h r' hr'
  · cases hr'
    exact hr

theorem All.mapLazy {virt size : ℕ} {flags : PageFlags} {ok : Bool} {s' : AddressSpace} (hP : s.All P)
    (hnew : ∀ slot v n, s.place virt size = some (slot, v, n) → P (lazyRegion v n flags))
    (h : s.mapLazy virt size flags = (ok, s')) : s'.All P := by
  rcases mapLazy_cases h with ⟨-, rfl⟩ | ⟨slot, v, n, hplace, -, rfl⟩
  · exact hP
  · exact hP.setRegion (hnew slot v n hplace)

end AddressSpace

/-- The rules for an invariant of the regions and the machine that unmapping keeps. -/
structure CutUpkeep {W : Type} [Machine W] (P : VmaRegion → Prop) (J : W → Prop) : Prop where
  free : ∀ {w w' : W} {addr order}, buddyFree w addr order = some w' → J w → J w'
  unmapped : ∀ {w : W} {root va}, J w → J (unmapPage w root va)
  /-- A region is cut at its front. -/
  front : ∀ {r : VmaRegion} {hi phys fs}, P r → r.start < hi → hi < r.end_ →
    P { r with start := hi, phys := phys, lazyPages := fs }
  /-- A region is cut at its back. -/
  back : ∀ {r : VmaRegion} {lo fs}, P r → r.start < lo → lo < r.end_ →
    P { r with end_ := lo, lazyPages := fs }

/-- The rules for an invariant of the regions and the machine. -/
structure RegionUpkeep {W : Type} [Machine W] (P : VmaRegion → Prop) (F : PageFlags → Prop)
    (J : W → Prop) : Prop extends CutUpkeep P J where
  alloc : ∀ {w w' : W} {order res}, buddyAlloc w order = some (res, w') → J w → J w'
  zero : ∀ {w : W} (addr n), J w → J (zeroBytes w addr n)
  mapped : ∀ {w : W} {flags} (root va phys), F flags → J w → J (mapPage w root va phys flags).2
  /-- The pages of a region may be mapped with its flags. -/
  flags : ∀ {r}, P r → F r.flags
  /-- The pages behind a region do not matter. -/
  backed : ∀ {r : VmaRegion} (phys fs), P r → P { r with phys := phys, lazyPages := fs }
  /-- A region gets other rights. -/
  protect : ∀ {r : VmaRegion} {prot : ℕ}, P r →
    ¬ (prot.testBit 1 = true ∧ prot.testBit 2 = true) →
    P { r with flags := AddressSpace.protFlags prot }

/-- A loop over the slots keeps an invariant that each of its turns keeps. -/
theorem forSlots_all {W : Type} [Machine W] {P : VmaRegion → Prop} {J : W → Prop}
    {f : W → Option VmaRegion → Option (Option VmaRegion × W)}
    (hstep : ∀ w slot slot' w', f w slot = some (slot', w') → (∀ r, slot = some r → P r) → J w →
      (∀ r, slot' = some r → P r) ∧ J w')
    {w w' : W} {slots slots' : List (Option VmaRegion)} (h : forSlots f w slots = some (slots', w'))
    (hP : ∀ r, some r ∈ slots → P r) (hJ : J w) : (∀ r, some r ∈ slots' → P r) ∧ J w' :=
  forSlots_kept (J := fun _ => J) (fun _ h => h) (hstep _ _ _ _) h hP [] hJ

namespace CutUpkeep

variable {W : Type} [Machine W] {P : VmaRegion → Prop} {J : W → Prop} {s s' : AddressSpace} {w w' : W}
  {root virt : ℕ} (U : CutUpkeep P J)
include U

/-! ### Unmapping -/

theorem unmapPages (root virt n : ℕ) (hJ : J w) : J (unmapPages w root virt n) :=
  unmapPages_keeps (fun _ _ _ => U.unmapped) hJ

theorem retireAll {gone : List Holding}
    (h : gone.foldlM (retire root) w = some w') (hJ : J w) : J w' :=
  foldlM_keeps (J := fun _ => J) (fun h hJ => U.free h (U.unmapPages _ _ _ hJ)) h hJ

theorem freeLazy {start first last i : ℕ} {fs fs' : List ℕ}
    (h : freeLazy root start first last i fs w = some (fs', w')) (hJ : J w) : J w' := by
  obtain ⟨-, gone, -, hgone⟩ := freeLazy_spec h
  exact U.retireAll hgone hJ

theorem unmapSlot {end_ : ℕ} {slot slot' : Option VmaRegion}
    (h : unmapSlot root virt end_ w slot = some (slot', w'))
    (hP : ∀ r, slot = some r → P r) (hJ : J w) : (∀ r, slot' = some r → P r) ∧ J w' := by
  cases slot with
  | none =>
    cases h
    exact ⟨hP, hJ⟩
  | some r =>
    have hr := hP r rfl
    constructor
    · rintro r' rfl
      rcases unmapSlot_left h with ⟨-, rfl⟩ | ⟨hm, ⟨hlt, phys, fs, rfl⟩ | ⟨hlt, fs, rfl⟩⟩
      · exact hr
      · exact U.front hr hm.1 hlt
      · exact U.back hr hlt hm.2
    by_cases hm : r.Meets virt end_
    swap
    · rw [unmapSlot_of_not_meets hm] at h
      cases h
      exact hJ
    cases hl : r.lazy with
    | true =>
      obtain ⟨fs, hfree, -⟩ := unmapSlot_lazy hm hl h
      exact U.freeLazy hfree hJ
    | false =>
      rcases unmapSlot_eager hm hl h with ⟨-, -, -, hw'⟩ | ⟨-, -, rfl, -⟩ | ⟨-, rfl, -⟩
      · have hJ1 := U.unmapPages root r.start r.pages hJ
        split at hw'
        · exact U.free hw' hJ1
        · cases hw'
          exact hJ1
      · exact U.unmapPages _ _ _ hJ
      · exact U.unmapPages _ _ _ hJ

theorem unmapRange {len : ℕ}
    (h : s.unmapRange w virt len = some (s', w')) (hP : s.All P) (hJ : J w) :
    s'.All P ∧ J w' := by
  rcases unmapRange_cases h with ⟨-, rfl, rfl⟩ | ⟨lo, hi, slots, -, hloop, rfl⟩
  · exact ⟨hP, hJ⟩
  · exact forSlots_all (fun _ _ _ _ hf hP hJ => U.unmapSlot hf hP hJ) hloop hP hJ

end CutUpkeep

namespace RegionUpkeep

variable {W : Type} [Machine W] {P : VmaRegion → Prop} {F : PageFlags → Prop} {J : W → Prop}
  {s s' : AddressSpace} {w w' : W} {root virt size : ℕ} {flags : PageFlags} {ok : Bool}
  (U : RegionUpkeep P F J)
include U

/-! ### Protection -/

theorem protectSlot {addr end_ prot : ℕ} {slot : Option VmaRegion}
    (hprot : ¬ (prot.testBit 1 = true ∧ prot.testBit 2 = true)) (hP : ∀ r, slot = some r → P r)
    (hJ : J w) :
    (∀ r, (protectSlot root addr end_ (protFlags prot) w slot).1 = some r →
      P r) ∧ J (protectSlot root addr end_ (protFlags prot) w slot).2 := by
  refine ⟨fun r hr => ?_, ?_⟩
  · obtain ⟨r₀, rfl, rfl | rfl⟩ := protectSlot_some hr
    · exact hP r rfl
    · exact U.protect (hP r₀ rfl) hprot
  · cases slot with
    | none => exact hJ
    | some r =>
      exact protectSlot_keeps (U.mapped _ _ _ (U.flags (U.protect (hP r rfl) hprot))) hJ

theorem mprotect {addr len prot : ℕ}
    (h : s.mprotect w addr len prot = some (ok, s', w')) (hP : s.All P) (hJ : J w) :
    s'.All P ∧ J w' := by
  rcases mprotect_cases h with ⟨-, rfl, rfl⟩ | ⟨end_, slots, hprot, -, hloop, rfl⟩
  · exact ⟨hP, hJ⟩
  refine forSlots_all (fun w slot slot' w' hf hP hJ => ?_) hloop hP hJ
  obtain ⟨rfl, rfl⟩ := pair_inj hf
  exact U.protectSlot hprot hP hJ

/-! ### Mapping, the heap and dropping -/

theorem mapPages {phys n i : ℕ} {res : Option ℕ} (hF : F flags) (hJ : J w)
    (h : mapPages root virt phys flags n i w = (res, w')) : J w' :=
  mapPages_keeps (fun _ _ _ _ => U.mapped _ _ _ hF) h hJ

theorem map (hF : F flags)
    (hnew : ∀ slot v n phys, s.place virt size = some (slot, v, n) →
      P (eagerRegion v n phys flags))
    (h : s.map w virt size flags = some (ok, s', w')) (hP : s.All P) (hJ : J w) :
    s'.All P ∧ J w' := by
  rcases map_cases h with
    ⟨-, rfl, rfl | ⟨_, halloc⟩⟩ | ⟨slot, v, n, phys, w₁, hplace, halloc, h⟩
  · exact ⟨hP, hJ⟩
  · exact ⟨hP, U.alloc halloc hJ⟩
  have hJ1 := U.zero phys (n * pageSize) (U.alloc halloc hJ)
  rcases h with ⟨hmap, -, rfl⟩ | ⟨i, w₂, hmap, hfree, -, rfl⟩
  · exact ⟨hP.setRegion (hnew slot v n phys hplace), U.mapPages hF hJ1 hmap⟩
  · exact ⟨hP, U.free hfree (U.unmapPages _ _ _ (U.mapPages hF hJ1 hmap))⟩

theorem handleUserPageFault {va : ℕ}
    (h : s.handleUserPageFault w va = some (ok, s', w')) (hP : s.All P) (hJ : J w) :
    s'.All P ∧ J w' := by
  rcases handleUserPageFault_cases h with
    ⟨-, rfl, rfl | halloc⟩ | ⟨slot, r, phys, w₁, hlook, -, -, halloc, h⟩
  · exact ⟨hP, hJ⟩
  · exact ⟨hP, U.alloc halloc hJ⟩
  have hr := hP r (mem_of_getElem? (lookup_spec hlook).1)
  have hJ1 := U.mapped s.pageTableRoot (alignDown va pageSize) phys (U.flags hr)
    (U.zero phys pageSize (U.alloc halloc hJ))
  rcases h with ⟨hmap, -, rfl⟩ | ⟨w₂, hmap, hfree, -, rfl⟩
  · rw [hmap] at hJ1
    exact ⟨hP.setRegion (U.backed r.phys _ hr), hJ1⟩
  · rw [hmap] at hJ1
    exact ⟨hP, U.free hfree hJ1⟩

theorem brk {b newEnd : ℕ}
    (hnew : ∀ slot v n, s.place s.heapStart (alignUp newEnd pageSize - s.heapStart) =
      some (slot, v, n) → s.heapStart < alignUp newEnd pageSize →
        P (lazyRegion v n (.ofUser true false)))
    (hmove : ∀ r fs, some r ∈ s.regions → r.start = s.heapStart →
      P { r with end_ := alignUp newEnd pageSize, lazyPages := fs })
    (h : s.brk w newEnd = some (b, s', w')) (hP : s.All P) (hJ : J w) : s'.All P ∧ J w' := by
  rcases brk_cases h with
    ⟨rfl, rfl, -⟩ | ⟨s₁, hmap, hlt, rfl, rfl, rfl, -⟩ | ⟨idx, r, ⟨rfl, -⟩, hget, hstart, h⟩
  · exact ⟨hP, hJ⟩
  · have hP1 : s₁.All P := hP.mapLazy (fun slot v n hplace => hnew slot v n hplace hlt) hmap
    exact ⟨hP1, hJ⟩
  have hmem := mem_of_getElem? hget
  rcases h with ⟨-, -, rfl, rfl⟩ | ⟨fs, -, hfree, rfl⟩
  · exact ⟨hP.setRegion (hmove r r.lazyPages hmem hstart), hJ⟩
  · exact ⟨hP.setRegion (hmove r fs hmem hstart), U.freeLazy hfree hJ⟩

theorem drop (h : s.drop w = some w') (hJ : J w) : J w' := drop_keeps U.free h hJ

end RegionUpkeep

end Cyanos
