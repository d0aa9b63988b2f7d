import Cyanos.Lib.Run
import Cyanos.Mm.RegionUpkeep

/-!
# Runs of an address space

A `Space` is an address space together with the machine it is on; its `Call`s are the operations of
the memory manager.  `Space.shaped_step` is the part of the invariants that concerns the regions
only: bounds are page-aligned words, and those of eager regions are in order.
-/

namespace Cyanos

open Lib Machine AddressSpace List Option

/-- An address space on a machine. -/
structure Space (W : Type) where
  /-- The address space. -/
  as : AddressSpace
  /-- The machine. -/
  w : W

namespace Space

variable {W : Type} [Machine W]

/-- The operations of the memory manager. -/
inductive Call
  | map (virt size : ℕ) (flags : PageFlags)
  | mapLazy (virt size : ℕ) (flags : PageFlags)
  | fault (va : ℕ)
  | unmapRange (virt len : ℕ)
  | mprotect (addr len prot : ℕ)
  | brk (newEnd : ℕ)

/-- The space after a call. -/
def step (s : Space W) : Call → Option (Space W)
  | .map virt size flags => (s.as.map s.w virt size flags).map fun (_, as, w) => ⟨as, w⟩
  | .mapLazy virt size flags => some ⟨(s.as.mapLazy virt size flags).2, s.w⟩
  | .fault va => (s.as.handleUserPageFault s.w va).map fun (_, as, w) => ⟨as, w⟩
  | .unmapRange virt len => (s.as.unmapRange s.w virt len).map fun (as, w) => ⟨as, w⟩
  | .mprotect addr len prot => (s.as.mprotect s.w addr len prot).map fun (_, as, w) => ⟨as, w⟩
  | .brk newEnd => (s.as.brk s.w newEnd).map fun (_, as, w) => ⟨as, w⟩

/-- A new address space, with the heap where the loader puts it. -/
def new (root heapStart heapEnd : ℕ) (w : W) : Space W :=
  ⟨{ AddressSpace.new root with heapStart := heapStart, heapEnd := heapEnd }, w⟩

/-- A heap region, if there is one, is lazy. -/
def HeapLazy (s : Space W) : Prop :=
  ∀ r, some r ∈ s.as.regions → r.start = s.as.heapStart → r.lazy = true

instance (s : Space W) : Decidable s.HeapLazy := inferInstanceAs (Decidable (∀ _, _))

end Space

namespace AddressSpace

variable {W : Type} [Machine W] {s s' : AddressSpace} {w w' : W} {virt size : ℕ} {flags : PageFlags}
  {ok : Bool}

/-- Every region has its shape. -/
def Shaped (s : AddressSpace) : Prop := ∀ r, some r ∈ s.regions → r.Shaped

theorem Shaped.setRegion (h : s.Shaped) {slot : ℕ} {r : VmaRegion} (hr : r.Shaped) :
    (s.setRegion slot r).Shaped := All.setRegion h hr

theorem shaped_new (root heapStart heapEnd : ℕ) :
    ({ new root with heapStart := heapStart, heapEnd := heapEnd } : AddressSpace).Shaped :=
  all_new root

theorem shaped_range {slot v n phys : ℕ} {lazy : Bool} (h : s.place virt size = some (slot, v, n)) :
    VmaRegion.Shaped ⟨v, v + n * pageSize, phys, flags, lazy, []⟩ := by
  obtain ⟨-, -, rfl, -, hlt, -⟩ := place_spec h
  exact ⟨dvd_alignDown _ _, Nat.dvd_add (dvd_alignDown _ _) (Nat.dvd_mul_left _ _),
    lt_of_le_of_lt (Nat.le_add_right _ _) hlt, hlt, fun _ => Nat.le_add_right _ _⟩

theorem shaped_map (hs : s.Shaped)
    (h : s.map w virt size flags = some (ok, s', w')) : s'.Shaped := by
  rcases map_cases h with ⟨-, rfl, -⟩ | ⟨slot, v, n, phys, w₁, hplace, -, h⟩
  · exact hs
  · rcases h with ⟨-, -, rfl⟩ | ⟨_, _, -, -, -, rfl⟩
    · exact hs.setRegion (shaped_range hplace)
    · exact hs

theorem shaped_mapLazy (hs : s.Shaped) (h : s.mapLazy virt size flags = (ok, s')) : s'.Shaped :=
  All.mapLazy hs (fun _ _ _ hplace => shaped_range hplace) h

theorem shaped_handleUserPageFault {va : ℕ} (hs : s.Shaped)
    (h : s.handleUserPageFault w va = some (ok, s', w')) : s'.Shaped := by
  rcases handleUserPageFault_cases h with ⟨-, rfl, -⟩ | ⟨slot, r, phys, w₁, hlook, -, -, -, h⟩
  · exact hs
  · rcases h with ⟨-, -, rfl⟩ | ⟨_, -, -, -, rfl⟩
    · obtain ⟨h1, h2, h3, h4, h5⟩ := hs r (mem_of_getElem? (lookup_spec hlook).1)
      exact hs.setRegion ⟨h1, h2, h3, h4, h5⟩
    · exact hs

theorem shaped_unmapRange {len : ℕ} (hs : s.Shaped)
    (h : s.unmapRange w virt len = some (s', w')) : s'.Shaped := by
  rcases unmapRange_cases h with ⟨-, rfl, -⟩ | ⟨lo, hi, slots, hb, hloop, rfl⟩
  · exact hs
  · obtain ⟨hlo, hhi, hle, hlt⟩ := unmapBounds_spec hb
    refine (forSlots_all (J := fun _ => True) (fun _ _ _ _ hf hP _ => ?_) hloop hs trivial).1
    exact ⟨fun r hr => (shaped_unmapSlot hP hlo (by omega) hhi hf r hr).1, trivial⟩

theorem shaped_mprotect {addr len prot : ℕ} (hs : s.Shaped)
    (h : s.mprotect w addr len prot = some (ok, s', w')) : s'.Shaped := by
  rcases mprotect_cases h with ⟨-, rfl, -⟩ | ⟨end_, slots, -, -, hloop, rfl⟩
  · exact hs
  · refine (forSlots_all (J := fun _ => True) (fun _ _ _ _ hf hP _ => ?_) hloop hs trivial).1
    obtain ⟨rfl, rfl⟩ := pair_inj hf
    refine ⟨fun r hr => ?_, trivial⟩
    obtain ⟨r₀, hr0, rfl | rfl⟩ := protectSlot_some hr
    · exact hP r hr0
    · obtain ⟨h1, h2, h3, h4, h5⟩ := hP r₀ hr0
      exact ⟨h1, h2, h3, h4, h5⟩

theorem shaped_brk {b newEnd : ℕ} (hs : s.Shaped)
    (hlazy : ∀ r, some r ∈ s.regions → r.start = s.heapStart → r.lazy = true)
    (h : s.brk w newEnd = some (b, s', w')) : s'.Shaped := by
  have hnew := alignUp_lt newEnd pageSize
  rcases brk_cases h with ⟨rfl, -⟩ | ⟨s₁, hmap, -, rfl, -⟩ | ⟨idx, r, ⟨rfl, -⟩, hget, hstart, h⟩
  · exact hs
  · have hs1 := shaped_mapLazy hs hmap
    exact hs1
  · have hmem := mem_of_getElem? hget
    have hl := hlazy r hmem hstart
    obtain ⟨h1, -, h3, -, -⟩ := hs r hmem
    have hr : ∀ fs, VmaRegion.Shaped { r with end_ := alignUp newEnd pageSize, lazyPages := fs } :=
      fun fs => ⟨h1, dvd_alignUp _ _, h3, hnew, by simp [hl]⟩
    rcases h with ⟨-, -, -, rfl⟩ | ⟨fs, -, -, rfl⟩
    · exact hs.setRegion (hr r.lazyPages)
    · exact hs.setRegion (hr fs)

end AddressSpace

/-- Every call keeps the shapes, as long as the heap is lazy. -/
theorem Space.shaped_step {W : Type} [Machine W] {s s' : Space W} {c : Call}
    (hs : s.as.Shaped) (hheap : ∀ newEnd, c = .brk newEnd → s.HeapLazy) (h : s.step c = some s') :
    s'.as.Shaped := by
  cases c with
  | map =>
    obtain ⟨⟨ok, as, w⟩, hop, rfl⟩ := map_eq_some_iff.1 h
    exact shaped_map hs hop
  | mapLazy =>
    cases h
    exact shaped_mapLazy hs rfl
  | fault =>
    obtain ⟨⟨ok, as, w⟩, hop, rfl⟩ := map_eq_some_iff.1 h
    exact shaped_handleUserPageFault hs hop
  | unmapRange =>
    obtain ⟨⟨as, w⟩, hop, rfl⟩ := map_eq_some_iff.1 h
    exact shaped_unmapRange hs hop
  | mprotect =>
    obtain ⟨⟨ok, as, w⟩, hop, rfl⟩ := map_eq_some_iff.1 h
    exact shaped_mprotect hs hop
  | brk newEnd =>
    obtain ⟨⟨b, as, w⟩, hop, rfl⟩ := map_eq_some_iff.1 h
    exact shaped_brk hs (hheap newEnd rfl) hop

end Cyanos
