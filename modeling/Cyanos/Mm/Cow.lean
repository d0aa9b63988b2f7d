import Cyanos.Mm.Vmm

/-!
# Cloning an address space

`clone_as` of `mm/src/cow.rs`: what `fork` gives the child.  Every page that is there is copied to a
page of its own; a page that is not there yet is left to the child's own page faults.  When the
allocator has nothing left the half-built address space is dropped.
-/

namespace Cyanos

open Lib Machine Option

/-- A machine whose physical memory the kernel writes to, and that can make new page tables. -/
class MemMachine (W : Type) extends Machine W where
  /-- `copy_nonoverlapping(src, dst, n)` between physical addresses. -/
  copyBytes : W → ℕ → ℕ → ℕ → W
  /-- Store bytes at a physical address. -/
  writeBytes : W → ℕ → List UInt8 → W
  /-- `arch_alloc_page_table_root()`: a root without user mappings, or `0`. -/
  allocPageTableRoot : W → ℕ × W

open MemMachine

variable {W : Type} [MemMachine W]

/-- The loop over the pages of a lazy region, from index `i` on.  `dst` is the child's region so
far; the result is whether every page could be allocated. -/
def cloneLazy (root : ℕ) (region : VmaRegion) :
    ℕ → List ℕ → VmaRegion → W → Option (Bool × VmaRegion × W)
  | _, [], dst, w => some (true, dst, w)
  | i, srcPhys :: pages, dst, w =>
    if srcPhys = 0 then cloneLazy root region (i + 1) pages dst w
    else do
      match ← buddyAlloc w 0 with
      | (none, w) => some (false, dst, w)
      | (some dstPhys, w) =>
        let w := copyBytes w srcPhys dstPhys pageSize
        -- the result of `map_page` is not looked at
        let w := (mapPage w root (wadd region.start (i * pageSize)) dstPhys region.flags).2
        let lazyPages := dst.lazyPages ++ List.replicate (i + 1 - dst.lazyPages.length) 0
        cloneLazy root region (i + 1) pages { dst with lazyPages := lazyPages.set i dstPhys } w

/-- `for i in 0..n_pages`: map the pages of a block, whether or not each can be mapped. -/
def mapAll (root virt phys : ℕ) (flags : PageFlags) (n : ℕ) (w : W) : W :=
  (List.range n).foldl (fun w i =>
    (mapPage w root (wadd virt (i * pageSize)) (wadd phys (i * pageSize)) flags).2) w

/-- The copy of the block of an eager region. -/
def cloneEager (root : ℕ) (region dst : VmaRegion) (w : W) : Option (Bool × VmaRegion × W) := do
  let nPages := region.pages
  match ← buddyAlloc w (pagesToOrder nPages) with
  | (none, w) => some (false, dst, w)
  | (some dstPhys, w) =>
    let w := copyBytes w region.phys dstPhys (nPages * pageSize)
    some (true, { dst with phys := dstPhys }, mapAll root region.start dstPhys region.flags nPages w)

/-- The clone of one region: whether it is complete, and what there is of it. -/
def cloneRegion (root : ℕ) (region : VmaRegion) (w : W) : Option (Bool × VmaRegion × W) :=
  let dst := { region with phys := 0, lazyPages := [] }
  if region.lazy then cloneLazy root region 0 region.lazyPages dst w
  else if region.phys ≠ 0 then cloneEager root region dst w
  else some (true, dst, w)

/-- The loop over the slots, which ends where an allocation fails. -/
def cloneSlots (root : ℕ) :
    List (Option VmaRegion) → W → Option (Bool × List (Option VmaRegion) × W)
  | [], w => some (true, [], w)
  | none :: slots, w => do
    let (ok, dst, w) ← cloneSlots root slots w
    some (ok, none :: dst, w)
  | some region :: slots, w => do
    match ← cloneRegion root region w with
    | (false, dst, w) => some (false, some dst :: List.replicate slots.length none, w)
    | (true, dst, w) =>
      let (ok, dsts, w) ← cloneSlots root slots w
      some (ok, some dst :: dsts, w)

/-- `clone_as(src, new_page_table_root)`. -/
def cloneAs (src : AddressSpace) (root : ℕ) (w : W) : Option (Option AddressSpace × W) := do
  let (ok, regions, w) ← cloneSlots root src.regions w
  let dst : AddressSpace := ⟨root, regions, src.heapStart, src.heapEnd⟩
  if ok then some (some dst, w)
  else
    let w ← dst.drop w
    some (none, w)

/-! ### What the functions do -/

section Cases

variable {root i f : ℕ} {r dst dst' : VmaRegion} {pages : List ℕ} {ok : Bool} {w w' : W}

/-- The copy of one page of a lazy region. -/
theorem cloneLazy_cons (h : cloneLazy root r i (f :: pages) dst w = some (ok, dst', w'))
    (hf : f ≠ 0) :
    (ok = false ∧ dst' = dst ∧ buddyAlloc w 0 = some (none, w')) ∨
    ∃ a w₁ w₂, buddyAlloc w 0 = some (some a, w₁) ∧
      (mapPage (copyBytes w₁ f a pageSize) root (wadd r.start (i * pageSize)) a r.flags).2 = w₂ ∧
      cloneLazy root r (i + 1) pages { dst with
        lazyPages := (dst.lazyPages ++ List.replicate (i + 1 - dst.lazyPages.length) 0).set i a }
        w₂ = some (ok, dst', w') := by
  rw [cloneLazy, if_neg hf] at h
  obtain ⟨⟨res, w₁⟩, halloc, hrest⟩ := bind_eq_some_iff.1 h
  cases res with
  | none =>
    cases hrest
    exact .inl ⟨rfl, rfl, halloc⟩
  | some a => exact .inr ⟨a, w₁, _, halloc, rfl, hrest⟩

/-- The three kinds of regions. -/
theorem cloneRegion_cases (h : cloneRegion root r w = some (ok, dst, w')) :
    (r.lazy = true ∧
      cloneLazy root r 0 r.lazyPages { r with phys := 0, lazyPages := [] } w = some (ok, dst, w')) ∨
    (r.lazy = false ∧ r.phys = 0 ∧ ok = true ∧ dst = { r with phys := 0, lazyPages := [] } ∧ w' = w) ∨
    (r.lazy = false ∧ r.phys ≠ 0 ∧ ok = false ∧ dst = { r with phys := 0, lazyPages := [] } ∧
      buddyAlloc w (pagesToOrder r.pages) = some (none, w')) ∨
    (r.lazy = false ∧ r.phys ≠ 0 ∧ ok = true ∧ ∃ a w₁,
      buddyAlloc w (pagesToOrder r.pages) = some (some a, w₁) ∧
      dst = { r with phys := a, lazyPages := [] } ∧
      mapAll root r.start a r.flags r.pages (copyBytes w₁ r.phys a (r.pages * pageSize)) = w') := by
  by_cases hl : r.lazy = true
  · exact .inl ⟨hl, (if_pos hl).symm.trans h⟩
  have h' := (if_neg hl).symm.trans h
  have hl' : r.lazy = false := Bool.eq_false_iff.2 hl
  by_cases hp : r.phys = 0
  · obtain ⟨rfl, rfl, rfl⟩ := triple_inj ((if_neg (not_not.2 hp)).symm.trans h')
    exact .inr (.inl ⟨hl', hp, rfl, rfl, rfl⟩)
  · obtain ⟨⟨res, w₁⟩, halloc, hrest⟩ := bind_eq_some_iff.1 ((if_pos hp).symm.trans h')
    cases res with
    | none =>
      cases hrest
      exact .inr (.inr (.inl ⟨hl', hp, rfl, rfl, halloc⟩))
    | some a =>
      cases hrest
      exact .inr (.inr (.inr ⟨hl', hp, rfl, a, w₁, halloc, rfl, rfl⟩))

variable {slots dsts : List (Option VmaRegion)}

theorem cloneSlots_cons_none (h : cloneSlots root (none :: slots) w = some (ok, dsts, w')) :
    ∃ rest, cloneSlots root slots w = some (ok, rest, w') ∧ dsts = none :: rest := by
  obtain ⟨⟨ok₁, rest, w₁⟩, hrest, h1⟩ := bind_eq_some_iff.1 h
  cases h1
  exact ⟨rest, hrest, rfl⟩

theorem cloneSlots_cons_some (h : cloneSlots root (some r :: slots) w = some (ok, dsts, w')) :
    (∃ d, cloneRegion root r w = some (false, d, w') ∧ ok = false ∧
      dsts = some d :: List.replicate slots.length none) ∨
    ∃ d w₁ rest, cloneRegion root r w = some (true, d, w₁) ∧
      cloneSlots root slots w₁ = some (ok, rest, w') ∧ dsts = some d :: rest := by
  obtain ⟨⟨ok₁, d, w₁⟩, hregion, h1⟩ := bind_eq_some_iff.1 h
  cases ok₁ with
  | false =>
    cases h1
    exact .inl ⟨d, hregion, rfl, rfl⟩
  | true =>
    obtain ⟨⟨ok₂, rest, w₂⟩, hrest, h2⟩ := bind_eq_some_iff.1 h1
    cases h2
    exact .inr ⟨d, w₁, rest, hregion, hrest, rfl⟩

theorem cloneAs_cases {src : AddressSpace} {res : Option AddressSpace}
    (h : cloneAs src root w = some (res, w')) :
    ∃ ok regions w₁, cloneSlots root src.regions w = some (ok, regions, w₁) ∧
      (ok = true ∧ res = some ⟨root, regions, src.heapStart, src.heapEnd⟩ ∧ w' = w₁ ∨
        ok = false ∧ res = none ∧
          AddressSpace.drop ⟨root, regions, src.heapStart, src.heapEnd⟩ w₁ = some w') := by
  obtain ⟨⟨ok, regions, w₁⟩, hslots, h1⟩ := bind_eq_some_iff.1 h
  refine ⟨ok, regions, w₁, hslots, ?_⟩
  cases ok with
  | true =>
    cases h1
    exact .inl ⟨rfl, rfl, rfl⟩
  | false =>
    obtain ⟨w₂, hdrop, h2⟩ := bind_eq_some_iff.1 h1
    cases h2
    exact .inr ⟨rfl, rfl, hdrop⟩

end Cases

end Cyanos
