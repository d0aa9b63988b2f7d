import Cyanos.Lib.Inversion
import Cyanos.Mm.Paging

/-!
# Address spaces

The per-process memory manager of `mm/src/vmm.rs`.  An `AddressSpace` has eight slots for regions.
A region is *eager*, backed from the start by one block of physical memory, or *lazy*, backed page
by page as its pages are first accessed.

Every operation takes the machine it acts on and returns it; `none` is a failed assertion of the
allocator.  Addresses are words, and the arithmetic on them wraps where the source's does.  The
TLB is not modelled.
-/

namespace Cyanos

open Lib Machine

/-- `VmaRegion`: a range of virtual memory. -/
structure VmaRegion where
  /-- First address. -/
  start : ℕ
  /-- End, exclusive. -/
  end_ : ℕ
  /-- First address of the block behind an eager region. -/
  phys : ℕ
  /-- Flags its pages are mapped with. -/
  flags : PageFlags
  /-- Whether the region is lazy. -/
  lazy : Bool
  /-- The page behind each page of a lazy region; `0` if there is none yet. -/
  lazyPages : List ℕ
  deriving DecidableEq, Repr

/-- `AddressSpace`. -/
structure AddressSpace where
  /-- Physical address of the root page table. -/
  pageTableRoot : ℕ
  /-- The eight slots. -/
  regions : List (Option VmaRegion)
  /-- Where the heap begins; `0` if there is none. -/
  heapStart : ℕ
  /-- The current break. -/
  heapEnd : ℕ
  deriving DecidableEq, Repr

/-- The loop of `pages_to_order`, from the capacity `cap = 2 ^ order` on. -/
def growOrder (pages : ℕ) : ℕ → ℕ → ℕ → ℕ
  | 0, _, order => order
  | fuel + 1, cap, order => if cap < pages then growOrder pages fuel (cap <<< 1) (order + 1) else order

/-- `pages_to_order`: the smallest order whose block holds `pages` pages.  No caller passes more
than `2 ^ 52` pages, so 64 turns are enough. -/
def pagesToOrder (pages : ℕ) : ℕ := growOrder pages 64 1 0

namespace VmaRegion

/-- The address is in the region. -/
def Covers (r : VmaRegion) (va : ℕ) : Prop := r.start ≤ va ∧ va < r.end_

instance (r : VmaRegion) (va : ℕ) : Decidable (r.Covers va) := inferInstanceAs (Decidable (_ ∧ _))

/-- The test for overlap with `[virt, end_)` that all operations use. -/
def Meets (r : VmaRegion) (virt end_ : ℕ) : Prop := r.start < end_ ∧ virt < r.end_

instance (r : VmaRegion) (virt end_ : ℕ) : Decidable (r.Meets virt end_) :=
  inferInstanceAs (Decidable (_ ∧ _))

/-- `(region.end - region.start) / PAGE_SIZE`. -/
def pages (r : VmaRegion) : ℕ := wsub r.end_ r.start / pageSize

end VmaRegion

/-! ### Loops over pages -/

section Loops

variable {W : Type} [Machine W]

/-- `for i in 0..n`: unmap the pages from `virt` on. -/
def unmapPages (w : W) (root virt n : ℕ) : W :=
  (List.range n).foldl (fun w i => unmapPage w root (wadd virt (i * pageSize))) w

/-- Map `n` pages from index `i` on, up to the first failure, whose index is returned. -/
def mapPages (root virt phys : ℕ) (flags : PageFlags) : ℕ → ℕ → W → Option ℕ × W
  | 0, _, w => (none, w)
  | n + 1, i, w =>
    match mapPage w root (wadd virt (i * pageSize)) (wadd phys (i * pageSize)) flags with
    | (true, w) => mapPages root virt phys flags n (i + 1) w
    | (false, w) => (some i, w)

/-- `for i in first..last.min(lazy_pages.len())`: unmap and free the pages that are there.  The
list is the rest of `lazy_pages` from index `i` on. -/
def freeLazy (root start first last : ℕ) : ℕ → List ℕ → W → Option (List ℕ × W)
  | _, [], w => some ([], w)
  | i, f :: fs, w =>
    if first ≤ i ∧ i < last ∧ f ≠ 0 then do
      let w ← buddyFree (unmapPage w root (wadd start (i * pageSize))) f 0
      let (fs, w) ← freeLazy root start first last (i + 1) fs w
      some (0 :: fs, w)
    else do
      let (fs, w) ← freeLazy root start first last (i + 1) fs w
      some (f :: fs, w)

/-- A loop over the slots that may change each of them. -/
def forSlots (f : W → Option VmaRegion → Option (Option VmaRegion × W)) :
    W → List (Option VmaRegion) → Option (List (Option VmaRegion) × W)
  | w, [] => some ([], w)
  | w, slot :: slots => do
    let (slot, w) ← f w slot
    let (slots, w) ← forSlots f w slots
    some (slot :: slots, w)

end Loops

namespace AddressSpace

variable {W : Type} [Machine W]

/-- `AddressSpace::new`. -/
def new (pageTableRoot : ℕ) : AddressSpace := ⟨pageTableRoot, List.replicate 8 none, 0, 0⟩

/-- Fill a slot. -/
def setRegion (s : AddressSpace) (slot : ℕ) (region : VmaRegion) : AddressSpace :=
  { s with regions := s.regions.set slot (some region) }

/-- The first slot whose region covers the address. -/
def lookup (s : AddressSpace) (va : ℕ) : Option (ℕ × VmaRegion) :=
  s.regions.zipIdx.findSome? fun
    | (some r, i) => if r.Covers va then some (i, r) else none
    | (none, _) => none

/-- `find(virt)`. -/
def find (s : AddressSpace) (va : ℕ) : Option VmaRegion := (s.lookup va).map Prod.snd

/-- `virt_to_phys(virt)`. -/
def virtToPhys (s : AddressSpace) (virt : ℕ) : Option ℕ :=
  (s.find virt).bind fun vma =>
    if vma.lazy then
      let offset := virt - vma.start
      let physPage := vma.lazyPages.getD (offset / pageSize) 0
      if physPage = 0 then none else some (wadd physPage (offset % pageSize))
    else some (wadd vma.phys (virt - vma.start))

/-! ### Mapping -/

/-- What `map` and `map_lazy` do before they differ: find a free slot, round to pages, and reject
an overflow or an overlap.  The result is the slot, the first address and the number of pages. -/
def place (s : AddressSpace) (virt size : ℕ) : Option (ℕ × ℕ × ℕ) :=
  if size = 0 then none
  else
    (s.regions.findIdx? Option.isNone).bind fun slot =>
      let virt := alignDown virt pageSize
      let pages := wadd size (pageSize - 1) / pageSize
      (checkedAdd virt (pages * pageSize)).bind fun end_ =>
        if s.regions.any fun slot => slot.any fun r => virt < r.end_ ∧ end_ > r.start then none
        else some (slot, virt, pages)

/-- `map(virt, size, flags)`: a region backed by a zeroed block. -/
def map (s : AddressSpace) (w : W) (virt size : ℕ) (flags : PageFlags) :
    Option (Bool × AddressSpace × W) :=
  match s.place virt size with
  | none => some (false, s, w)
  | some (slot, virt, pages) => do
    let order := pagesToOrder pages
    match ← buddyAlloc w order with
    | (none, w) => some (false, s, w)
    | (some phys, w) =>
      let w := zeroBytes w phys (pages * pageSize)
      match mapPages s.pageTableRoot virt phys flags pages 0 w with
      | (none, w) =>
        let region := ⟨virt, virt + pages * pageSize, phys, flags, false, []⟩
        some (true, s.setRegion slot region, w)
      | (some i, w) =>
        let w ← buddyFree (unmapPages w s.pageTableRoot virt i) phys order
        some (false, s, w)

/-- `map_lazy(virt, size, flags)`: a region without pages. -/
def mapLazy (s : AddressSpace) (virt size : ℕ) (flags : PageFlags) : Bool × AddressSpace :=
  match s.place virt size with
  | none => (false, s)
  | some (slot, virt, pages) =>
    let region := ⟨virt, virt + pages * pageSize, 0, flags, true, []⟩
    (true, s.setRegion slot region)

/-- `handle_user_page_fault(fault_va)`: back one page of a lazy region. -/
def handleUserPageFault (s : AddressSpace) (w : W) (faultVa : ℕ) :
    Option (Bool × AddressSpace × W) :=
  let pageVa := alignDown faultVa pageSize
  match s.lookup faultVa with
  | none => some (false, s, w)
  | some (slot, region) =>
    let pageIdx := wsub pageVa region.start / pageSize
    if !region.lazy then some (false, s, w)
    else if region.lazyPages.getD pageIdx 0 ≠ 0 then some (false, s, w)
    else do
      match ← buddyAlloc w 0 with
      | (none, w) => some (false, s, w)
      | (some phys, w) =>
        let w := zeroBytes w phys pageSize
        match mapPage w s.pageTableRoot pageVa phys region.flags with
        | (false, w) =>
          let w ← buddyFree w phys 0
          some (false, s, w)
        | (true, w) =>
          -- `resize(page_idx + 1, 0)` where the vector is too short
          let lazyPages := region.lazyPages ++
            List.replicate (pageIdx + 1 - region.lazyPages.length) 0
          let region := { region with lazyPages := lazyPages.set pageIdx phys }
          some (true, s.setRegion slot region, w)

/-! ### Unmapping -/

/-- One turn of the loop of `unmap_range`: free what is behind the part of the region in
`[virt, end_)`, then drop the region, cut it at its front, or cut it where that part begins. -/
def unmapSlot (root virt end_ : ℕ) (w : W) : Option VmaRegion → Option (Option VmaRegion × W)
  | none => some (none, w)
  | some region =>
    if region.Meets virt end_ then do
      let rStart := region.start
      let rEnd := region.end_
      let clipS := max virt rStart
      let clipE := min end_ rEnd
      let (lazyPages, w) ←
        if region.lazy then
          let pgFirst := wsub clipS rStart / pageSize
          let pgLast := wadd (wsub clipE rStart) (pageSize - 1) / pageSize
          freeLazy root rStart pgFirst pgLast 0 region.lazyPages w
        else
          some (region.lazyPages, unmapPages w root clipS (wsub clipE clipS / pageSize))
      if clipS = rStart ∧ clipE = rEnd then do
        let w ←
          if !region.lazy ∧ region.phys ≠ 0 then buddyFree w region.phys (pagesToOrder region.pages)
          else some w
        some (none, w)
      else if clipS = rStart then
        let shift := wsub clipE rStart / pageSize
        -- `drain(0..shift)`, or `clear()` when the vector is shorter
        some (some
          { region with
            start := clipE
            phys := if !region.lazy ∧ region.phys ≠ 0 then wadd region.phys (wsub clipE rStart)
              else region.phys
            lazyPages := if region.lazy then lazyPages.drop shift else lazyPages }, w)
      else some (some { region with end_ := clipS, lazyPages := lazyPages }, w)
    else some (some region, w)

/-- `unmap_range(virt, len)`. -/
def unmapRange (s : AddressSpace) (w : W) (virt len : ℕ) : Option (AddressSpace × W) :=
  if len = 0 then some (s, w)
  else
    let virt := alignDown virt pageSize
    match checkedAdd virt (alignUp len pageSize) with
    | none => some (s, w)
    | some end_ => do
      let (regions, w) ← forSlots (unmapSlot s.pageTableRoot virt end_) w s.regions
      some ({ s with regions := regions }, w)

/-! ### Protection -/

/-- `new_flags` of `mprotect`. -/
def protFlags (prot : ℕ) : PageFlags := .ofUser (prot.testBit 1) (prot.testBit 2)

/-- Map the pages of the list, from index `i` on, that are there and in `[addr, end_)`. -/
def remapPages (root start addr end_ : ℕ) (flags : PageFlags) : ℕ → List ℕ → W → W
  | _, [], w => w
  | i, f :: fs, w =>
    let pageVa := wadd start (i * pageSize)
    remapPages root start addr end_ flags (i + 1) fs
      (if f ≠ 0 ∧ addr ≤ pageVa ∧ pageVa < end_ then (mapPage w root pageVa f flags).2 else w)

/-- One turn of the loop of `mprotect`. -/
def protectSlot (root addr end_ : ℕ) (flags : PageFlags) (w : W) :
    Option VmaRegion → Option VmaRegion × W
  | none => (none, w)
  | some region =>
    if region.Meets addr end_ then
      let w :=
        if region.lazy then remapPages root region.start addr end_ flags 0 region.lazyPages w
        else if region.phys ≠ 0 then
          (List.range region.pages).foldl (fun w i =>
            let pageVa := wadd region.start (i * pageSize)
            if addr ≤ pageVa ∧ pageVa < end_ then
              (mapPage w root pageVa (wadd region.phys (i * pageSize)) flags).2
            else w) w
        else w
      (some { region with flags := flags }, w)
    else (some region, w)

/-- `mprotect(addr, len, prot)`. -/
def mprotect (s : AddressSpace) (w : W) (addr len prot : ℕ) : Option (Bool × AddressSpace × W) :=
  if prot.testBit 1 ∧ prot.testBit 2 then some (false, s, w)
  else
    let addr := alignDown addr pageSize
    match checkedAdd addr (alignUp len pageSize) with
    | none => some (false, s, w)
    | some end_ => do
      let flags := protFlags prot
      let (regions, w) ←
        forSlots (fun w slot => some (protectSlot s.pageTableRoot addr end_ flags w slot)) w s.regions
      let changed := s.regions.any fun slot => slot.any fun r => r.Meets addr end_
      some (changed, { s with regions := regions }, w)

/-! ### The heap -/

/-- The break that `brk` reports when it does nothing. -/
def currentBreak (s : AddressSpace) : ℕ := if s.heapEnd ≠ 0 then s.heapEnd else s.heapStart

/-- The slot of the heap: the first region that starts at `heap_start`. -/
def heapSlot (s : AddressSpace) : Option ℕ :=
  s.regions.findIdx? fun slot => slot.any fun r => r.start = s.heapStart

/-- Another region is in the way of the heap's growth from `oldEnd` to `newEnd`. -/
def growthBlocked (s : AddressSpace) (idx oldEnd newEnd : ℕ) : Bool :=
  s.regions.zipIdx.any fun (slot, i) => i ≠ idx ∧ slot.any fun r => r.Meets oldEnd newEnd

/-- `brk(new_end)`: the new or unchanged break. -/
def brk (s : AddressSpace) (w : W) (newEnd : ℕ) : Option (ℕ × AddressSpace × W) :=
  if newEnd = 0 then some (s.currentBreak, s, w)
  else if s.heapStart = 0 then some (s.currentBreak, s, w)
  else
    let newEnd := alignUp newEnd pageSize
    match s.heapSlot.bind fun idx => (s.regions.getD idx none).map (idx, ·) with
    | none =>
      if newEnd ≤ s.heapStart then some (s.currentBreak, s, w)
      else
        match s.mapLazy s.heapStart (newEnd - s.heapStart) (.ofUser true false) with
        | (true, s) => some (newEnd, { s with heapEnd := newEnd }, w)
        | (false, s) => some (s.currentBreak, s, w)
    | some (idx, region) =>
      if newEnd = region.end_ then some (newEnd, s, w)
      else if newEnd > region.end_ then
        if s.growthBlocked idx region.end_ newEnd then some (s.currentBreak, s, w)
        else
          let region := { region with end_ := newEnd }
          some (newEnd, { s.setRegion idx region with heapEnd := newEnd }, w)
      else do
        let firstIdx := wsub newEnd region.start / pageSize
        let lastIdx := wadd (wsub region.end_ region.start) (pageSize - 1) / pageSize
        let (lazyPages, w) ←
          freeLazy s.pageTableRoot region.start firstIdx lastIdx 0 region.lazyPages w
        let region := { region with end_ := newEnd, lazyPages := lazyPages }
        some (newEnd, { s.setRegion idx region with heapEnd := newEnd }, w)

/-! ### Dropping -/

/-- Free the pages of a lazy region. -/
def freePages : List ℕ → W → Option W
  | [], w => some w
  | f :: fs, w => do
    let w ← if f ≠ 0 then buddyFree w f 0 else some w
    freePages fs w

/-- Free what is behind one slot. -/
def dropSlot (w : W) : Option VmaRegion → Option W
  | none => some w
  | some region =>
    if region.lazy then freePages region.lazyPages w
    else if region.phys ≠ 0 then buddyFree w region.phys (pagesToOrder region.pages)
    else some w

/-- `drop`: free what is behind all regions, then the root page table. -/
def drop (s : AddressSpace) (w : W) : Option W := do
  let w ← s.regions.foldlM dropSlot w
  if s.pageTableRoot ≠ 0 then buddyFree w s.pageTableRoot 0 else some w

end AddressSpace

end Cyanos
