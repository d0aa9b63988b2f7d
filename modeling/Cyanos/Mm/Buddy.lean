import Cyanos.Lib.Block
import Mathlib.Logic.Function.Basic

/-!
# The buddy allocator

The physical page allocator of `mm/src/buddy.rs`.  Each of the `maxOrder` free lists is a single
`head`: a list holds at most one block, and inserting into a list overwrites what it held.

* `Buddy.alloc` takes the smallest listed block that is large enough and splits it down;
* `Buddy.free` merges the block with its buddy as long as the buddy is the head of its list, then
  stores the result;
* `Buddy.initFromMap` releases the available regions of the boot memory map in the largest aligned
  blocks.

The counters are the atomics of the source; they wrap modulo `2 ^ 64`.  A failed `assert!` is the
result `none`.
-/

namespace Cyanos

open Lib List

/-- `PAGE_SIZE`. -/
def pageSize : ℕ := 4096

/-- `MAX_ORDER`: the largest block has order `maxOrder - 1` (4 MiB). -/
def maxOrder : ℕ := 11

/-- Kinds of physical memory in the boot memory map. -/
inductive MemoryType
  | available
  | reserved
  | acpiReclaimable
  | acpiNvs
  | badMemory
  deriving DecidableEq, Repr

/-- An entry of the boot memory map; `base` and `length` are `u64`. -/
structure MemoryRegion where
  /-- First physical address. -/
  base : ℕ
  /-- Length in bytes. -/
  length : ℕ
  /-- What the memory is. -/
  kind : MemoryType
  base_lt : base < 2 ^ 64 := by decide
  length_lt : length < 2 ^ 64 := by decide

/-- The state of the allocator: `FREE_LISTS`, `FREE_PAGES` and `TOTAL_PAGES`. -/
structure Buddy where
  /-- `FREE_LISTS[o].head`; only the indices below `maxOrder` are used. -/
  head : ℕ → Option ℕ
  /-- `FREE_PAGES`. -/
  freePages : ℕ
  /-- `TOTAL_PAGES`. -/
  totalPages : ℕ

namespace Buddy

/-- The allocator before `init_from_map`. -/
def empty : Buddy := ⟨fun _ => none, 0, 0⟩

/-! ### `alloc` -/

/-- `for split in (order..order + n).rev()`: give the upper halves back, largest first. -/
def splitDown (addr order : ℕ) : ℕ → (ℕ → Option ℕ) → ℕ → Option ℕ
  | 0, head => head
  | n + 1, head =>
    splitDown addr order n
      (Function.update head (order + n) (some (wadd addr (pageSize <<< (order + n)))))

/-- `for o in order..MAX_ORDER`, with `n` orders left from `o` on. -/
def takeFrom (s : Buddy) (order : ℕ) : ℕ → ℕ → Option ℕ × Buddy
  | 0, _ => (none, s)
  | n + 1, o =>
    match s.head o with
    | some addr =>
      (some addr,
        { s with
          head := splitDown addr order (o - order) (Function.update s.head o none)
          freePages := wsub s.freePages (1 <<< order) })
    | none => takeFrom s order n (o + 1)

/-- `alloc(order)` past its assertion. -/
def take (s : Buddy) (order : ℕ) : Option ℕ × Buddy := s.takeFrom order (maxOrder - order) order

/-- `alloc(order)`; `none` is the failed assertion `order < MAX_ORDER`. -/
def alloc (s : Buddy) (order : ℕ) : Option (Option ℕ × Buddy) :=
  if order < maxOrder then some (s.take order) else none

/-! ### `free` -/

/-- The merge loop of `free`, with `n` orders left below `maxOrder - 1`, and the final insertion. -/
def mergeUp : ℕ → (ℕ → Option ℕ) → ℕ → ℕ → ℕ → Option ℕ
  | 0, head, current, order => Function.update head order (some current)
  | n + 1, head, current, order =>
    let buddy := current ^^^ (pageSize <<< order)
    if head order = some buddy then
      mergeUp n (Function.update head order none) (min current buddy) (order + 1)
    else
      Function.update head order (some current)

/-- `free(addr, order)` past its assertion. -/
def put (s : Buddy) (addr order : ℕ) : Buddy :=
  { s with
    head := mergeUp (maxOrder - 1 - order) s.head addr order
    freePages := wadd s.freePages (1 <<< order) }

/-- `free(addr, order)`; `none` is the failed assertion `order < MAX_ORDER`. -/
def free (s : Buddy) (addr order : ℕ) : Option Buddy :=
  if order < maxOrder then some (s.put addr order) else none

/-! ### `init_from_map` -/

/-- `usize::trailing_zeros`. -/
def trailingZeros (x : ℕ) : ℕ := ((List.range 64).find? fun i => x.testBit i).getD 64

/-- The order of the next block to release from `[addr, end_)`: the largest that fits in what
remains and that `addr` is aligned for.  `usize::BITS - 1 - leading_zeros` is the binary
logarithm; at least one page remains whenever the loop runs. -/
def nextOrder (addr end_ : ℕ) : ℕ :=
  let remainingPages := (end_ - addr) / pageSize
  let maxOrd := min (maxOrder - 1) (Nat.log2 remainingPages)
  let alignOrder := trailingZeros (addr / pageSize)
  min maxOrd (min alignOrder (maxOrder - 1))

/-- `while addr < end`: release `[addr, end_)` block by block.  The addition does not wrap: the
block ends at or before `end_`. -/
def releaseRange (s : Buddy) (addr end_ : ℕ) : Buddy :=
  if addr < end_ then
    releaseRange (s.put addr (nextOrder addr end_)) (addr + pageSize <<< nextOrder addr end_) end_
  else s
termination_by end_ - addr
decreasing_by
  have : 0 < pageSize <<< nextOrder addr end_ := by
    rw [Nat.shiftLeft_eq]; exact Nat.mul_pos (by decide) (Nat.two_pow_pos _)
  omega

end Buddy

namespace MemoryRegion

/-- First address released: the base rounded up to the largest block size, in `usize`. -/
def releaseStart (r : MemoryRegion) : ℕ := alignUp r.base (pageSize <<< (maxOrder - 1))

/-- End of what is released: the end of the region rounded down to a page; `base + length` is an
addition in `u64`. -/
def releaseEnd (r : MemoryRegion) : ℕ := alignDown (wadd r.base r.length) pageSize

end MemoryRegion

namespace Buddy

/-- One turn of the outer loop of `init_from_map`. -/
def releaseRegion (s : Buddy) (r : MemoryRegion) : Buddy :=
  if r.kind ≠ .available then s
  else if r.releaseStart ≥ r.releaseEnd then s
  else s.releaseRange r.releaseStart r.releaseEnd

/-- `init_from_map(regions)`. -/
def initFromMap (s : Buddy) (regions : List MemoryRegion) : Buddy :=
  let s := regions.foldl releaseRegion s
  { s with totalPages := s.freePages }

/-! ### The blocks in the free lists -/

/-- The block in a list of order `o`, if any. -/
def atOrder (o : ℕ) (v : Option ℕ) : List Block := (v.map fun a => ⟨a, o⟩).toList

/-- The blocks reachable from `FREE_LISTS`. -/
def listed (head : ℕ → Option ℕ) : List Block :=
  (List.range maxOrder).flatMap fun o => atOrder o (head o)

theorem mem_listed {head : ℕ → Option ℕ} {b : Block} :
    b ∈ listed head ↔ b.order < maxOrder ∧ head b.order = some b.addr := by
  simp only [listed, atOrder, mem_flatMap, mem_range, Option.mem_toList, Option.map_eq_some_iff]
  constructor
  · rintro ⟨o, ho, a, ha, rfl⟩; exact ⟨ho, ha⟩
  · rintro ⟨ho, ha⟩; exact ⟨b.order, ho, b.addr, ha, rfl⟩

/-- Changing one head leaves the other lists alone. -/
theorem listed_update_perm (head : ℕ → Option ℕ) {o : ℕ} (ho : o < maxOrder) (v : Option ℕ) :
    ∃ rest, (listed head).Perm (atOrder o (head o) ++ rest) ∧
      (listed (Function.update head o v)).Perm (atOrder o v ++ rest) := by
  have hperm : (range maxOrder).Perm (o :: (range maxOrder).erase o) :=
    perm_cons_erase (mem_range.2 ho)
  refine ⟨((range maxOrder).erase o).flatMap fun o => atOrder o (head o), ?_, ?_⟩
  · exact (hperm.flatMap_right _).trans (by rw [flatMap_cons])
  · refine (hperm.flatMap_right _).trans ?_
    have hrest : ((range maxOrder).erase o).flatMap
        (fun o' => atOrder o' (Function.update head o v o')) =
        ((range maxOrder).erase o).flatMap fun o => atOrder o (head o) := by
      refine congrArg flatten (map_congr_left fun o' ho' => ?_)
      have hne : o' ≠ o := by
        rintro rfl
        exact (nodup_range.not_mem_erase) ho'
      rw [Function.update_of_ne hne]
    rw [flatMap_cons, Function.update_self, hrest]

end Buddy

end Cyanos
