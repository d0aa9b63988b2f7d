import Cyanos.Lib.Heap
import Cyanos.Lib.Ledger
import Cyanos.Lib.Run
import Cyanos.Mm.Buddy

/-!
# The slab allocator

`mm/src/slab.rs`: ten caches of objects of one size each, from 8 to 4096 bytes, with free lists that
are threaded through the free slots themselves.  An empty cache is refilled with a page from the
buddy allocator; larger requests get blocks of their own.

The buddy allocator gives out any block that is page-aligned, not at address `0` and apart from the
blocks still out, or none.  Physical memory is seen at a page-aligned offset.

`Slab` is the allocator together with the objects its clients hold; its `Action`s are allocating,
freeing, and stores by clients.
-/

namespace Cyanos

open Lib

/-! ### Sizes -/

namespace Slab

/-- `SIZE_CLASSES`. -/
def sizeClasses : List ℕ := [8, 16, 32, 64, 128, 256, 512, 1024, 2048, 4096]

/-- `NUM_CLASSES`. -/
def numClasses : ℕ := sizeClasses.length

/-- `obj_size` of a cache. -/
def objSize (idx : ℕ) : ℕ := sizeClasses.getD idx 0

/-- `size_class_idx(size)`. -/
def sizeClassIdx (size : ℕ) : Option ℕ := sizeClasses.findIdx? fun s => size ≤ s

/-- `while cap < pages`, with a bound on the number of turns that a word's width gives. -/
def coverOrder (pages : ℕ) : ℕ → ℕ → ℕ → ℕ
  | 0, _, order => order
  | turns + 1, cap, order =>
    if cap < pages then coverOrder pages turns (cap <<< 1) (order + 1) else order

/-- `pages_to_order(pages)` of the slab allocator. -/
def pagesToOrder (pages : ℕ) : Option ℕ :=
  if pages > 1 <<< (maxOrder - 1) then none else some (coverOrder pages 64 1 0)

/-- The order of the block for a large request: `(size + PAGE_SIZE - 1) / PAGE_SIZE` pages. -/
def largeOrder (size : ℕ) : Option ℕ := pagesToOrder (wadd size (pageSize - 1) / pageSize)

end Slab

/-! ### The allocator -/

/-- Where physical memory is seen: `HHDM_OFFSET`. -/
structure Hhdm where
  /-- The address of physical address `0`. -/
  offset : ℕ
  dvd : pageSize ∣ offset
  lt : offset < 2 ^ 64

namespace Hhdm

/-- `phys_to_virt`. -/
def physToVirt (h : Hhdm) (phys : ℕ) : ℕ := wadd phys h.offset

/-- `virt_to_phys`. -/
def virtToPhys (h : Hhdm) (virt : ℕ) : ℕ := wsub virt h.offset

/-- The block is seen at addresses that do not wrap. -/
def Sees (h : Hhdm) (b : Block) : Prop := b.addr + b.size pageSize + h.offset ≤ 2 ^ 64

instance (h : Hhdm) (b : Block) : Decidable (h.Sees b) := inferInstanceAs (Decidable (_ ≤ _))

/-- Where a block is seen. -/
def window (h : Hhdm) (b : Block) : Extent := ⟨h.physToVirt b.addr, b.size pageSize⟩

end Hhdm

/-- `CACHES`, memory, and the buddy allocator. -/
structure SlabHeap where
  /-- `free_head` of each cache. -/
  freeHead : ℕ → ℕ
  /-- The bytes of memory, at the addresses where they are seen. -/
  mem : ℕ → UInt8
  /-- The blocks the buddy allocator gave out and got back. -/
  log : List Event
  /-- Counts the calls of the buddy allocator. -/
  tick : ℕ
  /-- The block the buddy allocator would give for an order. -/
  answer : ℕ → ℕ → Option ℕ

namespace SlabHeap

open Slab

variable (hhdm : Hhdm)

/-- `buddy::alloc(order)`; `none` is the failed assertion. -/
def buddyAlloc (s : SlabHeap) (order : ℕ) : Option (Option ℕ × SlabHeap) :=
  if order < maxOrder then
    match (s.answer s.tick order).filter fun a =>
      a ≠ 0 ∧ Fresh pageSize s.log ⟨a, order⟩ ∧ hhdm.Sees ⟨a, order⟩ with
    | some a => some (some a, { s with log := .alloc ⟨a, order⟩ :: s.log, tick := s.tick + 1 })
    | none => some (none, { s with tick := s.tick + 1 })
  else none

/-- `buddy::free(addr, order)`; `none` is the failed assertion. -/
def buddyFree (s : SlabHeap) (addr order : ℕ) : Option SlabHeap :=
  if order < maxOrder then some { s with log := .free ⟨addr, order⟩ :: s.log } else none

/-- Put a slot in front of a free list: the body of `Cache::free` and of the loop of `refill`. -/
def push (s : SlabHeap) (idx addr : ℕ) : SlabHeap :=
  { s with
    mem := storeWord s.mem addr (s.freeHead idx)
    freeHead := Function.update s.freeHead idx addr }

/-- The loop of `Cache::refill`, with `n` slots to go. -/
def pushSlots (idx : ℕ) : ℕ → ℕ → SlabHeap → SlabHeap
  | 0, _, s => s
  | n + 1, addr, s => pushSlots idx n (wadd addr (objSize idx)) (s.push idx addr)

/-- `Cache::refill`. -/
def refill (s : SlabHeap) (idx : ℕ) : Option (Bool × SlabHeap) := do
  match ← s.buddyAlloc hhdm 0 with
  | (some phys, s) =>
    some (true, pushSlots idx (pageSize / objSize idx) (hhdm.physToVirt phys) s)
  | (none, s) => some (false, s)

/-- Take the first slot of a free list. -/
def pop (s : SlabHeap) (idx : ℕ) : ℕ × SlabHeap :=
  (s.freeHead idx,
    { s with freeHead := Function.update s.freeHead idx (loadWord s.mem (s.freeHead idx)) })

/-- `Cache::alloc`. -/
def cacheAlloc (s : SlabHeap) (idx : ℕ) : Option (Option ℕ × SlabHeap) :=
  if s.freeHead idx = 0 then do
    match ← s.refill hhdm idx with
    | (true, s) => some (some (s.pop idx).1, (s.pop idx).2)
    | (false, s) => some (none, s)
  else some (some (s.pop idx).1, (s.pop idx).2)

/-- `slab::alloc(size)`; for no bytes it is a dangling pointer. -/
def alloc (s : SlabHeap) (size : ℕ) : Option (Option ℕ × SlabHeap) :=
  if size = 0 then some (some 1, s)
  else
    match sizeClassIdx size with
    | some idx => s.cacheAlloc hhdm idx
    | none =>
      match largeOrder size with
      | none => some (none, s)
      | some order => (s.buddyAlloc hhdm order).map fun (phys, s) => (phys.map hhdm.physToVirt, s)

/-- `slab::free(ptr, size)`. -/
def free (s : SlabHeap) (ptr size : ℕ) : Option SlabHeap :=
  if size = 0 ∨ ptr = 0 then some s
  else
    match sizeClassIdx size with
    | some idx => some (s.push idx ptr)
    | none =>
      match largeOrder size with
      | some order => s.buddyFree (hhdm.virtToPhys ptr) order
      | none => some s

end SlabHeap

/-! ### The allocator and its clients -/

/-- What a client holds. -/
structure SlabObject where
  /-- Its address. -/
  ptr : ℕ
  /-- The size that was asked for. -/
  size : ℕ
  deriving DecidableEq, Repr

/-- The allocator and the objects that are live. -/
structure Slab where
  /-- The allocator. -/
  heap : SlabHeap
  /-- The live objects. -/
  live : List SlabObject

namespace Slab

/-- What clients do. -/
inductive Action
  /-- `slab::alloc(size)`. -/
  | alloc (size : ℕ)
  /-- `slab::free(ptr, size)`. -/
  | free (ptr size : ℕ)
  /-- A byte is stored. -/
  | store (addr : ℕ) (v : UInt8)

/-- No page was asked for yet. -/
def boot (mem : ℕ → UInt8) (answer : ℕ → ℕ → Option ℕ) : Slab :=
  ⟨⟨fun _ => 0, mem, [], 0, answer⟩, []⟩

/-- The state after an action; `none` is a panic. -/
def step (hhdm : Hhdm) (s : Slab) : Action → Option Slab
  | .alloc size => (s.heap.alloc hhdm size).map fun (ptr, heap) =>
    ⟨heap, (ptr.map (⟨·, size⟩)).toList ++ s.live⟩
  | .free ptr size => (s.heap.free hhdm ptr size).map fun heap => ⟨heap, s.live.erase ⟨ptr, size⟩⟩
  | .store addr v =>
    some { s with heap := { s.heap with mem := Function.update s.heap.mem addr v } }

/-- The bytes an object of this size has: those of its slot or of its block. -/
def room (size : ℕ) : ℕ :=
  match sizeClassIdx size with
  | some idx => objSize idx
  | none => ((largeOrder size).map fun order => pageSize * 2 ^ order).getD 0

end Slab

/-- Where an object is. -/
def SlabObject.extent (o : SlabObject) : Extent := ⟨o.ptr, Slab.room o.size⟩

end Cyanos
