import Cyanos.Arch.Aarch64.Paging
import Cyanos.Lib.Radix

/-!
# x86-64 page tables

The 4-level page tables of `arch/x86_64/src/paging.rs`, in the same physical memory of words as
those of the other architecture.  The tables are reached through the direct map, which is a window
on all of physical memory, so addresses here are physical ones.  Table pages come from the page
allocator, which gives out any fresh page below `2 ^ 52`, or none.
-/

namespace Cyanos.X86

open Lib Aarch64

/-! ### Entries -/

/-- `PageTableFlags::PRESENT`. -/
def PRESENT : ℕ := 1 <<< 0
/-- `PageTableFlags::WRITABLE`. -/
def WRITABLE : ℕ := 1 <<< 1
/-- `PageTableFlags::USER`. -/
def USER : ℕ := 1 <<< 2
/-- `PageTableFlags::NO_CACHE`. -/
def NO_CACHE : ℕ := 1 <<< 4
/-- `PageTableFlags::HUGE`. -/
def HUGE : ℕ := 1 <<< 7
/-- `PageTableFlags::NO_EXECUTE`. -/
def NO_EXECUTE : ℕ := 1 <<< 63

/-- `translate_flags`. -/
def translateFlags (src : PageFlags) : ℕ :=
  (if src.present then PRESENT else 0) ||| (if src.writable then WRITABLE else 0) |||
    (if src.user then USER else 0) ||| (if src.nocache then NO_CACHE else 0) |||
    (if src.execute then 0 else NO_EXECUTE)

/-- `entry & !0xFFF`. -/
def tableAddr (entry : ℕ) : ℕ := entry &&& 0xFFFF_FFFF_FFFF_F000

/-- `pml4_idx`, `pdpt_idx` and `pd_idx` of an address. -/
def tablePath (virt : ℕ) : List ℕ :=
  [(virt >>> 39) &&& 0x1FF, (virt >>> 30) &&& 0x1FF, (virt >>> 21) &&& 0x1FF]

/-- `pt_idx` of an address. -/
def leafIndex (virt : ℕ) : ℕ := (virt >>> 12) &&& 0x1FF

/-! ### Walking and changing the tables -/

/-- The page the allocator gives, if it is fresh and below `2 ^ 52`. -/
def choice (w : Ram) : Option ℕ :=
  (w.answer w.tick 0).filter fun a => Fresh pageSize w.log ⟨a, 0⟩ ∧ a + pageSize ≤ 2 ^ 52

/-- `alloc_zeroed_page`. -/
def allocZeroedPage (w : Ram) : Option ℕ × Ram :=
  match choice w with
  | some phys =>
    (some phys, { w.asked with log := .alloc ⟨phys, 0⟩ :: w.log }.fill phys pageSize fun _ => 0)
  | none => (none, w.asked)

/-- `ensure_table(parent, idx, flags)`. -/
def ensureTable (w : Ram) (parent idx flags : ℕ) : Option ℕ × Ram :=
  let intermediateFlags := flags &&& (PRESENT ||| WRITABLE ||| USER)
  let entry := w.mem (parent + 8 * idx)
  if entry &&& PRESENT ≠ 0 then
    let upgraded := entry ||| intermediateFlags
    (some (tableAddr entry), if upgraded ≠ entry then w.store (parent + 8 * idx) upgraded else w)
  else
    match allocZeroedPage w with
    | (some table, w) => (some table, w.store (parent + 8 * idx) (table ||| intermediateFlags))
    | (none, w) => (none, w)

/-- `ensure_table` along a path of indices, up to the first failure. -/
def ensureTables (flags : ℕ) : Ram → ℕ → List ℕ → Option ℕ × Ram
  | w, t, [] => (some t, w)
  | w, t, i :: is =>
    match ensureTable w t i flags with
    | (some t, w) => ensureTables flags w t is
    | (none, w) => (none, w)

/-- `map_4k(pml4_phys, virt, phys, flags)`. -/
def map4k (w : Ram) (pml4 virt phys flags : ℕ) : Bool × Ram :=
  match ensureTables flags w pml4 (tablePath virt) with
  | (some pt, w) => (true, w.store (pt + 8 * leafIndex virt) (phys ||| flags))
  | (none, w) => (false, w)

/-- The table of a present entry. -/
def nextTable (entry : ℕ) : Option ℕ :=
  if entry &&& PRESENT = 0 then none else some (tableAddr entry)

/-- `unmap_4k(pml4_phys, virt)`. -/
def unmap4k (w : Ram) (pml4 virt : ℕ) : Ram :=
  match trail nextTable w.mem pml4 (tablePath virt) with
  | some (_, pt) => w.store (pt + 8 * leafIndex virt) 0
  | none => w

/-! ### The hardware -/

/-- The address in an entry, as the hardware reads it. -/
def physAddr (entry : ℕ) : ℕ := entry &&& 0x000F_FFFF_FFFF_F000

/-- The table the hardware finds in an upper entry.  An entry with `HUGE` stands for a large
page. -/
def walkTable (entry : ℕ) : Option ℕ :=
  if entry &&& (PRESENT ||| HUGE) = PRESENT then some (physAddr entry) else none

/-- The translation of an address: its frame and what may be done with it.  A page may be written
to, used in user mode and executed when the entries of all four levels allow it. -/
def hardwareWalk (w : Ram) (root va : ℕ) : Option (ℕ × PageFlags) :=
  (trail walkTable w.mem root (tablePath va)).bind fun x =>
    let leaf := w.mem (x.2 + 8 * leafIndex va)
    let entries := leaf :: x.1
    if leaf &&& PRESENT = 0 then none
    else
      some (physAddr leaf,
        { present := true
          writable := entries.all (·.testBit 1)
          user := entries.all (·.testBit 2)
          execute := entries.all (!·.testBit 63)
          nocache := leaf.testBit 4 })

end Cyanos.X86
