import Cyanos.Kernel.Memory
import Cyanos.Lib.Ledger

/-!
# AArch64 page tables

The 4-level page tables of `arch/aarch64/src/paging.rs` (4 KiB granule), in a physical memory of
64-bit words.  Table pages come from the page allocator, which gives out any fresh block below
`2 ^ 48`, or none; what it answers, and what the file server replies and reads, is up to the oracles
of the machine.  Barriers and the TLB are not modelled.
-/

namespace Cyanos.Aarch64

open Lib Machine FileMachine Block

/-! ### Physical memory -/

/-- Physical memory with its allocator and the file server. -/
structure Ram where
  /-- The word at an address. -/
  mem : ℕ → ℕ
  /-- The blocks allocated and freed. -/
  log : List Event
  /-- Counts the questions to the oracles. -/
  tick : ℕ
  /-- The block the allocator would give for an order. -/
  answer : ℕ → ℕ → Option ℕ
  /-- The reply of the file server. -/
  reply : ℕ → ℤ
  /-- The word the file server would store at an address. -/
  file : ℕ → ℕ → ℕ

namespace Ram

/-- Consult an oracle. -/
def asked (w : Ram) : Ram := { w with tick := w.tick + 1 }

/-- Store one word. -/
def store (w : Ram) (a v : ℕ) : Ram := { w with mem := Function.update w.mem a v }

/-- Store the words of `[a, a + n)`. -/
def fill (w : Ram) (a n : ℕ) (f : ℕ → ℕ) : Ram :=
  { w with mem := fun x => if a ≤ x ∧ x < a + n then f x else w.mem x }

/-- The allocator's choice, if it is fresh and below `2 ^ 48`. -/
def choice (w : Ram) (order : ℕ) : Option ℕ :=
  (w.answer w.tick order).filter fun a =>
    Fresh pageSize w.log ⟨a, order⟩ ∧ a + Block.size pageSize ⟨a, order⟩ ≤ 2 ^ 48

/-- `buddy::alloc(order)` for an order that exists. -/
def take (w : Ram) (order : ℕ) : Option ℕ × Ram :=
  match w.choice order with
  | some a => (some a, { w.asked with log := .alloc ⟨a, order⟩ :: w.log })
  | none => (none, w.asked)

end Ram

/-! ### Descriptors -/

/-- `PageDescFlags::VALID`. -/
def VALID : ℕ := 1 <<< 0
/-- `PageDescFlags::TABLE`. -/
def TABLE : ℕ := 1 <<< 1
/-- `PageDescFlags::ATTR_DEV`. -/
def ATTR_DEV : ℕ := 1 <<< 2
/-- `PageDescFlags::USER`: accessible from EL0. -/
def USER : ℕ := 1 <<< 6
/-- `PageDescFlags::RDONLY`. -/
def RDONLY : ℕ := 1 <<< 7
/-- `PageDescFlags::INNER_SHR`. -/
def INNER_SHR : ℕ := 3 <<< 8
/-- `PageDescFlags::AF`. -/
def AF : ℕ := 1 <<< 10
/-- `PageDescFlags::NO_EXEC`. -/
def NO_EXEC : ℕ := 1 <<< 54

/-- `translate_flags`. -/
def translateFlags (src : PageFlags) : ℕ :=
  VALID ||| AF ||| INNER_SHR ||| (if src.user then USER else 0) |||
    (if src.writable then 0 else RDONLY) ||| (if src.execute then 0 else NO_EXEC) |||
    (if src.nocache then ATTR_DEV else 0)

/-- The address in a table descriptor. -/
def tableAddr (entry : ℕ) : ℕ := entry &&& 0x0000_FFFF_FFFF_F000

/-- The indices `l0`, `l1` and `l2` of an address. -/
def tablePath (virt : ℕ) : List ℕ :=
  [(virt >>> 39) &&& 0x1FF, (virt >>> 30) &&& 0x1FF, (virt >>> 21) &&& 0x1FF]

/-- The index `l3` of an address. -/
def leafIndex (virt : ℕ) : ℕ := (virt >>> 12) &&& 0x1FF

namespace Ram

/-! ### Walking and changing the tables -/

/-- `alloc_zeroed_page`. -/
def allocZeroedPage (w : Ram) : Option ℕ × Ram :=
  match w.take 0 with
  | (some phys, w) => (some phys, w.fill phys pageSize fun _ => 0)
  | (none, w) => (none, w)

/-- `ensure_table(parent, idx)`. -/
def ensureTable (w : Ram) (parent idx : ℕ) : Option ℕ × Ram :=
  let entry := w.mem (parent + 8 * idx)
  if entry &&& VALID ≠ 0 then (some (tableAddr entry), w)
  else
    match w.allocZeroedPage with
    | (some table, w) => (some table, w.store (parent + 8 * idx) (table ||| TABLE ||| VALID))
    | (none, w) => (none, w)

/-- `ensure_table` along a path of indices, up to the first failure. -/
def ensureTables : Ram → ℕ → List ℕ → Option ℕ × Ram
  | w, t, [] => (some t, w)
  | w, t, i :: is =>
    match w.ensureTable t i with
    | (some t, w) => ensureTables w t is
    | (none, w) => (none, w)

/-- Follow a path of indices through descriptors that have the bits of `mask`. -/
def findTable (w : Ram) (mask : ℕ) : ℕ → List ℕ → Option ℕ
  | t, [] => some t
  | t, i :: is =>
    let entry := w.mem (t + 8 * i)
    if entry &&& mask = mask then findTable w mask (tableAddr entry) is else none

/-- `map_4k(pgd, virt, phys, flags)`. -/
def map4k (w : Ram) (pgd virt phys flags : ℕ) : Bool × Ram :=
  match w.ensureTables pgd (tablePath virt) with
  | (some p3, w) => (true, w.store (p3 + 8 * leafIndex virt) (phys ||| flags ||| 0b11))
  | (none, w) => (false, w)

/-- `unmap_4k(pgd, virt)`. -/
def unmap4k (w : Ram) (pgd virt : ℕ) : Ram :=
  match w.findTable VALID pgd (tablePath virt) with
  | some p3 => w.store (p3 + 8 * leafIndex virt) 0
  | none => w

/-- The translation the hardware finds for an address: the descriptor of its page.  Descriptors of
tables and pages have both of the two lowest bits set. -/
def walk (w : Ram) (root va : ℕ) : Option ℕ :=
  (w.findTable (TABLE ||| VALID) root (tablePath va)).bind fun t =>
    let entry := w.mem (t + 8 * leafIndex va)
    if entry &&& (TABLE ||| VALID) = TABLE ||| VALID then some entry else none

/-- A loop of `map_4k(root, addr, addr, flags)` over `n` pages from `base` on, which ignores
failures; whether all of the calls succeeded. -/
def mapIdentity (root base flags : ℕ) : ℕ → Ram → Bool × Ram
  | 0, w => (true, w)
  | n + 1, w =>
    let (ok, w) := mapIdentity root base flags n w
    let addr := base + n * pageSize
    let (ok', w) := w.map4k root addr addr flags
    (ok && ok', w)

/-- `rw_flags` of the kernel window. -/
def rwFlags : ℕ := VALID ||| AF ||| INNER_SHR

/-- `device_flags` of the UART window. -/
def deviceFlags : ℕ := VALID ||| AF ||| INNER_SHR ||| ATTR_DEV

/-- One after the other; whether both succeeded. -/
def both (f g : Ram → Bool × Ram) (w : Ram) : Bool × Ram :=
  let (ok, w) := f w
  let (ok', w) := g w
  (ok && ok', w)

/-- The two loops of `arch_alloc_page_table_root`, over the kernel's memory and over the UART. -/
def mapWindows (w : Ram) (root : ℕ) : Bool × Ram :=
  both (mapIdentity root 0x40000000 rwFlags 0x4000) (mapIdentity root 0x09000000 deviceFlags 0x100) w

/-- `arch_alloc_page_table_root()`: the new root, or `0`; and whether all its `map_4k` calls
succeeded, which the source does not look at. -/
def archAllocPageTableRoot (w : Ram) : ℕ × Bool × Ram :=
  match w.take 0 with
  | (some phys, w) => (phys, (w.fill phys pageSize fun _ => 0).mapWindows phys)
  | (none, w) => (0, false, w)

end Ram

instance : FileMachine Ram where
  buddyAlloc w order := if order < maxOrder then some (w.take order) else none
  buddyFree w addr order :=
    if order < maxOrder then some { w with log := .free ⟨addr, order⟩ :: w.log } else none
  zeroBytes w phys n := w.fill phys n fun _ => 0
  mapPage w root virt phys flags := w.map4k root virt phys (translateFlags flags)
  unmapPage w root virt := w.unmap4k root virt
  vfsLseek w _ _ := (w.reply w.tick, w.asked)
  vfsRead w _ phys len := (w.reply w.tick, w.asked.fill phys len (w.file w.tick))

end Cyanos.Aarch64
