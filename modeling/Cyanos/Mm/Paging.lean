import Cyanos.Mm.Buddy

/-!
# What the memory manager runs on

`PageFlags` are the architecture-independent mapping flags of `mm/src/paging.rs`.  A `Machine` is
the state the memory manager acts on through the physical page allocator, stores to physical
memory and the page-table functions each architecture exports.  The memory manager is written once
for every machine.
-/

namespace Cyanos

/-- `PageFlags`: architecture-independent mapping flags. -/
structure PageFlags where
  /-- `PRESENT`. -/
  present : Bool
  /-- `WRITABLE`. -/
  writable : Bool
  /-- `USER`. -/
  user : Bool
  /-- `EXECUTE`. -/
  execute : Bool
  /-- `NOCACHE`. -/
  nocache : Bool := false
  deriving DecidableEq, Repr

namespace PageFlags

/-- `PRESENT | USER`, with `WRITABLE` and `EXECUTE` as told. -/
def ofUser (writable execute : Bool) : PageFlags := ⟨true, writable, true, execute, false⟩

/-- Writable and executable at once. -/
def WX (f : PageFlags) : Prop := f.writable = true ∧ f.execute = true

instance (f : PageFlags) : Decidable f.WX := inferInstanceAs (Decidable (_ ∧ _))

end PageFlags

/-- The operations the memory manager uses.  A failed assertion of the allocator is `none`. -/
class Machine (W : Type) where
  /-- `buddy::alloc(order)`. -/
  buddyAlloc : W → ℕ → Option (Option ℕ × W)
  /-- `buddy::free(addr, order)`. -/
  buddyFree : W → ℕ → ℕ → Option W
  /-- Zeroing a range of bytes of physical memory. -/
  zeroBytes : W → ℕ → ℕ → W
  /-- `map_page(root, virt, phys, flags)`: whether it succeeded. -/
  mapPage : W → ℕ → ℕ → ℕ → PageFlags → Bool × W
  /-- `unmap_page(root, virt)`. -/
  unmapPage : W → ℕ → ℕ → W

end Cyanos
