import Cyanos.Mm.Vmm

/-!
# The memory system calls

`mmap`, `munmap`, `mremap`, `mprotect` and `brk` of `kernel/src/syscall.rs`, and the page-fault
handler, as steps of a process.  Return values are signed words; negative ones are error numbers.
The address hint counter `MMAP_BUMP` belongs to the state.
-/

namespace Cyanos

open Lib Machine

/-- A machine with the file server, as far as `mmap` uses it. -/
class FileMachine (W : Type) extends Machine W where
  /-- `VFS_LSEEK`: seek in a file; the reply. -/
  vfsLseek : W → ℕ → ℕ → ℤ × W
  /-- `VFS_READ`: read from a file into physical memory; the reply. -/
  vfsRead : W → ℕ → ℕ → ℕ → ℤ × W

open FileMachine

/-- `USER_SPACE_END`. -/
def userSpaceEnd : ℕ := 0x0000_8000_0000_0000

/-- `MAP_MAX_BYTES`. -/
def mapMaxBytes : ℕ := 256 * 1024 * 1024

/-- `prot_to_page_flags`. -/
def protToPageFlags (prot : ℕ) : PageFlags := .ofUser (prot.testBit 1) (prot.testBit 2)

/-- `MAP_FIXED` is set. -/
def mapFixed (flags : ℕ) : Bool := flags.testBit 4

/-- `MAP_ANONYMOUS` is set. -/
def mapAnonymous (flags : ℕ) : Bool := flags.testBit 5

/-- `usize::div_ceil` by the page size. -/
def pagesOf (size : ℕ) : ℕ := (size + (pageSize - 1)) / pageSize

/-- A process: its address space, the kernel's `MMAP_BUMP`, and the machine. -/
structure Process (W : Type) where
  /-- The address space. -/
  as : AddressSpace
  /-- `MMAP_BUMP`. -/
  mmapBump : ℕ
  /-- The machine. -/
  w : W

/-- The system calls on memory, and a page fault. -/
inductive MemCall
  | mmap (addr len prot flags fd off : ℕ)
  | munmap (virt size : ℕ)
  | mremap (oldAddr oldSize newSize flags newAddr : ℕ)
  | mprotect (addr len prot : ℕ)
  | brk (newEnd : ℕ)
  | fault (va : ℕ)

namespace Process

/-- A process on a new page table, with the heap where the loader puts it. -/
def new {W : Type} (root heapStart heapEnd mmapBump : ℕ) (w : W) : Process W :=
  ⟨{ AddressSpace.new root with heapStart := heapStart, heapEnd := heapEnd }, mmapBump, w⟩

variable {W : Type} [FileMachine W]

/-- `sys_mprotect(addr, len, prot)`. -/
def sysMprotect (p : Process W) (addr len prot : ℕ) : Option (ℤ × Process W) :=
  if addr = 0 ∨ len = 0 then some (-22, p)
  else do
    let (ok, as, w) ← p.as.mprotect p.w addr len prot
    some (if ok then 0 else -22, { p with as := as, w := w })

/-- What a mapping with `MAP_FIXED` does first. -/
def unmapFixed (p : Process W) (fixed : Bool) (virt len : ℕ) : Option (Process W) :=
  if fixed then (p.as.unmapRange p.w virt len).map fun (as, w) => { p with as := as, w := w }
  else some p

/-- The anonymous branch of `sys_mmap`: a lazy region at `virt`, or at the bump address if a hint
cannot be met. -/
def mmapAnonymous (p : Process W) (addr virt len : ℕ) (pageFlags : PageFlags) (fixed : Bool) :
    Option (ℤ × Process W) := do
  let p ← p.unmapFixed fixed virt len
  match p.as.mapLazy virt len pageFlags with
  | (true, as) => some (signed virt, { p with as := as })
  | (false, as) =>
    if !fixed ∧ addr ≠ 0 then
      let bump := p.mmapBump
      match as.mapLazy bump len pageFlags with
      | (true, as) => some (signed bump, { p with as := as, mmapBump := wadd bump len })
      | (false, as) => some (-12, { p with as := as, mmapBump := wadd bump len })
    else some (-12, { p with as := as })

/-- The file-backed branch of `sys_mmap`: an eager region, writable until the file has been read
into its block. -/
def mmapFile (p : Process W) (virt len prot : ℕ) (pageFlags : PageFlags) (fixed : Bool)
    (fd off : ℕ) : Option (ℤ × Process W) :=
  let (r, w) := if off ≠ 0 then vfsLseek p.w fd off else (0, p.w)
  if r < 0 then some (r, { p with w := w })
  else do
    let p ← unmapFixed { p with w := w } fixed virt len
    let (ok, as, w) ← p.as.map p.w virt len { pageFlags with writable := true }
    match if ok then (as.find virt).map VmaRegion.phys else none with
    | none => some (-12, { p with as := as, w := w })
    | some phys =>
      let (n, w) := vfsRead w fd phys len
      if n < 0 then do
        let (as, w) ← as.unmapRange w virt len
        some (n, { p with as := as, w := w })
      else if pageFlags.writable then some (signed virt, { p with as := as, w := w })
      else do
        let (_, p) ← sysMprotect { p with as := as, w := w } virt len prot
        some (signed virt, p)

/-- `sys_mmap(addr, len, prot, flags, fd, off)`. -/
def sysMmap (p : Process W) (addr len prot flags fd off : ℕ) : Option (ℤ × Process W) :=
  if len = 0 then some (-22, p)
  else
    let len := alignUp len pageSize
    let pageFlags := protToPageFlags prot
    let fixed := mapFixed flags
    if len > mapMaxBytes then some (-22, p)
    else if pageFlags.WX then some (-22, p)
    else if fixed ∧ addr = 0 then some (-22, p)
    else
      let (virt, p) :=
        if addr ≠ 0 then (addr, p)
        else (p.mmapBump, { p with mmapBump := wadd p.mmapBump len })
      match checkedAdd virt len with
      | none => some (-22, p)
      | some end_ =>
        if end_ > userSpaceEnd then some (-22, p)
        else if mapAnonymous flags then p.mmapAnonymous addr virt len pageFlags fixed
        else p.mmapFile virt len prot pageFlags fixed fd off

/-- `as_.unmap(virt, size)` on the address space of the process. -/
def unmap (p : Process W) (virt size : ℕ) : Option (Process W) := p.unmapFixed true virt size

/-- `sys_unmap_mem(virt, size)`. -/
def sysUnmapMem (p : Process W) (virt size : ℕ) : Option (ℤ × Process W) :=
  if virt = 0 ∨ size = 0 then some (-22, p)
  else if virt ≥ userSpaceEnd then some (-22, p)
  else (p.unmap virt size).map (0, ·)

/-- `sys_mremap(old_addr, old_size, new_size, flags, new_addr)`. -/
def sysMremap (p : Process W) (oldAddr oldSize newSize flags newAddr : ℕ) :
    Option (ℤ × Process W) :=
  let oldPages := pagesOf oldSize
  let newPages := pagesOf newSize
  if newPages = oldPages then some (signed oldAddr, p)
  else if newPages < oldPages then
    let tail := wadd oldAddr (newPages * pageSize)
    let tailLen := (oldPages - newPages) * pageSize % 2 ^ 64
    (p.unmap tail tailLen).map (signed oldAddr, ·)
  else do
    let target := if flags.testBit 1 then newAddr else 0
    let (result, p) ← p.sysMmap target newSize 3 0x22 (2 ^ 64 - 1) 0
    if result < 0 then some (result, p)
    else (p.unmap oldAddr oldSize).map (result, ·)

/-- `sys_brk(new_end)`. -/
def sysBrk (p : Process W) (newEnd : ℕ) : Option (ℤ × Process W) := do
  let (b, as, w) ← p.as.brk p.w newEnd
  some (signed b, { p with as := as, w := w })

/-- `handle_page_fault(addr)`: whether the fault was handled. -/
def handlePageFault (p : Process W) (addr : ℕ) : Option (Bool × Process W) := do
  let (ok, as, w) ← p.as.handleUserPageFault p.w addr
  some (ok, { p with as := as, w := w })

/-- The process after a call. -/
def memStep (p : Process W) : MemCall → Option (Process W)
  | .mmap addr len prot flags fd off => (p.sysMmap addr len prot flags fd off).map Prod.snd
  | .munmap virt size => (p.sysUnmapMem virt size).map Prod.snd
  | .mremap oldAddr oldSize newSize flags newAddr =>
    (p.sysMremap oldAddr oldSize newSize flags newAddr).map Prod.snd
  | .mprotect addr len prot => (p.sysMprotect addr len prot).map Prod.snd
  | .brk newEnd => (p.sysBrk newEnd).map Prod.snd
  | .fault va => (p.handlePageFault va).map Prod.snd

end Process

end Cyanos
