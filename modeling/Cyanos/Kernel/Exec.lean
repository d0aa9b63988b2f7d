import Cyanos.Mm.Host
import Cyanos.Elf.Load
import Cyanos.Sched.Clone

/-!
# Program images

`sys_execve` of `kernel/src/syscall.rs` from the point where the file and the argument strings have
been found: make a new page table, load the image, map a stack, and write the frame that the
program finds at its stack pointer.  `load_and_spawn_elf` of `kernel/src/init.rs` does the same for
the first process.
-/

namespace Cyanos

open Lib Machine MemMachine

/-- `USER_STACK_TOP`. -/
def userStackTop : ℕ := 0x0000_7fff_ffff_f000

/-- `USER_STACK_SIZE`. -/
def userStackSize : ℕ := 8 * pageSize

/-- `ExecStrBuf`: strings collected from user space. -/
structure ExecStrBuf where
  /-- The bytes used, `data[..end]`. -/
  data : List UInt8
  /-- Offset and length of each string. -/
  strings : List (ℕ × ℕ)

/-- The arguments of an image, and what the kernel adds to them. -/
structure ExecArgs where
  argv : ExecStrBuf
  envp : ExecStrBuf
  /-- `ticks()`. -/
  ticks : ℕ
  /-- `VFS_SERVER_PORT`. -/
  vfsPort : ℕ

namespace ExecArgs

/-- `total_ptr_bytes`: the pointers, their two terminators, `argc`, and eight auxiliary pairs. -/
def totalPtrBytes (a : ExecArgs) : ℕ :=
  (1 + a.argv.strings.length + 1 + a.envp.strings.length + 1 + 8 * 2) * 8

/-- `frame_size`. -/
def frameSize (a : ExecArgs) : ℕ :=
  a.totalPtrBytes + alignUp (a.argv.data.length + a.envp.data.length + 16) 16

/-- `user_sp`. -/
def userSp (a : ExecArgs) : ℕ := alignDown (userStackTop - a.frameSize) 16

/-- `str_base_va`. -/
def strBaseVa (a : ExecArgs) : ℕ := a.userSp + a.totalPtrBytes

/-- `rand_va`. -/
def randVa (a : ExecArgs) : ℕ := a.strBaseVa + a.argv.data.length + a.envp.data.length

/-- The pointers to the argument strings; `strOff` adds up the lengths so far. -/
def argvPtrs (base : ℕ) : ℕ → List (ℕ × ℕ) → List ℕ
  | _, [] => []
  | strOff, (_, len) :: strings => (base + strOff) :: argvPtrs base (strOff + len + 1) strings

/-- `auxv`. -/
def auxv (a : ExecArgs) : List ℕ :=
  [25, a.randVa, 6, pageSize, 11, 0, 12, 0, 13, 0, 14, 0, 256, a.vfsPort, 0, 0]

/-- The words of the pointer table. -/
def words (a : ExecArgs) : List ℕ :=
  a.argv.strings.length :: argvPtrs a.strBaseVa 0 a.argv.strings ++ [0] ++
    a.envp.strings.map (fun (off, _) => a.strBaseVa + a.argv.data.length + off) ++ [0] ++ a.auxv

/-- The bytes behind `AT_RANDOM`. -/
def randBytes (a : ExecArgs) : List UInt8 :=
  leBytes 8 (a.ticks ^^^ 0xdeadbeef_cafebabe) ++
    leBytes 8 (a.ticks * 6364136223846793005 + 1442695040888963407)

/-- The frame at the stack pointer. -/
def frame (a : ExecArgs) : List UInt8 :=
  a.words.flatMap (leBytes 8) ++ a.argv.data ++ a.envp.data ++ a.randBytes

end ExecArgs

variable {W : Type} [KernelMachine W]

/-- Drop an address space, and return an error. -/
def discard {α : Type} (as : AddressSpace) (w : W) (errno : α) : Option (Except α AddressSpace × W) := do
  let w ← as.drop w
  some (.error errno, w)

/-- What `sys_execve` does before it gives up the old image: the new address space, or an error. -/
def buildImage (emTarget : ℕ) (image : List UInt8) (args : ExecArgs) (w : W) :
    Option (Except ℤ AddressSpace × W) :=
  match allocPageTableRoot w with
  | (0, w) => some (.error (-12), w)
  | (root, w) => do
    match ← Elf.load emTarget image (.new root) w with
    | (.error _, as, w) => discard as w (-8)
    | (.ok _, as, w) =>
      let (ok, as, w) ← as.map w (userStackTop - userStackSize) userStackSize (.ofUser true false)
      if !ok then discard as w (-12)
      else if args.frameSize > userStackSize then discard as w (-22)
      else
        match as.virtToPhys args.userSp with
        | none => discard as w (-12)
        | some phys => some (.ok as, writeBytes w phys args.frame)

/-- `load_and_spawn_elf` up to the spawning: the address space of the first process. -/
def buildInit (emTarget : ℕ) (image : List UInt8) (w : W) : Option (Except Unit AddressSpace × W) :=
  match allocPageTableRoot w with
  | (0, w) => some (.error (), w)
  | (root, w) => do
    match ← Elf.load emTarget image (.new root) w with
    | (.error _, as, w) => discard as w ()
    | (.ok entry, as, w) =>
      if (as.virtToPhys entry).isNone then discard as w ()
      else
        let (ok, as, w) ← as.map w 0x40000000 0x100000 (.ofUser true false)
        if !ok then discard as w ()
        else
          match as.virtToPhys (0x40000000 + 0x100000 - 32) with
          | none => discard as w ()
          | some phys =>
            let w := writeBytes w phys (List.replicate 32 0)
            if (as.virtToPhys entry).isNone then discard as w () else some (.ok as, w)

/-- `sys_execve`, by a process.  The result `0` stands for the start of the new program. -/
def Process.sysExecve (emTarget : ℕ) (p : Process W) (image : List UInt8) (args : ExecArgs) :
    Option (ℤ × Process W) := do
  match ← buildImage emTarget image args p.w with
  | (.error errno, w) => some (errno, { p with w := w })
  | (.ok as, w) =>
    let w ← p.as.drop w
    some (0, { p with as := as, w := w })

namespace Kernel

/-- `sys_execve`, by the task `pid`. -/
def sysExecve (emTarget : ℕ) (k : Kernel W) (pid : ℕ) (image : List UInt8) (args : ExecArgs) :
    Option (ℤ × Kernel W) := do
  match ← buildImage emTarget image args k.w with
  | (.error errno, w) => some (errno, { k with w := w })
  | (.ok as, w) =>
    -- `replace_address_space`: the old address space is dropped when it is overwritten
    let w ← dropSpace w ((k.rq.findPid pid).bind Task.addressSpace)
    some (0, { k with
      rq := k.rq.modifyPid pid fun t =>
        { t with
          addressSpace := some as
          pageTable := as.pageTableRoot
          heapStart := as.heapStart
          heapEnd := as.heapStart }
      w := w })

/-- `load_and_spawn_elf(elf_data)`. -/
def loadAndSpawnElf (emTarget : ℕ) (k : Kernel W) (image : List UInt8) :
    Option (Option ℕ × Kernel W) := do
  match ← buildInit emTarget image k.w with
  | (.error _, w) => some (none, { k with w := w })
  | (.ok as, w) => spawnUserWithAddressSpace { k with w := w } as

end Kernel

end Cyanos
