import Cyanos.Kernel.Exec
import Cyanos.Lib.Run

/-!
# Tasks making system calls

The memory system calls, `execve`, `fork`, `clone_thread` and `exit` as actions of tasks, together
with the spawning of tasks and the reaping of zombies.  A system call looks up the address space in
the calling task's own record: what it does for a task that has none is `withoutSpace`.
-/

namespace Cyanos

open Lib Machine FileMachine

/-- A memory call with its result; a page fault's is `1` if it was handled. -/
def Process.memCall {W : Type} [FileMachine W] (p : Process W) : MemCall → Option (ℤ × Process W)
  | .mmap addr len prot flags fd off => p.sysMmap addr len prot flags fd off
  | .munmap virt size => p.sysUnmapMem virt size
  | .mremap oldAddr oldSize newSize flags newAddr =>
    p.sysMremap oldAddr oldSize newSize flags newAddr
  | .mprotect addr len prot => p.sysMprotect addr len prot
  | .brk newEnd => p.sysBrk newEnd
  | .fault va => (p.handlePageFault va).map fun (ok, p) => (if ok then 1 else 0, p)

variable {W : Type} [KernelMachine W]

namespace Kernel

/-- `sys_mmap` by a task without an address space, from the choice of the address on. -/
def mapWithoutSpace (k : Kernel W) (virt len flags fd off : ℕ) : ℤ × Kernel W :=
  match checkedAdd virt len with
  | none => (-22, k)
  | some end_ =>
    if end_ > userSpaceEnd then (-22, k)
    else if mapAnonymous flags then (-1, k)
    else
      let (r, w) := if off ≠ 0 then vfsLseek k.w fd off else (0, k.w)
      (if r < 0 then r else -12, { k with w := w })

/-- `sys_mmap` by a task without an address space. -/
def mmapWithoutSpace (k : Kernel W) (addr len prot flags fd off : ℕ) : ℤ × Kernel W :=
  if len = 0 then (-22, k)
  else if alignUp len pageSize > mapMaxBytes then (-22, k)
  else if (protToPageFlags prot).WX then (-22, k)
  else if mapFixed flags ∧ addr = 0 then (-22, k)
  else if addr ≠ 0 then k.mapWithoutSpace addr (alignUp len pageSize) flags fd off
  else
    mapWithoutSpace { k with mmapBump := wadd k.mmapBump (alignUp len pageSize) } k.mmapBump
      (alignUp len pageSize) flags fd off

/-- A memory call by a task without an address space. -/
def withoutSpace (k : Kernel W) : MemCall → ℤ × Kernel W
  | .mmap addr len prot flags fd off => k.mmapWithoutSpace addr len prot flags fd off
  | .munmap virt size =>
    if virt = 0 ∨ size = 0 then (-22, k) else if virt ≥ userSpaceEnd then (-22, k) else (0, k)
  | .mremap oldAddr oldSize newSize flags newAddr =>
    if pagesOf newSize ≤ pagesOf oldSize then (signed oldAddr, k)
    else
      k.mmapWithoutSpace (if flags.testBit 1 then newAddr else 0) newSize 3 0x22 (2 ^ 64 - 1) 0
  | .mprotect addr len _ => if addr = 0 ∨ len = 0 then (-22, k) else (-1, k)
  | .brk _ => (-12, k)
  | .fault _ => (0, k)

/-- A memory call by the task `pid`. -/
def memCall (k : Kernel W) (pid : ℕ) (c : MemCall) : Option (ℤ × Kernel W) :=
  match (k.rq.findPid pid).bind Task.addressSpace with
  | none => some (k.withoutSpace c)
  | some as => do
    let (r, p) ← Process.memCall ⟨as, k.mmapBump, k.w⟩ c
    some (r, { k with
      rq := k.rq.modifyPid pid fun t => { t with addressSpace := some p.as }
      mmapBump := p.mmapBump
      w := p.w })

/-- What tasks do, and what is done to them. -/
inductive Action
  | call (pid : ℕ) (c : MemCall)
  | execve (pid : ℕ) (image : List UInt8) (args : ExecArgs)
  | fork (pid framePtr : ℕ)
  | cloneThread (pid framePtr : ℕ) (args : CloneArgs)
  | exit (pid : ℕ) (code : ℤ)
  | spawn
  | spawnElf (image : List UInt8)
  | reap (idx : ℕ)

/-- The task is in the run queue and has not exited. -/
def Live (k : Kernel W) (pid : ℕ) : Prop := (k.rq.findPid pid).any fun t => t.state ≠ .zombie

instance (k : Kernel W) (pid : ℕ) : Decidable (k.Live pid) := inferInstanceAs (Decidable (_ = true))

/-- The kernel after an action.  A task that is not there, or has exited, does nothing. -/
def step (emTarget : ℕ) (k : Kernel W) : Action → Option (Kernel W)
  | .call pid c => if k.Live pid then (k.memCall pid c).map Prod.snd else none
  | .execve pid image args =>
    if k.Live pid then (k.sysExecve emTarget pid image args).map Prod.snd else none
  | .fork pid framePtr =>
    if k.Live pid then (k.forkCurrent k.rq framePtr pid).map Prod.snd else none
  | .cloneThread pid framePtr args =>
    if k.Live pid then (k.cloneThread framePtr pid args).map Prod.snd else none
  | .exit pid code => if k.Live pid then some (k.exit pid code) else none
  | .spawn => k.spawn.map Prod.snd
  | .spawnElf image => (k.loadAndSpawnElf emTarget image).map Prod.snd
  | .reap idx => k.reap idx

omit [KernelMachine W] in
/-- What a task does is done while it lives. -/
theorem of_live {α : Type} {k k' : Kernel W} {pid : ℕ} {x : Option (α × Kernel W)}
    (h : (if k.Live pid then x.map Prod.snd else none) = some k') :
    k.Live pid ∧ ∃ r, x = some (r, k') := by
  obtain ⟨hlive, h⟩ := Option.ite_none_right_eq_some.1 h
  obtain ⟨⟨r, k₁⟩, hx, rfl⟩ := Option.map_eq_some_iff.1 h
  exact ⟨hlive, r, hx⟩

end Kernel

end Cyanos
