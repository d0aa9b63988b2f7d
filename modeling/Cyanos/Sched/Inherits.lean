import Cyanos.Sched.ForkErrors
import Cyanos.Sched.RunQueue

/-!
# What the child of a `fork` has from its parent

`fork_current` builds the child from the defaults of `new_kernel` and copies some of the parent's
fields.  The length of the working directory, the masks of files and of signals, the signal actions
and the thread pointer are not among them.

* `Kernel.inherits_iff` : the child has all attributes of its parent exactly when those that are not
  copied have their defaults.
-/

namespace Cyanos

open Lib Machine MemMachine Option

/-- What `sys_getcwd` puts into a buffer; `none` for `ERANGE`. -/
def Task.getcwd (t : Task) (size : ℕ) : Option (List UInt8) :=
  let len := min t.cwdLen 256
  if len = 0 ∨ size ≤ len then none else some (t.cwd.toList.take len)

/-- The `UserFrame` of an architecture. -/
structure FrameLayout where
  size : ℕ
  /-- Where the register for results is. -/
  result : ℕ
  fits : result + 8 ≤ size

namespace FrameLayout

def aarch64 : FrameLayout := ⟨272, 0, by decide⟩

def x86 : FrameLayout := ⟨160, 96, by decide⟩

variable (l : FrameLayout)

/-- `child_frame_ptr`, as a physical address. -/
def childFrame (stack : ℕ) : ℕ := stack + (pageSize * 2 ^ stackOrder - l.size)

/-- What `fork_current` does with the parent's frame: copy it, and set the result. -/
def copyFrame {W : Type} [MemMachine W] (w : W) (frame stack : ℕ) : W :=
  writeBytes (copyBytes w frame (l.childFrame stack) l.size) (l.childFrame stack + l.result)
    (List.replicate 8 0)

/-- The frame at the top of the stack is the one at `frame` but for the result, unless they overlap. -/
def FrameCopied (w : Host) (frame stack : ℕ) : Prop :=
  frame + l.size ≤ l.childFrame stack ∨ l.childFrame stack + l.size ≤ frame →
    ∀ i < l.size, w.mem (l.childFrame stack + i) =
      if l.result ≤ i ∧ i < l.result + 8 then 0 else w.mem (frame + i)

theorem frameCopied (w : Host) (frame stack : ℕ) :
    l.FrameCopied (l.copyFrame w frame stack) frame stack := by
  intro hapart i hi
  have hfits := l.fits
  have hsame : (l.copyFrame w frame stack).mem (frame + i) = w.mem (frame + i) := by
    simp only [copyFrame, writeBytes, copyBytes, Host.fill, List.length_replicate]
    rw [if_neg (by omega), if_neg (by omega)]
  rw [hsame]
  simp only [copyFrame, writeBytes, copyBytes, Host.fill, List.length_replicate]
  by_cases h : l.result ≤ i ∧ i < l.result + 8
  · rw [if_pos (by omega), if_pos h, List.getD_replicate _ (by omega)]
  · rw [if_neg (by omega), if_neg h, if_pos (by omega), Nat.add_sub_cancel_left]

end FrameLayout

/-- What a child should have. -/
structure Inherits (l : FrameLayout) (w : Host) (frame : ℕ) (parent child : Task) : Prop where
  cwd : ∀ size, child.getcwd size = parent.getcwd size
  umask : child.umask = parent.umask
  mask : child.signalMask = parent.signalMask
  actions : child.signalActions = parent.signalActions
  tls : child.tlsBase = parent.tlsBase
  credentials : child.uid = parent.uid ∧ child.gid = parent.gid ∧ child.euid = parent.euid ∧
    child.egid = parent.egid
  pending : child.signalPending = 0
  frame : l.FrameCopied w frame child.kernelStack

namespace Kernel

variable {k k' : Kernel Host} {later : RunQueue} {framePtr pid : ℕ} {res : ℤ}

theorem getcwd_forkedTask_iff {t : Task} {stack root : ℕ} {childAs : AddressSpace} :
    (∀ size, (forkedTask t pid stack root childAs).getcwd size = t.getcwd size) ↔ t.cwdLen = 1 := by
  constructor
  · intro h
    have htwo : some (t.cwd.toList.take 1) = t.getcwd 2 := h 2
    rw [Task.getcwd] at htwo
    split at htwo
    · cases htwo
    · omega
  · intro h size
    simp only [Task.getcwd, h]
    rfl

/-- **The child has all attributes of its parent exactly when those that are not copied have their
defaults.** -/
theorem inherits_iff (l : FrameLayout) (frame : ℕ)
    (h : k.forkWith (l.copyFrame · frame ·) later framePtr pid = some (res, k')) (hres : 0 ≤ res) :
    ∃ parent idx child, later.findPid pid = some parent ∧ later.get idx = none ∧
      k'.rq.get idx = some child ∧ child.pid = res ∧
      (Inherits l k'.w frame parent child ↔ parent.cwdLen = 1 ∧ parent.umask = 0o022 ∧
        parent.signalMask = 0 ∧ parent.signalActions = .replicate 4 defaultSigaction ∧
        parent.tlsBase = 0) := by
  obtain ⟨-, rfl, -⟩ | ⟨-, -, -, hlt | ⟨rfl, parent, stack, root, childAs, hparent, hq, w, hw⟩⟩ :=
    forkWith_cases h
  · omega
  · omega
  obtain ⟨idx, -, hnone, hget, -⟩ := RunQueue.enqueue_get hq
  refine ⟨parent, idx, _, hparent, hnone, hget, rfl, ?_⟩
  constructor
  · intro h
    exact ⟨getcwd_forkedTask_iff.1 h.cwd, h.umask.symm, h.mask.symm, h.actions.symm, h.tls.symm⟩
  · rintro ⟨hcwd, humask, hmask, hactions, htls⟩
    exact ⟨getcwd_forkedTask_iff.2 hcwd, humask.symm, hmask.symm, hactions.symm, htls.symm,
      ⟨rfl, rfl, rfl, rfl⟩, rfl, hw ▸ l.frameCopied w frame stack⟩

/-- A kernel whose process 1 has this umask. -/
def umaskKernel (umask : ℕ) : Kernel Host :=
  { twoPageKernel .roomy with
    nextPid := 2
    rq := (twoPageKernel .roomy).rq.modifyPid 1 fun t => { t with umask := umask } }

/-- The process forks, with its saved registers at `0x70fef0`. -/
def forkUmask (umask : ℕ) : Option (ℤ × Kernel Host) :=
  (umaskKernel umask).forkWith (FrameLayout.aarch64.copyFrame · 0x70fef0 ·) (umaskKernel umask).rq 1 1

theorem inherits_defaults : ∃ x parent child, forkUmask 0o022 = some x ∧
    Inherits .aarch64 x.2.w 0x70fef0 parent child := by
  obtain ⟨⟨res, k'⟩, hk', hres⟩ : ∃ x, forkUmask 0o022 = some x ∧ 0 ≤ x.1 :=
    exists_of_any (by decide +kernel)
  obtain ⟨parent, -, child, hparent, -, -, -, hiff⟩ := inherits_iff .aarch64 0x70fef0 hk' hres
  refine ⟨_, parent, child, hk', hiff.2 ?_⟩
  cases hparent
  exact ⟨rfl, rfl, rfl, rfl, rfl⟩

/-- A process whose umask is `0` has a child with the default. -/
theorem fork_loses_umask : ∃ x, forkUmask 0 = some x ∧
    x.1 = 2 ∧ ((umaskKernel 0).rq.findPid 1).map Task.umask = some 0 ∧
      (x.2.rq.findPid 2).map Task.umask = some 0o022 :=
  exists_of_any (by decide +kernel)

end Kernel

end Cyanos
