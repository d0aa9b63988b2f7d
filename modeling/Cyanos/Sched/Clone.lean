import Cyanos.Mm.Cow
import Cyanos.Sched.Task

/-!
# Creating and ending tasks

The kernel's tasks as one state: `fork_current` and `clone_thread` of `sched/src/clone.rs`, and
`spawn`, `exit` and the reaping of zombies of `sched/src/lib.rs`.  The kernel stack of a task is a
block of order 4.  Whatever goes out of scope is dropped where the source drops it: an address
space frees its pages and its root, and a task its address space.

`fork_current` and `clone_thread` take the run-queue lock several times.  `later` is the run queue
when the lock is taken for the second time.
-/

namespace Cyanos

open Lib Machine MemMachine Option

/-- The kernel's tasks, on a machine. -/
structure Kernel (W : Type) where
  /-- `RUN_QUEUE`. -/
  rq : RunQueue
  /-- `NEXT_PID`. -/
  nextPid : ℕ
  /-- `MMAP_BUMP`. -/
  mmapBump : ℕ
  /-- The machine. -/
  w : W

/-- The order of a kernel stack, `stack_pages`. -/
def stackOrder : ℕ := 4

variable {W : Type} [MemMachine W]

/-- Drop an address space that may be there. -/
def dropSpace (w : W) : Option AddressSpace → Option W
  | some s => s.drop w
  | none => some w

namespace Kernel

/-- No task yet. -/
def boot (w : W) : Kernel W := ⟨.new, 1, 0x10000000, w⟩

/-- `alloc_pid()`. -/
def allocPid (k : Kernel W) : ℕ × Kernel W := (k.nextPid, { k with nextPid := (k.nextPid + 1) % 2 ^ 32 })

/-- Free two blocks, and return an error. -/
def undo (k : Kernel W) (stack order root : ℕ) (errno : ℤ) : Option (ℤ × Kernel W) := do
  let w ← buddyFree k.w stack order
  let w ← buddyFree w root 0
  some (errno, { k with w := w })

/-- The child that `fork` makes of its parent. -/
def forkedTask (t : Task) (pid stack root : ℕ) (childAs : AddressSpace) : Task :=
  { Task.newKernel pid stack root with
    addressSpace := some childAs
    ppid := t.pid
    tgid := t.tgid
    pgid := t.pgid
    sid := t.sid
    uid := t.uid
    gid := t.gid
    euid := t.euid
    egid := t.egid
    heapStart := (t.addressSpace.map AddressSpace.heapStart).getD 0
    heapEnd := (t.addressSpace.map AddressSpace.heapEnd).getD 0
    cwd := t.cwd }

/-- Steps 6 and 7 of `fork_current`: build the child and put it into the run queue.  On every error
the child's address space is dropped, and then the root is freed. -/
def forkEnqueue (k : Kernel W) (parentPid stack root : ℕ) (childAs : AddressSpace) :
    Option (ℤ × Kernel W) :=
  match k.rq.findPid parentPid with
  | none => do
    let (errno, k) ← k.undo stack stackOrder root (-3)
    let w ← childAs.drop k.w
    some (errno, { k with w := w })
  | some t => do
    let (childPid, k) := k.allocPid
    match k.rq.enqueue (forkedTask t childPid stack root childAs) with
    | some rq => some (childPid, { k with rq := rq })
    | none =>
      let w ← childAs.drop k.w
      undo { k with w := w } stack stackOrder root (-12)

/-- `fork_current(frame_ptr)` by the task `parentPid`.  `save` is step 4, what is done with the saved
registers. -/
def forkWith (save : W → ℕ → W) (k : Kernel W) (later : RunQueue) (framePtr parentPid : ℕ) :
    Option (ℤ × Kernel W) :=
  if framePtr = 0 then some (-38, k)
  else if parentPid = 0 then some (-38, k)
  else do
    match ← buddyAlloc k.w stackOrder with
    | (none, w) => some (-12, { k with w := w })
    | (some stack, w) =>
      let w := zeroBytes w stack (pageSize * 2 ^ stackOrder)
      match allocPageTableRoot w with
      | (0, w) =>
        let w ← buddyFree w stack stackOrder
        some (-12, { k with w := w })
      | (root, w) =>
        match k.rq.findPid parentPid with
        -- the stack is freed with an order of its own
        | none => undo { k with w := w } stack 3 root (-3)
        | some t =>
          match t.addressSpace with
          | none => undo { k with w := w } stack 3 root (-38)
          | some as =>
            match ← cloneAs as root w with
            | (none, w) => undo { k with w := w } stack stackOrder root (-12)
            | (some childAs, w) =>
              forkEnqueue { k with rq := later, w := save w stack } parentPid stack root childAs

/-- `fork_current(frame_ptr)` where the registers are of no interest. -/
def forkCurrent (k : Kernel W) (later : RunQueue) (framePtr parentPid : ℕ) :
    Option (ℤ × Kernel W) :=
  forkWith (fun w _ => w) k later framePtr parentPid

/-- What `clone_thread` is called with, apart from the saved registers. -/
structure CloneArgs where
  flags : ℕ
  ctid : ℕ

/-- The thread that `clone_thread` makes of its parent. -/
def clonedTask (t : Task) (parentPid pid stack : ℕ) (args : CloneArgs) : Task :=
  { Task.newKernel pid stack t.pageTable with
    ppid := parentPid
    tgid := if args.flags.testBit 16 then t.tgid else pid
    pgid := t.pgid
    sid := t.sid
    uid := t.uid
    gid := t.gid
    euid := t.euid
    egid := t.egid
    heapStart := (t.addressSpace.map AddressSpace.heapStart).getD 0
    heapEnd := (t.addressSpace.map AddressSpace.heapEnd).getD 0
    cwd := t.cwd
    clearChildTid := if args.flags.testBit 21 then args.ctid else 0 }

/-- `clone_thread(flags, child_stack, tls, ctid, frame_ptr)` by the task `parentPid`. -/
def cloneThread (k : Kernel W) (framePtr parentPid : ℕ) (args : CloneArgs) :
    Option (ℤ × Kernel W) :=
  if framePtr = 0 then some (-38, k)
  else if parentPid = 0 then some (-38, k)
  else do
    match ← buddyAlloc k.w stackOrder with
    | (none, w) => some (-12, { k with w := w })
    | (some stack, w) =>
      let w := zeroBytes w stack (pageSize * 2 ^ stackOrder)
      match k.rq.findPid parentPid with
      | none =>
        let w ← buddyFree w stack stackOrder
        some (-3, { k with w := w })
      | some t =>
        let ctidPhys :=
          if args.flags.testBit 24 ∧ args.ctid ≠ 0 then
            t.addressSpace.bind fun s => s.virtToPhys args.ctid
          else none
        let (childPid, k) := { k with w := w }.allocPid
        let w := match ctidPhys with
          | some phys => writeBytes k.w phys (leBytes 4 childPid)
          | none => k.w
        match k.rq.enqueue (clonedTask t parentPid childPid stack args) with
        | some rq => some (childPid, { k with rq := rq, w := w })
        | none =>
          let w ← buddyFree w stack stackOrder
          some (-12, { k with w := w })

/-- `spawn(entry, flags)`: a kernel task. -/
def spawn (k : Kernel W) : Option (Option ℕ × Kernel W) := do
  let (pid, k) := k.allocPid
  match ← buddyAlloc k.w stackOrder with
  | (none, w) => some (none, { k with w := w })
  | (some stack, w) =>
    match k.rq.enqueue (Task.newKernel pid stack 0) with
    | some rq => some (pid, { k with rq := rq, w := w })
    | none =>
      let w ← buddyFree w stack stackOrder
      some (none, { k with w := w })

/-- `spawn_user_with_address_space(entry_point, sp, as_)`. -/
def spawnUserWithAddressSpace (k : Kernel W) (as : AddressSpace) : Option (Option ℕ × Kernel W) := do
  let (pid, k) := k.allocPid
  match ← buddyAlloc k.w stackOrder with
  | (none, w) =>
    let w ← as.drop w
    some (none, { k with w := w })
  | (some stack, w) =>
    let task := { Task.newKernel pid stack as.pageTableRoot with addressSpace := some as }
    match k.rq.enqueue task with
    | some rq => some (pid, { k with rq := rq, w := w })
    | none =>
      let w ← as.drop w
      let w ← buddyFree w stack stackOrder
      some (none, { k with w := w })

/-- `exit(code)` by a task. -/
def exit (k : Kernel W) (pid : ℕ) (code : ℤ) : Kernel W :=
  { k with rq := k.rq.modifyPid pid fun t => { t with state := .zombie, exitCode := code } }

/-- What `scheduler_run_loop` does with a zombie in slot `idx`: remove and drop it, then free its
kernel stack. -/
def reap (k : Kernel W) (idx : ℕ) : Option (Kernel W) :=
  match k.rq.get idx with
  | some t =>
    if t.state = .zombie then do
      let w ← dropSpace k.w t.addressSpace
      let w ← buddyFree w t.kernelStack stackOrder
      some { k with rq := k.rq.remove idx, w := w }
    else some k
  | none => some k

/-- A turn of the loop of `wait_pid(pid)`: a zombie is removed and dropped, and its exit code
returned. Its kernel stack is not freed. -/
def waitPid (k : Kernel W) (pid : ℕ) : Option (Option ℤ × Kernel W) :=
  match k.rq.findPidIdx pid with
  | some idx =>
    match k.rq.get idx with
    | some t =>
      if t.state = .zombie then do
        let w ← dropSpace k.w t.addressSpace
        some (some t.exitCode, { k with rq := k.rq.remove idx, w := w })
      else some (none, k)
    | none => some (none, k)
  | none => some (none, k)

/-! ### What `fork_current` does -/

/-- A stack and then a page for the root were asked for, and the stack was obtained. -/
def Obtained (k : Kernel W) (stack root : ℕ) (w : W) : Prop :=
  ∃ w₁, buddyAlloc k.w stackOrder = some (some stack, w₁) ∧
    allocPageTableRoot (zeroBytes w₁ stack (pageSize * 2 ^ stackOrder)) = (root, w)

/-- The address space of the task was cloned for the new root, with the result `dst`. -/
def Cloning (k : Kernel W) (pid stack root : ℕ) (dst : Option AddressSpace) (w : W) : Prop :=
  ∃ w₀ t as, k.Obtained stack root w₀ ∧ root ≠ 0 ∧ k.rq.findPid pid = some t ∧
    t.addressSpace = some as ∧ cloneAs as root w₀ = some (dst, w)

/-- The ways in which `fork_current` can end once its arguments are accepted. -/
inductive ForkOutcome (save : W → ℕ → W) (k : Kernel W) (later : RunQueue) (pid : ℕ) :
    ℤ → Kernel W → Prop
  | noStack {w : W} : buddyAlloc k.w stackOrder = some (none, w) →
      ForkOutcome save k later pid (-12) { k with w := w }
  | noRoot {stack : ℕ} {w w' : W} : k.Obtained stack 0 w → buddyFree w stack stackOrder = some w' →
      ForkOutcome save k later pid (-12) { k with w := w' }
  | noSpace {stack root : ℕ} {w : W} {errno res : ℤ} {k' : Kernel W} : k.Obtained stack root w →
      root ≠ 0 → (k.rq.findPid pid).bind Task.addressSpace = none →
      undo { k with w := w } stack 3 root errno = some (res, k') → ForkOutcome save k later pid res k'
  | noMemory {stack root : ℕ} {w : W} {res : ℤ} {k' : Kernel W} : k.Cloning pid stack root none w →
      undo { k with w := w } stack stackOrder root (-12) = some (res, k') →
      ForkOutcome save k later pid res k'
  | vanished {stack root : ℕ} {childAs : AddressSpace} {w w' : W} {res : ℤ} {k' : Kernel W} :
      k.Cloning pid stack root (some childAs) w → later.findPid pid = none →
      undo { k with rq := later, w := save w stack } stack stackOrder root (-3) = some (res, k') →
      childAs.drop k'.w = some w' → ForkOutcome save k later pid res { k' with w := w' }
  | full {stack root : ℕ} {child : Task} {childAs : AddressSpace} {w w' : W} {res : ℤ}
      {k' : Kernel W} :
      k.Cloning pid stack root (some childAs) w → later.enqueue child = none →
      childAs.drop (save w stack) = some w' →
      undo { k.allocPid.2 with rq := later, w := w' } stack stackOrder root
        (-12) = some (res, k') → ForkOutcome save k later pid res k'
  | forked {stack root : ℕ} {parent : Task} {childAs : AddressSpace} {w : W} {rq : RunQueue} :
      k.Cloning pid stack root (some childAs) w → later.findPid pid = some parent →
      later.enqueue (forkedTask parent k.nextPid stack root childAs) = some rq →
      ForkOutcome save k later pid k.nextPid
        { k.allocPid.2 with rq := rq, w := save w stack }

theorem Cloning.found {k : Kernel W} {pid stack root : ℕ} {dst : Option AddressSpace} {w : W}
    (h : k.Cloning pid stack root dst w) : k.rq.findPid pid ≠ none := by
  obtain ⟨w₀, t, as, -, -, ht, -⟩ := h
  exact ne_none_iff_exists'.2 ⟨t, ht⟩

theorem undo_spec {k k' : Kernel W} {stack order root : ℕ} {errno res : ℤ}
    (h : k.undo stack order root errno = some (res, k')) : k'.rq = k.rq ∧ res = errno := by
  obtain ⟨w₁, -, h⟩ := bind_eq_some_iff.1 h
  obtain ⟨w₂, -, h⟩ := bind_eq_some_iff.1 h
  cases h
  exact ⟨rfl, rfl⟩

theorem forkWith_cases {save : W → ℕ → W} {k k' : Kernel W} {later : RunQueue} {framePtr pid : ℕ}
    {res : ℤ} (h : k.forkWith save later framePtr pid = some (res, k')) :
    ((framePtr = 0 ∨ pid = 0) ∧ res = -38 ∧ k' = k) ∨
      (framePtr ≠ 0 ∧ pid ≠ 0 ∧ ForkOutcome save k later pid res k' ∧ (res < 0 ∨ res = k.nextPid ∧
        ∃ parent stack root childAs, later.findPid pid = some parent ∧
          later.enqueue (forkedTask parent k.nextPid stack root childAs) = some k'.rq ∧
          ∃ w, k'.w = save w stack)) := by
  unfold forkWith at h
  split at h
  · next hframe =>
    cases h
    exact .inl ⟨.inl hframe, rfl, rfl⟩
  next hframe =>
  split at h
  · next hpid =>
    cases h
    exact .inl ⟨.inr hpid, rfl, rfl⟩
  next hpid =>
  refine .inr ⟨hframe, hpid, ?_⟩
  obtain ⟨⟨res₁, w₁⟩, halloc, h⟩ := bind_eq_some_iff.1 h
  cases res₁ with
  | none =>
    cases h
    exact ⟨.noStack halloc, .inl (by decide)⟩
  | some stack =>
    have hneg : ∀ {k k' : Kernel W} {order root : ℕ} {errno res : ℤ}, errno < 0 →
        k.undo stack order root errno = some (res, k') → res < 0 :=
      fun herr h => (undo_spec h).2 ▸ herr
    simp only at h
    split at h
    · next w₂ hroot =>
      obtain ⟨w₃, hfree, h⟩ := bind_eq_some_iff.1 h
      cases h
      exact ⟨.noRoot ⟨w₁, halloc, hroot⟩ hfree, .inl (by decide)⟩
    next root w₂ hne hroot =>
    have hobt : k.Obtained stack root w₂ := ⟨w₁, halloc, hroot⟩
    split at h
    · next ht => exact ⟨.noSpace hobt hne (by rw [ht]; rfl) h, .inl (hneg (by decide) h)⟩
    next t ht =>
    split at h
    · next has => exact ⟨.noSpace hobt hne (by rw [ht]; exact has) h, .inl (hneg (by decide) h)⟩
    next as has =>
    obtain ⟨⟨dst, w₃⟩, hclone, h⟩ := bind_eq_some_iff.1 h
    have hc : k.Cloning pid stack root dst w₃ := ⟨w₂, t, as, hobt, hne, ht, has, hclone⟩
    cases dst with
    | none => exact ⟨.noMemory hc h, .inl (hneg (by decide) h)⟩
    | some childAs =>
      simp only [forkEnqueue, allocPid] at h
      split at h
      · next hgone =>
        obtain ⟨⟨errno, k₁⟩, hundo, h⟩ := bind_eq_some_iff.1 h
        obtain ⟨w₄, hdrop, h⟩ := bind_eq_some_iff.1 h
        cases h
        exact ⟨.vanished hc hgone hundo hdrop, .inl (hneg (by decide) hundo)⟩
      · next parent hparent =>
        split at h
        · next rq hq =>
          cases h
          exact ⟨.forked hc hparent hq,
            .inr ⟨rfl, parent, stack, root, childAs, hparent, hq, _, rfl⟩⟩
        · next hq =>
          obtain ⟨w₄, hdrop, h⟩ := bind_eq_some_iff.1 h
          exact ⟨.full hc hq hdrop h, .inl (hneg (by decide) h)⟩

/-! ### What the other calls do -/

variable {k k' : Kernel W} {pid idx framePtr : ℕ} {res : ℤ} {args : CloneArgs}

/-- The machine after `clone_thread` has stored the thread id, if it was asked to. -/
def Stored (w w' : W) : Prop := w' = w ∨ ∃ phys bytes, w' = writeBytes w phys bytes

/-- The ways in which `clone_thread` can end once its arguments are accepted. -/
inductive CloneOutcome (k : Kernel W) (pid : ℕ) (args : CloneArgs) : ℤ → Kernel W → Prop
  | noStack {w : W} : buddyAlloc k.w stackOrder = some (none, w) →
      CloneOutcome k pid args (-12) { k with w := w }
  | noParent {stack : ℕ} {w w' : W} : buddyAlloc k.w stackOrder = some (some stack, w) →
      buddyFree (zeroBytes w stack (pageSize * 2 ^ stackOrder)) stack stackOrder = some w' →
      CloneOutcome k pid args (-3) { k with w := w' }
  | full {stack : ℕ} {w w₁ w₂ : W} : buddyAlloc k.w stackOrder = some (some stack, w) →
      Stored (zeroBytes w stack (pageSize * 2 ^ stackOrder)) w₁ →
      buddyFree w₁ stack stackOrder = some w₂ →
      CloneOutcome k pid args (-12) { k.allocPid.2 with w := w₂ }
  | cloned {stack : ℕ} {t : Task} {w w₁ : W} {rq : RunQueue} :
      buddyAlloc k.w stackOrder = some (some stack, w) → k.rq.findPid pid = some t →
      Stored (zeroBytes w stack (pageSize * 2 ^ stackOrder)) w₁ →
      k.rq.enqueue (clonedTask t pid k.nextPid stack args) = some rq →
      CloneOutcome k pid args k.nextPid
        { k.allocPid.2 with rq := rq, w := w₁ }

theorem cloneThread_cases (h : k.cloneThread framePtr pid args = some (res, k')) :
    (res = -38 ∧ k' = k) ∨ CloneOutcome k pid args res k' := by
  unfold cloneThread at h
  split at h
  · cases h
    exact .inl ⟨rfl, rfl⟩
  split at h
  · cases h
    exact .inl ⟨rfl, rfl⟩
  refine .inr ?_
  obtain ⟨⟨res₁, w₁⟩, halloc, h⟩ := bind_eq_some_iff.1 h
  cases res₁ with
  | none =>
    cases h
    exact .noStack halloc
  | some =>
    simp only at h
    split at h
    · obtain ⟨w₂, hfree, h⟩ := bind_eq_some_iff.1 h
      cases h
      exact .noParent halloc hfree
    next t ht =>
    have hstored : ∀ (phys : Option ℕ) (w : W) (bytes : List UInt8), Stored w (match phys with
        | some phys => writeBytes w phys bytes
        | none => w) := by
      rintro (_ | phys) w bytes
      · exact .inl rfl
      · exact .inr ⟨phys, bytes, rfl⟩
    split at h
    · next rq hq =>
      cases h
      exact .cloned halloc ht (hstored _ _ _) hq
    · obtain ⟨w₂, hfree, h⟩ := bind_eq_some_iff.1 h
      cases h
      exact .full halloc (hstored _ _ _) hfree

theorem spawn_cases {res : Option ℕ} (h : k.spawn = some (res, k')) :
    (∃ w, buddyAlloc k.w stackOrder = some (none, w) ∧
      k' = { k.allocPid.2 with w := w }) ∨
    ∃ stack w, buddyAlloc k.w stackOrder = some (some stack, w) ∧
      ((∃ rq, k.rq.enqueue (Task.newKernel k.nextPid stack 0) = some rq ∧
        k' = { k.allocPid.2 with rq := rq, w := w }) ∨
      ∃ w', buddyFree w stack stackOrder = some w' ∧
        k' = { k.allocPid.2 with w := w' }) := by
  obtain ⟨⟨res₁, w₁⟩, halloc, h⟩ := bind_eq_some_iff.1 h
  cases res₁ with
  | none =>
    cases h
    exact .inl ⟨w₁, halloc, rfl⟩
  | some stack =>
    refine .inr ⟨stack, w₁, halloc, ?_⟩
    simp only at h
    split at h
    · next rq hq =>
      cases h
      exact .inl ⟨rq, hq, rfl⟩
    · obtain ⟨w₂, hfree, h⟩ := bind_eq_some_iff.1 h
      cases h
      exact .inr ⟨w₂, hfree, rfl⟩

theorem spawnUser_cases {as : AddressSpace} {res : Option ℕ}
    (h : k.spawnUserWithAddressSpace as = some (res, k')) :
    (∃ w w', buddyAlloc k.w stackOrder = some (none, w) ∧ as.drop w = some w' ∧
      k' = { k.allocPid.2 with w := w' }) ∨
    ∃ stack w, buddyAlloc k.w stackOrder = some (some stack, w) ∧
      ((∃ rq, k.rq.enqueue { Task.newKernel k.nextPid stack as.pageTableRoot with
          addressSpace := some as } = some rq ∧
        k' = { k.allocPid.2 with rq := rq, w := w }) ∨
      ∃ w₁ w', as.drop w = some w₁ ∧ buddyFree w₁ stack stackOrder = some w' ∧
        k' = { k.allocPid.2 with w := w' }) := by
  obtain ⟨⟨res₁, w₁⟩, halloc, h⟩ := bind_eq_some_iff.1 h
  cases res₁ with
  | none =>
    obtain ⟨w₂, hdrop, h⟩ := bind_eq_some_iff.1 h
    cases h
    exact .inl ⟨w₁, w₂, halloc, hdrop, rfl⟩
  | some stack =>
    refine .inr ⟨stack, w₁, halloc, ?_⟩
    simp only at h
    split at h
    · next rq hq =>
      cases h
      exact .inl ⟨rq, hq, rfl⟩
    · obtain ⟨w₂, hdrop, h⟩ := bind_eq_some_iff.1 h
      obtain ⟨w₃, hfree, h⟩ := bind_eq_some_iff.1 h
      cases h
      exact .inr ⟨w₂, w₃, hdrop, hfree, rfl⟩

theorem reap_cases (h : k.reap idx = some k') :
    k' = k ∨ ∃ t w₁ w₂, k.rq.get idx = some t ∧ t.state = .zombie ∧
      dropSpace k.w t.addressSpace = some w₁ ∧ buddyFree w₁ t.kernelStack stackOrder = some w₂ ∧
      k' = { k with rq := k.rq.remove idx, w := w₂ } := by
  unfold reap at h
  split at h
  swap
  · exact .inl (some.inj h).symm
  next t ht =>
  split at h
  swap
  · exact .inl (some.inj h).symm
  next hz =>
  obtain ⟨w₁, hdrop, h⟩ := bind_eq_some_iff.1 h
  obtain ⟨w₂, hfree, h⟩ := bind_eq_some_iff.1 h
  exact .inr ⟨t, w₁, w₂, ht, hz, hdrop, hfree, (some.inj h).symm⟩

theorem waitPid_cases {res : Option ℤ} (h : k.waitPid pid = some (res, k')) :
    k' = k ∨ ∃ idx t w₁, k.rq.findPidIdx pid = some idx ∧ k.rq.get idx = some t ∧ t.state = .zombie ∧
      dropSpace k.w t.addressSpace = some w₁ ∧ k' = { k with rq := k.rq.remove idx, w := w₁ } := by
  unfold waitPid at h
  split at h
  swap
  · exact .inl (pair_inj h).2.symm
  next idx hidx =>
  split at h
  swap
  · exact .inl (pair_inj h).2.symm
  next t ht =>
  split at h
  swap
  · exact .inl (pair_inj h).2.symm
  next hz =>
  obtain ⟨w₁, hdrop, h⟩ := bind_eq_some_iff.1 h
  exact .inr ⟨idx, t, w₁, hidx, ht, hz, hdrop, (pair_inj h).2.symm⟩

end Kernel

end Cyanos
