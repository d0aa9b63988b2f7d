import Cyanos.Kernel.ImageUpkeep
import Cyanos.Kernel.MemorySpec

/-!
# The memory of a thread

`clone_thread` gives a thread the page table of the task that makes it, but no address space.  Page
faults and memory calls look up the address space in the record of the task that makes them, so
those of a thread find none.

## Main results

* `Kernel.step_queue` : what an action can do to the run queue.
* `Kernel.threadGroup_actsAs_iff` : **a member of a thread group has the memory of the leader
  exactly if it is the leader**.
* `Kernel.thread_fault_unresolved` : a thread that touches a page its creator could touch.
-/

namespace Cyanos

open Lib Machine MemMachine RunQueue Option

variable {W : Type} [KernelMachine W]

namespace Kernel

variable {k k' : Kernel W} {emTarget : ℕ} {a : Action} {pid framePtr : ℕ} {r : ℤ}

/-! ### What an action does to the run queue -/

/-- The task that gives up its memory with the action. -/
def Action.leaver : Action → Option ℕ
  | .execve pid _ _ => some pid
  | .exit pid _ => some pid
  | _ => none

/-- The run queue after an action. -/
inductive QueueChange (k : Kernel W) (a : Action) : RunQueue → Prop
  | same : QueueChange k a k.rq
  | added {t : Task} {rq : RunQueue} : t.pid = k.nextPid → k.rq.enqueue t = some rq → QueueChange k a rq
  | remapped {pid : ℕ} {s : AddressSpace} (as : AddressSpace) :
      (k.rq.findPid pid).bind Task.addressSpace = some s →
      QueueChange k a (k.rq.modifyPid pid fun t => { t with addressSpace := some as })
  | left {pid : ℕ} {f : Task → Task} : a.leaver = some pid → (∀ t, (f t).pid = t.pid) →
      QueueChange k a (k.rq.modifyPid pid f)
  | reaped {idx : ℕ} {t : Task} : k.rq.get idx = some t → t.state = .zombie →
      QueueChange k a (k.rq.remove idx)

theorem queue_call {c : MemCall} (h : k.memCall pid c = some (r, k')) : QueueChange k a k'.rq := by
  unfold memCall at h
  split at h
  · obtain ⟨hrq, -⟩ := withoutSpace_spec (J := fun _ => True) (fun _ => trivial) trivial (some.inj h)
    rw [hrq]
    exact .same
  · next as has =>
    obtain ⟨⟨r, p⟩, -, h⟩ := bind_eq_some_iff.1 h
    cases h
    exact .remapped p.as has

theorem queue_fork
    (h : k.forkCurrent k.rq framePtr pid = some (r, k')) : QueueChange k a k'.rq := by
  obtain ⟨-, -, rfl⟩ | ⟨-, -, hout, -⟩ := forkWith_cases h
  · exact .same
  cases hout with
  | noStack => exact .same
  | noRoot => exact .same
  | noSpace _ _ _ hundo | noMemory _ hundo | full _ _ _ hundo =>
    rw [(undo_spec hundo).1]
    exact .same
  | vanished hc hgone => exact absurd hgone hc.found
  | forked _ _ hq => exact .added rfl hq

theorem queue_clone {args : CloneArgs}
    (h : k.cloneThread framePtr pid args = some (r, k')) : QueueChange k a k'.rq := by
  obtain ⟨-, rfl⟩ | hout := cloneThread_cases h
  · exact .same
  cases hout with
  | noStack => exact .same
  | noParent => exact .same
  | full => exact .same
  | cloned _ _ _ hq => exact .added rfl hq

/-- **What an action can do to the run queue.** -/
theorem step_queue (h : k.step emTarget a = some k') : QueueChange k a k'.rq := by
  cases a with
  | call =>
    obtain ⟨-, r, hc⟩ := of_live h
    exact queue_call hc
  | execve =>
    obtain ⟨-, r, hc⟩ := of_live h
    obtain ⟨errno, w, -, rfl⟩ | ⟨as, w₁, w₂, -, -, rfl⟩ := sysExecve_cases hc
    · exact .same
    · exact .left rfl fun _ => rfl
  | fork =>
    obtain ⟨-, r, hc⟩ := of_live h
    exact queue_fork hc
  | cloneThread =>
    obtain ⟨-, r, hc⟩ := of_live h
    exact queue_clone hc
  | exit =>
    simp only [step] at h
    split at h
    · cases h
      exact .left rfl fun _ => rfl
    · cases h
  | spawn =>
    obtain ⟨⟨r, k₁⟩, hs, rfl⟩ := map_eq_some_iff.1 h
    obtain ⟨w, -, rfl⟩ | ⟨stack, w, -, ⟨rq, hq, rfl⟩ | ⟨w', -, rfl⟩⟩ := spawn_cases hs
    · exact .same
    · exact .added rfl hq
    · exact .same
  | spawnElf =>
    obtain ⟨⟨r, k₁⟩, hs, rfl⟩ := map_eq_some_iff.1 h
    obtain ⟨⟨res, w₁⟩, -, hs⟩ := bind_eq_some_iff.1 hs
    cases res with
    | error =>
      cases hs
      exact .same
    | ok =>
      obtain ⟨w, w', -, -, rfl⟩ | ⟨stack, w, -, ⟨rq, hq, rfl⟩ | ⟨w₁, w', -, -, rfl⟩⟩ := spawnUser_cases hs
      · exact .same
      · exact .added rfl hq
      · exact .same
  | reap =>
    obtain rfl | ⟨t, w₁, w₂, ht, hz, -, -, rfl⟩ := reap_cases h
    · exact .same
    · exact .reaped ht hz

/-! ### Thread groups -/

/-- The threads made by `clone_thread`, by a leader with an address space and by one another, after
any actions of theirs and of other tasks.  A process id that is handed out is not in use.  A thread
that exits or loads an image of its own leaves the group; the leader does neither. -/
inductive ThreadGroup (emTarget leader : ℕ) : Kernel W → List ℕ → Prop
  | lead {k : Kernel W} : k.Live leader → ((k.rq.findPid leader).bind Task.addressSpace).isSome = true →
      ThreadGroup emTarget leader k [leader]
  | thread {k k' : Kernel W} {ms : List ℕ} {m framePtr : ℕ} {args : CloneArgs} {child : ℤ} :
      ThreadGroup emTarget leader k ms → m ∈ ms → k.rq.findPid k.nextPid = none →
      k.cloneThread framePtr m args = some (child, k') → 0 ≤ child →
      ThreadGroup emTarget leader k' (child.toNat :: ms)
  | step {k k' : Kernel W} {ms : List ℕ} {a : Action} :
      ThreadGroup emTarget leader k ms → k.rq.findPid k.nextPid = none → a.leaver ≠ some leader →
      k.step emTarget a = some k' →
      ThreadGroup emTarget leader k' (ms.filter fun m => a.leaver ≠ some m)

/-- The member's page faults and its calls of `mmap`, `munmap` and `brk` have the result and the
effect that they would have if the leader made them. -/
structure ActsAs (k : Kernel W) (member leader : ℕ) : Prop where
  fault : ∀ va, k.memCall member (.fault va) = k.memCall leader (.fault va)
  mmap : ∀ addr len prot flags fd off, k.memCall member (.mmap addr len prot flags fd off) =
    k.memCall leader (.mmap addr len prot flags fd off)
  munmap : ∀ virt size, k.memCall member (.munmap virt size) = k.memCall leader (.munmap virt size)
  brk : ∀ newEnd, k.memCall member (.brk newEnd) = k.memCall leader (.brk newEnd)

/-- The task is live, and has an address space or none. -/
def HasSpace (k : Kernel W) (pid : ℕ) (b : Bool) : Prop :=
  ∃ t, k.rq.findPid pid = some t ∧ t.state ≠ .zombie ∧ t.addressSpace.isSome = b

omit [KernelMachine W] in
/-- Only the tasks that leave lose or gain an address space. -/
theorem HasSpace.queueChange {b : Bool} (h : k.HasSpace pid b)
    (hfree : k.rq.findPid k.nextPid = none) (hleave : a.leaver ≠ some pid)
    (hq : QueueChange k a k'.rq) : k'.HasSpace pid b := by
  obtain ⟨t, ht, hz, hs⟩ := h
  generalize hrq : k'.rq = rq at hq
  unfold HasSpace
  rw [hrq]
  cases hq with
  | same => exact ⟨t, ht, hz, hs⟩
  | @added u _ hpid henq =>
    have hne : u.pid ≠ pid := by
      rintro rfl
      cases hfree.symm.trans (hpid ▸ ht)
    exact ⟨t, (findPid_enqueue_of_ne henq hne).trans ht, hz, hs⟩
  | @remapped pid' s as hspace =>
    by_cases hne : pid = pid'
    · subst hne
      refine ⟨_, findPid_modifyPid_self (fun _ => rfl) ht, hz, ?_⟩
      rw [ht] at hspace
      rw [← hs, show t.addressSpace = some s from hspace]
      rfl
    · refine ⟨t, (findPid_modifyPid_of_ne ?_ hne).trans ht, hz, hs⟩
      exact fun _ => rfl
  | @left pid' f hl hf =>
    have hne : pid ≠ pid' := fun he => hleave (he ▸ hl)
    exact ⟨t, (findPid_modifyPid_of_ne hf hne).trans ht, hz, hs⟩
  | @reaped idx u hu hzu =>
    obtain ⟨j, hj, hget⟩ := findPid_eq_some.1 ht
    have hne : j ≠ idx := by
      rintro rfl
      obtain rfl : t = u := mem_unique hget hu
      exact hz hzu
    exact ⟨t, (findPid_remove hj hne).trans ht, hz, hs⟩

/-- A new thread has no address space. -/
theorem hasSpace_cloned {m : ℕ} {args : CloneArgs} {child : ℤ}
    (hfree : k.rq.findPid k.nextPid = none) (hc : k.cloneThread framePtr m args = some (child, k'))
    (hchild : 0 ≤ child) : k'.HasSpace child.toNat false := by
  obtain ⟨rfl, -⟩ | hout := cloneThread_cases hc
  · cases hchild
  cases hout with
  | noStack => cases hchild
  | noParent => cases hchild
  | full => cases hchild
  | cloned _ _ _ hq => exact ⟨_, findPid_enqueue_self hq hfree, TaskState.noConfusion, rfl⟩

/-- **Only the leader has an address space.** -/
theorem ThreadGroup.hasSpace {leader : ℕ} {ms : List ℕ} (h : ThreadGroup emTarget leader k ms) :
    k.HasSpace leader true ∧ ∀ m ∈ ms, m ≠ leader → k.HasSpace m false := by
  induction h with
  | @lead k hlive hspace =>
    obtain ⟨t, ht, hz⟩ := exists_of_any hlive
    rw [ht] at hspace
    refine ⟨⟨t, ht, hz, hspace⟩, fun m hm hne => ?_⟩
    exact absurd (List.mem_singleton.1 hm) hne
  | @thread k k' ms m framePtr args child _ hm hfree hc hchild ih =>
    obtain ⟨hleader, hmembers⟩ := ih
    have hq : QueueChange k (.cloneThread m framePtr args) k'.rq := queue_clone hc
    have hstay : ∀ n, (Action.cloneThread m framePtr args).leaver ≠ some n := fun n h => by cases h
    refine ⟨hleader.queueChange hfree (hstay leader) hq, fun m' hm' hne => ?_⟩
    rcases List.mem_cons.1 hm' with rfl | hm'
    · exact hasSpace_cloned hfree hc hchild
    · exact (hmembers m' hm' hne).queueChange hfree (hstay m') hq
  | @step k k' ms a _ hfree hlead hst ih =>
    obtain ⟨hleader, hmembers⟩ := ih
    refine ⟨hleader.queueChange hfree hlead (step_queue hst), fun m hm hne => ?_⟩
    obtain ⟨hm, hl⟩ := List.mem_filter.1 hm
    exact (hmembers m hm hne).queueChange hfree (of_decide_eq_true hl) (step_queue hst)

/-- Mapping a page at a fixed address never has the result it has without an address space. -/
theorem sysMmap_ne (p : Process W) {p' : Process W}
    (h : p.sysMmap 0x1000 0x1000 3 0x32 0 0 = some (r, p')) : r ≠ -1 := by
  have h' : p.mmapAnonymous 0x1000 0x1000 0x1000 (protToPageFlags 3) true = some (r, p') := h
  obtain ⟨p₁, -, h'⟩ := bind_eq_some_iff.1 h'
  split at h'
  · cases h'
    decide
  · cases h'
    decide

theorem not_actsAs {m leader : ℕ} (hm : k.HasSpace m false) (hl : k.HasSpace leader true) :
    ¬ k.ActsAs m leader := by
  intro h
  obtain ⟨t, ht, -, hspace⟩ := hm
  obtain ⟨u, hu, -, hspace'⟩ := hl
  obtain ⟨as, has⟩ := isSome_iff_exists.1 hspace'
  have hnone : t.addressSpace = none := not_isSome_iff_eq_none.1 (by rw [hspace]; decide)
  have hmem : k.memCall m (.mmap 0x1000 0x1000 3 0x32 0 0) = some (-1, k) := by
    rw [memCall, ht, bind_some, hnone]
    rfl
  have hlead := (h.mmap 0x1000 0x1000 3 0x32 0 0).symm.trans hmem
  rw [memCall, hu, bind_some, has] at hlead
  obtain ⟨⟨r, p⟩, hp, hlead⟩ := bind_eq_some_iff.1 hlead
  exact sysMmap_ne _ hp (pair_inj hlead).1

/-- **A member of a thread group has the memory of the leader exactly if it is the leader.** -/
theorem threadGroup_actsAs_iff {leader m : ℕ} {ms : List ℕ} (h : ThreadGroup emTarget leader k ms)
    (hm : m ∈ ms) : k.ActsAs m leader ↔ m = leader := by
  constructor
  · intro hacts
    by_contra hne
    obtain ⟨hl, hmembers⟩ := h.hasSpace
    exact not_actsAs (hmembers m hm hne) hl hacts
  · rintro rfl
    exact ⟨fun _ => rfl, fun _ _ _ _ _ _ => rfl, fun _ _ => rfl, fun _ => rfl⟩

/-- The first process, after it has mapped a page that it has not touched yet. -/
def untouchedRun : List Action := [.spawnElf Elf.tinyImage, .call 1 (.mmap 0 0x1000 3 0x22 0 0)]

/-- The state after it has also made a thread. -/
def threadState : Option (Kernel Host) :=
  (untouchedRun.foldlM (step 183) (boot Host.roomy)).bind fun k =>
    (k.cloneThread 1 1 ⟨0, 0⟩).map Prod.snd

theorem threadState_group : ∃ k, threadState = some k ∧ ThreadGroup 183 1 k [2, 1] := by
  obtain ⟨k, hk, hlive, hspace, hfree, hclone⟩ : ∃ k,
      untouchedRun.foldlM (step 183) (boot Host.roomy) = some k ∧ k.Live 1 ∧
      ((k.rq.findPid 1).bind Task.addressSpace).isSome = true ∧ (k.rq.findPid k.nextPid).isNone = true ∧
      (k.cloneThread 1 1 ⟨0, 0⟩).any (fun x => x.1 = 2) = true := exists_of_any (by decide +kernel)
  obtain ⟨⟨r, k'⟩, hk', hr⟩ := exists_of_any hclone
  obtain rfl : r = 2 := hr
  refine ⟨k', by rw [threadState, hk, bind_some, hk']; rfl, ?_⟩
  exact .thread (.lead hlive hspace) (.head _) (isNone_iff_eq_none.1 hfree) hk'
    (by decide)

theorem threadGroup_actsAs_thread : ∃ k : Kernel Host, ThreadGroup 183 1 k [2, 1] ∧
    (k.ActsAs 1 1 ↔ 1 = 1) ∧ (k.ActsAs 2 1 ↔ 2 = 1) := by
  obtain ⟨k, -, hg⟩ := threadState_group
  exact ⟨k, hg, threadGroup_actsAs_iff hg (by decide), threadGroup_actsAs_iff hg (by decide)⟩

/-- The thread's page fault at the untouched page is not resolved; the leader's would be. -/
theorem thread_fault_unresolved : ∃ k : Kernel Host, ThreadGroup 183 1 k [2, 1] ∧
    (k.memCall 2 (.fault 0x10000000)).map Prod.fst = some 0 ∧
    (k.memCall 1 (.fault 0x10000000)).map Prod.fst = some 1 ∧ ¬ k.ActsAs 2 1 := by
  obtain ⟨k, hk, hg⟩ := threadState_group
  have hfault : threadState.any (fun k => (k.memCall 2 (.fault 0x10000000)).map Prod.fst = some 0 ∧
      (k.memCall 1 (.fault 0x10000000)).map Prod.fst = some 1) = true := by decide +kernel
  rw [hk] at hfault
  obtain ⟨h2, h1⟩ := of_decide_eq_true hfault
  refine ⟨k, hg, h2, h1, fun hacts => ?_⟩
  rw [hacts.fault, h1] at h2
  cases h2

end Kernel

end Cyanos
