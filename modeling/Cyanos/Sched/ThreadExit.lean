import Mathlib.Data.Option.Basic
import Cyanos.Sched.Clone
import Cyanos.Sched.FutexWake
import Cyanos.Sched.Smp

/-!
# What a thread leaves behind when it exits

`clone_thread` with `CLONE_CHILD_CLEARTID` and `set_tid_address` give a thread an address,
`clear_child_tid`: when the thread exits, the word there is to be cleared and the tasks that wait
for it are to be woken.  The field is never read.  `exit` marks the task a zombie, the scheduler
empties its slot, and the word and the waiters are left as they were.

The CPUs with their scheduler loops are those of `Smp`; beside them stand the words of the user
address spaces, which any task may change at any time, and what each thread has left behind at its
exit.

## Main results

* `Threads.notified_run` : in a run in which every thread that exits has cleared its word and woken
  its waiters itself, and nobody sets the word again before it is reaped, every thread reaped is
  `Notified`.
* `Threads.joiner_sleeps_on` : a thread that leaves this to the kernel.
-/

namespace Cyanos

open Lib

/-- A call of `futex_wait`: who made it, and the number of the call. -/
structure FutexCall where
  pid : ℕ
  no : ℕ
  deriving DecidableEq, Repr

/-- What a thread leaves behind at its exit. -/
structure Ended where
  /-- The box of the thread. -/
  ctx : ℕ
  /-- Its address space. -/
  pageTable : ℕ
  clearChildTid : ℕ
  /-- The tasks of its group that are `Blocked` in `futex_wait` on `clear_child_tid` at this
  time. -/
  waiters : List FutexCall
  deriving DecidableEq, Repr

/-- The CPUs, the words of the user address spaces, and the threads that have exited. -/
structure Threads (ι : Type) where
  smp : Smp ι
  /-- The 32-bit word at an address of an address space, if the address is backed there. -/
  word : ℕ → ℕ → Option ℕ
  /-- The tasks that are in `futex_wait` and have not run since, with the address. -/
  waiting : ℕ → Option (ℕ × FutexCall)
  /-- How many calls of `futex_wait` there were. -/
  calls : ℕ
  /-- The threads that have exited and have not been reaped. -/
  ended : List Ended
  /-- The thread that was reaped in the last step. -/
  reaped : Option Ended

namespace Threads

/-- What can happen. -/
inductive Act (ι : Type)
  /-- A step of the kernel. -/
  | kernel (a : Cyanos.Act ι)
  /-- `set_tid_address(tidptr)` by the task that runs on a CPU. -/
  | setTidAddress (i : ι) (tidptr : ℕ)
  /-- The words change: tasks store, `clone_thread` stores the pid of the child, pages come and
  go. -/
  | store (word : ℕ → ℕ → Option ℕ)

variable {ι : Type}

/-- No task yet, and no page. -/
def boot : Threads ι := ⟨.boot, fun _ _ => none, fun _ => none, 0, [], none⟩

/-- The task that runs on a CPU. -/
def runs (s : Threads ι) (i : ι) : Option TaskRef :=
  match s.smp.cpu i with
  | .running r => some r
  | _ => none

/-- The calls of `futex_wait` on the address in which tasks of the group are `Blocked`. -/
def waitersOn (s : Threads ι) (tgid uaddr : ℕ) : List FutexCall :=
  s.smp.rq.tasks.filterMap fun slot => slot.bind fun t => (s.waiting t.pid).bind fun w =>
    if t.tgid = tgid ∧ t.state = .blocked ∧ w.1 = uaddr then some w.2 else none

/-- What a task leaves behind when it exits now. -/
def endOf (s : Threads ι) (ctx : ℕ) (t : Task) : Ended :=
  ⟨ctx, t.pageTable, t.clearChildTid, s.waitersOn t.tgid t.clearChildTid⟩

/-- What a step of the kernel adds to the record, before it is taken. -/
def note (s : Threads ι) : Cyanos.Act ι → Threads ι
  | .task i (.blockOnFutex uaddr) =>
    match s.runs i with
    | some r =>
      { s with
        waiting := Function.update s.waiting r.pid (some (uaddr, ⟨r.pid, s.calls⟩))
        calls := s.calls + 1 }
    | none => s
  | .task i (.exit _) =>
    match s.runs i with
    | some r => { s with ended := ((s.smp.rq.findPid r.pid).map (s.endOf r.ctx)).toList ++ s.ended }
    | none => s
  | .sched i =>
    match s.smp.cpu i with
    -- the task runs again, and is not in `futex_wait` any more
    | .published r => { s with waiting := Function.update s.waiting r.pid none }
    | _ => s
  | _ => s

/-- The kernel has taken a step; if it has emptied the slot of a thread, the thread is reaped. -/
def settle (s : Threads ι) (smp : Smp ι) : Threads ι :=
  match smp.history.removals with
  | (c, _) :: rest =>
    if rest.length = s.smp.history.removals.length then
      { s with
        smp := smp
        ended := s.ended.filter fun e => e.ctx ≠ c
        reaped := s.ended.find? fun e => e.ctx = c }
    else { s with smp := smp, reaped := none }
  | [] => { s with smp := smp, reaped := none }

/-- One step. -/
def step [DecidableEq ι] (s : Threads ι) : Act ι → Option (Threads ι)
  | .kernel a => (s.smp.step a).map (s.note a).settle
  | .setTidAddress i tidptr =>
    (s.runs i).map fun r =>
      { s with
        smp := { s.smp with rq := s.smp.rq.modifyPid r.pid fun t => { t with clearChildTid := tidptr } }
        reaped := none }
  | .store word => some { s with word := word, reaped := none }

/-! ### The property and the condition -/

/-- The word is 0, if it is backed. -/
def Cleared (word : ℕ → ℕ → Option ℕ) (pageTable uaddr : ℕ) : Prop := ∀ v ∈ word pageTable uaddr, v = 0

instance (word : ℕ → ℕ → Option ℕ) (pageTable uaddr : ℕ) : Decidable (Cleared word pageTable uaddr) := by
  unfold Cleared
  infer_instance

/-- The task is still `Blocked` in this call of `futex_wait` on the address. -/
def StillWaits (s : Threads ι) (uaddr : ℕ) (w : FutexCall) : Prop :=
  s.smp.rq.isBlocked w.pid = true ∧ s.waiting w.pid = some (uaddr, w)

instance (s : Threads ι) (uaddr : ℕ) (w : FutexCall) : Decidable (s.StillWaits uaddr w) := by
  unfold StillWaits
  infer_instance

/-- When a thread with a `clear_child_tid` has been reaped, the word there is 0, and no task that
was waiting for it at the exit still waits. -/
def Notified (s : Threads ι) : Prop :=
  ∀ e ∈ s.reaped, e.clearChildTid ≠ 0 →
    Cleared s.word e.pageTable e.clearChildTid ∧ ∀ w ∈ e.waiters, ¬s.StillWaits e.clearChildTid w

/-- A thread with a `clear_child_tid` exits only when the word there is 0 and no task of its group
waits for it; and until it is reaped nobody sets the word. -/
def Clears (s : Threads ι) : Act ι → Prop
  | .kernel (.task i (.exit _)) =>
    ∀ r ∈ s.runs i, ∀ t ∈ s.smp.rq.findPid r.pid, t.clearChildTid ≠ 0 →
      Cleared s.word t.pageTable t.clearChildTid ∧ s.waitersOn t.tgid t.clearChildTid = []
  | .store word => ∀ e ∈ s.ended, e.clearChildTid ≠ 0 → Cleared word e.pageTable e.clearChildTid
  | _ => True

instance (s : Threads ι) (a : Act ι) : Decidable (s.Clears a) := by
  unfold Clears
  split <;> infer_instance

/-! ### Threads that clear their words themselves -/

/-- The thread has left a word that is 0 and no waiters. -/
def Clean (word : ℕ → ℕ → Option ℕ) (e : Ended) : Prop :=
  e.clearChildTid ≠ 0 → Cleared word e.pageTable e.clearChildTid ∧ e.waiters = []

/-- Every thread that has exited is `Clean`, also the one that was reaped last. -/
structure AllClean (s : Threads ι) : Prop where
  ended : ∀ e ∈ s.ended, Clean s.word e
  reaped : ∀ e ∈ s.reaped, Clean s.word e

namespace AllClean

variable {s s' : Threads ι}

theorem notified (h : s.AllClean) : s.Notified := by
  intro e he htid
  obtain ⟨hword, hnone⟩ := h.reaped e he htid
  refine ⟨hword, fun w hw => ?_⟩
  rw [hnone] at hw
  cases hw

theorem boot : (boot : Threads ι).AllClean := ⟨nofun, nofun⟩

theorem word_note (s : Threads ι) (a : Cyanos.Act ι) : (s.note a).word = s.word := by
  unfold note
  split
  · split <;> rfl
  · split <;> rfl
  · split <;> rfl
  · rfl

theorem note (h : s.AllClean) {a : Cyanos.Act ι} (hg : s.Clears (.kernel a)) :
    ∀ e ∈ (s.note a).ended, Clean s.word e := by
  unfold Threads.note
  split
  · split <;> exact h.ended
  · split
    · next r hr =>
      intro e he
      obtain he | he := List.mem_append.1 he
      · obtain ⟨t, ht, rfl⟩ := Option.map_eq_some_iff.1 (Option.mem_toList.1 he)
        exact fun htid => hg r hr t ht htid
      · exact h.ended e he
    · exact h.ended
  · split <;> exact h.ended
  · exact h.ended

theorem settle (h : ∀ e ∈ s.ended, Clean s.word e) (smp : Smp ι) : (s.settle smp).AllClean := by
  unfold Threads.settle
  split
  · split
    · exact ⟨fun e he => h e (List.mem_of_mem_filter he), fun e he => h e (List.mem_of_find?_eq_some he)⟩
    · exact ⟨h, nofun⟩
  · exact ⟨h, nofun⟩

theorem step [DecidableEq ι] (h : s.AllClean) {a : Act ι} (hg : s.Clears a)
    (hs : s.step a = some s') : s'.AllClean := by
  cases a with
  | kernel a =>
    obtain ⟨smp, -, rfl⟩ := Option.map_eq_some_iff.1 hs
    exact settle (word_note s a ▸ h.note hg) smp
  | setTidAddress =>
    obtain ⟨r, -, rfl⟩ := Option.map_eq_some_iff.1 hs
    exact ⟨h.ended, nofun⟩
  | store =>
    cases hs
    exact ⟨fun e he htid => ⟨hg e he htid, (h.ended e he htid).2⟩, nofun⟩

end AllClean

/-- **In every state of a run in which the threads that exit have cleared their words and woken
their waiters themselves, a thread that has just been reaped is `Notified`.** -/
theorem notified_run [DecidableEq ι] {s : Threads ι} (h : Run step Clears boot s) : s.Notified :=
  (h.invariant AllClean.boot fun _ _ _ hi hg hs => hi.step hg hs).notified

/-- The first thread of a process. -/
def leader : Task := .newKernel 1 0x8000 0x100000

/-- The thread that it makes with `CLONE_THREAD` and `CLONE_CHILD_CLEARTID`, for the word at
`0x1000`. -/
def worker : Task := Kernel.clonedTask leader 1 2 0x9000 ⟨0x210000, 0x1000⟩

/-- The word at `0x1000` of the process. -/
def wordIs (v : ℕ) (pageTable uaddr : ℕ) : Option ℕ :=
  if pageTable = 0x100000 ∧ uaddr = 0x1000 then some v else none

/-- The leader runs and makes the worker; the word is the pid of the worker. -/
def start : List (Act (Fin 1)) :=
  .kernel (.enqueue leader) :: .replicate 4 (.kernel (.sched 0)) ++
    [.store (wordIs 2), .kernel (.enqueue worker)]

/-- The CPU is back in the scheduler and runs the worker. -/
def switch : List (Act (Fin 1)) :=
  .kernel (.task 0 .yieldNow) :: .replicate 6 (.kernel (.sched 0))

/-- The worker exits and is reaped. -/
def finish : List (Act (Fin 1)) :=
  [.kernel (.task 0 (.exit 0)), .kernel (.task 0 .yieldNow)] ++ .replicate 4 (.kernel (.sched 0))

/-- The worker clears its word before it exits. -/
theorem notified_run_cleared : ∃ s : Threads (Fin 1), Run step Clears boot s ∧
    s.reaped = some ⟨1, 0x100000, 0x1000, []⟩ ∧ s.Notified :=
  Run.exists_guarded_with (start ++ switch ++ [.store (wordIs 0)] ++ finish) (by decide +kernel)
    fun _ hrun _ => notified_run hrun

/-- **The leader waits for the worker's word, and the worker exits: when it has been reaped the word
is still its pid, and the leader is still `Blocked`.** -/
theorem joiner_sleeps_on : ∃ s : Threads (Fin 1), Reach step boot s ∧
    s.reaped = some ⟨1, 0x100000, 0x1000, [⟨1, 0⟩]⟩ ∧ s.word 0x100000 0x1000 = some 2 ∧
      s.StillWaits 0x1000 ⟨1, 0⟩ :=
  Run.exists_of_foldlM (start ++ [.kernel (.task 0 (.blockOnFutex 0x1000))] ++ switch ++ finish)
    (by decide +kernel)

end Threads

end Cyanos
