import Cyanos.Sched.Futex

/-!
# The scheduler on several CPUs

`scheduler_run_loop` of `sched/src/lib.rs` on any set `ι` of CPUs, together with what running tasks
do to the run queue: `exit`, `block_on_port`, `futex_wait`, `wait_pid`, `yield_now`, the wakers and
the calls that add a task.  The code takes the lock of the run queue for one short section at a
time, so a step of the system is one such section, or one action between two sections, on one CPU.

A context pointer of the code points into the boxed task it was taken from, whatever happens to the
slot afterwards.  The boxes are numbered in the order in which they are added to the run queue, and
`Smp.ctx` has the number of the box in each slot.

`History` records what has been done for each box.  No step looks at it.
-/

namespace Cyanos

/-- `EXIT_LOG_LEN`. -/
def exitLogLen : ℕ := 256

/-- `ExitRecord`. -/
structure ExitRecord where
  pid : ℕ
  code : ℤ
  deriving DecidableEq, Repr

/-- `EXIT_LOG` and `EXIT_LOG_IDX`. -/
structure ExitLog where
  /-- The records. -/
  slots : List (Option ExitRecord)
  /-- Where the next record goes. -/
  idx : ℕ

namespace ExitLog

/-- The log at boot. -/
def new : ExitLog := ⟨List.replicate exitLogLen none, 0⟩

/-- `log_exit(pid, code)`. -/
def logExit (log : ExitLog) (pid : ℕ) (code : ℤ) : ExitLog :=
  ⟨log.slots.set log.idx (some ⟨pid, code⟩), (log.idx + 1) % exitLogLen⟩

/-- `get_exit_code(pid)`: the first record of the process id. -/
def getExitCode (log : ExitLog) (pid : ℕ) : Option ℤ :=
  ((log.slots.filterMap id).find? fun e => e.pid = pid).map ExitRecord.code

end ExitLog

/-- What a CPU has read of the task it is to run: the slot, the box its context pointer points into
and the process id, which are its `CURRENT_CTX` and `CURRENT_PID`. -/
structure TaskRef where
  idx : ℕ
  ctx : ℕ
  pid : ℕ
  deriving DecidableEq, Repr

/-- What a CPU has read of a zombie: `zombie_info`, with the slot and the box it was read from. -/
structure ZombieInfo where
  idx : ℕ
  ctx : ℕ
  stackBase : ℕ
  pid : ℕ
  exitCode : ℤ
  deriving DecidableEq, Repr

/-- Where a CPU is in `scheduler_run_loop`. -/
inductive Phase
  /-- About to pick a task. -/
  | idle
  /-- `pick_next` has returned a slot. -/
  | picked (idx : ℕ)
  /-- The context pointer and the process id have been read. -/
  | chosen (r : TaskRef)
  /-- The task has been marked `Running`. -/
  | published (r : TaskRef)
  /-- The CPU has switched to the task's context. -/
  | running (r : TaskRef)
  /-- The task, still on its context, has marked itself `Blocked` or `Zombie` and is about to switch
  back to the scheduler. -/
  | leaving (r : TaskRef)
  /-- The CPU has switched back to the scheduler. -/
  | returned (idx : ℕ)
  /-- A task that was still `Running` has been made `Ready`. -/
  | settled (idx : ℕ)
  /-- The slot had a zombie. -/
  | found (z : ZombieInfo)
  /-- The exit hook has been called. -/
  | hooked (z : ZombieInfo)
  /-- The slot has been emptied. -/
  | removed (z : ZombieInfo)
  /-- The kernel stack has been freed. -/
  | freed (z : ZombieInfo)
  deriving DecidableEq, Repr

namespace Phase

/-- The slot the CPU has picked and not yet marked `Running`. -/
def picking : Phase → Option ℕ
  | picked idx => some idx
  | chosen r => some r.idx
  | _ => none

/-- The slot of the task the CPU runs, from when it is marked `Running` until the CPU is back in the
scheduler and has made a task that is still `Running` ready. -/
def on : Phase → Option ℕ
  | published r | running r | leaving r => some r.idx
  | returned idx => some idx
  | _ => none

/-- The slot of the task that the CPU has picked or runs. -/
def busy (p : Phase) : Option ℕ := p.picking.or p.on

/-- The slot the CPU has run and in which it has not yet dealt with a zombie. -/
def finishing : Phase → Option ℕ
  | settled idx => some idx
  | found z | hooked z => some z.idx
  | _ => none

/-- What the CPU has read of the task it runs. -/
def ref : Phase → Option TaskRef
  | chosen r | published r | running r | leaving r => some r
  | _ => none

/-- The box whose context the CPU has switched to. -/
def switched : Phase → Option ℕ
  | running r | leaving r => some r.ctx
  | _ => none

end Phase

/-- A call of `wait_pid` that has returned. -/
structure WaitReturn where
  /-- The box of the task waited for. -/
  ctx : ℕ
  /-- What the call returned. -/
  result : Option ℤ
  /-- How many tasks had exited after that task. -/
  later : ℕ
  deriving DecidableEq, Repr

/-- What has been done for the task of a box. -/
structure Deeds where
  /-- What it called `exit` with. -/
  code : Option ℤ := none
  /-- How often the exit hook was called for it. -/
  hooks : ℕ := 0
  /-- How often its kernel stack was freed. -/
  frees : ℕ := 0
  deriving DecidableEq, Repr

/-- What has been done for the boxes.  The lists have the latest first. -/
structure History where
  /-- The process ids. -/
  pid : ℕ → ℕ := fun _ => 0
  deeds : ℕ → Deeds := fun _ => {}
  /-- The tasks that called `exit`. -/
  exits : List ℕ := []
  /-- The tasks whose exit was logged. -/
  logged : List ℕ := []
  /-- For each task reaped, the task that was in the slot emptied for it. -/
  removals : List (ℕ × Option ℕ) := []
  /-- The tasks waited for: the box that a call of `wait_pid(pid)` in the task of the other box
  found. -/
  awaited : ℕ → ℕ → Option ℕ := fun _ _ => none
  /-- The calls of `wait_pid` that began when the task was in the run queue and have returned. -/
  returns : List WaitReturn := []

namespace History

/-- How many tasks exited after a task. -/
def laterExits (h : History) (c : ℕ) : ℕ := h.exits.idxOf c

/-- How many exits were logged after that of a task. -/
def laterRecords (h : History) (c : ℕ) : ℕ := h.logged.idxOf c

/-- The task of a box is added. -/
def add (h : History) (c pid : ℕ) : History := { h with pid := Function.update h.pid c pid }

/-- The task of a box exits. -/
def exit (h : History) (c : ℕ) (code : ℤ) : History :=
  { h with
    deeds := Function.update h.deeds c { h.deeds c with code := some code }
    exits := c :: h.exits }

/-- The exit hook is called for the task of a box. -/
def hook (h : History) (c : ℕ) : History :=
  { h with deeds := Function.update h.deeds c { h.deeds c with hooks := (h.deeds c).hooks + 1 } }

/-- A slot is emptied for the task of a box. -/
def remove (h : History) (c : ℕ) (slot : Option ℕ) : History :=
  { h with removals := (c, slot) :: h.removals }

/-- The kernel stack of the task of a box is freed. -/
def free (h : History) (c : ℕ) : History :=
  { h with deeds := Function.update h.deeds c { h.deeds c with frees := (h.deeds c).frees + 1 } }

/-- The exit of the task of a box is logged. -/
def log (h : History) (c : ℕ) : History := { h with logged := c :: h.logged }

/-- A call of `wait_pid(pid)` in the task `caller` finds the task in the run queue. -/
def await (h : History) (caller pid c : ℕ) : History :=
  { h with
    awaited := Function.update h.awaited caller
      (Function.update (h.awaited caller) pid (some ((h.awaited caller pid).getD c))) }

/-- A call of `wait_pid(pid)` in the task `caller` returns. -/
def answer (h : History) (caller pid : ℕ) (result : Option ℤ) : History :=
  match h.awaited caller pid with
  | some c =>
    { h with
      awaited := Function.update h.awaited caller (Function.update (h.awaited caller) pid none)
      returns := ⟨c, result, h.laterExits c⟩ :: h.returns }
  | none => h

end History

/-- The CPUs, the run queue and the exit log. -/
structure Smp (ι : Type) where
  rq : RunQueue
  /-- The box in each slot. -/
  ctx : ℕ → ℕ
  /-- The next box. -/
  nextCtx : ℕ
  cpu : ι → Phase
  log : ExitLog
  history : History

/-- What the task that runs on a CPU does. -/
inductive Call
  /-- The section of `block_on_port(port)`. -/
  | blockOnPort (port : ℕ)
  /-- Step 2 of `futex_wait(uaddr)`. -/
  | blockOnFutex (uaddr : ℕ)
  /-- The section of `exit(code)`. -/
  | exit (code : ℤ)
  /-- The section of one turn of `wait_pid(pid)`. -/
  | waitPid (pid : ℕ)
  /-- The switch back to the scheduler: `yield_now`, step 3 of `futex_wait`. -/
  | yieldNow
  deriving DecidableEq, Repr

/-- The sections in which tasks are woken. -/
inductive Wake
  /-- `unblock_port(port)`. -/
  | unblockPort (port : ℕ)
  /-- The second section of `futex_wake`, for the process ids taken in the first. -/
  | futexWake (pids : List ℕ)
  /-- `deliver_signal(pid, signo)`. -/
  | deliverSignal (pid signo : ℕ)
  deriving DecidableEq, Repr

/-- The run queue after a section that wakes tasks. -/
def RunQueue.wakeBy (q : RunQueue) : Wake → RunQueue
  | .unblockPort port => q.unblockPort port
  | .futexWake pids => q.wakeWaiters pids
  | .deliverSignal pid signo => q.deliverSignal pid signo

/-- A step of the system. -/
inductive Act (ι : Type)
  /-- The CPU takes the next step of its scheduler loop. -/
  | sched (i : ι)
  /-- The task that runs on the CPU does something. -/
  | task (i : ι) (c : Call)
  /-- Tasks are woken, by a task or by an exit hook. -/
  | wake (w : Wake)
  /-- A task is added: `spawn`, `fork_current` and `clone_thread`. -/
  | enqueue (t : Task)

namespace Smp

variable {ι : Type}

/-- No task, every CPU about to pick one. -/
def boot : Smp ι := ⟨.new, fun _ => 0, 0, fun _ => .idle, .new, {}⟩

/-- The box in a slot, if there is a task. -/
def box (s : Smp ι) (idx : ℕ) : Option ℕ := (s.rq.get idx).map fun _ => s.ctx idx

variable [DecidableEq ι]

/-- The CPU goes on to another phase. -/
def goto (s : Smp ι) (i : ι) (p : Phase) : Smp ι := { s with cpu := Function.update s.cpu i p }

@[simp] theorem goto_self (s : Smp ι) (i : ι) (p : Phase) : (s.goto i p).cpu i = p := by
  simp [goto]

theorem goto_of_ne {i j : ι} (h : j ≠ i) (s : Smp ι) (p : Phase) : (s.goto i p).cpu j = s.cpu j := by
  simp [goto, h]

/-- Picking a task: the first section of the loop. -/
def pick (s : Smp ι) (i : ι) : Smp ι :=
  { s with rq := s.rq.pickNext.2 }.goto i
    (match s.rq.pickNext.1 with
    | some idx => .picked idx
    | none => .idle)

/-- A task that is still `Running` when the CPU is back in the scheduler is ready again. -/
def requeue (t : Task) : Task := if t.state = .running then { t with state := .ready } else t

/-- What is read of a zombie in the slot. -/
def zombieInfo (s : Smp ι) (idx : ℕ) : Option ZombieInfo :=
  match s.rq.get idx with
  | some t =>
    if t.state = .zombie then some ⟨idx, s.ctx idx, t.kernelStack, t.pid, t.exitCode⟩ else none
  | none => none

/-- The slot is emptied for a zombie. -/
def reap (s : Smp ι) (z : ZombieInfo) : Smp ι :=
  { s with rq := s.rq.remove z.idx, history := s.history.remove z.ctx (s.box z.idx) }

/-- The next step of the scheduler loop of a CPU.  `none` when the CPU runs a task, and when the
code panics because it unwraps an empty slot. -/
def sched (s : Smp ι) (i : ι) : Option (Smp ι) :=
  match s.cpu i with
  | .idle => some (s.pick i)
  | .picked idx => (s.rq.get idx).map fun t => s.goto i (.chosen ⟨idx, s.ctx idx, t.pid⟩)
  | .chosen r =>
    some ({ s with rq := s.rq.modify r.idx fun t => { t with state := .running } }.goto i (.published r))
  | .published r => some (s.goto i (.running r))
  | .running _ => none
  | .leaving _ => none
  | .returned idx => some ({ s with rq := s.rq.modify idx requeue }.goto i (.settled idx))
  | .settled idx =>
    some (s.goto i
      (match s.zombieInfo idx with
      | some z => .found z
      | none => .idle))
  | .found z => some ({ s with history := s.history.hook z.ctx }.goto i (.hooked z))
  | .hooked z => some ((s.reap z).goto i (.removed z))
  | .removed z => some ({ s with history := s.history.free z.ctx }.goto i (.freed z))
  | .freed z =>
    some ({ s with
      log := s.log.logExit z.pid z.exitCode
      history := s.history.log z.ctx }.goto i .idle)

/-- What the scheduler of a CPU may do next. -/
inductive Sched (s : Smp ι) (i : ι) : Smp ι → Prop
  | pick (hi : s.cpu i = .idle) : Sched s i (s.pick i)
  | choose {idx : ℕ} {t : Task} (hi : s.cpu i = .picked idx) (ht : s.rq.get idx = some t) :
    Sched s i (s.goto i (.chosen ⟨idx, s.ctx idx, t.pid⟩))
  | publish {r : TaskRef} (hi : s.cpu i = .chosen r) :
    Sched s i
      ({ s with rq := s.rq.modify r.idx fun t => { t with state := .running } }.goto i (.published r))
  | run {r : TaskRef} (hi : s.cpu i = .published r) : Sched s i (s.goto i (.running r))
  | settle {idx : ℕ} (hi : s.cpu i = .returned idx) :
    Sched s i ({ s with rq := s.rq.modify idx requeue }.goto i (.settled idx))
  | check {idx : ℕ} (hi : s.cpu i = .settled idx) :
    Sched s i (s.goto i
      (match s.zombieInfo idx with
      | some z => .found z
      | none => .idle))
  | hook {z : ZombieInfo} (hi : s.cpu i = .found z) :
    Sched s i ({ s with history := s.history.hook z.ctx }.goto i (.hooked z))
  | remove {z : ZombieInfo} (hi : s.cpu i = .hooked z) : Sched s i ((s.reap z).goto i (.removed z))
  | free {z : ZombieInfo} (hi : s.cpu i = .removed z) :
    Sched s i ({ s with history := s.history.free z.ctx }.goto i (.freed z))
  | logExit {z : ZombieInfo} (hi : s.cpu i = .freed z) :
    Sched s i ({ s with
      log := s.log.logExit z.pid z.exitCode
      history := s.history.log z.ctx }.goto i .idle)

theorem sched_cases {s s' : Smp ι} {i : ι} (hs : s.sched i = some s') : s.Sched i s' := by
  unfold sched at hs
  split at hs
  · next hi => cases hs; exact .pick hi
  · next hi => obtain ⟨t, ht, rfl⟩ := Option.map_eq_some_iff.1 hs; exact .choose hi ht
  · next hi => cases hs; exact .publish hi
  · next hi => cases hs; exact .run hi
  · cases hs
  · cases hs
  · next hi => cases hs; exact .settle hi
  · next hi => cases hs; exact .check hi
  · next hi => cases hs; exact .hook hi
  · next hi => cases hs; exact .remove hi
  · next hi => cases hs; exact .free hi
  · next hi => cases hs; exact .logExit hi

/-- The section of one turn of `wait_pid(pid)` in the task of the box `caller`: a zombie is removed
and dropped, and its exit code returned; a task that is not in the run queue is looked up in the
log; otherwise the call goes on after a `yield_now`. -/
def waitPid (s : Smp ι) (caller pid : ℕ) : Smp ι :=
  match s.rq.findPidIdx pid with
  | some idx =>
    match s.zombieInfo idx with
    | some z =>
      { s.reap z with
        history := ((s.reap z).history.await caller pid z.ctx).answer caller pid (some z.exitCode) }
    | none => { s with history := s.history.await caller pid (s.ctx idx) }
  | none => { s with history := s.history.answer caller pid (s.log.getExitCode pid) }

/-- What the task that a CPU runs does. -/
def call (s : Smp ι) (i : ι) (r : TaskRef) : Call → Smp ι
  | .blockOnPort port => { s with rq := s.rq.blockOnPort r.pid port }.goto i (.leaving r)
  | .blockOnFutex uaddr => { s with rq := s.rq.blockOnFutex r.pid uaddr }.goto i (.leaving r)
  | .exit code =>
    { s with
      rq := s.rq.modifyPid r.pid fun t => { t with state := .zombie, exitCode := code }
      history := s.history.exit r.ctx code }.goto i (.leaving r)
  | .waitPid pid => s.waitPid r.ctx pid
  | .yieldNow => s.goto i (.returned r.idx)

/-- A step of the task that a CPU runs.  After it has marked itself `Blocked` or `Zombie` all it can
do is to switch back to the scheduler. -/
def task (s : Smp ι) (i : ι) (c : Call) : Option (Smp ι) :=
  match s.cpu i with
  | .running r => some (s.call i r c)
  | .leaving r => if c = .yieldNow then some (s.call i r c) else none
  | _ => none

/-- A new task, which is ready, is boxed and added. -/
def enqueue (s : Smp ι) (t : Task) : Option (Smp ι) :=
  if t.state = .ready then
    match s.rq.tasks.findIdx? Option.isNone, s.rq.enqueue t with
    | some idx, some rq =>
      some { s with
        rq := rq
        ctx := Function.update s.ctx idx s.nextCtx
        nextCtx := s.nextCtx + 1
        history := s.history.add s.nextCtx t.pid }
    | _, _ => none
  else none

/-- A step of the system. -/
def step (s : Smp ι) : Act ι → Option (Smp ι)
  | .sched i => s.sched i
  | .task i c => s.task i c
  | .wake w => some { s with rq := s.rq.wakeBy w }
  | .enqueue t => s.enqueue t

end Smp

end Cyanos
