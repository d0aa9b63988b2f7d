import Cyanos.Sched.Signal

/-!
# Tasks and the run queue

`Task` of `sched/src/task.rs` and `RunQueue` of `sched/src/runqueue.rs`: 256 slots, each free or
with a task, and a cursor from which the next ready task is looked for.  A task's saved registers
are not modelled.
-/

namespace Cyanos

open Signal (SigAction)

/-- `TaskState`. -/
inductive TaskState
  | ready
  | running
  | blocked
  | zombie
  deriving DecidableEq, Repr

/-- `Task`: a process or a thread. -/
structure Task where
  pid : ℕ
  state : TaskState
  /-- Physical address of the root page table; `0` for the kernel's. -/
  pageTable : ℕ
  /-- Physical address of the kernel stack. -/
  kernelStack : ℕ
  /-- The IPC port the task sleeps on. -/
  blockedOn : Option ℕ
  /-- The futex the task waits for; `0` for none. -/
  blockedFutex : ℕ
  /-- The address space the task owns.  Kernel tasks and threads have none. -/
  addressSpace : Option AddressSpace
  /-- What `exit` was called with. -/
  exitCode : ℤ
  /-- The reply port; `u32::MAX` for none. -/
  replyPort : ℕ
  /-- Parent. -/
  ppid : ℕ
  /-- Leader of the thread group. -/
  tgid : ℕ
  pgid : ℕ
  sid : ℕ
  uid : ℕ
  gid : ℕ
  euid : ℕ
  egid : ℕ
  signalPending : BitVec 64
  signalMask : BitVec 64
  signalActions : Vector SigAction 4
  /-- The word to clear and wake when the thread exits. -/
  clearChildTid : ℕ
  heapStart : ℕ
  heapEnd : ℕ
  /-- The thread pointer. -/
  tlsBase : ℕ
  cwd : Vector UInt8 128
  cwdLen : ℕ
  umask : ℕ

/-- `DEFAULT_SIGACTION`. -/
def defaultSigaction : SigAction := ⟨0, 0, 0, 0⟩

/-- `Task::new_kernel`, and `Task::new_userspace`, which differs in the saved registers only. -/
def Task.newKernel (pid stackBase pageTable : ℕ) : Task where
  pid := pid
  state := .ready
  pageTable := pageTable
  kernelStack := stackBase
  blockedOn := none
  blockedFutex := 0
  addressSpace := none
  exitCode := 0
  replyPort := 2 ^ 32 - 1
  ppid := 0
  tgid := pid
  pgid := pid
  sid := pid
  uid := 0
  gid := 0
  euid := 0
  egid := 0
  signalPending := 0
  signalMask := 0
  signalActions := Vector.replicate 4 defaultSigaction
  clearChildTid := 0
  heapStart := 0
  heapEnd := 0
  tlsBase := 0
  cwd := (Vector.replicate 128 0).set 0 0x2f
  cwdLen := 1
  umask := 0o022

/-- `MAX_TASKS`. -/
def maxTasks : ℕ := 256

/-- `RunQueue`. -/
structure RunQueue where
  /-- The slots. -/
  tasks : List (Option Task)
  /-- Number of slots taken. -/
  len : ℕ
  /-- Where the search for a ready task begins. -/
  cursor : ℕ
  /-- There are `MAX_TASKS` slots. -/
  length_tasks : tasks.length = maxTasks

namespace RunQueue

/-- `RunQueue::new`. -/
def new : RunQueue := ⟨List.replicate maxTasks none, 0, 0, List.length_replicate⟩

/-- `get(idx)`. -/
def get (q : RunQueue) (idx : ℕ) : Option Task := q.tasks.getD idx none

/-- Replace what is in a slot. -/
def setSlot (q : RunQueue) (idx : ℕ) (slot : Option Task) : RunQueue :=
  { q with tasks := q.tasks.set idx slot, length_tasks := by simp [q.length_tasks] }

/-- Change the task in a slot, if there is one: `get_mut(idx)`. -/
def modify (q : RunQueue) (idx : ℕ) (f : Task → Task) : RunQueue := q.setSlot idx ((q.get idx).map f)

/-- `find_pid_idx(pid)`: the first slot with the task. -/
def findPidIdx (q : RunQueue) (pid : ℕ) : Option ℕ :=
  q.tasks.findIdx? fun slot => slot.any fun t => t.pid = pid

/-- `find_pid(pid)`. -/
def findPid (q : RunQueue) (pid : ℕ) : Option Task := (q.findPidIdx pid).bind q.get

/-- Change the task with a process id: `find_pid_mut(pid)`. -/
def modifyPid (q : RunQueue) (pid : ℕ) (f : Task → Task) : RunQueue :=
  match q.findPidIdx pid with
  | some idx => q.modify idx f
  | none => q

/-- `enqueue(task)`: `none` if the queue is full. -/
def enqueue (q : RunQueue) (task : Task) : Option RunQueue :=
  (q.tasks.findIdx? Option.isNone).map fun idx => { q.setSlot idx (some task) with len := q.len + 1 }

/-- The slot has a ready task. -/
def isReady (q : RunQueue) (idx : ℕ) : Bool := (q.get idx).any fun t => t.state = .ready

/-- `pick_next()`: the next slot with a ready task, from the cursor on and then from the start. -/
def pickNext (q : RunQueue) : Option ℕ × RunQueue :=
  if q.len = 0 then (none, q)
  else
    match (List.range' q.cursor (maxTasks - q.cursor) ++ List.range q.cursor).find? q.isReady with
    | some idx => (some idx, { q with cursor := (idx + 1) % maxTasks })
    | none => (none, q)

/-- `block_on_port(pid, port)`. -/
def blockOnPort (q : RunQueue) (pid port : ℕ) : RunQueue :=
  q.modifyPid pid fun t => { t with state := .blocked, blockedOn := some port }

/-- What `unblock_port` does to a task. -/
def wake (port : ℕ) (t : Task) : Task :=
  if t.blockedOn = some port ∧ t.state = .blocked then { t with state := .ready, blockedOn := none }
  else t

/-- `unblock_port(port)`: wake every task that sleeps on the port. -/
def unblockPort (q : RunQueue) (port : ℕ) : RunQueue :=
  { q with
    tasks := q.tasks.map fun slot => slot.map (wake port)
    length_tasks := by simp [q.length_tasks] }

/-- `remove(idx)`: empty a slot.  The task that was there is `q.get idx`. -/
def remove (q : RunQueue) (idx : ℕ) : RunQueue :=
  { q.setSlot idx none with len := if (q.get idx).isSome then q.len - 1 else q.len }

end RunQueue

end Cyanos
