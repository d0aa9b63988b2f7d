import Cyanos.Servers.Vfs.Files

/-!
# The VFS server

The remaining requests of `servers/vfs/src/lib.rs`, and `handle`, which decodes a message and
dispatches on its tag.  Runs of the server are runs of `step`, a call after another.
-/

namespace Cyanos.Vfs

open Lib

/-! ### Descriptor flags and copies -/

/-- `handle_fcntl`. -/
def handleFcntl (v : State) (pid fd cmd arg : ℕ) : State × Reply :=
  match v.descriptor pid fd with
  | none => (v, errReply 9)
  | some (t, i) =>
    let e := v.fd t i
    match cmd with
    | 1 => (v, valReply (hasFlag e.flags oCloexec).toNat [])
    | 2 => (v.setFd t i { e with flags := BitVec.ofNat 32 arg }, okReply)
    | 3 => (v, valReply e.flags.toNat [])
    | 4 =>
      (v.setFd t i { e with flags := (e.flags &&& oCloexec) ||| BitVec.ofNat 32 arg }, okReply)
    | _ => (v, okReply)

/-- `handle_alloc_fd`. -/
def handleAllocFd (v : State) (pid oldfd : ℕ) : State × Reply :=
  if oldfd < maxFds then
    match v.getOrCreate pid with
    | none => (v, errReply 12)
    | some (t, v) =>
      match (v.tables t).used oldfd with
      | none => (v, errReply 9)
      | some i =>
        match position fun j => j != i && !(v.fd t j).inUse with
        | none => (v, errReply 24)
        | some j =>
          (v.setFd t j { v.fd t i with flags := (v.fd t i).flags &&& ~~~oCloexec }, valReply j [])
  else (v, errReply 9)

/-! ### Eventfds and timers -/

/-- The first eventfd counter that is free. -/
def State.freeCounter (v : State) : Option (Fin maxEventfds) :=
  position fun slot => v.counters slot == u64Max

/-- `handle_eventfd`. -/
def handleEventfd (v : State) (pid initval : ℕ) : State × Reply :=
  match v.freeCounter with
  | none => (v, errReply 24)
  | some slot =>
    let v := v.setCounter slot (if initval = u64Max then u64Max - 1 else initval)
    match newFd v pid 24 24 ⟨.eventFd slot, 0, true⟩ with
    | (v, .error e) => (v.setCounter slot u64Max, errReply e)
    | (v, .ok (_, i)) => (v, valReply i [])

/-- The first timer that is free. -/
def State.freeTimer (v : State) : Option (Fin maxTimerfds) :=
  position fun slot => (v.timers slot).isFree

/-- `handle_timerfd_create`. -/
def handleTimerfdCreate (v : State) (pid : ℕ) : State × Reply :=
  match v.freeTimer with
  | none => (v, errReply 24)
  | some slot =>
    let v := v.setTimer slot { TimerFdEntry.free with deadlineTicks := 1 }
    match newFd v pid 24 24 ⟨.timerFd slot, 0, true⟩ with
    | (v, .error e) => (v.setTimer slot .free, errReply e)
    | (v, .ok (_, i)) => (v, valReply i [])

/-- `NS_PER_TICK`. -/
def nsPerTick : ℕ := 10000000

/-- `handle_timerfd_settime`. -/
def handleTimerfdSettime (v : State) (env : Env) (pid fd valueNs intervalNs : ℕ) : State × Reply :=
  match v.descriptor pid fd with
  | none => (v, errReply 9)
  | some (t, i) =>
    match (v.fd t i).kind with
    | .timerFd slot =>
      let e := v.timers slot
      if valueNs = 0 then
        (v.setTimer slot { e with armed := false, expirations := 0 }, okReply)
      else
        (v.setTimer slot
          { armed := true
            deadlineTicks := wadd (env.ticks 0) (max (valueNs / nsPerTick) 1)
            intervalTicks := intervalNs / nsPerTick
            expirations := 0 }, okReply)
    | _ => (v, errReply 22)

/-- `handle_timerfd_gettime`. -/
def handleTimerfdGettime (v : State) (env : Env) (pid fd outPtr : ℕ) : Reply :=
  if outPtr = 0 then errReply 14
  else
    match v.descriptor pid fd with
    | none => errReply 9
    | some (t, i) =>
      match (v.fd t i).kind with
      | .timerFd slot =>
        let e := v.timers slot
        let now := env.ticks 0
        let remainingNs :=
          if e.armed ∧ now < e.deadlineTicks then (e.deadlineTicks - now) * nsPerTick % 2 ^ 64
          else 0
        let intervalNs := e.intervalTicks * nsPerTick % 2 ^ 64
        ⟨0, [(outPtr, leBytes 8 (intervalNs / 1000000000)),
          (outPtr + 8, leBytes 8 (intervalNs % 1000000000)),
          (outPtr + 16, leBytes 8 (remainingNs / 1000000000)),
          (outPtr + 24, leBytes 8 (remainingNs % 1000000000))]⟩
      | _ => errReply 22

/-! ### Device requests -/

/-- `FIONREAD`. -/
def fionread : ℕ := 0x541B

/-- `FBIOGET_VSCREENINFO`. -/
def fbiogetVscreeninfo : ℕ := 0x4600

/-- The bytes that can be read from a descriptor, as `FIONREAD` reports them. -/
def bytesAvail (v : State) : VnodeKind → Option ℕ
  | .pipe r false => some (v.rings r).count
  | .ramFile _ data pos => some (data.length - pos)
  | .tmpFile idx pos _ => some ((v.tmp idx).len - pos)
  | .eventFd slot => some (if 0 < v.counters slot then 8 else 0)
  | .timerFd slot => some (if 0 < (v.timers slot).expirations then 8 else 0)
  | _ => none

/-- The part of `handle_ioctl` after the framebuffer request. -/
def ioctlFionread (v : State) (pid fd cmd arg : ℕ) : Reply :=
  if cmd ≠ fionread then errReply 25
  else if arg = 0 then errReply 14
  else
    match v.descriptor pid fd with
    | none => errReply 9
    | some (t, i) =>
      match bytesAvail v (v.fd t i).kind with
      | none => errReply 25
      | some n => valReply 0 [(arg, leBytes 4 n)]

/-- `handle_ioctl`. -/
def handleIoctl (v : State) (env : Env) (pid fd cmd arg : ℕ) : Reply :=
  if cmd = fbiogetVscreeninfo then
    match v.descriptor pid fd with
    | none => errReply 9
    | some (t, i) =>
      match (v.fd t i).kind with
      | .devFb _ =>
        ⟨0, [(arg, leBytes 4 env.fb.width), (arg + 4, leBytes 4 env.fb.height),
          (arg + 8, leBytes 4 env.fb.width), (arg + 12, leBytes 4 env.fb.height),
          (arg + 16, leBytes 4 0), (arg + 20, leBytes 4 0), (arg + 24, leBytes 4 32),
          (arg + 28, leBytes 4 env.fb.pitch)]⟩
      | _ => ioctlFionread v pid fd cmd arg
  else ioctlFionread v pid fd cmd arg

/-! ### Messages -/

/-- A request with its arguments. -/
inductive Request where
  | open (pathPtr : ℕ) (flags : BitVec 32)
  | read (fd buf count : ℕ)
  | write (fd buf count : ℕ)
  | close (fd : ℕ)
  | lseek (fd : ℕ) (offset : ℤ) (whence : ℕ)
  | pipe (rfdPtr wfdPtr : ℕ)
  | dup2 (oldfd newfd : ℕ)
  | fcntl (fd cmd arg : ℕ)
  | forkDup (parentPid childPid : ℕ)
  | execCloexec (pid : ℕ)
  | closeAll (pid : ℕ)
  | getdents64 (fd buf count : ℕ)
  | allocFd (oldfd : ℕ)
  | unlink (pathPtr : ℕ)
  | mkdir (pathPtr : ℕ)
  | ftruncate (fd newLen : ℕ)
  | rename (oldPtr newPtr : ℕ)
  | fdPath (fd bufPtr bufLen : ℕ)
  | eventfd (initval : ℕ)
  | timerfdCreate
  | timerfdSettime (fd valueNs intervalNs : ℕ)
  | timerfdGettime (fd outPtr : ℕ)
  | ioctl (fd cmd arg : ℕ)
  /-- A tag that is not one of the requests. -/
  | unknown
  deriving DecidableEq

/-- `Message`: the tag and the three words of arguments. -/
structure Message where
  tag : UInt64
  arg0 : UInt64
  arg1 : UInt64
  arg2 : UInt64
  deriving DecidableEq

/-- The dispatch of `handle`, with the conversions of the arguments. -/
def Message.decode (msg : Message) : Request :=
  let a := msg.arg0.toNat
  let b := msg.arg1.toNat
  let c := msg.arg2.toNat
  match msg.tag.toNat with
  | 0x10 => .open a (BitVec.ofNat 32 b)
  | 0x11 => .read a b c
  | 0x12 => .write a b c
  | 0x13 => .close a
  | 0x15 => .lseek a (signed b) (c % 2 ^ 32)
  | 0x17 => .pipe a b
  | 0x18 => .dup2 a b
  | 0x19 => .fcntl a b c
  | 0x1A => .forkDup (a % 2 ^ 32) (b % 2 ^ 32)
  | 0x1B => .execCloexec (a % 2 ^ 32)
  | 0x1C => .closeAll (a % 2 ^ 32)
  | 0x1D => .getdents64 a b c
  | 0x1E => .allocFd a
  | 0x1F => .unlink a
  | 0x20 => .mkdir a
  | 0x21 => .ftruncate a b
  | 0x22 => .rename a b
  | 0x23 => .fdPath a b c
  | 0x24 => .eventfd a
  | 0x25 => .timerfdCreate
  | 0x26 => .timerfdSettime a b c
  | 0x27 => .timerfdGettime a b
  | 0x28 => .ioctl a b c
  | _ => .unknown

/-- The state after a request and the reply; `none` when the request does not return. -/
def serve (v : State) (env : Env) (pid : ℕ) : Request → Option (State × Reply)
  | .open pathPtr flags => (handleOpen v env pid pathPtr flags).toOption
  | .read fd buf count => handleRead v env pid fd buf count
  | .write fd buf count => handleWrite v env pid fd buf count
  | .close fd => some (handleClose v pid fd)
  | .lseek fd offset whence => some (handleLseek v env pid fd offset whence)
  | .pipe rfdPtr wfdPtr => some (handlePipe v pid rfdPtr wfdPtr)
  | .dup2 oldfd newfd => some (handleDup2 v pid oldfd newfd)
  | .fcntl fd cmd arg => some (handleFcntl v pid fd cmd arg)
  | .forkDup parentPid childPid => some (handleForkDup v parentPid childPid)
  | .execCloexec pid => some (handleExecCloexec v pid)
  | .closeAll pid => some (handleCloseAll v pid)
  | .getdents64 fd buf count => (handleGetdents64 v env pid fd buf count).toOption
  | .allocFd oldfd => some (handleAllocFd v pid oldfd)
  | .unlink pathPtr => some (handleUnlink v env pathPtr)
  | .mkdir pathPtr => some (handleMkdir v env pathPtr)
  | .ftruncate fd newLen => some (handleFtruncate v pid fd newLen)
  | .rename oldPtr newPtr => some (handleRename v env oldPtr newPtr)
  | .fdPath fd bufPtr bufLen => some (v, handleFdPath v env pid fd bufPtr bufLen)
  | .eventfd initval => some (handleEventfd v pid initval)
  | .timerfdCreate => some (handleTimerfdCreate v pid)
  | .timerfdSettime fd valueNs intervalNs =>
    some (handleTimerfdSettime v env pid fd valueNs intervalNs)
  | .timerfdGettime fd outPtr => some (v, handleTimerfdGettime v env pid fd outPtr)
  | .ioctl fd cmd arg => some (v, handleIoctl v env pid fd cmd arg)
  | .unknown => some (v, errReply 38)

/-- `handle`. -/
def handle (v : State) (env : Env) (msg : Message) (callerPid : ℕ) : Option (State × Reply) :=
  serve v env callerPid msg.decode

/-- A message of a process, and what it finds. -/
structure Call where
  env : Env
  pid : ℕ
  msg : Message

/-- A call with these bytes at the address 4096 and nothing else to be found. -/
def Call.ofBytes (bytes : List UInt8) (pid : ℕ) (tag arg0 arg1 arg2 : UInt64) : Call where
  env :=
    { mem := fun a => if 4096 ≤ a then bytes.getD (a - 4096) 0 else 0
      ticks := fun _ => 0
      fb := ⟨0, 0, 0, 0⟩
      hhdm := ⟨0, Nat.dvd_zero _, Nat.two_pow_pos 64⟩
      statics := fun _ => 0
      initrdVirt := 0
      initrd := []
      currentPid := pid
      currentPpid := 0
      currentPgid := 0
      totalPages := 0
      freePages := 0 }
  pid := pid
  msg := ⟨tag, arg0, arg1, arg2⟩

/-- The server after a call. -/
def step (v : State) (c : Call) : Option State := (handle v c.env c.msg c.pid).map (·.1)

/-- The server after `init`. -/
def boot : State := State.fresh.init

/-- The server after process 1 has created a file with `O_CLOEXEC` and written to it. -/
def written : State :=
  ([.ofBytes (bstr "/tmp/a") 1 0x10 4096 0x80041 0, .ofBytes [7, 8] 1 0x12 3 4096 2].foldlM step
    boot).getD boot

end Cyanos.Vfs
