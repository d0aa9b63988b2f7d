import Cyanos.Kernel.Caller.Servers

/-!
# The system-call handlers, as their caller's memory sees them

The handlers of `kernel/src/syscall.rs` and the routines of `sched` they hand a pointer to, in
the order of the source.  A handler whose arguments name no memory it touches is a `value`: it
returns what the kernel's state says.  Waiting loops take the number of their turns as an
answer; a wait that outlasts it does not come back.
-/

namespace Cyanos.Caller

open Lib Effect

/-- `size_of::<Message>()`. -/
def messageSize : ℕ := 88

/-! ### Messages -/

/-- `sys_send`. -/
def sysSend (msg : ℕ) : Sys ℤ := do
  if !validateUserPtrAligned msg messageSize 8 then return -14
  touch msg 0 messageSize
  value

/-- The loop of `sys_recv`: a message is there, or the port is gone, or the task blocks. -/
def recvLoop (msg : ℕ) : (turns : ℕ) → Sys ℤ
  | 0 => halt
  | turns + 1 => do
    if ← flag then
      touch msg 0 messageSize
      return 0
    -- the port may have been closed before the task blocks, or while it is blocked
    if !(← flag) then return -9
    if !(← flag) then return -9
    recvLoop msg turns

/-- `sys_recv`. -/
def sysRecv (msg : ℕ) : Sys ℤ := do
  if !validateUserPtrAligned msg messageSize 8 then return -14
  if !(← flag) then return -13
  recvLoop msg (← count)

/-- `sys_call`. -/
def sysCall (msg : ℕ) : Sys ℤ := do
  if !validateUserPtrAligned msg messageSize 8 then return -14
  if !(← flag) then return -12
  touch msg 0 messageSize
  if !(← flag) then return (← value)
  sysRecv msg

/-! ### Tasks and signals -/

/-- `sys_spawn`; `spawn_user` always declines. -/
def sysSpawn (entry stack : ℕ) : Sys ℤ := do
  if entry = 0 ∨ entry ≥ userSpaceEnd then return -22
  if stack ≥ userSpaceEnd then return -22
  return -12

/-- `sys_wait`. -/
def sysWait (status : ℕ) : Sys ℤ := do
  if status ≠ 0 ∧ !validateUserPtrAligned status 4 4 then return -14
  if !(← flag) then return -3
  when (status ≠ 0) (touch status 0 4)
  return 0

/-- `sys_waitid`. -/
def sysWaitid (infop : ℕ) : Sys ℤ := do
  if !(← flag) then return -10
  when (infop ≠ 0 ∧ validateUserBuf infop 128) do
    fields infop [(0, 128), (0, 4), (8, 4), (16, 4), (24, 4)]
  return 0

/-- `sys_rt_sigsuspend`. -/
def sysRtSigsuspend (mask : ℕ) : Sys ℤ := do
  when (mask ≠ 0 ∧ validateUserBuf mask 8) (touch mask 0 8)
  return -4

/-- `sys_rt_sigtimedwait`. -/
def sysRtSigtimedwait (set info timeout : ℕ) : Sys ℤ := do
  when (set ≠ 0 ∧ validateUserBuf set 8) (touch set 0 8)
  when (timeout ≠ 0 ∧ validateUserBuf timeout 16) do
    fields timeout [(0, 8), (8, 8)]
  if !(← flag) then return -110
  when (info ≠ 0 ∧ validateUserBuf info 128) do
    fields info [(0, 128), (0, 4)]
  value

/-- `sched::sys_sigaction`: the caller's pointers are used as they come.  The action table has
four entries; indexing past it panics, after the new action is read but before the old one is
written. -/
def sysSigaction (signum act oldact : ℕ) : Sys ℤ := do
  if !(← flag) then return -3
  when (oldact ≠ 0) do
    if 4 < signum then halt
    touch oldact 0 32
  when (act ≠ 0) do
    touch act 0 32
    if 4 < signum then halt
  return 0

/-- `sys_rt_sigaction`. -/
def sysRtSigaction (signum act oldact : ℕ) : Sys ℤ := do
  if signum = 0 ∨ signum ≥ 64 then return -22
  sysSigaction signum act oldact

/-- `sched::sys_sigprocmask`: the caller's pointers are used as they come. -/
def sysSigprocmask (how set oldset : ℕ) : Sys ℤ := do
  if !(← flag) then return -3
  when (oldset ≠ 0) (touch oldset 0 8)
  when (set ≠ 0) (touch set 0 8)
  return if set ≠ 0 ∧ 2 < how then -22 else 0

/-- `sys_rt_sigprocmask`. -/
def sysRtSigprocmask (how set oldset : ℕ) : Sys ℤ := sysSigprocmask how set oldset

/-- `sys_futex`: `FUTEX_WAIT` reads the word; neither operation touches more. -/
def sysFutex (uaddr op val : ℕ) : Sys ℤ := do
  match op - (if op.testBit 7 then 128 else 0) with
  | 0 =>
    if !validateUserPtrAligned uaddr 4 4 then return -14
    let current ← load uaddr 0 4
    if current ≠ val % 2 ^ 32 then return -11
    return 0
  | 1 => value
  | _ => return -38

/-- `sys_arch_prctl`. -/
def sysArchPrctl (code addr : ℕ) : Sys ℤ := do
  match code with
  | 0x1002 => return 0
  | 0x1003 =>
    if !validateUserPtrAligned addr 8 8 then return -14
    touch addr 0 8
    return 0
  | _ => return -22

/-- `clone_thread`: with `CLONE_CHILD_SETTID` the child's pid is written where the address space
translates `ctid`. -/
def cloneThread (flags ctid frame : ℕ) : Sys ℤ := do
  if frame = 0 then return -38
  if !(← flag) then return (← value)
  when (flags.testBit 24 ∧ ctid ≠ 0) do
    if ← mapped ctid then touch ctid 0 4
  value

/-- `sys_clone_or_fork`. -/
def sysCloneOrFork (flags ctid frame : ℕ) : Sys ℤ :=
  if flags.testBit 8 then cloneThread flags ctid frame else value

/-! ### Times and limits -/

/-- `sys_clock_gettime`. -/
def sysClockGettime (tp : ℕ) : Sys ℤ := do
  if !validateUserPtrAligned tp 16 8 then return -14
  fields tp [(0, 8), (8, 8)]
  return 0

/-- `sys_getrandom`. -/
def sysGetrandom (buf count : ℕ) : Sys ℤ := do
  if count = 0 then return 0
  if !validateUserBuf buf count then return -14
  touch buf 0 count
  return count

/-- `sys_prctl`: `PR_GET_NAME` writes, `PR_GET_DUMPABLE` answers one. -/
def sysPrctl (option arg2 : ℕ) : Sys ℤ := do
  match option with
  | 16 =>
    when (validateUserBuf arg2 16) (touch arg2 0 16)
    return 0
  | 3 => return 1
  | _ => return 0

/-- Two words at an address that may be null. -/
def writePair (p : ℕ) : Sys ℤ := do
  if p ≠ 0 ∧ !validateUserBuf p 16 then return -14
  when (p ≠ 0) (fields p [(0, 8), (8, 8)])
  return 0

/-- `sys_clock_getres`. -/
def sysClockGetres (res : ℕ) : Sys ℤ := writePair res

/-- `sys_times`. -/
def sysTimes (buf : ℕ) : Sys ℤ := do
  when (buf ≠ 0 ∧ validateUserBuf buf 32) (touch buf 0 32)
  value

/-- `sys_nanosleep`. -/
def sysNanosleep (rqtp : ℕ) : Sys ℤ := do
  if rqtp = 0 then return 0
  if !validateUserBuf rqtp 16 then return -14
  let sec ← load rqtp 0 8
  let nsec ← load rqtp 8 8
  if signed sec < 0 ∨ signed nsec < 0 ∨ signed nsec ≥ 1_000_000_000 then return -22
  return 0

/-- `sys_gettimeofday`. -/
def sysGettimeofday (tv tz : ℕ) : Sys ℤ := do
  if tv ≠ 0 ∧ !validateUserBuf tv 16 then return -14
  when (tv ≠ 0) do
    fields tv [(0, 8), (8, 8)]
  when (tz ≠ 0 ∧ validateUserBuf tz 8) (touch tz 0 8)
  return 0

/-- `sys_time`. -/
def sysTime (tloc : ℕ) : Sys ℤ := do
  when (tloc ≠ 0 ∧ validateUserBuf tloc 8) (touch tloc 0 8)
  value

/-- `sys_sysinfo`. -/
def sysSysinfo (info : ℕ) : Sys ℤ := do
  if !validateUserBuf info 112 then return -14
  fields info [(0, 112), (0, 8), (32, 8), (40, 8), (80, 2), (104, 4)]
  return 0

/-- `sys_getrlimit`. -/
def sysGetrlimit (rlim : ℕ) : Sys ℤ := writePair rlim

/-- `sys_prlimit64`; the new limit is ignored. -/
def sysPrlimit64 (old : ℕ) : Sys ℤ := writePair old

/-- `sys_getrusage`. -/
def sysGetrusage (usage : ℕ) : Sys ℤ := do
  if !validateUserBuf usage 144 then return -14
  fields usage [(0, 144), (32, 8)]
  return 0

/-- `sys_sched_getparam`. -/
def sysSchedGetparam (param : ℕ) : Sys ℤ := do
  when (param ≠ 0 ∧ validateUserBuf param 4) (touch param 0 4)
  return 0

/-- `sys_sched_getaffinity`. -/
def sysSchedGetaffinity (cpusetsize mask : ℕ) : Sys ℤ := do
  if mask = 0 then return -14
  let bytes := min cpusetsize 128
  if !validateUserBuf mask bytes then return -14
  touch mask 0 bytes
  when (0 < bytes) (touch mask 0 1)
  return 0

/-- `sys_capget`. -/
def sysCapget (data : ℕ) : Sys ℤ := do
  when (data ≠ 0 ∧ validateUserBuf data 24) do
    fields data [(0, 4), (4, 4), (8, 4), (12, 4), (16, 4), (20, 4)]
  return 0

/-- `sys_sigaltstack`. -/
def sysSigaltstack (oss : ℕ) : Sys ℤ := do
  when (oss ≠ 0 ∧ validateUserBuf oss 24) do
    fields oss [(0, 24), (8, 4)]
  return 0

/-- `sys_uname`; `machine` is the length of the machine's name. -/
def sysUname (machine buf : ℕ) : Sys ℤ := do
  if !validateUserBuf buf 390 then return -14
  fields buf [(0, 390), (0, 7), (65, 7), (130, 6), (195, 3), (260, machine)]
  return 0

/-- `sys_getresxid`. -/
def sysGetresxid (r e s : ℕ) : Sys ℤ := do
  when (r ≠ 0 ∧ validateUserBuf r 4) (touch r 0 4)
  when (e ≠ 0 ∧ validateUserBuf e 4) (touch e 0 4)
  when (s ≠ 0 ∧ validateUserBuf s 4) (touch s 0 4)
  return 0

/-- `sys_sigpending`. -/
def sysSigpending (set : ℕ) : Sys ℤ := do
  if !validateUserBuf set 8 then return -14
  touch set 0 8
  return 0

/-- `sys_setitimer`: the timer server gets a record of the kernel's own. -/
def sysSetitimer (which new old : ℕ) : Sys ℤ := do
  if new ≠ 0 ∧ !validateUserBuf new 32 then return -14
  if old ≠ 0 ∧ !validateUserBuf old 32 then return -22
  if which ≠ 0 then return 0
  when (new ≠ 0) do
    fields new [(0, 8), (8, 8), (16, 8), (24, 8)]
  when (old ≠ 0) (touch old 0 32)
  let _ ← Tty.handleTimerCreate 0
  let r ← Tty.handleTimerSettime (.own (← count))
  return if r < 0 then -22 else 0

/-- `sys_getitimer`. -/
def sysGetitimer (which cur : ℕ) : Sys ℤ := do
  if which ≠ 0 then return 0
  if !validateUserBuf cur 32 then return -14
  touch cur 0 32
  return 0

/-- `sys_alarm`. -/
def sysAlarm : Sys ℤ := do
  let _ ← Tty.handleTimerCreate 0
  let _ ← Tty.handleTimerSettime (.own (← count))
  return 0

/-- `sys_timer_create`: the signal number is read under a check, the timer's number is written
without one. -/
def sysTimerCreate (sigevent timerid : ℕ) : Sys ℤ := do
  when (sigevent ≠ 0 ∧ validateUserBuf sigevent 12) (touch sigevent 8 4)
  Tty.handleTimerCreate timerid

/-- `sys_timer_settime`. -/
def sysTimerSettime (ispec : ℕ) : Sys ℤ := do
  if ispec ≠ 0 ∧ !validateUserBuf ispec 32 then return -14
  Tty.handleTimerSettime (.caller ispec)

/-- `sys_timer_gettime`. -/
def sysTimerGettime (ospec : ℕ) : Sys ℤ := do
  if !validateUserBuf ospec 32 then return -14
  Tty.handleTimerGettime ospec

/-- `sys_timerfd_settime`. -/
def sysTimerfdSettime (new : ℕ) : Sys ℤ := do
  if new = 0 ∨ !validateUserBuf new 32 then return -14
  fields new [(0, 8), (8, 8), (16, 8), (24, 8)]
  value

/-- `sys_timerfd_gettime`. -/
def sysTimerfdGettime (fd cur : ℕ) : Sys ℤ := Vfs.handleTimerfdGettime fd cur

/-! ### Executing a program -/

/-- The loop of `push_cstr`: bytes at `ptr + k` on, while the buffer has room for `room` more. -/
def pushLoop (ptr : ℕ) : (room k : ℕ) → Sys (Bool × ℕ)
  | 0, k => return (false, k)
  | room + 1, k => do
    let b ← load ptr k 1
    if b = 0 then return (true, k)
    pushLoop ptr room (k + 1)

/-- `push_cstr`: one string, into a buffer that holds `count` strings and `end_` bytes. -/
def pushCstr (count end_ ptr : ℕ) : Sys (ℕ × ℕ) := do
  if count ≥ 64 then return (count, end_)
  if ptr = 0 then return (count, end_)
  let (ok, k) ← pushLoop ptr (8191 - end_) 0
  return if ok then (count + 1, end_ + k + 1) else (count, end_ + k)

/-- The loops of `sys_execve` over `argv` and `envp`: the array is read under a check, the
strings its entries point to are not. -/
def pushStrings (array : ℕ) : (n i count end_ : ℕ) → Sys Unit
  | 0, _, _, _ => pure ()
  | n + 1, i, count, end_ => do
    let entry := wadd array (i * 8)
    if !validateUserBuf entry 8 then return ()
    if !(← userCopy 8 entry 8) then return ()
    let str ← (.ask .word .ret : Sys (Fin (2 ^ 64)))
    if str.val = 0 then return ()
    let (count, end_) ← pushCstr count end_ str
    pushStrings array n (i + 1) count end_

/-- `sys_execve`: the path is checked for one byte and copied as 256.  What follows the strings
works on kernel memory and the new address space. -/
def sysExecve (path argv envp : ℕ) : Sys ℤ := do
  if !validateUserBuf path 1 then return -14
  if !(← userCopy 256 path 256) then return -14
  if !(← flag) then return (← value)
  when (argv ≠ 0) (pushStrings argv 64 0 0 0)
  when (envp ≠ 0) (pushStrings envp 64 0 0 0)
  value

/-! ### Input and output -/

/-- The yield-loop around a read: `EAGAIN` means try again. -/
def retry (p : Sys ℤ) : (turns : ℕ) → Sys ℤ
  | 0 => halt
  | turns + 1 => do
    let r ← p
    if r ≠ -11 then return r
    retry p turns

/-- `VFS_READ` and `VFS_WRITE`, for however long a chain of descriptors. -/
def vfsRead (fd : ℕ) (buf : Buf) (n : ℕ) : Sys ℤ := do Vfs.handleRead (← count) fd buf n

@[inherit_doc vfsRead]
def vfsWrite (fd : ℕ) (buf : Buf) (n : ℕ) : Sys ℤ := do Vfs.handleWrite (← count) fd buf n

/-- `sys_write`. -/
def sysWrite (fd buf n : ℕ) : Sys ℤ := do
  if n = 0 then return 0
  if !validateUserBuf buf n then return -14
  if fd = 1 ∨ fd = 2 then
    if !(← userCopy n buf n) then return -14
    return n
  vfsWrite fd (.caller buf) n

/-- `sys_read`.  From the console, one byte or more of those asked for. -/
def sysRead (fd buf n : ℕ) : Sys ℤ := do
  if fd = 0 then
    if n = 0 then return 0
    if !validateUserBuf buf n then return -14
    let got := 1 + min (n - 1) (← count)
    if !(← userCopy got buf got) then return -14
    return got
  if n ≠ 0 ∧ !validateUserBuf buf n then return -14
  retry (vfsRead fd (.caller buf) n) (← count)

/-- The loop of `sys_writev` over its buffers. -/
def writevLoop (iov : ℕ) : (n i total : ℕ) → Sys ℤ
  | 0, _, total => return total
  | n + 1, i, total => do
    let base ← load iov (i * 16) 8
    let len ← load iov (i * 16 + 8) 8
    if len = 0 then writevLoop iov n (i + 1) total
    else if !validateUserBuf base len then return -14
    else
      touch base 0 len
      writevLoop iov n (i + 1) (total + len)

/-- `sys_writev`. -/
def sysWritev (fd iov iovcnt : ℕ) : Sys ℤ := do
  if iovcnt = 0 then return 0
  if !validateUserBuf iov (satMul iovcnt 16) then return -14
  if fd = 1 ∨ fd = 2 then writevLoop iov iovcnt 0 0
  else return -9

/-- The loop of `sys_readv` on the console: the first buffer that is not empty. -/
def readvConsole (iov : ℕ) : (n i : ℕ) → Sys ℤ
  | 0, _ => return 0
  | n + 1, i => do
    let base ← load iov (i * 16) 8
    let len ← load iov (i * 16 + 8) 8
    if 0 < len then sysRead 0 base len
    else readvConsole iov n (i + 1)

/-- The loop of `sys_readv` on other descriptors. -/
def readvLoop (fd iov : ℕ) : (n i : ℕ) → ℤ → Sys ℤ
  | 0, _, total => return total
  | n + 1, i, total => do
    let base ← load iov (i * 16) 8
    let len ← load iov (i * 16 + 8) 8
    if len = 0 then readvLoop fd iov n (i + 1) total
    else if !validateUserBuf base len then return -14
    else
      let r ← retry (vfsRead fd (.caller base) len) (← count)
      if r < 0 then return if total > 0 then total else r
      if r < len then return total + r
      readvLoop fd iov n (i + 1) (total + r)

/-- `sys_readv`. -/
def sysReadv (fd iov iovcnt : ℕ) : Sys ℤ := do
  if iovcnt = 0 then return 0
  if !validateUserBuf iov (satMul iovcnt 16) then return -14
  if fd = 0 then readvConsole iov iovcnt 0
  else readvLoop fd iov iovcnt 0 0

/-- `sys_pread64`. -/
def sysPread64 (fd buf n : ℕ) : Sys ℤ := do
  if n = 0 then return 0
  if !validateUserBuf buf n then return -14
  let cur ← value
  if cur < 0 then return cur
  vfsRead fd (.caller buf) n

/-- `sys_pwrite64`. -/
def sysPwrite64 (fd buf n : ℕ) : Sys ℤ := do
  if n = 0 then return 0
  if !validateUserBuf buf n then return -14
  let cur ← value
  if cur < 0 then return if fd ≤ 2 then (n : ℤ) else cur
  vfsWrite fd (.caller buf) n

/-- `sys_sendfile`: the data goes through a buffer of the kernel's own, for as many chunks as the
transfer takes. -/
def sysSendfile (offset n : ℕ) : Sys ℤ := do
  if n = 0 then return 0
  if offset ≠ 0 ∧ !validateUserBuf offset 8 then return -14
  when (offset ≠ 0) (touch offset 0 8)
  let sought ← flag
  if offset ≠ 0 ∧ !sought then return (← value)
  let transferred ← count
  when (offset ≠ 0 ∧ 0 < transferred) do
    fields offset [(0, 8), (0, 8)]
  return transferred

/-! ### Files -/

/-- `sys_open`: the path is read without a check; the server gets a copy. -/
def sysOpen (path : ℕ) : Sys ℤ := do
  let _ ← readCstrForVfs path
  value

/-- `sys_fstat`: a `stat` record, at a caller's address or for `sys_statx`. -/
def sysFstat (fd : ℕ) (stat : Buf) : Sys ℤ := do
  if !validateUserBuf stat.ptr 144 then return -14
  stat.touch 0 144
  if fd ≤ 2 then
    stat.touch 24 4
    return 0
  if !(← flag) then return -9
  stat.touch 24 4
  if ← flag then
    stat.fields [(48, 8), (56, 8), (64, 8)]
    return 0
  return 0

/-- `sys_newfstatat`: the path is checked for one byte and read to its end. -/
def sysNewfstatat (path : ℕ) (stat : Buf) : Sys ℤ := do
  if !validateUserBuf path 1 then return -14
  if !validateUserBuf stat.ptr 144 then return -14
  if ← Vfs.isDirectory path then
    stat.fields [(0, 144), (24, 4)]
    return 0
  let fd ← Vfs.handleOpen path
  if fd < 0 then return fd
  sysFstat fd.toNat stat

/-- `sys_stat_at_path`. -/
def sysStatAtPath (path stat : ℕ) : Sys ℤ := do
  if !validateUserBuf path 1 then return -14
  if !validateUserBuf stat 144 then return -14
  let fd ← Vfs.handleOpen path
  if fd < 0 then return fd
  sysFstat fd.toNat (.caller stat)

/-- `sys_statx`: the `stat` record in between is on the kernel's stack. -/
def sysStatx (path statxbuf : ℕ) : Sys ℤ := do
  if !validateUserBuf statxbuf 256 then return -14
  touch statxbuf 0 256
  let r ← sysNewfstatat path (.own (← count))
  if r < 0 then return r
  fields statxbuf [(0, 4), (4, 4), (16, 4), (28, 2), (40, 8), (48, 8)]
  return 0

/-- `sys_pipe2`. -/
def sysPipe2 (pipefd : ℕ) : Sys ℤ := do
  if !validateUserBuf pipefd 8 then return -14
  Vfs.handlePipe pipefd (wadd pipefd 4)

/-- `sys_getdents64`: one byte of the buffer is checked. -/
def sysGetdents64 (fd buf n : ℕ) : Sys ℤ := do
  if !validateUserBuf buf (min n 1) then return -14
  Vfs.handleGetdents64 fd buf n

/-- `sys_mkdirat`. -/
def sysMkdirat (path : ℕ) : Sys ℤ := do
  if !validateUserBuf path 1 then return -14
  Vfs.handleMkdir path

/-- `sys_unlinkat`. -/
def sysUnlinkat (path : ℕ) : Sys ℤ := do
  if !validateUserBuf path 1 then return -14
  Vfs.handleUnlink path

/-- `sys_chdir`. -/
def sysChdir (path : ℕ) : Sys ℤ := do
  if !validateUserBuf path 1 then return -14
  let _ ← readCstrForVfs path
  let fd ← sysOpen path
  if fd < 0 then return fd
  return 0

/-- `sys_getcwd`: one byte of the buffer is checked. -/
def sysGetcwd (buf size : ℕ) : Sys ℤ := do
  if !validateUserBuf buf (min size 1) then return -14
  let len ← (.ask .cwdLen .ret : Sys (Fin 128))
  if len.val = 0 ∨ size ≤ len.val then return -34
  fields buf [(0, len.val), (len.val, 1)]
  return buf

/-- `sys_faccessat`. -/
def sysFaccessat (path : ℕ) : Sys ℤ := do
  if !validateUserBuf path 1 then return -14
  if ← Vfs.getFileData path then return 0
  if ← Vfs.isDirectory path then return 0
  return -2

/-- A path of bytes, as written in the source. -/
def bytesOf (s : String) : List ℕ := s.toList.map Char.toNat

/-- `sys_readlinkat`.  The prefix of the last test has fourteen bytes and is compared with
fifteen. -/
def sysReadlinkat (path buf size : ℕ) : Sys ℤ := do
  if !validateUserBuf path 1 then return -14
  if size = 0 ∨ !validateUserBuf buf size then return -14
  let (bytes, nul) ← readBytes path 255 0
  let name := if nul then bytes else []
  if name = bytesOf "/proc/self/exe" then
    touch buf 0 (min 9 size)
    return (min 9 size : ℕ)
  if name = bytesOf "/proc/self/maps" then return 0
  let digits := name.drop 15
  if 15 < name.length ∧ name.take 15 = bytesOf "/proc/self/fd/" ∧
      digits.all fun d => 48 ≤ d && d ≤ 57 then
    let fd := digits.foldl (fun fd d => (fd * 10 + (d - 48)) % 2 ^ 64) 0
    Vfs.handleFdPath fd buf size
  else return -2

/-- `sys_statfs`. -/
def sysStatfs (buf : ℕ) : Sys ℤ := do
  if !validateUserBuf buf 120 then return -14
  fields buf [(0, 120), (0, 4), (4, 4)]
  return 0

/-- `sys_renameat`. -/
def sysRenameat (old new : ℕ) : Sys ℤ := do
  if !validateUserBuf old 1 then return -14
  if !validateUserBuf new 1 then return -14
  Vfs.handleRename old new

/-- `sys_truncate`. -/
def sysTruncate (path : ℕ) : Sys ℤ := do
  if !validateUserBuf path 1 then return -14
  let fd ← Vfs.handleOpen path
  if fd < 0 then return fd
  value

/-- `sys_memfd_create`: up to 48 bytes of the name, without a check. -/
def sysMemfdCreate (name : ℕ) : Sys ℤ := do
  if name ≠ 0 then
    let _ ← readBytes name 48 0
    value
  else value

/-- `sys_ioctl`. -/
def sysIoctl (fd cmd arg : ℕ) : Sys ℤ := do
  if cmd = 0x541B ∧ fd = 0 then
    if arg = 0 ∨ !validateUserBuf arg 4 then return -14
    touch arg 0 4
    return 0
  if cmd = 0x541B ∨ cmd = 0x4600 then
    if cmd = 0x4600 ∧ arg ≠ 0 ∧ !validateUserBuf arg 32 then return -14
    let r ← Vfs.handleIoctl fd cmd arg
    if r ≠ -25 then return r
    Tty.handleIoctl fd cmd arg
  else Tty.handleIoctl fd cmd arg

/-! ### Sockets -/

/-- `sys_bind`. -/
def sysBind (fd addr addrlen : ℕ) : Sys ℤ := do
  if 128 < addrlen ∨ !validateUserBuf addr addrlen then return -14
  Net.handleBind fd addr addrlen

/-- `sys_accept`. -/
def sysAccept (fd addr : ℕ) : Sys ℤ := Net.handleAccept fd addr

/-- `sys_connect`. -/
def sysConnect (fd addr addrlen : ℕ) : Sys ℤ := do
  if 128 < addrlen ∨ !validateUserBuf addr addrlen then return -14
  Net.handleConnect fd addr addrlen

/-- `sys_sendto`. -/
def sysSendto (fd buf len : ℕ) : Sys ℤ := do
  if len ≠ 0 ∧ !validateUserBuf buf len then return -14
  Net.handleSend fd buf len

/-- `sys_recvfrom`. -/
def sysRecvfrom (fd buf len : ℕ) : Sys ℤ := do
  if len ≠ 0 ∧ !validateUserBuf buf len then return -14
  Net.handleRecv fd buf len

/-- `sys_sendmsg`: the header is checked, what it points to is not. -/
def sysSendmsg (fd msghdr : ℕ) : Sys ℤ := do
  if !validateUserBuf msghdr 48 then return -14
  Net.handleSendmsg fd msghdr

/-- `sys_recvmsg`. -/
def sysRecvmsg (fd msghdr : ℕ) : Sys ℤ := do
  if !validateUserBuf msghdr 48 then return -14
  Net.handleRecvmsg fd msghdr

/-- `sys_getsockname`. -/
def sysGetsockname (addr addrlen : ℕ) : Sys ℤ := Net.handleGetsockname addr addrlen

/-- `sys_getpeername`. -/
def sysGetpeername (addr addrlen : ℕ) : Sys ℤ := Net.handleGetpeername addr addrlen

/-- `sys_socketpair`. -/
def sysSocketpair (domain sv : ℕ) : Sys ℤ := do
  if !validateUserBuf sv 8 then return -14
  Net.handleSocketpair domain sv

/-- `sys_setsockopt`: the server ignores the option. -/
def sysSetsockopt (optval optlen : ℕ) : Sys ℤ := do
  if 128 < optlen ∨ (optlen ≠ 0 ∧ !validateUserBuf optval optlen) then return -14
  return 0

/-- `sys_getsockopt`. -/
def sysGetsockopt (level optname optval optlen : ℕ) : Sys ℤ :=
  Net.handleGetsockopt level optname optval optlen

/-! ### Polling -/

/-- The loop of `sys_ppoll`; `ready` counts the descriptors with events. -/
def ppollLoop (fds : ℕ) : (n i ready : ℕ) → Sys ℕ
  | 0, _, ready => return ready
  | n + 1, i, ready => do
    let fd ← load fds (i * 8) 4
    touch fds (i * 8 + 4) 2
    -- a negative descriptor is skipped
    if 2 ^ 31 ≤ fd then
      touch fds (i * 8 + 6) 2
      ppollLoop fds n (i + 1) ready
    else
      let event ← flag
      touch fds (i * 8 + 6) 2
      ppollLoop fds n (i + 1) (if event then ready + 1 else ready)

/-- `sys_ppoll`: the timeout is read without a check. -/
def sysPpoll (fds nfds timeout : ℕ) : Sys ℤ := do
  if nfds = 0 then return 0
  if !validateUserBuf fds (satMul nfds 8) then return -14
  let ready ← ppollLoop fds nfds 0 0
  when (ready = 0 ∧ timeout ≠ 0) do
    fields timeout [(0, 8), (8, 8)]
  return ready

/-- `sys_epoll_ctl`. -/
def sysEpollCtl (epfd op event : ℕ) : Sys ℤ := do
  if epfd < 0x400 ∨ 0x410 ≤ epfd then return -9
  if !(← flag) then return -9
  match op with
  | 1 | 3 =>
    if event = 0 ∨ !validateUserBuf event 12 then return -14
    fields event [(0, 4), (4, 8)]
    value
  | 2 => return 0
  | _ => return -22

/-- The loop of `sys_epoll_wait` over the entries of the instance. -/
def epollLoop (events maxevents : ℕ) : List (Option Bool) → (ready : ℕ) → Sys ℤ
  | [], ready => return ready
  | none :: _, ready => return ready
  | some event :: entries, ready => do
    if maxevents ≤ ready then return ready
    if event then
      fields events [(ready * 12, 4), (ready * 12 + 4, 8)]
      epollLoop events maxevents entries (ready + 1)
    else epollLoop events maxevents entries ready

/-- `sys_epoll_wait`: the length checked wraps. -/
def sysEpollWait (epfd events maxevents : ℕ) : Sys ℤ := do
  if maxevents = 0 then return -22
  if !validateUserBuf events (maxevents * 12 % 2 ^ 64) then return -14
  if epfd < 0x400 ∨ 0x410 ≤ epfd then return -9
  if !(← flag) then return -9
  let entries ← (.ask .interests .ret : Sys (Fin 32 → Option Bool))
  epollLoop events maxevents (List.ofFn entries) 0

/-- One descriptor set of `sys_select`: every byte but the last, then the last. -/
def fillSet (set bytes : ℕ) : Sys Unit :=
  when (set ≠ 0 ∧ validateUserBuf set bytes) do
    fields set [(0, bytes - 1), (bytes - 1, 1)]

/-- `sys_select`. -/
def sysSelect (nfds rfds wfds : ℕ) : Sys ℤ := do
  let bytes := wadd nfds 7 / 8
  fillSet rfds bytes
  fillSet wfds bytes
  return signed nfds

end Cyanos.Caller
