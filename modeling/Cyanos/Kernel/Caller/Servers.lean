import Cyanos.Kernel.Caller.Base

/-!
# The servers' requests that carry a caller's pointer

The handlers of the file, net and terminal servers that are handed a buffer or a path, as far as
their dealings with it go.  Requests without one are a `value` in the system calls that make
them.  `Buf` tells a caller's buffer from one of the kernel's own.
-/

namespace Cyanos.Caller

open Lib Effect

/-! ### The file server (`servers/vfs`) -/

namespace Vfs

/-- `handle_read`.  A descriptor of `/dev/stdin` stands for another one, which may again be of
that kind: `hops` bounds the chain, and a longer one does not end here. -/
def handleRead : (hops fd : ℕ) → Buf → ℕ → Sys ℤ
  | hops, fd, buf, count => do
    if count = 0 then return 0
    let some kind ← vnode fd | return -9
    match kind with
    | .devNull => return 0
    | .devZero | .devUrandom =>
      let n := min count 4096
      buf.touch 0 n
      return n
    | .devStdio target =>
      match hops with
      | 0 => halt
      | hops + 1 => handleRead hops target buf count
    | .devFb none => return -19
    | .devFb (some remaining) =>
      let n := min count remaining
      buf.touch 0 n
      return n
    | .ramFile remaining =>
      let n := min count remaining
      buf.touch 0 n
      return n
    | .pipeRead avail writeOpen =>
      if avail = 0 then return if writeOpen then -11 else 0
      let n := min (min count 4096) avail
      buf.touch 0 n
      return n
    | .tmpFile remaining _ _ =>
      let n := min (min count remaining) 4096
      buf.touch 0 n
      return n
    | .eventFd counter =>
      if count < 8 then return -22
      if counter = 0 then return -11
      buf.touch 0 8
      return 8
    | .timerFd expirations =>
      if count < 8 then return -22
      if expirations = 0 then return -11
      buf.touch 0 8
      return 8
    | .pipeWrite _ _ => return -9

/-- `handle_write`.  A full pipe is noticed only after the byte for it is read. -/
def handleWrite : (hops fd : ℕ) → Buf → ℕ → Sys ℤ
  | hops, fd, buf, count => do
    if count = 0 then return 0
    let some kind ← vnode fd | return -9
    match kind with
    | .devUrandom | .devNull | .devZero => return count
    | .pipeWrite free readOpen =>
      if !readOpen then return -32
      buf.touch 0 (min count (free + 1))
      return (min count free : ℕ)
    | .tmpFile _ free writable =>
      if !writable then return -9
      let n := min count free
      if n = 0 then return -28
      buf.touch 0 n
      return n
    | .eventFd _ =>
      if count < 8 then return -22
      buf.touch 0 8
      value
    | .devStdio target =>
      match hops with
      | 0 => halt
      | hops + 1 => handleWrite hops target buf count
    | .devFb none => return -19
    | .devFb (some remaining) =>
      let n := min count remaining
      buf.touch 0 n
      return n
    | .ramFile _ | .pipeRead _ _ | .timerFd _ => return -9

/-- `handle_pipe`: the two descriptor numbers go to the two addresses. -/
def handlePipe (rfd wfd : ℕ) : Sys ℤ := do
  if !(← flag) then return (← value)
  touch rfd 0 4
  touch wfd 0 4
  return 0

/-- `write_dirent` of `handle_getdents64`: one directory record at offset `off`. -/
def writeDirent (buf off count nameLen : ℕ) : Sys (Option ℕ) := do
  let reclen := (8 + 8 + 2 + 1 + nameLen + 1 + 7) / 8 * 8
  if off + reclen > count then return none
  fields buf [(off, 8), (off + 8, 8), (off + 16, 2),
    (off + 18, 1), (off + 19, nameLen), (off + 19 + nameLen, 1)]
  return some reclen

/-- The loops of `handle_getdents64` over the children of the directory: those from position
`pos` on, as far as they fit. -/
def writeDirents (buf count : ℕ) : List ℕ → (idx pos off : ℕ) → Sys ℤ
  | [], _, _, off => return off
  | name :: names, idx, pos, off => do
    if pos ≤ idx then
      let some reclen ← writeDirent buf off count name | return off
      writeDirents buf count names (idx + 1) (pos + 1) (off + reclen)
    else
      writeDirents buf count names (idx + 1) pos off

/-- `handle_getdents64`. -/
def handleGetdents64 (fd buf count : ℕ) : Sys ℤ := do
  if count < 64 then return -22
  let some kind ← vnode fd | return -9
  let .ramFile _ := kind | return -20
  let (pos, names) ← (.ask .dirents .ret : Sys (ℕ × List ℕ))
  -- `.` and `..` come first
  if pos = 0 then
    let some r ← writeDirent buf 0 count 1 | return 0
    let some r' ← writeDirent buf r count 2 | return r
    writeDirents buf count names 2 2 (r + r')
  else if pos = 1 then
    let some r ← writeDirent buf 0 count 2 | return 0
    writeDirents buf count names 2 2 r
  else
    writeDirents buf count names 2 pos 0

/-- `handle_fd_path`: the name of an open file, as far as it fits. -/
def handleFdPath (fd buf len : ℕ) : Sys ℤ := do
  if buf = 0 ∨ len = 0 then return -14
  let some _ ← vnode fd | return -9
  if !(← flag) then return (← value)
  let n := min (← count) len
  touch buf 0 n
  return n

/-- `handle_ioctl`. -/
def handleIoctl (fd cmd arg : ℕ) : Sys ℤ := do
  if cmd = 0x4600 then
    let some kind ← vnode fd | return -9
    if let .devFb _ := kind then
      touch arg 0 32
      return 0
  if cmd ≠ 0x541B then return -25
  if arg = 0 then return -14
  let some kind ← vnode fd | return -9
  match kind with
  | .pipeRead _ _ | .ramFile _ | .tmpFile _ _ _ | .eventFd _ | .timerFd _ =>
    touch arg 0 4
    return 0
  | _ => return -25

/-- `handle_rename`. -/
def handleRename (old new : ℕ) : Sys ℤ := do
  let some _ ← readCstrRaw old | return -14
  let some _ ← readCstrRaw new | return -14
  value

/-- A request whose only argument is a path. -/
def pathRequest (path : ℕ) : Sys ℤ := do
  let some _ ← readCstrRaw path | return -14
  value

/-- `handle_open`; the flags do not matter here. -/
def handleOpen (path : ℕ) : Sys ℤ := pathRequest path

/-- `handle_unlink`. -/
def handleUnlink (path : ℕ) : Sys ℤ := pathRequest path

/-- `handle_mkdir`. -/
def handleMkdir (path : ℕ) : Sys ℤ := pathRequest path

/-- `handle_timerfd_gettime`. -/
def handleTimerfdGettime (fd out : ℕ) : Sys ℤ := do
  if out = 0 then return -14
  let some kind ← vnode fd | return -9
  let .timerFd _ := kind | return -22
  fields out [(0, 8), (8, 8), (16, 8), (24, 8)]
  return 0

/-- Whether a path is known. -/
def lookup (path : ℕ) : Sys Bool := do
  let some _ ← readCstrRaw path | return false
  flag

/-- `is_directory`. -/
def isDirectory (path : ℕ) : Sys Bool := lookup path

/-- `get_file_data`, as far as finding the file goes. -/
def getFileData (path : ℕ) : Sys Bool := lookup path

end Vfs

/-! ### The net server (`servers/net`) -/

namespace Net

/-- `fd_to_slot`: the descriptors `SOCK_FD_BASE` and up, `MAX_SOCKS` of them. -/
def isSock (fd : ℕ) : Bool := 0x100 ≤ fd && fd < 0x110

/-- `handle_bind`: the address is read field by field. -/
def handleBind (fd addr addrlen : ℕ) : Sys ℤ := do
  if !isSock fd then return -9
  if addrlen < 2 then return -22
  let family ← load addr 0 2
  if family = 2 then
    if addrlen < 8 then return -22
    touch addr 2 2
    value
  else
    if addrlen < 3 ∨ 110 < addrlen then return -22
    touch addr 2 (addrlen - 2)
    value

/-- `handle_connect`. -/
def handleConnect (fd addr addrlen : ℕ) : Sys ℤ := do
  if !isSock fd then return -9
  if addrlen < 2 then return -22
  let family ← load addr 0 2
  if family = 2 then
    if addrlen < 8 then return -22
    fields addr [(2, 2), (4, 4)]
    value
  else
    if addrlen < 3 ∨ 110 < addrlen then return -22
    touch addr 2 (addrlen - 2)
    value

/-- `handle_accept`: the peer's address, if asked for, by the kind of the connection. -/
def handleAccept (fd addr : ℕ) : Sys ℤ := do
  if !isSock fd then return -9
  let some isInet ← (.ask .pendingConn .ret : Sys (Option Bool)) | value
  if !(← flag) then return (← value)
  when (addr ≠ 0) <|
    if isInet then do
      fields addr [(0, 16), (0, 2), (4, 4)]
    else touch addr 0 2
  value

/-- Bytes between a connection's ring and a buffer, as many as both have room for. -/
def transfer (fd buf len : ℕ) : Sys ℤ := do
  if !isSock fd then return -9
  if !(← flag) then return (← value)
  let n := min len (← count)
  touch buf 0 n
  return n

/-- `handle_send`. -/
def handleSend (fd buf len : ℕ) : Sys ℤ := transfer fd buf len

/-- `handle_recv`. -/
def handleRecv (fd buf len : ℕ) : Sys ℤ := transfer fd buf len

/-- The loop over the buffers of a message, each sent or received by `one`. -/
def eachIov (one : ℕ → ℕ → Sys ℤ) (iov : ℕ) : (n i : ℕ) → ℤ → Sys ℤ
  | 0, _, total => return total
  | n + 1, i, total => do
    let base ← load (wadd iov (i * 16)) 0 8
    let len ← load (wadd iov (i * 16)) 8 8
    let r ← one base len
    if r < 0 then return if total > 0 then total else r
    eachIov one iov n (i + 1) (total + r)

/-- A message request: the header says where the array of buffers is; at most 16 are used. -/
def eachOfMsg (one : ℕ → ℕ → Sys ℤ) (msghdr : ℕ) : Sys ℤ := do
  if msghdr = 0 then return -14
  let iov ← load msghdr 16 8
  let iovcnt ← load msghdr 24 8
  eachIov one iov (min iovcnt 16) 0 0

/-- `handle_sendmsg`. -/
def handleSendmsg (fd msghdr : ℕ) : Sys ℤ := eachOfMsg (handleSend fd) msghdr

/-- `handle_recvmsg`. -/
def handleRecvmsg (fd msghdr : ℕ) : Sys ℤ := eachOfMsg (handleRecv fd) msghdr

/-- `handle_getsockname`. -/
def handleGetsockname (addr addrlen : ℕ) : Sys ℤ := do
  if addr = 0 ∨ addrlen = 0 then return -14
  touch addr 0 2
  touch addrlen 0 4
  return 0

/-- `handle_getpeername`. -/
def handleGetpeername (addr addrlen : ℕ) : Sys ℤ := handleGetsockname addr addrlen

/-- `handle_socketpair`. -/
def handleSocketpair (domain sv : ℕ) : Sys ℤ := do
  if domain ≠ 1 then return -97
  if !(← flag) then return (← value)
  fields sv [(0, 4), (4, 4)]
  return 0

/-- `handle_getsockopt`: only `SO_ERROR` of `SOL_SOCKET` is written. -/
def handleGetsockopt (level optname optval optlen : ℕ) : Sys ℤ := do
  when (level = 1 ∧ optname = 4) do
    when (optval ≠ 0) (touch optval 0 4)
    when (optlen ≠ 0) (touch optlen 0 4)
  return 0

end Net

/-! ### The terminal server (`servers/tty`) -/

namespace Tty

/-- `fd_to_slot`: the descriptors `TTY_FD_BASE` and up, `MAX_TTYS` of them. -/
def isTty (fd : ℕ) : Bool := 0x200 ≤ fd && fd < 0x204

/-- The fields of a `termios` record: four words, a byte, and nineteen control characters. -/
def termios (arg : ℕ) : Sys Unit := do
  fields arg [(0, 4), (4, 4), (8, 4), (12, 4), (16, 1), (17, 19)]

/-- `handle_ioctl`. -/
def handleIoctl (fd cmd arg : ℕ) : Sys ℤ := do
  if !isTty fd then return -25
  if !(← flag) then return -25
  match cmd with
  -- TCGETS, TCSETS, TCSETSW, TCSETSF
  | 0x5401 | 0x5402 | 0x5403 | 0x5404 =>
    if arg = 0 then return -14
    termios arg
    return 0
  -- TIOCGWINSZ
  | 0x5413 =>
    if arg = 0 then return -14
    fields arg [(0, 2), (2, 2), (4, 2), (6, 2)]
    return 0
  | _ => return -25

/-- `handle_timer_create`. -/
def handleTimerCreate (timerid : ℕ) : Sys ℤ := do
  if !(← flag) then return (← value)
  when (timerid ≠ 0) (touch timerid 0 4)
  return 0

/-- `handle_timer_settime`. -/
def handleTimerSettime (ispec : Buf) : Sys ℤ := do
  if ispec.ptr = 0 then return -14
  ispec.fields [(0, 8), (8, 8), (16, 8), (24, 8)]
  return 0

/-- `handle_timer_gettime`. -/
def handleTimerGettime (ospec : ℕ) : Sys ℤ := do
  if ospec = 0 then return -14
  if !(← flag) then return -22
  fields ospec [(0, 8), (8, 8), (16, 8), (24, 8)]
  return 0

end Tty

end Cyanos.Caller
