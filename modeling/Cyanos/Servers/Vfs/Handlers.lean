import Cyanos.Servers.Vfs.Ramfs

/-!
# The requests on descriptors

`handle_read`, `handle_write`, `handle_close`, `handle_pipe`, `handle_dup2`, `handle_fork_dup`,
`handle_exec_cloexec` and `handle_close_all` of `servers/vfs/src/lib.rs`.

What a request stores in memory is part of its reply.  A request is handled without another one
in between, so that a lock which the source releases and takes again finds the same tables.

A read or write does not return (`none`) when descriptors for `/dev/stdin`, `/dev/stdout` and
`/dev/stderr` lead to one another in a circle.
-/

namespace Cyanos.Vfs

open Lib

/-- The reply to a request, and the bytes it stored at which addresses. -/
structure Reply where
  value : ℤ
  stored : List (ℕ × List UInt8)
  deriving DecidableEq

/-- `val_reply`, with the bytes that were stored. -/
def valReply (v : ℕ) (stored : List (ℕ × List UInt8)) : Reply := ⟨signed v, stored⟩

/-- `ok_reply`. -/
def okReply : Reply := ⟨0, []⟩

/-- `err_reply` of `-e`. -/
def errReply (e : ℕ) : Reply := ⟨-e, []⟩

/-- The bytes that were stored. -/
def Reply.bytes (reply : Reply) : List UInt8 := reply.stored.flatMap (·.2)

/-! ### Reading -/

/-- `lfsr_next`. -/
def lfsrNext (ticks : ℕ) (state : UInt64) : UInt8 × UInt64 :=
  let state := state ^^^ (UInt64.ofNat ticks * 0x9e3779b97f4a7c15)
  let lsb := state &&& 1
  let state := state >>> 1
  let state := if lsb ≠ 0 then state ^^^ 0xB400000000000000 else state
  ((state &&& 0xFF).toUInt8, state)

/-- The bytes of a read of `/dev/urandom`, from the look number `i` at the clock on. -/
def lfsrBytes (ticks : ℕ → ℕ) : ℕ → ℕ → UInt64 → List UInt8 × UInt64
  | 0, _, state => ([], state)
  | n + 1, i, state =>
    let (b, state) := lfsrNext (ticks i) state
    let (bs, state) := lfsrBytes ticks n (i + 1) state
    (b :: bs, state)

/-- `handle_read` on the read end of a pipe. -/
def readPipe (v : State) (r : Fin maxPipes) (buf count : ℕ) : State × Reply :=
  let ring := v.rings r
  if ring.count = 0 then (v, if ring.writeOpen then errReply 11 else valReply 0 [])
  else
    let (bs, ring) := ring.drain (min count 4096)
    (v.setRing r ring, valReply bs.length [(buf, bs)])

/-- `handle_read` on an entry that does not refer to another one. -/
def readEntry (v : State) (env : Env) (t : Fin maxProcs) (i : Fin maxFds) (buf count : ℕ) :
    State × Reply :=
  match (v.fd t i).kind with
  | .devNull => (v, valReply 0 [])
  | .devZero =>
    let n := min count 4096
    (v, valReply n [(buf, List.replicate n 0)])
  | .devUrandom =>
    let (bs, lfsr) := lfsrBytes env.ticks (min count 4096) 0 v.lfsr
    ({ v with lfsr := lfsr }, valReply bs.length [(buf, bs)])
  | .devFb pos =>
    let total := env.fb.height * env.fb.pitch
    if env.fb.base = 0 then (v, errReply 19)
    else if total ≤ pos then (v, valReply 0 [])
    else
      let n := min count (total - pos)
      (v.setKind t i (.devFb (pos + n)), valReply n [(buf, loadBytes env.mem (env.fbVirt pos) n)])
  | .ramFile addr data pos =>
    let n := min count (data.length - pos)
    if n = 0 then (v, valReply 0 [])
    else (v.setKind t i (.ramFile addr data (pos + n)), valReply n [(buf, (data.drop pos).take n)])
  | .pipe r false => readPipe v r buf count
  | .tmpFile idx pos writable =>
    let n := min (min count ((v.tmp idx).len - pos)) 4096
    if n = 0 then (v, valReply 0 [])
    else
      (v.setKind t i (.tmpFile idx (pos + n) writable),
        valReply n [(buf, loadBytes (v.tmp idx).data pos n)])
  | .eventFd slot =>
    if count < 8 then (v, errReply 22)
    else if v.counters slot = 0 then (v, errReply 11)
    else
      (v.setCounter slot 0, valReply 8 [(buf, leBytes 8 (v.counters slot))])
  | .timerFd slot =>
    if count < 8 then (v, errReply 22)
    else
      let e := (v.timers slot).expire (env.ticks 0)
      if e.expirations = 0 then
        (v.setTimer slot e, errReply 11)
      else
        (v.setTimer slot { e with expirations := 0 },
          valReply 8 [(buf, leBytes 8 e.expirations)])
  | .none | .pipe _ true | .devStdio _ => (v, errReply 9)

/-- The entry that a read or write of `fd` works on, entering the request at most `depth` times. -/
def State.target (v : State) (depth pid fd : ℕ) : Option (Option (Fin maxProcs × Fin maxFds)) :=
  match v.findTbl pid with
  | none => some none
  | some t => ((v.tables t).target depth fd).map fun i => i.map fun i => (t, i)

/-- `handle_read`, entered at most `depth` times. -/
def handleReadWithin (depth : ℕ) (v : State) (env : Env) (pid fd buf count : ℕ) :
    Option (State × Reply) :=
  if count = 0 then some (v, valReply 0 []) else
    (v.target depth pid fd).map fun e =>
      match e with
      | none => (v, errReply 9)
      | some (t, i) => readEntry v env t i buf count

/-- `handle_read`.  A chain of more entries than there are descriptors has one of them twice, so it
does not end. -/
def handleRead : State → Env → ℕ → ℕ → ℕ → ℕ → Option (State × Reply) :=
  handleReadWithin (maxFds + 1)

/-! ### Writing -/

/-- `handle_write` on the write end of a pipe. -/
def writePipe (v : State) (env : Env) (r : Fin maxPipes) (buf count : ℕ) : State × Reply :=
  if (v.rings r).readOpen then
    let (n, ring) := (v.rings r).fill env.mem count buf
    (v.setRing r ring, valReply n [])
  else (v, errReply 32)

/-- `handle_write` on an entry that does not refer to another one. -/
def writeEntry (v : State) (env : Env) (t : Fin maxProcs) (i : Fin maxFds) (buf count : ℕ) :
    State × Reply :=
  match (v.fd t i).kind with
  | .devUrandom | .devNull | .devZero => (v, valReply count [])
  | .pipe r true => writePipe v env r buf count
  | .tmpFile idx pos writable =>
    let file := v.tmp idx
    let cur := if hasFlag (v.fd t i).flags oAppend then file.len else pos
    let n := min count (maxTmpSize - cur)
    if writable = false then (v, errReply 9)
    else if n = 0 then (v, errReply 28)
    else
      let file := { file with
        data := storeBytes file.data cur (loadBytes env.mem buf n)
        len := max file.len (cur + n) }
      ((v.setTmp idx file).setKind t i (.tmpFile idx (cur + n) writable), valReply n [])
  | .eventFd slot =>
    let addval := loadWord env.mem buf
    if count < 8 then (v, errReply 22)
    else if addval = u64Max then (v, errReply 22)
    else
      (v.setCounter slot (min (v.counters slot + addval) u64Max), valReply 8 [])
  | .devFb pos =>
    let total := env.fb.height * env.fb.pitch
    if env.fb.base = 0 then (v, errReply 19)
    else if total ≤ pos then (v, valReply 0 [])
    else
      let n := min count (total - pos)
      (v.setKind t i (.devFb (pos + n)), valReply n [(env.fbVirt pos, loadBytes env.mem buf n)])
  | .none | .ramFile _ _ _ | .pipe _ false | .timerFd _ | .devStdio _ => (v, errReply 9)

/-- `handle_write`, entered at most `depth` times. -/
def handleWriteWithin (depth : ℕ) (v : State) (env : Env) (pid fd buf count : ℕ) :
    Option (State × Reply) :=
  if count = 0 then some (v, valReply 0 []) else
    (v.target depth pid fd).map fun e =>
      match e with
      | none => (v, errReply 9)
      | some (t, i) => writeEntry v env t i buf count

/-- `handle_write`. -/
def handleWrite : State → Env → ℕ → ℕ → ℕ → ℕ → Option (State × Reply) :=
  handleWriteWithin (maxFds + 1)

/-! ### Descriptors -/

/-- `handle_close`; the entry of a pipe stays in use. -/
def handleClose (v : State) (pid fd : ℕ) : State × Reply :=
  match v.descriptor pid fd with
  | none => (v, errReply 9)
  | some (t, i) =>
    match (v.fd t i).kind with
    | .pipe r isWrite => (v.setRing r ((v.rings r).closeEnd isWrite), okReply)
    | .eventFd slot => ((v.setFd t i .empty).setCounter slot u64Max, okReply)
    | .timerFd slot => ((v.setFd t i .empty).setTimer slot .free, okReply)
    | _ => (v.setFd t i .empty, okReply)

/-- The part of `handle_pipe` before the descriptors are stored: the error, or the table and the
descriptors of the two ends. -/
def openPipe (v : State) (pid : ℕ) :
    State × Except ℕ (Fin maxProcs × Fin maxFds × Fin maxFds) :=
  match v.freeRing with
  | none => (v, .error 23)
  | some r =>
    let v := v.setRing r { v.rings r with readOpen := true, writeOpen := true }
    match v.getOrCreate pid with
    | none => (v, .error 12)
    | some (t, v) =>
      match (v.tables t).allocFd with
      | none => (v, .error 24)
      | some rfd =>
        let v := v.setFd t rfd ⟨.pipe r false, 0, true⟩
        match (v.tables t).allocFd with
        | none => (v.setFd t rfd .empty, .error 24)
        | some wfd => (v.setFd t wfd ⟨.pipe r true, 0, true⟩, .ok (t, rfd, wfd))

/-- `handle_pipe`. -/
def handlePipe (v : State) (pid rfdPtr wfdPtr : ℕ) : State × Reply :=
  match openPipe v pid with
  | (v, .error e) => (v, errReply e)
  | (v, .ok (_, rfd, wfd)) => (v, ⟨0, [(rfdPtr, leBytes 4 rfd), (wfdPtr, leBytes 4 wfd)]⟩)

/-- `handle_dup2`. -/
def handleDup2 (v : State) (pid oldfd newfd : ℕ) : State × Reply :=
  if h : newfd < maxFds then
    match v.descriptor pid oldfd with
    | none => (v, errReply 9)
    | some (t, i) => (v.setFd t ⟨newfd, h⟩ (v.fd t i), valReply newfd [])
  else (v, errReply 9)

/-- `handle_fork_dup`. -/
def handleForkDup (v : State) (parentPid childPid : ℕ) : State × Reply :=
  match v.findTbl parentPid, v.freeTbl with
  | some p, some t => (v.setTable t ⟨childPid, (v.tables p).fds, true⟩, okReply)
  | _, _ => (v, okReply)

/-- `handle_exec_cloexec`. -/
def handleExecCloexec (v : State) (pid : ℕ) : State × Reply :=
  match v.findTbl pid with
  | none => (v, okReply)
  | some t =>
    (v.setTable t { v.tables t with
      fds := fun i =>
        if (v.fd t i).inUse ∧ hasFlag (v.fd t i).flags oCloexec then .empty else v.fd t i },
      okReply)

/-- `handle_close_all`. -/
def handleCloseAll (v : State) (pid : ℕ) : State × Reply :=
  match v.findTbl pid with
  | none => (v, okReply)
  | some t => (v.setTable t .empty, okReply)

end Cyanos.Vfs
