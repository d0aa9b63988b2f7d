import Cyanos.Servers.Vfs.Handlers
import Cyanos.Servers.Vfs.Initrd

/-!
# The requests on files

`handle_open`, `handle_lseek`, `handle_getdents64`, `handle_unlink`, `handle_mkdir`,
`handle_ftruncate`, `handle_rename` and `handle_fd_path` of `servers/vfs/src/lib.rs`.
-/

namespace Cyanos.Vfs

open Lib

/-- `O_WRONLY`. -/
def oWronly : BitVec 32 := 0x01

/-- `O_RDWR`. -/
def oRdwr : BitVec 32 := 0x02

/-- `O_CREAT`. -/
def oCreat : BitVec 32 := 0x40

/-- `O_TRUNC`. -/
def oTrunc : BitVec 32 := 0x200

/-! ### Opening -/

/-- The tmpfs file of this name. -/
def State.tmpLookup (v : State) (path : List UInt8) : Option (Fin maxTmpFiles) :=
  position fun idx => (v.tmp idx).inUse && !(v.tmp idx).isDir && (v.tmp idx).path == path

/-- The first tmpfs entry that is not in use. -/
def State.freeTmp (v : State) : Option (Fin maxTmpFiles) := position fun idx => !(v.tmp idx).inUse

/-- A tmpfs entry of this name; the name is cut off after `MAX_TMP_PATH - 1` bytes. -/
def TmpFileEntry.named (path : List UInt8) (isDir : Bool) : TmpFileEntry :=
  { TmpFileEntry.empty with path := path.take (maxTmpPath - 1), inUse := true, isDir := isDir }

/-- A generated file with this content takes an entry of the tmpfs pool, under a name of its own. -/
def genProc (v : State) (base content : List UInt8) : Option (State × VnodeKind) :=
  v.freeTmp.map fun idx =>
    (v.setTmp idx { TmpFileEntry.named (base ++ decimal idx) false with
      data := fun x => content.getD x 0
      len := content.length }, .tmpFile idx 0 false)

/-- `gen_proc_system`. -/
def genProcSystem (v : State) (env : Env) (path : List UInt8) : Option (State × VnodeKind) :=
  (genProcSystemContent env path).bind (genProc v (bstr "/tmp/.psys_"))

/-- `gen_proc_self`. -/
def genProcSelf (v : State) (env : Env) (pid : ℕ) (path : List UInt8) : Option (State × VnodeKind) :=
  (genProcSelfContent env pid path).bind (genProc v (bstr "/tmp/.proc_"))

/-- The part of `handle_open` for a file under `/tmp/`. -/
def openTmp (v : State) (path : List UInt8) (flags : BitVec 32) : State × Except ℕ VnodeKind :=
  let writable := hasFlag flags (oWronly ||| oRdwr)
  let trunc := hasFlag flags oTrunc
  match v.tmpLookup path with
  | some idx =>
    let v := if trunc then v.setTmp idx { v.tmp idx with len := 0 } else v
    let pos :=
      if writable ∧ hasFlag flags oWronly ∧ trunc then 0
      else if hasFlag flags oWronly then (v.tmp idx).len
      else 0
    (v, .ok (.tmpFile idx pos writable))
  | none =>
    if hasFlag flags oCreat then
      match v.freeTmp with
      | some idx => (v.setTmp idx (.named path false), .ok (.tmpFile idx 0 writable))
      | none => (v, .error 28)
    else (v, .error 2)

/-- The part of `handle_open` for files that are not generated and not under `/tmp/`. -/
def openStatic (v : State) (env : Env) (path : List UInt8) : Except Stuck (Except ℕ VnodeKind) :=
  match ramfs.findIdx? (·.path == path) with
  | some j => .ok (.ok (.ramFile (env.statics (.file j)) ((ramfs.map (·.data)).getD j []) 0))
  | none =>
    match ramfsDirs.findIdx? (· == path) with
    | some j => .ok (.ok (.ramFile (env.statics (.dir j)) path 0))
    | none =>
      if isTmpPath path then .ok (.ok (.ramFile (env.statics .tmp) (bstr "/tmp") 0))
      else if (position fun idx =>
          (v.tmp idx).inUse && (v.tmp idx).isDir && (v.tmp idx).path == path).isSome then
        .ok (.ok .devNull)
      else
        (findInInitrd env.initrd path).map fun found =>
          match found with
          | some (off, data) => .ok (.ramFile (env.initrdVirt + off) data 0)
          | none => .error 2

/-- `.` is the root, and a slash at the end is dropped. -/
def normalize (path : List UInt8) : List UInt8 :=
  if path = bstr "." then bstr "/"
  else if 1 < path.length ∧ bstr "/" <:+ path then path.dropLast
  else path

/-- The path names a file of the process that is generated when it is opened. -/
def isProcSelf (path : List UInt8) : Bool :=
  (bstr "/proc/self/").isPrefixOf path && path != bstr "/proc/self/"

/-- The path names a file of the system that is generated when it is opened. -/
def isProcSystem (path : List UInt8) : Bool :=
  path == bstr "/proc/meminfo" || path == bstr "/proc/uptime" || path == bstr "/proc/loadavg" ||
    path == bstr "/proc/stat" || path == bstr "/proc/self"

/-- The result of generating a file, with `ENOENT` if there is none. -/
def orNoent (v : State) (r : Option (State × VnodeKind)) : State × Except ℕ VnodeKind :=
  match r with
  | some (v, kind) => (v, .ok kind)
  | none => (v, .error 2)

/-- The part of `handle_open` for devices. -/
def openDevice (path : List UInt8) : Option VnodeKind :=
  if path = bstr "/dev/null" then some .devNull
  else if path = bstr "/dev/zero" then some .devZero
  else if path = bstr "/dev/urandom" ∨ path = bstr "/dev/random" then some .devUrandom
  else if path = bstr "/dev/stdin" then some (.devStdio 0)
  else if path = bstr "/dev/stdout" then some (.devStdio 1)
  else if path = bstr "/dev/stderr" then some (.devStdio 2)
  else if path = bstr "/dev/fb0" then some (.devFb 0)
  else none

/-- The part of `handle_open` that finds or creates what the path names: the error, or the kind of
the new descriptor. -/
def openKind (v : State) (env : Env) (pid : ℕ) (path : List UInt8) (flags : BitVec 32) :
    Except Stuck (State × Except ℕ VnodeKind) :=
  match openDevice path with
  | some kind => .ok (v, .ok kind)
  | none =>
    if isTmpPath path ∧ path ≠ bstr "/tmp" then .ok (openTmp v path flags)
    else if isProcSelf path then .ok (orNoent v (genProcSelf v env pid path))
    else if isProcSystem path then .ok (orNoent v (genProcSystem v env path))
    else (openStatic v env path).map fun kind => (v, kind)

/-- A new descriptor of the process, in a table that is created if it has none: the error, or where
the descriptor is.  `handle_open`, `handle_eventfd` and `handle_timerfd_create` do this with
different errors. -/
def newFd (v : State) (pid noTable noFd : ℕ) (e : FdEntry) :
    State × Except ℕ (Fin maxProcs × Fin maxFds) :=
  match v.getOrCreate pid with
  | none => (v, .error noTable)
  | some (t, v) =>
    match (v.tables t).allocFd with
    | none => (v, .error noFd)
    | some i => (v.setFd t i e, .ok (t, i))

/-- `handle_open`. -/
def handleOpen (v : State) (env : Env) (pid pathPtr : ℕ) (flags : BitVec 32) :
    Except Stuck (State × Reply) :=
  match readCstrRaw env.mem pathPtr with
  | none => .ok (v, errReply 14)
  | some path =>
    (openKind v env pid (normalize path) flags).map fun r =>
      match r with
      | (v, .error e) => (v, errReply e)
      | (v, .ok kind) =>
        match newFd v pid 12 24 ⟨kind, flags, true⟩ with
        | (v, .error e) => (v, errReply e)
        | (v, .ok (_, i)) => (v, valReply i [])

/-! ### Positions and lengths -/

/-- The new position, or the error: `base + offset` as a signed word. -/
def seek (cur len : ℕ) (offset : ℤ) (whence : ℕ) : Except ℕ ℕ :=
  let newPos : Option ℤ :=
    match whence with
    | 0 => some offset
    | 1 => some (Int.bmod (signed cur + offset) (2 ^ 64))
    | 2 => some (Int.bmod (signed len + offset) (2 ^ 64))
    | _ => none
  match newPos with
  | none => .error 22
  | some p => if p < 0 then .error 22 else .ok p.toNat

/-- The reply to a seek, and the state with the new position. -/
def seekReply (v : State) (t : Fin maxProcs) (i : Fin maxFds) (kind : ℕ → VnodeKind)
    (r : Except ℕ ℕ) : State × Reply :=
  match r with
  | .error e => (v, errReply e)
  | .ok pos => (v.setKind t i (kind pos), valReply pos [])

/-- `handle_lseek`. -/
def handleLseek (v : State) (env : Env) (pid fd : ℕ) (offset : ℤ) (whence : ℕ) : State × Reply :=
  match v.descriptor pid fd with
  | none => (v, errReply 9)
  | some (t, i) =>
    match (v.fd t i).kind with
    | .ramFile addr data pos =>
      seekReply v t i (.ramFile addr data) (seek pos data.length offset whence)
    | .devFb pos =>
      seekReply v t i .devFb (seek pos (env.fb.height * env.fb.pitch) offset whence)
    | .tmpFile idx pos writable =>
      seekReply v t i (.tmpFile idx · writable) (seek pos (v.tmp idx).len offset whence)
    | _ => (v, errReply 29)

/-- `handle_ftruncate`. -/
def handleFtruncate (v : State) (pid fd newLen : ℕ) : State × Reply :=
  match v.descriptor pid fd with
  | none => (v, errReply 9)
  | some (t, i) =>
    match (v.fd t i).kind with
    | .tmpFile idx _ _ =>
      let file := v.tmp idx
      if maxTmpSize < newLen then (v, errReply 28)
      else
        (v.setTmp idx { file with
          data := fun x => if file.len ≤ x ∧ x < newLen then 0 else file.data x
          len := newLen }, okReply)
    | _ => (v, errReply 22)

/-! ### Directories and names -/

/-- `handle_getdents64`. -/
def handleGetdents64 (v : State) (env : Env) (pid fd buf count : ℕ) :
    Except Stuck (State × Reply) :=
  if count < 64 then .ok (v, errReply 22)
  else
    match v.descriptor pid fd with
    | none => .ok (v, errReply 9)
    | some (t, i) =>
      match (v.fd t i).kind with
      | .ramFile addr data pos =>
        (listDirectoryWithin (env.initrd.length + 1) buf count data env.initrd pos).map fun l =>
          (v.setKind t i (.ramFile addr data l.pos), valReply l.off l.stored)
      | _ => .ok (v, errReply 20)

/-- `handle_unlink`. -/
def handleUnlink (v : State) (env : Env) (pathPtr : ℕ) : State × Reply :=
  match readCstrRaw env.mem pathPtr with
  | none => (v, errReply 14)
  | some path =>
    if isTmpPath path then
      match v.tmpLookup path with
      | some idx => (v.setTmp idx .empty, okReply)
      | none => (v, errReply 2)
    else (v, errReply 30)

/-- `handle_mkdir`. -/
def handleMkdir (v : State) (env : Env) (pathPtr : ℕ) : State × Reply :=
  match readCstrRaw env.mem pathPtr with
  | none => (v, errReply 14)
  | some path =>
    if isTmpPath path = false then (v, errReply 30)
    else if path ∈ ramfsDirs then (v, errReply 17)
    else if ∃ idx, (v.tmp idx).inUse ∧ (v.tmp idx).path = path then (v, errReply 17)
    else
      match v.freeTmp with
      | some idx => (v.setTmp idx (.named path true), okReply)
      | none => (v, errReply 28)

/-- `handle_rename`. -/
def handleRename (v : State) (env : Env) (oldPtr newPtr : ℕ) : State × Reply :=
  match readCstrRaw env.mem oldPtr, readCstrRaw env.mem newPtr with
  | some old, some new =>
    if isTmpPath old ∧ isTmpPath new then
      match v.tmpLookup old with
      | some idx =>
        (v.setTmp idx { v.tmp idx with path := new.take (maxTmpPath - 1) }, okReply)
      | none => (v, errReply 2)
    else (v, errReply 30)
  | _, _ => (v, errReply 14)

/-- The bytes that `handle_fd_path` gives for a descriptor, or the error. -/
def fdPath (v : State) (env : Env) : VnodeKind → Except ℕ (List UInt8)
  | .devNull => .ok (bstr "/dev/null")
  | .devZero => .ok (bstr "/dev/zero")
  | .pipe r _ => .ok (bstr "pipe:[" ++ decimal r ++ bstr "]")
  | .ramFile addr _ _ =>
    match (List.range ramfs.length).find? fun j => env.statics (.file j) == addr with
    | some j => .ok ((ramfs.map (·.path)).getD j [])
    | none => .error 2
  | .tmpFile idx _ _ => if (v.tmp idx).inUse then .ok (v.tmp idx).path else .error 9
  | .eventFd _ => .ok (bstr "eventfd")
  | .timerFd _ => .ok (bstr "timerfd")
  | .devUrandom => .ok (bstr "/dev/urandom")
  | .devStdio 0 => .ok (bstr "/dev/stdin")
  | .devStdio 1 => .ok (bstr "/dev/stdout")
  | .devStdio _ => .ok (bstr "/dev/stderr")
  | .none | .devFb _ => .error 9

/-- `handle_fd_path`. -/
def handleFdPath (v : State) (env : Env) (pid fd bufPtr bufLen : ℕ) : Reply :=
  if bufPtr = 0 ∨ bufLen = 0 then errReply 14
  else
    match v.descriptor pid fd with
    | none => errReply 9
    | some (t, i) =>
      match fdPath v env (v.fd t i).kind with
      | .error e => errReply e
      | .ok p => valReply (min p.length bufLen) [(bufPtr, p.take bufLen)]

end Cyanos.Vfs
