import Cyanos.Kernel.Caller.Base
import Cyanos.Servers.Vfs.Server

/-!
# System calls with a path

`sys_open`, `sys_newfstatat`, `sys_truncate`, `sys_unlinkat` and `sys_renameat` of
`kernel/src/syscall.rs` over the model of the file server.  `sys_open` resolves the path against the
current directory (`resolve_path`) and gives the server the result; the other calls give it the
caller's path as it is.  `renameat` also takes its paths from the wrong registers: the dispatcher
passes the first path and the second *directory*.

Main results:

* `agree_of_resolved`: the other three act on the file that `open` finds if the path is already what
  `open` resolves it to;
* `renameat_atFdcwd`: `renameat(AT_FDCWD, p, AT_FDCWD, q)` is refused with `EFAULT`, whatever the
  paths are;
* `not_sameFile`: so there is no file for which all the calls with a path agree.
-/

namespace Cyanos.Paths

open Lib Vfs Caller List

/-! ### Resolving a path -/

/-- `/`. -/
def slash : UInt8 := 0x2f

/-- The search of `..` for the last slash, from `last` downwards. -/
def lastSlash (r : List UInt8) : ℕ → ℕ
  | 0 => 0
  | last + 1 => if r.getD (last + 1) 0 = slash then last + 1 else lastSlash r last

/-- What a component does to the path resolved so far; the buffer has 256 bytes. -/
def component (r c : List UInt8) : List UInt8 :=
  if c = [] ∨ c = bstr "." then r
  else if c = bstr ".." then
    if 1 < r.length then r.take (max 1 (lastSlash r (r.length - 1))) else r
  else
    let r :=
      if 1 < r.length ∧ r.getLast? ≠ some slash then if r.length < 255 then r ++ [slash] else r
      else if r = [] then [slash]
      else r
    r ++ c.take (256 - r.length)

/-- `resolve_path`, for a process with this current directory. -/
def resolvePath (cwd : Option (List UInt8)) (path : List UInt8) : List UInt8 :=
  let path := path.takeWhile (· ≠ 0)
  let base :=
    if path.head? = some slash then [slash]
    else match cwd with
      | some (b :: bs) => (b :: bs).take 255
      | _ => [slash]
  let r := (path.splitOn slash).foldl component base
  let r := if r = [] then [slash] else r
  let r := if 1 < r.length ∧ r.getLast? = some slash then r.dropLast else r
  r.take 256

/-! ### The calls -/

/-- What a call finds: the file server, the memory, and the caller. -/
structure World where
  vfs : State
  env : Env
  /-- `current_pid()`. -/
  pid : ℕ
  /-- `current_cwd`; none if the process is not in the run queue. -/
  cwd : Option (List UInt8)
  /-- Where `vfs_path` is on the kernel's stack. -/
  vfsPath : ℕ

variable (w : World)

/-- A request of the calling process: the reply's value, or none if the server does not return. -/
def World.ask (env : Env) (req : Request) : Option (World × ℤ) :=
  (serve w.vfs env w.pid req).map fun r => ({ w with vfs := r.1 }, r.2.value)

/-- `sys_open`.  `read_cstr_for_vfs` takes at most 255 bytes. -/
def sysOpen (pathPtr : ℕ) (flags : BitVec 32) : Option (World × ℤ) :=
  let abs := resolvePath w.cwd ((loadBytes w.env.mem pathPtr 255).takeWhile (· ≠ 0))
  if abs = [] then some (w, -2)
  else
    let mem := storeBytes w.env.mem w.vfsPath (abs ++ List.replicate (257 - abs.length) 0)
    w.ask { w.env with mem := mem } (.open w.vfsPath flags)

/-- A `struct stat`: its mode and, if it has one, its size. -/
def statBytes (mode : ℕ) (size : Option ℕ) : List UInt8 :=
  List.replicate 24 0 ++ leBytes 4 mode ++ List.replicate 20 0 ++
    (match size with
      | some n => leBytes 8 n ++ leBytes 8 512 ++ leBytes 8 ((n + 511) / 512)
      | none => List.replicate 24 0) ++
    List.replicate 72 0

/-- `sys_fstat`: the reply, and the bytes at `statbuf_ptr`. -/
def sysFstat (fd statbuf : ℕ) : Option (World × ℤ × List UInt8) :=
  if !validateUserBuf statbuf 144 then some (w, -14, [])
  else if fd ≤ 2 then some (w, 0, statBytes 0x21B6 none)
  else do
    let (w, cur) ← w.ask w.env (.lseek fd 0 1)
    if cur = -9 then return (w, -9, List.replicate 144 0)
    let (w, size) ← w.ask w.env (.lseek fd 0 2)
    let (w, _) ← w.ask w.env (.lseek fd cur 0)
    return (w, 0, statBytes 0x81A4 (if 0 ≤ size then some size.toNat else none))

/-- `is_directory`. -/
def isDirectory (pathPtr : ℕ) : Bool :=
  (Vfs.readCstrRaw w.env.mem pathPtr).any fun path =>
    ramfsDirs.contains path || (position fun idx =>
      (w.vfs.tmp idx).inUse && (w.vfs.tmp idx).isDir && (w.vfs.tmp idx).path == path).isSome

/-- What `sys_newfstatat` does with the descriptor. -/
def statOpened (statbuf : ℕ) : World × ℤ → Option (World × ℤ × List UInt8)
  | (w, fd) => do
    if fd < 0 then return (w, fd, [])
    let (w, r) ← sysFstat w fd.toNat statbuf
    let (w, _) ← w.ask w.env (.close fd.toNat)
    return (w, r)

/-- `sys_newfstatat`. -/
def sysNewfstatat (_dirfd pathPtr statbuf : ℕ) : Option (World × ℤ × List UInt8) :=
  if !validateUserBuf pathPtr 1 || !validateUserBuf statbuf 144 then some (w, -14, [])
  else if isDirectory w pathPtr then some (w, 0, statBytes 0x41ED none)
  else (w.ask w.env (.open pathPtr 0)).bind (statOpened statbuf)

/-- What `sys_truncate` does with the descriptor. -/
def truncateOpened (length : ℕ) : World × ℤ → Option (World × ℤ)
  | (w, fd) => do
    if fd < 0 then return (w, fd)
    let (w, r) ← w.ask w.env (.ftruncate fd.toNat length)
    let (w, _) ← w.ask w.env (.close fd.toNat)
    return (w, r)

/-- `sys_truncate`. -/
def sysTruncate (pathPtr length : ℕ) : Option (World × ℤ) :=
  if !validateUserBuf pathPtr 1 then some (w, -14)
  else (w.ask w.env (.open pathPtr oRdwr)).bind (truncateOpened length)

/-- `sys_unlinkat`. -/
def sysUnlinkat (_dirfd pathPtr _flags : ℕ) : Option (World × ℤ) :=
  if !validateUserBuf pathPtr 1 then some (w, -14) else w.ask w.env (.unlink pathPtr)

/-- `sys_renameat`. -/
def sysRenameat (oldPtr newPtr : ℕ) : Option (World × ℤ) :=
  if !validateUserBuf oldPtr 1 || !validateUserBuf newPtr 1 then some (w, -14)
  else w.ask w.env (.rename oldPtr newPtr)

/-- `AT_FDCWD`. -/
def atFdcwd : ℕ := 2 ^ 64 - 100

/-- The dispatcher's entry for `RENAMEAT` and `RENAMEAT2`. -/
def dispatchRenameat (_a0 a1 a2 _a3 : ℕ) : Option (World × ℤ) := sysRenameat w a1 a2

/-! ### Paths that are resolved -/

/-- The path at `p`, of a tmpfs file, is already what `open` makes of it. -/
structure Resolved (p : ℕ) (path : List UInt8) : Prop where
  read : Vfs.readCstrRaw w.env.mem p = some path
  resolve : resolvePath w.cwd ((loadBytes w.env.mem p 255).takeWhile (· ≠ 0)) = path
  normal : normalize path = path
  tmp : isTmpPath path = true ∧ path ≠ bstr "/tmp"
  stack : w.vfsPath ≠ 0

/-- A string that was found is short, and is found in another place with the same bytes. -/
theorem cstr_spec {mem : ℕ → UInt8} {n a : ℕ} {s : List UInt8} (h : cstr mem n a = some s) :
    s.length < n ∧ ∀ (mem' : ℕ → UInt8) (b : ℕ), (∀ i ≤ s.length, mem' (b + i) = s.getD i 0) →
      cstr mem' n b = some s := by
  induction n generalizing a s with
  | zero => cases h
  | succ n ih =>
    rw [cstr] at h
    split at h
    · cases h
      exact ⟨n.succ_pos, fun mem' b hs => if_pos (hs 0 le_rfl)⟩
    · next hne =>
      obtain ⟨s, hrest, rfl⟩ := Option.map_eq_some_iff.1 h
      obtain ⟨hlen, hsame⟩ := ih hrest
      refine ⟨Nat.succ_lt_succ hlen, fun mem' b hs => ?_⟩
      have h0 : mem' b = mem a := hs 0 (Nat.zero_le _)
      rw [cstr, h0, if_neg hne, hsame mem' (b + 1) fun i hi => ?_, Option.map_some]
      rw [Nat.add_assoc, Nat.add_comm 1]
      exact hs (i + 1) (Nat.succ_le_succ hi)

/-- A tmpfs file is opened by its name alone. -/
theorem handleOpen_of_tmp {v : State} {env env' : Env} {pid p p' : ℕ} {path : List UInt8}
    (h : Vfs.readCstrRaw env.mem p = some path) (h' : Vfs.readCstrRaw env'.mem p' = some path)
    (htmp : isTmpPath (normalize path) = true ∧ normalize path ≠ bstr "/tmp") (flags : BitVec 32) :
    handleOpen v env pid p flags = handleOpen v env' pid p' flags := by
  have hkind : openKind v env pid (normalize path) flags =
      openKind v env' pid (normalize path) flags := by
    simp only [openKind, if_pos htmp]
  simp only [handleOpen, h, h', hkind]

variable {w} {p statbuf : ℕ} {path : List UInt8}

theorem Resolved.ask_open (h : Resolved w p path) (flags : BitVec 32) :
    w.ask w.env (.open p flags) = sysOpen w p flags := by
  have hne : path ≠ [] := by
    rintro rfl
    exact absurd h.tmp.1 (by decide)
  have hread := h.read
  rw [Vfs.readCstrRaw] at hread
  obtain ⟨hlen, hsame⟩ := cstr_spec (Option.ite_none_left_eq_some.1 hread).2
  set mem := storeBytes w.env.mem w.vfsPath (path ++ replicate (257 - path.length) 0)
  have hstored : Vfs.readCstrRaw ({ w.env with mem := mem } : Env).mem w.vfsPath = some path := by
    rw [Vfs.readCstrRaw, if_neg h.stack]
    refine hsame _ _ fun i hi => ?_
    have hin : w.vfsPath ≤ w.vfsPath + i ∧ w.vfsPath + i <
        w.vfsPath + (path ++ replicate (257 - path.length) 0).length := by
      rw [length_append, length_replicate]
      omega
    refine (if_pos hin).trans ?_
    rw [Nat.add_sub_cancel_left]
    rcases hi.lt_or_eq with hlt | rfl
    · exact getD_append _ _ _ _ hlt
    · rw [getD_append_right _ _ _ _ le_rfl, Nat.sub_self, getD_replicate _ (by omega),
        getD_eq_default _ _ le_rfl]
  rw [sysOpen, h.resolve, if_neg hne, World.ask, World.ask, serve, serve,
    handleOpen_of_tmp h.read hstored (h.normal.symm ▸ h.tmp)]

/-- **The calls that do not resolve the path act on the file that `open` finds, if there is nothing to
resolve.** -/
theorem agree_of_resolved (h : Resolved w p path) (hp : validateUserBuf p 1 = true)
    (hs : validateUserBuf statbuf 144 = true) (hdir : isDirectory w p = false) (length : ℕ) :
    sysNewfstatat w atFdcwd p statbuf = (sysOpen w p 0).bind (statOpened statbuf) ∧
      sysTruncate w p length = (sysOpen w p oRdwr).bind (truncateOpened length) ∧
      ∀ idx, w.vfs.tmpLookup path = some idx →
        sysUnlinkat w atFdcwd p 0 = some ({ w with vfs := w.vfs.setTmp idx .empty }, 0) := by
  refine ⟨?_, ?_, fun idx hidx => ?_⟩
  · simp [sysNewfstatat, hp, hs, hdir, h.ask_open]
  · simp [sysTruncate, hp, h.ask_open]
  · simp only [sysUnlinkat, hp, World.ask, serve, handleUnlink, h.read, h.tmp.1, hidx]
    rfl

variable (w)

/-! ### One file for all calls -/

/-- `open(p, O_CREAT | O_RDWR)` succeeds and the tmpfs file `idx` is new. -/
def Creates (p : ℕ) (idx : Fin maxTmpFiles) (w' : World) : Prop :=
  ∃ fd, sysOpen w p (oCreat ||| oRdwr) = some (w', fd) ∧ 0 ≤ fd ∧
    (w.vfs.tmp idx).inUse = false ∧ (w'.vfs.tmp idx).inUse = true

/-- The path can no longer be opened. -/
def Gone (p : ℕ) : Prop := ∃ w' e, sysOpen w p 0 = some (w', e) ∧ e < 0

/-- Every call with the path at `p` acts on the tmpfs file `idx`. -/
structure SameFile (p q statbuf : ℕ) (idx : Fin maxTmpFiles) : Prop where
  /-- The size that is reported is the size of the file. -/
  stat : ∃ w' bytes, sysNewfstatat w atFdcwd p statbuf = some (w', 0, bytes) ∧
    ofLeBytes ((bytes.drop 48).take 8) = (w.vfs.tmp idx).len
  /-- The file gets the new length. -/
  truncate : ∀ length ≤ maxTmpSize, ∃ w', sysTruncate w p length = some (w', 0) ∧
    (w'.vfs.tmp idx).len = length
  /-- The file is removed. -/
  unlink : ∃ w', sysUnlinkat w atFdcwd p 0 = some (w', 0) ∧ (w'.vfs.tmp idx).inUse = false ∧
    Gone w' p
  /-- The file gets the new name. -/
  rename : ∃ w', dispatchRenameat w atFdcwd p atFdcwd q = some (w', 0) ∧
    some (w'.vfs.tmp idx).path = Vfs.readCstrRaw w.env.mem q ∧ Gone w' p

theorem not_validateUserBuf_atFdcwd : validateUserBuf atFdcwd 1 = false := by decide

/-- **`renameat` with `AT_FDCWD` is always refused**: the second directory, which the dispatcher
passes for the new path, is not an address of the user half. -/
theorem renameat_atFdcwd (p q : ℕ) : dispatchRenameat w atFdcwd p atFdcwd q = some (w, -14) := by
  simp [dispatchRenameat, sysRenameat, not_validateUserBuf_atFdcwd]

/-- **The calls with a path never all name the same file**: whatever the current directory, the path
and the file are, also right after the file was created under this path. -/
theorem not_sameFile (p q statbuf : ℕ) (idx : Fin maxTmpFiles) : ¬ SameFile w p q statbuf idx := by
  intro h
  obtain ⟨w', hw, -, -⟩ := h.rename
  rw [renameat_atFdcwd] at hw
  exact absurd (pair_inj hw).2 (by decide)

/-- A process with the current directory `/` that has `/tmp/a` at the address 4096 and `/tmp/b` at
the address 4352. -/
def freshWorld : World where
  vfs := boot
  env := (Call.ofBytes (bstr "/tmp/a" ++ List.replicate 250 0 ++ bstr "/tmp/b") 1 0 0 0 0).env
  pid := 1
  cwd := some [slash]
  vfsPath := 2 ^ 48

set_option maxRecDepth 100000 in
/-- `open("/tmp/a", O_CREAT | O_RDWR)` makes a file, `renameat` to `/tmp/b` fails, and the file can
still be opened as `/tmp/a`. -/
theorem rename_refused : ∃ w', Creates freshWorld 4096 0 w' ∧
    (dispatchRenameat w' atFdcwd 4096 atFdcwd 4352).map (·.2) = some (-14) ∧ ¬ Gone w' 4096 := by
  obtain ⟨⟨w', fd⟩, hopen, hnew, hagain⟩ : ∃ r,
      sysOpen freshWorld 4096 (oCreat ||| oRdwr) = some r ∧
      (0 ≤ r.2 ∧ (freshWorld.vfs.tmp 0).inUse = false ∧ (r.1.vfs.tmp 0).inUse = true) ∧
      (sysOpen r.1 4096 0).any fun r => 0 ≤ r.2 := exists_of_any (by decide +kernel)
  obtain ⟨⟨w₂, fd₂⟩, hopen2, hfd2⟩ := exists_of_any hagain
  refine ⟨w', ⟨fd, hopen, hnew⟩, by rw [renameat_atFdcwd]; rfl, ?_⟩
  rintro ⟨w₃, e, he, hneg⟩
  cases hopen2.symm.trans he
  exact absurd hneg (not_lt.2 hfd2)

end Cyanos.Paths
