import Cyanos.Lib.RingQueue
import Cyanos.Mm.Slab
import Mathlib.Data.Fintype.Basic

/-!
# The state of the VFS server

`servers/vfs/src/lib.rs`: descriptor tables, pipe rings, the tmpfs pool, the eventfd counters and
the timerfd pool.  The arrays of the source are functions on their indices.

A ring with its two positions and its count is a queue of at most `PIPE_RING_SIZE` bytes
(`PipeRing.Holds`); `PipeRing.holds_put` and `PipeRing.holds_get` are its two operations, and
`PipeRing.holds_fill` and `PipeRing.holds_drain` the loops of writes and reads over them.
-/

namespace Cyanos.Vfs

open Lib List

/-- `MAX_TMP_FILES`. -/
abbrev maxTmpFiles : ℕ := 32

/-- `MAX_TMP_SIZE`. -/
abbrev maxTmpSize : ℕ := 4096

/-- `MAX_TMP_PATH`. -/
abbrev maxTmpPath : ℕ := 64

/-- `PIPE_RING_SIZE`. -/
abbrev pipeRingSize : ℕ := 4096

/-- `MAX_PIPES`. -/
abbrev maxPipes : ℕ := 16

/-- `MAX_EVENTFDS`. -/
abbrev maxEventfds : ℕ := 16

/-- `MAX_TIMERFDS`. -/
abbrev maxTimerfds : ℕ := 16

/-- `MAX_PROCS`. -/
abbrev maxProcs : ℕ := 64

/-- `MAX_FDS`. -/
abbrev maxFds : ℕ := 64

/-- `O_CLOEXEC`. -/
def oCloexec : BitVec 32 := 0x80000

/-- `O_APPEND`. -/
def oAppend : BitVec 32 := 0x400

/-- The flags have one of the bits of `mask`. -/
def hasFlag (flags mask : BitVec 32) : Bool := flags &&& mask != 0

/-- `u64::MAX`, which marks a free eventfd counter. -/
def u64Max : ℕ := 2 ^ 64 - 1

/-- `position` of the iterator over an array.  Irreducible, because a `match` on a search would
otherwise be evaluated entry by entry. -/
@[irreducible] def position {n : ℕ} (p : Fin n → Bool) : Option (Fin n) := Fin.find? p

variable {n : ℕ} {i : Fin maxFds}

theorem position_eq_some {p : Fin n → Bool} {i : Fin n} :
    position p = some i ↔ p i = true ∧ ∀ j < i, p j = false := by
  unfold position
  exact Fin.find?_eq_some_iff

theorem position_eq_none {p : Fin n → Bool} : position p = none ↔ ∀ i, p i = false := by
  unfold position
  exact Fin.find?_eq_none_iff

/-! ### Objects -/

/-- `TmpFileEntry`; `path` has the first `path_len` bytes of the source's array. -/
structure TmpFileEntry where
  path : List UInt8
  /-- All `MAX_TMP_SIZE` bytes, also those from `len` on. -/
  data : ℕ → UInt8
  len : ℕ
  inUse : Bool
  isDir : Bool

/-- `TmpFileEntry::empty`. -/
def TmpFileEntry.empty : TmpFileEntry := ⟨[], fun _ => 0, 0, false, false⟩

/-- `TimerFdEntry`. -/
structure TimerFdEntry where
  armed : Bool
  /-- The tick of the next expiration. -/
  deadlineTicks : ℕ
  /-- `0` for a timer that expires once. -/
  intervalTicks : ℕ
  /-- Expirations that have not been read. -/
  expirations : ℕ

/-- `TimerFdEntry::free`. -/
def TimerFdEntry.free : TimerFdEntry := ⟨false, 0, 0, 0⟩

/-- `TimerFdEntry::is_free`. -/
def TimerFdEntry.isFree (e : TimerFdEntry) : Bool :=
  !e.armed && e.deadlineTicks == 0 && e.expirations == 0

/-- The expirations up to `now` are counted, as `handle_read` does before it looks at them. -/
def TimerFdEntry.expire (e : TimerFdEntry) (now : ℕ) : TimerFdEntry :=
  if e.armed ∧ e.deadlineTicks ≤ now then
    let elapsed := now - e.deadlineTicks
    let extra := if 0 < e.intervalTicks then wadd (elapsed / e.intervalTicks) 1 else 1
    let e := { e with expirations := wadd e.expirations extra }
    if 0 < e.intervalTicks then
      { e with deadlineTicks := wadd e.deadlineTicks (extra * e.intervalTicks) }
    else { e with armed := false }
  else e

/-- `VnodeKind`. -/
inductive VnodeKind where
  | none
  /-- A read-only file, at the address `addr` of the kernel. -/
  | ramFile (addr : ℕ) (data : List UInt8) (pos : ℕ)
  | devNull
  | devZero
  /-- One end of a pipe. -/
  | pipe (ring : Fin maxPipes) (isWrite : Bool)
  /-- An entry of the tmpfs pool. -/
  | tmpFile (idx : Fin maxTmpFiles) (pos : ℕ) (writable : Bool)
  | eventFd (slot : Fin maxEventfds)
  | timerFd (slot : Fin maxTimerfds)
  | devUrandom
  /-- `/dev/stdin`, `/dev/stdout` and `/dev/stderr`: the descriptor `targetFd` of the process. -/
  | devStdio (targetFd : ℕ)
  /-- The framebuffer. -/
  | devFb (pos : ℕ)
  deriving DecidableEq

/-- `FdEntry`. -/
structure FdEntry where
  kind : VnodeKind
  flags : BitVec 32
  inUse : Bool
  deriving DecidableEq

/-- `FdEntry::empty`. -/
def FdEntry.empty : FdEntry := ⟨.none, 0, false⟩

/-! ### Pipe rings -/

/-- `PipeRing`. -/
structure PipeRing where
  buf : ℕ → UInt8
  readPos : ℕ
  writePos : ℕ
  count : ℕ
  readOpen : Bool
  writeOpen : Bool

namespace PipeRing

variable {ring : PipeRing} {l : List UInt8}

/-- `PipeRing::new`. -/
def new : PipeRing := ⟨fun _ => 0, 0, 0, 0, false, false⟩

/-- `PipeRing::put`; `none` where the source returns `false`. -/
def put (ring : PipeRing) (b : UInt8) : Option PipeRing :=
  if pipeRingSize ≤ ring.count then none else
    some { ring with
      buf := Function.update ring.buf ring.writePos b
      writePos := (ring.writePos + 1) % pipeRingSize
      count := ring.count + 1 }

/-- `PipeRing::get`. -/
def get (ring : PipeRing) : Option (UInt8 × PipeRing) :=
  if ring.count = 0 then none else
    some (ring.buf ring.readPos, { ring with
      readPos := (ring.readPos + 1) % pipeRingSize
      count := ring.count - 1 })

/-- The loop of a write: up to `count` bytes from `a` on are put, until one is refused. -/
def fill (mem : ℕ → UInt8) : ℕ → ℕ → PipeRing → ℕ × PipeRing
  | 0, _, ring => (0, ring)
  | count + 1, a, ring =>
    match ring.put (mem a) with
    | none => (0, ring)
    | some ring =>
      let (n, ring) := fill mem count (a + 1) ring
      (n + 1, ring)

/-- The loop of a read: up to `count` bytes are taken, until there is none. -/
def drain : ℕ → PipeRing → List UInt8 × PipeRing
  | 0, ring => ([], ring)
  | count + 1, ring =>
    match ring.get with
    | none => ([], ring)
    | some (b, ring) =>
      let (bs, ring) := drain count ring
      (b :: bs, ring)

/-- `handle_close` on one of the ends. -/
def closeEnd (ring : PipeRing) (isWrite : Bool) : PipeRing :=
  if isWrite then { ring with writeOpen := false } else { ring with readOpen := false }

/-- The ring is one that `handle_pipe` takes. -/
def isFree (ring : PipeRing) : Bool := !ring.readOpen && !ring.writeOpen && ring.count == 0

/-- The bytes in the ring, the oldest first. -/
structure Holds (ring : PipeRing) (l : List UInt8) : Prop where
  queued : Queued pipeRingSize ring.buf ring.readPos ring.writePos l
  count : ring.count = l.length

theorem holds_new : new.Holds [] := ⟨.nil (by decide), rfl⟩

theorem Holds.nil_of_count (h : ring.Holds l) (hc : ring.count = 0) : l = [] :=
  length_eq_zero_iff.1 (h.count ▸ hc)

/-- A byte that is taken is the last one, and the ends stay as they are. -/
theorem holds_put (h : ring.Holds l) (b : UInt8) :
    (l.length = pipeRingSize ∧ ring.put b = none) ∨
      l.length < pipeRingSize ∧ ∃ ring', ring.put b = some ring' ∧ ring'.Holds (l ++ [b]) ∧
        ring'.readOpen = ring.readOpen ∧ ring'.writeOpen = ring.writeOpen := by
  have hroom := h.queued.room
  rcases Nat.lt_or_eq_of_le hroom with hlt | heq
  · refine .inr ⟨hlt, _, if_neg (by rw [h.count]; omega), ⟨h.queued.put hlt b, ?_⟩, rfl, rfl⟩
    rw [length_append, ← h.count]
    rfl
  · exact .inl ⟨heq, if_pos (by rw [h.count]; omega)⟩

/-- The byte given is the first one, and the ends stay as they are. -/
theorem holds_get {b : UInt8} (h : ring.Holds (b :: l)) :
    ∃ ring', ring.get = some (b, ring') ∧ ring'.Holds l ∧
      ring'.readOpen = ring.readOpen ∧ ring'.writeOpen = ring.writeOpen := by
  have hcount := h.count
  obtain ⟨hb, hq⟩ := h.queued.get
  rw [length_cons] at hcount
  have hget : ring.get = some (b, { ring with
      readPos := (ring.readPos + 1) % pipeRingSize
      count := ring.count - 1 }) := by
    rw [get, if_neg (by omega), hb]
  refine ⟨_, hget, ⟨hq, ?_⟩, rfl, rfl⟩
  show ring.count - 1 = l.length
  omega

/-- **The loop of a write appends as many of the bytes as there is room for.** -/
theorem holds_fill (mem : ℕ → UInt8) (count a : ℕ) (h : ring.Holds l) :
    ∃ n ring', fill mem count a ring = (n, ring') ∧ n ≤ pipeRingSize ∧
      ring'.Holds (l ++ loadBytes mem a n) ∧
      ring'.readOpen = ring.readOpen ∧ ring'.writeOpen = ring.writeOpen := by
  induction count generalizing a ring l with
  | zero => exact ⟨0, ring, rfl, Nat.zero_le _, by simpa [loadBytes] using h, rfl, rfl⟩
  | succ count ih =>
    rcases holds_put h (mem a) with ⟨-, hput⟩ | ⟨hlt, ring₁, hput, h1, hr1, hw1⟩
    · refine ⟨0, ring, by rw [fill, hput], Nat.zero_le _, by simpa [loadBytes] using h, rfl, rfl⟩
    · obtain ⟨n, ring₂, hfill, -, h2, hr2, hw2⟩ := ih (a + 1) h1
      have hbytes : l ++ loadBytes mem a (n + 1) = l ++ [mem a] ++ loadBytes mem (a + 1) n := by
        rw [append_assoc, loadBytes, range_succ_eq_map, map_cons, map_map,
          loadBytes, singleton_append]
        congr 3
        funext i
        rw [Function.comp_apply, Nat.succ_eq_add_one, Nat.add_comm i 1, Nat.add_assoc]
      have hroom := h2.queued.room
      rw [← hbytes, length_append, loadBytes, length_map, length_range] at hroom
      refine ⟨n + 1, ring₂, by rw [fill, hput]; simp only [hfill], by omega, hbytes ▸ h2,
        hr2.trans hr1, hw2.trans hw1⟩

/-- **The loop of a read takes the first bytes.** -/
theorem holds_drain (count : ℕ) (h : ring.Holds l) :
    ∃ ring', drain count ring = (l.take count, ring') ∧ ring'.Holds (l.drop count) ∧
      ring'.readOpen = ring.readOpen ∧ ring'.writeOpen = ring.writeOpen := by
  induction count generalizing ring l with
  | zero => exact ⟨ring, rfl, h, rfl, rfl⟩
  | succ count ih =>
    cases l with
    | nil =>
      have hget : ring.get = none := if_pos h.count
      exact ⟨ring, by rw [drain, hget]; rfl, h, rfl, rfl⟩
    | cons =>
      obtain ⟨ring₁, hget, h1, hr1, hw1⟩ := holds_get h
      obtain ⟨ring₂, hdrain, h2, hr2, hw2⟩ := ih h1
      exact ⟨ring₂, by rw [drain, hget]; simp only [hdrain]; rfl, h2, hr2.trans hr1, hw2.trans hw1⟩

end PipeRing

/-! ### Descriptor tables -/

/-- `ProcFdTable`. -/
structure ProcFdTable where
  pid : ℕ
  fds : Fin maxFds → FdEntry
  inUse : Bool

namespace ProcFdTable

/-- `ProcFdTable::empty`. -/
def empty : ProcFdTable := ⟨0, fun _ => .empty, false⟩

/-- `alloc_fd`. -/
def allocFd (tbl : ProcFdTable) : Option (Fin maxFds) := position fun i => !(tbl.fds i).inUse

/-- The table with one entry replaced. -/
def setFd (tbl : ProcFdTable) (i : Fin maxFds) (e : FdEntry) : ProcFdTable :=
  { tbl with fds := Function.update tbl.fds i e }

/-- The descriptor `fd` if it is in use; the requests on a descriptor reply `EBADF` if not. -/
def used (tbl : ProcFdTable) (fd : ℕ) : Option (Fin maxFds) :=
  if h : fd < maxFds then if (tbl.fds ⟨fd, h⟩).inUse then some ⟨fd, h⟩ else none else none

/-- The descriptor that a read or write of `fd` works on: a descriptor for `/dev/stdin`,
`/dev/stdout` or `/dev/stderr` enters the request again with its target.  `none` when the request
would be entered more than `depth` times. -/
def target (tbl : ProcFdTable) : ℕ → ℕ → Option (Option (Fin maxFds))
  | 0, _ => none
  | depth + 1, fd =>
    match tbl.used fd with
    | none => some none
    | some i =>
      match (tbl.fds i).kind with
      | .devStdio targetFd => tbl.target depth targetFd
      | _ => some (some i)

end ProcFdTable

/-! ### The server -/

/-- `FD_TABLES`, `PIPE_RINGS`, `TMP_FILES`, `EVENTFD_COUNTERS`, `TIMERFD_POOL` and `LFSR_STATE`. -/
structure State where
  tables : Fin maxProcs → ProcFdTable
  rings : Fin maxPipes → PipeRing
  tmp : Fin maxTmpFiles → TmpFileEntry
  counters : Fin maxEventfds → ℕ
  timers : Fin maxTimerfds → TimerFdEntry
  lfsr : UInt64

namespace State

variable (v : State)

/-- The initial values of the statics. -/
def fresh : State where
  tables := fun _ => .empty
  rings := fun _ => .new
  tmp := fun _ => .empty
  counters := fun _ => u64Max
  timers := fun _ => .free
  lfsr := 0xdeadbeefcafebabe

/-- `find_tbl`. -/
def findTbl (pid : ℕ) : Option (Fin maxProcs) :=
  position fun t => (v.tables t).inUse && (v.tables t).pid == pid

/-- The first table that is not in use. -/
def freeTbl : Option (Fin maxProcs) := position fun t => !(v.tables t).inUse

/-- The first ring that `handle_pipe` can take. -/
def freeRing : Option (Fin maxPipes) := position fun r => (v.rings r).isFree

/-- The state with one table replaced. -/
def setTable (t : Fin maxProcs) (tbl : ProcFdTable) : State :=
  { v with tables := Function.update v.tables t tbl }

/-- The state with one entry of a table replaced. -/
def setFd (t : Fin maxProcs) (i : Fin maxFds) (e : FdEntry) : State :=
  v.setTable t ((v.tables t).setFd i e)

/-- The entry `i` of the table `t`. -/
def fd (t : Fin maxProcs) (i : Fin maxFds) : FdEntry := (v.tables t).fds i

/-- The state with the kind of one entry replaced, for a new position. -/
def setKind (t : Fin maxProcs) (i : Fin maxFds) (kind : VnodeKind) : State :=
  v.setFd t i { v.fd t i with kind := kind }

/-- The state with one tmpfs entry replaced. -/
def setTmp (idx : Fin maxTmpFiles) (file : TmpFileEntry) : State :=
  { v with tmp := Function.update v.tmp idx file }

/-- The state with one eventfd counter replaced. -/
def setCounter (slot : Fin maxEventfds) (n : ℕ) : State :=
  { v with counters := Function.update v.counters slot n }

/-- The state with one timer replaced. -/
def setTimer (slot : Fin maxTimerfds) (e : TimerFdEntry) : State :=
  { v with timers := Function.update v.timers slot e }

/-- The state with one ring replaced. -/
def setRing (r : Fin maxPipes) (ring : PipeRing) : State :=
  { v with rings := Function.update v.rings r ring }

/-- `get_or_create`. -/
def getOrCreate (pid : ℕ) : Option (Fin maxProcs × State) :=
  match v.findTbl pid with
  | some t => some (t, v)
  | none => v.freeTbl.map fun t => (t, v.setTable t ⟨pid, fun _ => .empty, true⟩)

/-- The entry for the descriptor `fd` of a process, if it is in use. -/
def descriptor (pid fd : ℕ) : Option (Fin maxProcs × Fin maxFds) :=
  (v.findTbl pid).bind fun t => ((v.tables t).used fd).map fun i => (t, i)

/-- `init`: process 1 has `/dev/null` at the descriptors 0, 1 and 2. -/
def init : State :=
  match v.freeTbl with
  | none => v
  | some t =>
    v.setTable t { v.tables t with
      inUse := true
      pid := 1
      fds := fun i => if i.val < 3 then ⟨.devNull, 0, true⟩ else (v.tables t).fds i }

/-! ### Entries after an update -/

section Updates

variable {v : State} {t t' : Fin maxProcs} {i i' : Fin maxFds} {e : FdEntry} {tbl : ProcFdTable}
  {pid n : ℕ}

theorem tables_setTable (t' : Fin maxProcs) :
    (v.setTable t tbl).tables t' = if t' = t then tbl else v.tables t' :=
  Function.update_apply ..

@[simp] theorem tables_setTable_self : (v.setTable t tbl).tables t = tbl := Function.update_self ..

theorem tables_setTable_of_ne (h : t' ≠ t) : (v.setTable t tbl).tables t' = v.tables t' :=
  Function.update_of_ne h ..

theorem fd_setTable_of_ne (h : t' ≠ t) : (v.setTable t tbl).fd t' i = v.fd t' i := by
  rw [fd, tables_setTable_of_ne h, fd]

@[simp] theorem inUse_setFd (t' : Fin maxProcs) :
    ((v.setFd t i e).tables t').inUse = (v.tables t').inUse := by
  rw [setFd, tables_setTable]
  split
  · next h => rw [h]; rfl
  · rfl

@[simp] theorem pid_setFd (t' : Fin maxProcs) :
    ((v.setFd t i e).tables t').pid = (v.tables t').pid := by
  rw [setFd, tables_setTable]
  split
  · next h => rw [h]; rfl
  · rfl

theorem fd_setFd (t' : Fin maxProcs) (i' : Fin maxFds) :
    (v.setFd t i e).fd t' i' = if t' = t ∧ i' = i then e else v.fd t' i' := by
  rw [fd, setFd, tables_setTable]
  by_cases ht : t' = t
  · subst ht
    by_cases hi : i' = i
    · subst hi
      simp [ProcFdTable.setFd]
    · simp [ProcFdTable.setFd, hi, fd]
  · simp [ht, fd]

@[simp] theorem fd_setFd_self : (v.setFd t i e).fd t i = e := by simp [fd_setFd]

theorem fd_setFd_of_ne (h : (t', i') ≠ (t, i)) : (v.setFd t i e).fd t' i' = v.fd t' i' := by
  rw [fd_setFd, if_neg]
  rintro ⟨rfl, rfl⟩
  exact h rfl

theorem setFd_fd : v.setFd t i (v.fd t i) = v := by
  simp [setFd, setTable, ProcFdTable.setFd, fd]

@[simp] theorem setFd_setFd (e' : FdEntry) : (v.setFd t i e).setFd t i e' = v.setFd t i e' := by
  simp [setFd, setTable, ProcFdTable.setFd]

/-- What `find_tbl` finds. -/
theorem findTbl_eq_some (h : v.findTbl pid = some t) :
    (v.tables t).inUse = true ∧ (v.tables t).pid = pid := by
  have hp := (position_eq_some.1 h).1
  simpa using hp

theorem freeTbl_eq_some (h : v.freeTbl = some t) : (v.tables t).inUse = false := by
  have hp := (position_eq_some.1 h).1
  simpa using hp

end Updates

end State

theorem ProcFdTable.used_eq_some {tbl : ProcFdTable} :
    tbl.used n = some i ↔ i.val = n ∧ (tbl.fds i).inUse = true := by
  unfold used
  constructor
  · intro h
    split at h
    · split at h
      · next hu =>
        cases h
        exact ⟨rfl, hu⟩
      · cases h
    · cases h
  · rintro ⟨rfl, hu⟩
    rw [dif_pos .., if_pos hu]

theorem ProcFdTable.allocFd_eq_some {tbl : ProcFdTable}
    (h : tbl.allocFd = some i) : (tbl.fds i).inUse = false := by
  have hp := (position_eq_some.1 h).1
  simpa using hp

theorem State.descriptor_eq_some {v : State} {pid : ℕ} {t : Fin maxProcs} :
    v.descriptor pid n = some (t, i) ↔
      v.findTbl pid = some t ∧ i.val = n ∧ (v.fd t i).inUse = true := by
  constructor
  · intro h
    obtain ⟨t', ht, h⟩ := Option.bind_eq_some_iff.1 h
    obtain ⟨i', hi, h⟩ := Option.map_eq_some_iff.1 h
    cases h
    exact ⟨ht, ProcFdTable.used_eq_some.1 hi⟩
  · rintro ⟨ht, hi⟩
    rw [descriptor, ht, Option.bind_some, ProcFdTable.used_eq_some.2 hi, Option.map_some]

end Cyanos.Vfs
