import Cyanos.Lib.ByteFile
import Cyanos.Servers.Vfs.Close
import Cyanos.Servers.Vfs.FileIdentity

/-!
# Tmpfs files as byte vectors

Requests on one tmpfs file against the POSIX model: the file is a sequence of at most `MAX_TMP_SIZE`
bytes, every descriptor has an offset that starts at `0`, and what lies between the end of the file and
a later write or a greater length is zero.

The server differs from it in three ways.  A descriptor that is opened with `O_WRONLY` and without
`O_TRUNC` starts at the end of the file; bytes that were cut off come back when a later write leaves a
hole where they were (`append_and_stale_bytes`); and an open that fails for want of a descriptor has
already created or truncated the file.

* `tmpfs_refines_posix` : along every run of requests without these differences, replies and data are
  those of the model.
-/

namespace Cyanos.Vfs

open Lib State Option Function

/-! ### The model -/

/-- The path of a file in `/tmp/`, short enough to be stored. -/
structure TmpName where
  path : List UInt8
  isTmp : isTmpPath path = true
  ne_tmp : path ≠ bstr "/tmp"
  short : path.length < maxTmpPath

/-- A descriptor for the file. -/
structure OpenFile where
  offset : ℕ
  writable : Bool
  append : Bool

namespace OpenFile

variable (d : OpenFile) (bytes : List UInt8)

/-- Reading up to `count` bytes. -/
def read (buf count : ℕ) : OpenFile × Reply :=
  let data := readAt bytes d.offset count
  ({ d with offset := d.offset + data.length },
    ⟨data.length, if data = [] then [] else [(buf, data)]⟩)

/-- Writing as many of `count` bytes as the file has room for. -/
def write (mem : ℕ → UInt8) (buf count : ℕ) : List UInt8 × OpenFile × Reply :=
  let off := if d.append then bytes.length else d.offset
  let n := min count (maxTmpSize - off)
  if d.writable = false then (bytes, d, errReply 9)
  else if n = 0 then (bytes, d, errReply 28)
  else (writeAt bytes off (loadBytes mem buf n), { d with offset := off + n }, ⟨n, []⟩)

/-- Where an offset counts from. -/
def base : ℕ → Option ℤ
  | 0 => some 0
  | 1 => some d.offset
  | 2 => some bytes.length
  | _ => none

/-- Moving the offset. -/
def lseek (offset : ℤ) (whence : ℕ) : OpenFile × Reply :=
  match d.base bytes whence with
  | none => (d, errReply 22)
  | some b =>
    if b + offset < 0 ∨ 2 ^ 63 ≤ b + offset then (d, errReply 22)
    else ({ d with offset := (b + offset).toNat }, ⟨b + offset, []⟩)

end OpenFile

/-- Where the next descriptor of the process is, or why it gets none. -/
def State.nextFd (v : State) (pid : ℕ) : Except ℕ (Fin maxProcs × Fin maxFds) :=
  (newFd v pid 12 24 .empty).2

/-- The server beside the model of a file. -/
structure Compared where
  vfs : State
  /-- The bytes of the file in the model, if it exists. -/
  file : Option (List UInt8)
  /-- The descriptors of the model, at the places of those of the server. -/
  desc : Fin maxProcs × Fin maxFds → OpenFile
  /-- All replies were those of the model. -/
  agreed : Bool

namespace Compared

variable (s : Compared)

/-- Before the first call. -/
def start : Compared := ⟨boot, none, fun _ => ⟨0, false, false⟩, true⟩

/-- A request on a descriptor in the model. -/
def onDescriptor (pid fd : ℕ) (f : OpenFile → List UInt8 → List UInt8 × OpenFile × Reply) :
    Compared × Reply :=
  match s.vfs.descriptor pid fd with
  | none => (s, errReply 9)
  | some ti =>
    let (bytes, d, reply) := f (s.desc ti) (s.file.getD [])
    ({ s with file := some bytes, desc := Function.update s.desc ti d }, reply)

/-- The model after a request, and its reply.  A new file needs an entry of the pool, and a new
descriptor a free number. -/
def model (env : Env) (pid : ℕ) : Request → Compared × Reply
  | .open _ flags =>
    if s.file = none ∧ hasFlag flags oCreat = false then (s, errReply 2)
    else if s.file = none ∧ s.vfs.freeTmp = none then (s, errReply 28)
    else
      match s.vfs.nextFd pid with
      | .error e => (s, errReply e)
      | .ok ti =>
        ({ s with
          file := some (if hasFlag flags oTrunc then [] else s.file.getD [])
          desc := Function.update s.desc ti
            ⟨0, hasFlag flags (oWronly ||| oRdwr), hasFlag flags oAppend⟩ }, valReply ti.2 [])
  | .read fd buf count =>
    if count = 0 then (s, ⟨0, []⟩)
    else s.onDescriptor pid fd fun d bytes => (bytes, d.read bytes buf count)
  | .write fd buf count =>
    if count = 0 then (s, ⟨0, []⟩)
    else s.onDescriptor pid fd fun d bytes => d.write bytes env.mem buf count
  | .lseek fd offset whence =>
    s.onDescriptor pid fd fun d bytes => (bytes, d.lseek bytes offset whence)
  | .ftruncate fd newLen =>
    s.onDescriptor pid fd fun d bytes =>
      if maxTmpSize < newLen then (bytes, d, errReply 28) else (resize bytes newLen, d, okReply)
  | .close fd => s.onDescriptor pid fd fun d bytes => (bytes, d, okReply)
  | _ => (s, okReply)

/-- The server and the model after a call. -/
def step (s : Compared) (c : Call) : Option Compared :=
  (handle s.vfs c.env c.msg c.pid).map fun (v', reply) =>
    let (m, r) := s.model c.env c.pid c.msg.decode
    { m with vfs := v', agreed := s.agreed && decide (reply = r) }

end Compared

/-! ### Requests on the file -/

/-- The request is one on the file: it opens the path, or works on a descriptor for the file or on a
number that is not in use. -/
def OnFile (name : TmpName) (v : State) (env : Env) (pid : ℕ) : Request → Bool
  | .open pathPtr _ => decide ((readCstrRaw env.mem pathPtr).map normalize = some name.path)
  | .read fd _ _ | .write fd _ _ | .lseek fd _ _ | .ftruncate fd _ | .close fd =>
    (v.descriptor pid fd).all fun (t, i) => (v.tmpLookup name.path).isSome &&
      decide ((v.fd t i).kind.tmpIdx = v.tmpLookup name.path)
  | _ => false

/-- The bytes between the end of the file and the position of the entry are zero, where a write at
this position is possible. -/
def State.noHole (v : State) (e : FdEntry) : Bool :=
  match e.kind with
  | .tmpFile idx pos _ => hasFlag e.flags oAppend || decide (maxTmpSize ≤ pos) ||
    (List.range pos).all fun x => decide (x < (v.tmp idx).len) || (v.tmp idx).data x == 0
  | _ => true

/-- The request does not differ from the model: an open has room for a descriptor where it creates or
truncates the file, and does not start at the end of a file that has bytes; a write leaves no hole with
bytes that were cut off. -/
def Fits (name : TmpName) (v : State) (pid : ℕ) : Request → Bool
  | .open _ flags =>
    match v.tmpLookup name.path with
    | none => !hasFlag flags oCreat || v.freeTmp.isNone || v.hasRoom pid
    | some idx => (v.tmp idx).len == 0 ||
      if hasFlag flags oTrunc then v.hasRoom pid else !hasFlag flags oWronly
  | .write fd _ _ => (v.descriptor pid fd).all fun (t, i) => v.noHole (v.fd t i)
  | _ => true

/-! ### What the server shows of the model -/

variable {v v' w : State} {name : TmpName} {env : Env} {pid fd : ℕ} {t : Fin maxProcs}
  {i : Fin maxFds} {idx : Fin maxTmpFiles} {flags : BitVec 32} {file : Option (List UInt8)}
  {desc : Fin maxProcs × Fin maxFds → OpenFile} {s : Compared} {d : OpenFile}

/-- The bytes of a tmpfs entry. -/
abbrev State.content (v : State) (idx : Fin maxTmpFiles) : List UInt8 :=
  loadBytes (v.tmp idx).data 0 (v.tmp idx).len

/-- The bytes of the entry and the positions of its descriptors are those of the model, and there is
no descriptor for the entry that the file would get. -/
structure Shows (name : TmpName) (v : State) (file : Option (List UInt8))
    (desc : Fin maxProcs × Fin maxFds → OpenFile) : Prop where
  file : file = (v.tmpLookup name.path).map fun idx => v.content idx
  size : ∀ idx, v.tmpLookup name.path = some idx → (v.tmp idx).len ≤ 4096
  desc : ∀ t i idx pos writable, v.Open t i → (v.fd t i).kind = .tmpFile idx pos writable →
    v.tmpLookup name.path = some idx →
    pos < 2 ^ 63 ∧ desc (t, i) = ⟨pos, writable, hasFlag (v.fd t i).flags oAppend⟩
  unheld : v.tmpLookup name.path = none → ∀ idx, v.freeTmp = some idx →
    ∀ t i pos writable, v.Open t i → (v.fd t i).kind ≠ .tmpFile idx pos writable

/-- The state with other bytes in a tmpfs entry. -/
def State.setBytes (v : State) (idx : Fin maxTmpFiles) (data : ℕ → UInt8) (len : ℕ) : State :=
  v.setTmp idx { v.tmp idx with data := data, len := len }

theorem tmpLookup_setBytes {path : List UInt8} {data : ℕ → UInt8} {len : ℕ} :
    (v.setBytes idx data len).tmpLookup path = v.tmpLookup path := by
  unfold tmpLookup setBytes
  congr 1
  funext j
  by_cases hj : j = idx
  · subst hj
    simp
  · simp [tmp_setTmp_of_ne hj]

theorem tmpLookup_create (hl : v.tmpLookup name.path = none) :
    (v.setTmp idx (.named name.path false)).tmpLookup name.path = some idx := by
  refine position_eq_some.2 ⟨?_, fun j hj => ?_⟩
  · rw [tmp_setTmp_self, path_named false name.short]
    simp [TmpFileEntry.named]
  · rw [tmp_setTmp_of_ne (Fin.ne_of_lt hj)]
    exact position_eq_none.1 hl j

namespace Shows

theorem start (name : TmpName) (desc : Fin maxProcs × Fin maxFds → OpenFile) :
    Shows name boot none desc := by
  have hnone : boot.tmpLookup name.path = none := by
    rw [tmpLookup, boot_sameObjects.tmp, position_eq_none]
    exact fun _ => rfl
  have hkind : ∀ t i idx pos writable, boot.Open t i →
      (boot.fd t i).kind ≠ .tmpFile idx pos writable := fun t i idx pos writable ho => by
    rw [boot_kind ho]
    exact VnodeKind.noConfusion
  refine ⟨?_, fun idx hl => ?_,
    fun t i idx pos writable ho hk => absurd hk (hkind t i idx pos writable ho),
    fun _ idx _ t i pos writable ho => hkind t i idx pos writable ho⟩
  · rw [hnone]
    rfl
  · rw [hnone] at hl
    cases hl

section

variable (h : Shows name v file desc)
include h

/-- A descriptor for the file is put at a place. -/
theorem put {pos : ℕ} {writable : Bool} (ht : (v.tables t).inUse = true)
    (hl : v.tmpLookup name.path = some idx) (hpos : pos < 2 ^ 63) :
    Shows name (v.setFd t i ⟨.tmpFile idx pos writable, flags, true⟩) file
      (update desc (t, i) ⟨pos, writable, hasFlag flags oAppend⟩) where
  file := h.file
  size := h.size
  desc t' i' idx' pos' writable' ho hk hl' := by
    by_cases heq : (t', i') = (t, i)
    · cases heq
      rw [fd_setFd_self] at hk ⊢
      cases hk
      exact ⟨hpos, update_self ..⟩
    · rw [open_setFd_iff ht, if_neg heq] at ho
      rw [fd_setFd_of_ne heq] at hk ⊢
      rw [update_of_ne heq]
      exact h.desc t' i' idx' pos' writable' ho hk hl'
  unheld hnone := absurd (hl.symm.trans hnone) (by simp)

/-- The pool stays, and no descriptor is new. -/
theorem of_old (htmp : w.tmp = v.tmp)
    (hold : ∀ t i, w.Open t i → v.Open t i ∧ w.fd t i = v.fd t i) : Shows name w file desc := by
  have hl : w.tmpLookup name.path = v.tmpLookup name.path := by simp only [tmpLookup, htmp]
  have hf : w.freeTmp = v.freeTmp := by simp only [freeTmp, htmp]
  refine ⟨?_, fun idx => ?_, fun t i idx pos writable ho hk hl' => ?_,
    fun hnone idx hfree t i pos writable ho hk => ?_⟩
  · rw [hl, h.file]
    simp only [State.content, htmp]
  · rw [hl, htmp]
    exact h.size idx
  · obtain ⟨ho', hfd⟩ := hold t i ho
    rw [hfd] at hk ⊢
    exact h.desc t i idx pos writable ho' hk (hl ▸ hl')
  · obtain ⟨ho', hfd⟩ := hold t i ho
    exact h.unheld (hl ▸ hnone) idx (hf ▸ hfree) t i pos writable ho' (hfd ▸ hk)

theorem drop (ht : (v.tables t).inUse = true) : Shows name (v.setFd t i .empty) file desc := by
  refine h.of_old rfl fun t' i' ho => ?_
  rw [open_setFd_iff ht] at ho
  split at ho
  · cases ho
  · next hne => exact ⟨ho, fd_setFd_of_ne hne⟩

theorem getOrCreate (hg : v.getOrCreate pid = some (t, w)) : Shows name w file desc := by
  refine h.of_old (sameObjects_getOrCreate hg).tmp fun t' i ho => ?_
  rcases getOrCreate_cases hg with ⟨-, rfl⟩ | ⟨-, -, rfl⟩
  · exact ⟨ho, rfl⟩
  · by_cases ht : t' = t
    · subst ht
      simp [Open, fd, FdEntry.empty] at ho
    · simpa [Open, fd, tables_setTable_of_ne ht] using ho

/-- The file gets other bytes. -/
theorem setBytes {data : ℕ → UInt8} {len : ℕ} (hl : v.tmpLookup name.path = some idx)
    (hlen : len ≤ 4096) :
    Shows name (v.setBytes idx data len) (some (loadBytes data 0 len)) desc := by
  have hlook : (v.setBytes idx data len).tmpLookup name.path = some idx :=
    tmpLookup_setBytes.trans hl
  refine ⟨?_, fun idx' hl' => ?_, fun t i idx' pos writable ho hk hl' => ?_, fun hnone => ?_⟩
  · rw [hlook, map_some, State.setBytes, State.content, tmp_setTmp_self]
  · obtain rfl := mem_unique hlook hl'
    simpa [State.setBytes] using hlen
  · exact h.desc t i idx' pos writable ho hk (hl.trans (hlook.symm.trans hl'))
  · exact absurd (hlook.symm.trans hnone) (by simp)

/-- The file is created. -/
theorem create (hl : v.tmpLookup name.path = none) (hfree : v.freeTmp = some idx) :
    Shows name (v.setTmp idx (.named name.path false)) (some []) desc := by
  have hlook : (v.setTmp idx (.named name.path false)).tmpLookup name.path = some idx :=
    tmpLookup_create hl
  refine ⟨?_, fun idx' hl' => ?_, fun t i idx' pos writable ho hk hl' => ?_, fun hnone => ?_⟩
  · rw [hlook, map_some, State.content, tmp_setTmp_self]
    rfl
  · obtain rfl := mem_unique hlook hl'
    simp [TmpFileEntry.named, TmpFileEntry.empty]
  · obtain rfl := mem_unique hlook hl'
    exact absurd hk (h.unheld hl idx hfree t i pos writable ho)
  · exact absurd (hlook.symm.trans hnone) (by simp)

end

end Shows

/-! ### Opening the file -/

/-- The server returns with the reply of the model, and shows the state of the model afterwards. -/
def Agrees (name : TmpName) (out : Option (State × Reply)) (m : Compared × Reply) : Prop :=
  ∃ v', out = some (v', m.2) ∧ Shows name v' m.1.file m.1.desc

theorem newFd_snd {e : FdEntry} (h : w.tables = v.tables) :
    (newFd w pid 12 24 e).2 = v.nextFd pid := by
  have hfind : w.findTbl pid = v.findTbl pid := by simp only [findTbl, h]
  have hfree : w.freeTbl = v.freeTbl := by simp only [freeTbl, h]
  unfold nextFd newFd getOrCreate
  rw [hfind, hfree]
  cases v.findTbl pid with
  | some t =>
    simp only [h]
    cases (v.tables t).allocFd <;> rfl
  | none =>
    cases v.freeTbl with
    | none => rfl
    | some =>
      simp only [map_some, tables_setTable_self]
      cases ProcFdTable.allocFd _ <;> rfl

/-- The file was found or created, with these bytes; if there is no room for a descriptor, nothing has
changed by that. -/
theorem agrees_attach {pathPtr : ℕ} {bytes : List UInt8} (hs : Shows name w (some bytes) s.desc)
    (hp : (readCstrRaw env.mem pathPtr).map normalize = some name.path)
    (htab : w.tables = s.vfs.tables) (hl : w.tmpLookup name.path = some idx)
    (ho : openTmp s.vfs name.path flags =
      (w, .ok (.tmpFile idx 0 (hasFlag flags (oWronly ||| oRdwr)))))
    (hbytes : (if hasFlag flags oTrunc then [] else s.file.getD []) = bytes)
    (hcreat : ¬ (s.file = none ∧ hasFlag flags oCreat = false))
    (hspace : ¬ (s.file = none ∧ s.vfs.freeTmp = none))
    (hfail : s.vfs.hasRoom pid = false → s.file = some bytes) :
    Agrees name (serve s.vfs env pid (.open pathPtr flags))
      (s.model env pid (.open pathPtr flags)) := by
  obtain ⟨path, hread, hnorm⟩ := map_eq_some_iff.1 hp
  rcases hn : newFd w pid 12 24 ⟨.tmpFile idx 0 (hasFlag flags (oWronly ||| oRdwr)), flags, true⟩
    with ⟨v', r⟩
  have hserve : serve s.vfs env pid (.open pathPtr flags) =
      some (v', match r with | .error e => errReply e | .ok (_, i) => valReply i []) := by
    simp only [serve, handleOpen, hread, hnorm, openKind_of_isTmpPath name.isTmp name.ne_tmp, Except.map, ho, hn]
    rcases r with err | ⟨t, i⟩ <;> rfl
  have hnext : s.vfs.nextFd pid = r := (newFd_snd htab).symm.trans (congrArg Prod.snd hn)
  unfold Compared.model
  simp only [if_neg hcreat, if_neg hspace, hnext]
  rcases newFd_cases hn with ⟨rfl, hfull, err, rfl, -⟩ | ⟨t, i, w', hg, -, rfl, rfl⟩
  · have hsame : v'.hasRoom pid = s.vfs.hasRoom pid := hasRoom_congr htab
    refine ⟨v', hserve, ?_⟩
    rw [hfail (hsame ▸ hfull)]
    exact hs
  · refine ⟨_, hserve, ?_⟩
    rw [hbytes]
    have hlw : w'.tmpLookup name.path = some idx := by
      rw [tmpLookup, (sameObjects_getOrCreate hg).tmp]
      exact hl
    exact (hs.getOrCreate hg).put (inUse_getOrCreate hg) hlw (Nat.two_pow_pos 63)

/-- **Opening the file follows the model.** -/
theorem agrees_open {pathPtr : ℕ} (hs : Shows name s.vfs s.file s.desc)
    (hfit : Fits name s.vfs pid (.open pathPtr flags) = true)
    (hp : (readCstrRaw env.mem pathPtr).map normalize = some name.path) :
    Agrees name (serve s.vfs env pid (.open pathPtr flags))
      (s.model env pid (.open pathPtr flags)) := by
  unfold Fits at hfit
  cases hl : s.vfs.tmpLookup name.path with
  | none =>
    have hfile : s.file = none := by rw [hs.file, hl]; rfl
    simp only [hl] at hfit
    -- Without `O_CREAT`, or without an entry for it, there is no file to open.
    have herror (err : ℕ) (ho : openTmp s.vfs name.path flags = (s.vfs, .error err))
        (hm : s.model env pid (.open pathPtr flags) = (s, errReply err)) :
        Agrees name (serve s.vfs env pid (.open pathPtr flags))
          (s.model env pid (.open pathPtr flags)) := by
      obtain ⟨path, hread, hnorm⟩ := map_eq_some_iff.1 hp
      refine ⟨s.vfs, ?_, hm ▸ hs⟩
      rw [hm]
      simp only [serve, handleOpen, hread, hnorm, openKind_of_isTmpPath name.isTmp name.ne_tmp, Except.map, ho]
      rfl
    cases hcreat : hasFlag flags oCreat with
    | false =>
      exact herror 2 (by simp [openTmp, hl, hcreat]) (by simp [Compared.model, hfile, hcreat])
    | true =>
      cases hfree : s.vfs.freeTmp with
      | none =>
        exact herror 28 (by simp [openTmp, hl, hcreat, hfree])
          (by simp [Compared.model, hfile, hcreat, hfree])
      | some =>
        have hroom : s.vfs.hasRoom pid = true := by simpa [hcreat, hfree] using hfit
        refine agrees_attach (hs.create hl hfree) hp rfl (tmpLookup_create hl)
          (by simp [openTmp, hl, hcreat, hfree]) (by simp [hfile]) (by simp [hcreat])
          (by simp [hfree]) fun hno => ?_
        rw [hroom] at hno
        cases hno
  | some idx =>
    have hfile : s.file = some (loadBytes (s.vfs.tmp idx).data 0 (s.vfs.tmp idx).len) := by
      rw [hs.file, hl]; rfl
    simp only [hl] at hfit
    cases htrunc : hasFlag flags oTrunc with
    | true =>
      have hcut : Shows name (s.vfs.setBytes idx (s.vfs.tmp idx).data 0) (some []) s.desc :=
        hs.setBytes hl (Nat.zero_le _)
      refine agrees_attach hcut hp rfl (tmpLookup_setBytes.trans hl)
        (by simp [openTmp, hl, htrunc, setBytes]) (by simp [htrunc])
        (by simp [hfile]) (by simp [hfile]) fun hno => ?_
      -- Without room for a descriptor the file was empty before.
      have hlen : (s.vfs.tmp idx).len = 0 := by simpa [htrunc, hno] using hfit
      rw [hfile, hlen, loadBytes_zero]
    | false =>
      have hopen : openTmp s.vfs name.path flags =
          (s.vfs, .ok (.tmpFile idx 0 (hasFlag flags (oWronly ||| oRdwr)))) := by
        cases hw : hasFlag flags oWronly with
        | false => simp [openTmp, hl, htrunc, hw]
        | true =>
          have hlen : (s.vfs.tmp idx).len = 0 := by simpa [htrunc, hw] using hfit
          simp [openTmp, hl, htrunc, hw, hlen]
      exact agrees_attach (hfile ▸ hs) hp rfl hl hopen (by simp [htrunc, hfile])
        (by simp [hfile]) (by simp [hfile]) fun _ => hfile

/-! ### Requests on a descriptor -/

/-- The descriptor `fd` of the process is for the file, which is the entry `idx` of the pool. -/
structure State.IsFile (v : State) (name : TmpName) (pid fd : ℕ) (t : Fin maxProcs) (i : Fin maxFds)
    (idx : Fin maxTmpFiles) (d : OpenFile) : Prop where
  descriptor : v.descriptor pid fd = some (t, i)
  lookup : v.tmpLookup name.path = some idx
  kind : (v.fd t i).kind = .tmpFile idx d.offset d.writable
  append : d.append = hasFlag (v.fd t i).flags oAppend

namespace State.IsFile

variable (h : v.IsFile name pid fd t i idx d)
include h

theorem isOpen : v.Open t i := open_of_descriptor h.descriptor

theorem target : v.target (maxFds + 1) pid fd = some (some (t, i)) :=
  target_of_descriptor h.descriptor fun m => by simp [h.kind]

theorem setBytes {data : ℕ → UInt8} {len : ℕ} :
    (v.setBytes idx data len).IsFile name pid fd t i idx d where
  descriptor := h.descriptor
  lookup := tmpLookup_setBytes.trans h.lookup
  kind := h.kind
  append := h.append

section

variable (hs : Shows name v file desc)
include hs

theorem file_eq : file = some (v.content idx) := by
  rw [hs.file, h.lookup]
  rfl

theorem desc_eq : d.offset < 2 ^ 63 ∧ desc (t, i) = d := by
  obtain ⟨hlt, hd⟩ := hs.desc t i idx d.offset d.writable h.isOpen h.kind h.lookup
  exact ⟨hlt, by rw [hd, ← h.append]⟩

/-- The model has not changed. -/
theorem shows_self : Shows name v file (update desc (t, i) d) := by
  rw [← (h.desc_eq hs).2, update_eq_self]
  exact hs

/-- The descriptor gets another offset. -/
theorem shows_setKind {off : ℕ} (hoff : off < 2 ^ 63) :
    Shows name (v.setKind t i (.tmpFile idx off d.writable)) file
      (update desc (t, i) { d with offset := off }) := by
  have hentry : ({ v.fd t i with kind := .tmpFile idx off d.writable } : FdEntry) =
      ⟨.tmpFile idx off d.writable, (v.fd t i).flags, true⟩ := by rw [← h.isOpen.2]
  rw [setKind, hentry, h.append]
  exact hs.put h.isOpen.1 h.lookup hoff

end

end State.IsFile

/-- The server returns with the reply of the model, and shows the bytes and the descriptor of the model
afterwards. -/
def Follows (name : TmpName) (desc : Fin maxProcs × Fin maxFds → OpenFile)
    (ti : Fin maxProcs × Fin maxFds) (out : Option (State × Reply))
    (m : List UInt8 × OpenFile × Reply) : Prop :=
  ∃ v', out = some (v', m.2.2) ∧ Shows name v' (some m.1) (Function.update desc ti m.2.1)

/-- A request on a descriptor follows the model where it does so on a descriptor for the file, and
fails on a number that is not in use. -/
theorem agrees_onDescriptor {out : Option (State × Reply)}
    {f : OpenFile → List UInt8 → List UInt8 × OpenFile × Reply}
    (hs : Shows name s.vfs s.file s.desc)
    (hon : (s.vfs.descriptor pid fd).all (fun (t, i) => (s.vfs.tmpLookup name.path).isSome &&
      decide ((s.vfs.fd t i).kind.tmpIdx = s.vfs.tmpLookup name.path)) = true)
    (hbad : s.vfs.descriptor pid fd = none → out = some (s.vfs, errReply 9))
    (hfile : ∀ t i idx d, s.vfs.IsFile name pid fd t i idx d → Follows name s.desc (t, i) out
      (f d (loadBytes (s.vfs.tmp idx).data 0 (s.vfs.tmp idx).len))) :
    Agrees name out (s.onDescriptor pid fd f) := by
  unfold Compared.onDescriptor
  rcases hd : s.vfs.descriptor pid fd with _ | ⟨t, i⟩
  · exact ⟨s.vfs, hbad hd, hs⟩
  · rw [hd, all_some] at hon
    simp only [Bool.and_eq_true, isSome_iff_exists, decide_eq_true_eq] at hon
    obtain ⟨⟨idx, hl⟩, hk⟩ := hon
    obtain ⟨pos, writable, hk⟩ : ∃ pos writable,
        (s.vfs.fd t i).kind = .tmpFile idx pos writable := by
      rw [hl] at hk
      cases hkind : (s.vfs.fd t i).kind <;> simp_all [VnodeKind.tmpIdx]
    have h : s.vfs.IsFile name pid fd t i idx
        ⟨pos, writable, hasFlag (s.vfs.fd t i).flags oAppend⟩ := ⟨hd, hl, hk, rfl⟩
    simp only [(h.desc_eq hs).2, h.file_eq hs, getD_some]
    exact hfile t i idx _ h

section

variable (hs : Shows name v file desc) (h : v.IsFile name pid fd t i idx d)
include hs h

theorem follows_read {buf count : ℕ} (hc : count ≠ 0) :
    Follows name desc (t, i) (handleRead v env pid fd buf count)
      (v.content idx, d.read (v.content idx) buf count) := by
  have hsize : (v.tmp idx).len ≤ 4096 := hs.size idx h.lookup
  have hoff := (h.desc_eq hs).1
  have hread : handleRead v env pid fd buf count = some (readEntry v env t i buf count) := by
    simp [handleRead, handleReadWithin, hc, h.target]
  -- The limit of 4096 bytes for one read is not reached.
  have hn : min (min count ((v.tmp idx).len - d.offset)) 4096 =
      min count ((v.tmp idx).len - d.offset) := by omega
  rw [h.file_eq hs] at hs
  rw [hread]
  unfold OpenFile.read
  simp only [readEntry, h.kind, hn, readAt, drop_loadBytes, take_loadBytes, Nat.zero_add,
    length_loadBytes]
  generalize hm : min count ((v.tmp idx).len - d.offset) = n
  by_cases hzero : n = 0
  · subst hzero
    exact ⟨v, rfl, h.shows_self hs⟩
  · have hne : loadBytes (v.tmp idx).data d.offset n ≠ [] := by
      rw [← List.length_pos_iff, length_loadBytes]
      omega
    have hlt : d.offset + n < 2 ^ 63 := by omega
    refine ⟨v.setKind t i (.tmpFile idx (d.offset + n) d.writable), ?_, h.shows_setKind hs hlt⟩
    rw [if_neg hzero, if_neg hne]
    simp only [valReply, signed, if_pos (show n < 2 ^ 63 by omega)]

omit hs in
/-- The bytes between the end of the file and the offset of a write are zero. -/
theorem zero_of_noHole (hfit : v.noHole (v.fd t i) = true)
    (happ : d.append = false) (hlt : d.offset < maxTmpSize) :
    ∀ x, (v.tmp idx).len ≤ x → x < d.offset → (v.tmp idx).data x = 0 := by
  intro x hle hx
  simp only [noHole, h.kind, ← h.append, happ, Bool.false_or, Bool.or_eq_true,
    decide_eq_true_eq, List.all_eq_true, List.mem_range, beq_iff_eq] at hfit
  rcases hfit with hbig | hzero
  · omega
  · exact (hzero x hx).resolve_left (by omega)

theorem follows_write {buf count : ℕ} (hfit : v.noHole (v.fd t i) = true) (hc : count ≠ 0) :
    Follows name desc (t, i) (handleWrite v env pid fd buf count)
      (d.write (v.content idx) env.mem buf count) := by
  have hsize : (v.tmp idx).len ≤ 4096 := hs.size idx h.lookup
  have hwrite : handleWrite v env pid fd buf count = some (writeEntry v env t i buf count) := by
    simp [handleWrite, handleWriteWithin, hc, h.target]
  have hmax : maxTmpSize = 4096 := rfl
  rw [h.file_eq hs] at hs
  rw [hwrite]
  unfold OpenFile.write
  simp only [writeEntry, h.kind, ← h.append, length_loadBytes]
  generalize hoff : (if d.append = true then (v.tmp idx).len else d.offset) = off
  cases hw : d.writable with
  | false => exact ⟨v, rfl, h.shows_self hs⟩
  | true =>
    by_cases hzero : min count (maxTmpSize - off) = 0
    · rw [if_pos hzero, if_pos hzero]
      exact ⟨v, rfl, h.shows_self hs⟩
    · rw [if_neg hzero, if_neg hzero]
      generalize hn : min count (maxTmpSize - off) = n at hzero
      have hclean : ∀ x, (v.tmp idx).len ≤ x → x < off → (v.tmp idx).data x = 0 := by
        intro x hle hlt
        cases happ : d.append with
        | true =>
          rw [happ, if_pos rfl] at hoff
          omega
        | false =>
          rw [happ, if_neg (by decide)] at hoff
          subst hoff
          exact zero_of_noHole h hfit happ (by omega) x hle hlt
      have hfile : (v.setBytes idx (storeBytes (v.tmp idx).data off (loadBytes env.mem buf n))
          (max (v.tmp idx).len (off + n))).IsFile name pid fd t i idx d := h.setBytes
      have hshows := hfile.shows_setKind (hs.setBytes h.lookup (by omega))
        (show off + n < 2 ^ 63 by omega)
      have hreply : valReply n [] = ⟨n, []⟩ := by
        simp only [valReply, signed, if_pos (show n < 2 ^ 63 by omega)]
      rw [hw] at hshows
      rw [hreply, writeAt_loadBytes hclean, length_loadBytes]
      exact ⟨_, rfl, hshows⟩

omit hs h in
/-- The wrap of a seek is that of the sum with the offset. -/
theorem seek_eq_base {len : ℕ} {offset : ℤ} {whence : ℕ} {bytes : List UInt8}
    (hlt : d.offset < 2 ^ 63) (hlen : bytes.length = len) (hle : len ≤ 4096)
    (hlo : -2 ^ 63 ≤ offset) (hhi : offset < 2 ^ 63) :
    seek d.offset len offset whence =
      (d.base bytes whence).elim (.error 22) fun b =>
        if b + offset < 0 ∨ 2 ^ 63 ≤ b + offset then .error 22 else .ok (b + offset).toNat := by
  have hif (x : ℕ) (hx : x < 2 ^ 63) :
      (if Int.bmod (signed x + offset) (2 ^ 64) < 0 then Except.error 22
        else .ok (Int.bmod (signed x + offset) (2 ^ 64)).toNat : Except ℕ ℕ) =
      if (x : ℤ) + offset < 0 ∨ 2 ^ 63 ≤ (x : ℤ) + offset then .error 22
        else .ok ((x : ℤ) + offset).toNat := by
    have hwrap : Int.bmod (signed x + offset) (2 ^ 64) =
        if 2 ^ 63 ≤ (x : ℤ) + offset then x + offset - 2 ^ 64 else x + offset := by
      rw [signed, if_pos hx, Int.bmod_def]
      split_ifs <;> omega
    rw [hwrap]
    split_ifs <;> first | rfl | omega
  unfold seek OpenFile.base
  rcases whence with _ | _ | _ | n
  · simp only [zero_add, elim_some]
    split_ifs <;> first | rfl | omega
  · exact hif d.offset hlt
  · subst hlen
    exact hif bytes.length (by omega)
  · rfl

theorem follows_lseek {offset : ℤ} {whence : ℕ} (hlo : -2 ^ 63 ≤ offset) (hhi : offset < 2 ^ 63) :
    Follows name desc (t, i) (some (handleLseek v env pid fd offset whence))
      (v.content idx, d.lseek (v.content idx) offset whence) := by
  have hlen := length_loadBytes (v.tmp idx).data 0 (v.tmp idx).len
  have hseek := @seek_eq_base d _ _ whence _ (h.desc_eq hs).1 hlen (hs.size idx h.lookup) hlo hhi
  rw [h.file_eq hs] at hs
  unfold OpenFile.lseek
  simp only [handleLseek, h.descriptor, h.kind, hseek]
  cases d.base (v.content idx) whence with
  | none => exact ⟨v, rfl, h.shows_self hs⟩
  | some b =>
    simp only [elim_some]
    by_cases hbad : b + offset < 0 ∨ 2 ^ 63 ≤ b + offset
    · rw [if_pos hbad, if_pos hbad]
      exact ⟨v, rfl, h.shows_self hs⟩
    · rw [if_neg hbad, if_neg hbad]
      have hlt : (b + offset).toNat < 2 ^ 63 := by omega
      refine ⟨_, ?_, h.shows_setKind hs hlt⟩
      simp only [seekReply, valReply, signed, if_pos hlt]
      rw [Int.toNat_of_nonneg (by omega)]

theorem follows_ftruncate {newLen : ℕ} :
    Follows name desc (t, i) (some (handleFtruncate v pid fd newLen))
      (if maxTmpSize < newLen then (v.content idx, d, errReply 28)
        else (resize (v.content idx) newLen, d, okReply)) := by
  rw [h.file_eq hs] at hs
  simp only [handleFtruncate, h.descriptor, h.kind]
  by_cases hbig : maxTmpSize < newLen
  · rw [if_pos hbig, if_pos hbig]
    exact ⟨v, rfl, h.shows_self hs⟩
  · rw [if_neg hbig, if_neg hbig, resize_loadBytes]
    exact ⟨_, rfl, h.setBytes.shows_self (hs.setBytes h.lookup (Nat.not_lt.1 hbig))⟩

theorem follows_close :
    Follows name desc (t, i) (some (handleClose v pid fd))
      (v.content idx, d, okReply) := by
  rw [h.file_eq hs] at hs
  simp only [handleClose, h.descriptor, h.kind]
  exact ⟨_, rfl, (h.shows_self hs).drop h.isOpen.1⟩

end

/-! ### Runs -/

/-- The offset of a seek is a signed 64-bit number. -/
theorem lseek_bounds {msg : Message} {offset : ℤ} {whence : ℕ}
    (h : msg.decode = .lseek fd offset whence) : -2 ^ 63 ≤ offset ∧ offset < 2 ^ 63 := by
  obtain ⟨b, hb, rfl⟩ : ∃ b < 2 ^ 64, signed b = offset := by
    simp only [Message.decode] at h
    split at h <;> cases h
    exact ⟨_, msg.arg1.toNat_lt, rfl⟩
  unfold signed
  split <;> omega

/-- **Every request on the file returns and follows the model.** -/
theorem agrees_handle {msg : Message} (hs : Shows name s.vfs s.file s.desc)
    (hon : OnFile name s.vfs env pid msg.decode = true)
    (hfit : Fits name s.vfs pid msg.decode = true) :
    Agrees name (handle s.vfs env msg pid) (s.model env pid msg.decode) := by
  unfold handle
  generalize hreq : msg.decode = req at hon hfit ⊢
  cases req with
  | «open» => exact agrees_open hs hfit (of_decide_eq_true hon)
  | read fd buf count =>
    by_cases hc : count = 0
    · subst hc
      exact ⟨s.vfs, rfl, hs⟩
    · simp only [Compared.model, if_neg hc]
      refine agrees_onDescriptor hs hon (fun hd => ?_) fun t i idx d h => follows_read hs h hc
      simp [serve, handleRead, handleReadWithin, hc, target_of_none hd]
  | write fd buf count =>
    by_cases hc : count = 0
    · subst hc
      exact ⟨s.vfs, rfl, hs⟩
    · simp only [Compared.model, if_neg hc]
      refine agrees_onDescriptor hs hon (fun hd => ?_) fun t i idx d h => ?_
      · simp [serve, handleWrite, handleWriteWithin, hc, target_of_none hd]
      · simp only [Fits, h.descriptor, all_some] at hfit
        exact follows_write hs h hfit hc
  | lseek =>
    obtain ⟨hlo, hhi⟩ := lseek_bounds hreq
    exact agrees_onDescriptor hs hon (fun hd => by simp [serve, handleLseek, hd])
      fun t i idx d h => follows_lseek hs h hlo hhi
  | ftruncate =>
    exact agrees_onDescriptor hs hon (fun hd => by simp [serve, handleFtruncate, hd])
      fun t i idx d h => follows_ftruncate hs h
  | close =>
    exact agrees_onDescriptor hs hon (fun hd => by simp [serve, handleClose, hd])
      fun t i idx d h => follows_close hs h
  | _ => cases hon

theorem agreed_step {c : Call} {s' : Compared}
    (hi : s.agreed = true ∧ Shows name s.vfs s.file s.desc)
    (hg : OnFile name s.vfs c.env c.pid c.msg.decode = true ∧
      Fits name s.vfs c.pid c.msg.decode = true) (hstep : s.step c = some s') :
    s'.agreed = true ∧ Shows name s'.vfs s'.file s'.desc := by
  obtain ⟨v', hv', hs'⟩ := agrees_handle hi.2 hg.1 hg.2
  rw [Compared.step, hv', map_some, some.injEq] at hstep
  subst hstep
  exact ⟨by simp [hi.1], hs'⟩

/-- **Tmpfs files are byte vectors.**  From any state that shows the model, along every run of requests
on the file that meet `Fits`, all replies and all data are those of the model, the file has at most
`MAX_TMP_SIZE` bytes, and every such request returns. -/
theorem tmpfs_refines_posix {v₀ : State} (h₀ : Shows name v₀ file desc)
    (h : Run Compared.step (fun s c => OnFile name s.vfs c.env c.pid c.msg.decode = true ∧
      Fits name s.vfs c.pid c.msg.decode = true) ⟨v₀, file, desc, true⟩ s) :
    s.agreed = true ∧
    (s.file = (s.vfs.tmpLookup name.path).map fun idx =>
      loadBytes (s.vfs.tmp idx).data 0 (s.vfs.tmp idx).len) ∧
    (∀ bytes ∈ s.file, bytes.length ≤ maxTmpSize) ∧
    ∀ c : Call, OnFile name s.vfs c.env c.pid c.msg.decode = true →
      Fits name s.vfs c.pid c.msg.decode = true → (s.step c).isSome = true := by
  have hinv : s.agreed = true ∧ Shows name s.vfs s.file s.desc :=
    h.invariant ⟨rfl, h₀⟩ fun _ _ _ hi hg hstep => agreed_step hi hg hstep
  obtain ⟨hagreed, hs⟩ := hinv
  refine ⟨hagreed, hs.file, fun bytes hb => ?_, fun c hon hfit => ?_⟩
  · rw [hs.file, mem_def] at hb
    obtain ⟨idx, hl, rfl⟩ := map_eq_some_iff.1 hb
    rw [length_loadBytes]
    exact hs.size idx hl
  · obtain ⟨v', hv', -⟩ := agrees_handle hs hon hfit
    simp [Compared.step, hv']

/-- A file is written past its end, cut, and read by a second process. -/
theorem tmpfs_refines_posix_shared : ∃ (name : TmpName) (s : Compared),
    Run Compared.step (fun s c => OnFile name s.vfs c.env c.pid c.msg.decode = true ∧
      Fits name s.vfs c.pid c.msg.decode = true)
      .start s ∧
    s.file = some [7, 0, 0, 8] ∧ s.agreed = true := by
  let name : TmpName := ⟨bstr "/tmp/a", by decide, by decide, by decide⟩
  exact ⟨name, Run.exists_guarded_with
    [.ofBytes (bstr "/tmp/a") 1 0x10 4096 0x42 0, .ofBytes [7] 1 0x12 3 4096 1,
      .ofBytes [] 1 0x15 3 3 0, .ofBytes [8, 9] 1 0x12 3 4096 2, .ofBytes [] 1 0x21 3 4 0,
      .ofBytes (bstr "/tmp/a") 2 0x10 4096 0 0, .ofBytes [] 2 0x11 3 4096 9,
      .ofBytes [] 1 0x13 3 0 0] (by decide +kernel)
    fun _ hrun _ => (tmpfs_refines_posix (.start name _) hrun).1⟩

/-- A descriptor that is opened with `O_WRONLY` writes at the end of the file; and where a write leaves
a hole, a byte that was cut off comes back. -/
theorem append_and_stale_bytes : ∃ name : TmpName,
    (∃ s, Run Compared.step (fun s c => OnFile name s.vfs c.env c.pid c.msg.decode = true)
      .start s ∧ s.agreed = false ∧ s.file = some [8] ∧
      loadBytes (s.vfs.tmp 0).data 0 (s.vfs.tmp 0).len = [7, 8]) ∧
    ∃ s, Run Compared.step (fun s c => OnFile name s.vfs c.env c.pid c.msg.decode = true)
      .start s ∧ s.agreed = false ∧
      s.file = some [0, 9] ∧ loadBytes (s.vfs.tmp 0).data 0 (s.vfs.tmp 0).len = [5, 9] := by
  let name : TmpName := ⟨bstr "/tmp/a", by decide, by decide, by decide⟩
  refine ⟨name, ?_, ?_⟩
  · exact Run.exists_of_guarded
      [.ofBytes (bstr "/tmp/a") 1 0x10 4096 0x42 0, .ofBytes [7] 1 0x12 3 4096 1,
        .ofBytes (bstr "/tmp/a") 1 0x10 4096 1 0, .ofBytes [8] 1 0x12 4 4096 1,
        .ofBytes [] 1 0x11 3 4096 1] (by decide +kernel)
  · exact Run.exists_of_guarded
      [.ofBytes (bstr "/tmp/a") 1 0x10 4096 0x42 0, .ofBytes [5, 6] 1 0x12 3 4096 2,
        .ofBytes [] 1 0x21 3 0 0, .ofBytes [] 1 0x15 3 1 0, .ofBytes [9] 1 0x12 3 4096 1,
        .ofBytes [] 1 0x15 3 0 0, .ofBytes [] 1 0x11 3 4096 2] (by decide +kernel)

end Cyanos.Vfs
