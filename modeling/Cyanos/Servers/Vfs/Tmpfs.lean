import Cyanos.Servers.Vfs.Objects

/-!
# The tmpfs pool over requests

All that a request can do to the entries of the tmpfs pool, one case for each thing that it does
(`TmpEffect`, `serve_tmpEffect`).  What holds of files is derived from this.

* `serve_takes` : an entry comes into use when a file is created or generated, or a directory is
  made; it is then the first one that was not in use.
* `opens_keep_pool` : a process that opens without `O_CREAT`, reads and closes takes no entries, unless
  it opens the name of a generated file; that one is not given up again (`generated_file_leaks`).
-/

namespace Cyanos.Vfs

open Lib Function

variable {v v' w : State} {env : Env} {pid : ℕ} {req : Request} {reply : Reply} {t : Fin maxProcs}
  {i : Fin maxFds} {idx : Fin maxTmpFiles} {path : List UInt8}

/-- What a request can do to the pool. -/
inductive TmpEffect (v : State) (env : Env) (pid : ℕ) :
    Request → (Fin maxTmpFiles → TmpFileEntry) → Prop
  | same (req : Request) : TmpEffect v env pid req v.tmp
  | truncated {pathPtr : ℕ} {flags : BitVec 32} {path : List UInt8} (idx : Fin maxTmpFiles) :
    readCstrRaw env.mem pathPtr = some path → v.tmpLookup (normalize path) = some idx →
    hasFlag flags oTrunc = true →
    TmpEffect v env pid (.open pathPtr flags) (update v.tmp idx { v.tmp idx with len := 0 })
  | created {pathPtr : ℕ} {flags : BitVec 32} {path : List UInt8} (idx : Fin maxTmpFiles) :
    readCstrRaw env.mem pathPtr = some path → isTmpPath (normalize path) = true →
    normalize path ≠ bstr "/tmp" → v.tmpLookup (normalize path) = none →
    hasFlag flags oCreat = true → v.freeTmp = some idx →
    TmpEffect v env pid (.open pathPtr flags) (update v.tmp idx (.named (normalize path) false))
  | generated {pathPtr : ℕ} {flags : BitVec 32} {path base content : List UInt8}
    (idx : Fin maxTmpFiles) :
    readCstrRaw env.mem pathPtr = some path →
    Generates env pid (normalize path) base content → v.freeTmp = some idx →
    TmpEffect v env pid (.open pathPtr flags) (update v.tmp idx (.generated base content idx))
  | written {n buf count : ℕ} (idx : Fin maxTmpFiles) (data : ℕ → UInt8) (len : ℕ) :
    TmpEffect v env pid (.write n buf count)
      (update v.tmp idx { v.tmp idx with data := data, len := len })
  | resized {n newLen : ℕ} (idx : Fin maxTmpFiles) (data : ℕ → UInt8) (len : ℕ) :
    TmpEffect v env pid (.ftruncate n newLen)
      (update v.tmp idx { v.tmp idx with data := data, len := len })
  | unlinked {pathPtr : ℕ} {path : List UInt8} (idx : Fin maxTmpFiles) :
    readCstrRaw env.mem pathPtr = some path → v.tmpLookup path = some idx →
    TmpEffect v env pid (.unlink pathPtr) (update v.tmp idx .empty)
  | madeDir {pathPtr : ℕ} {path : List UInt8} (idx : Fin maxTmpFiles) :
    readCstrRaw env.mem pathPtr = some path → isTmpPath path = true →
    (∀ j, (v.tmp j).inUse = true → (v.tmp j).path ≠ path) → v.freeTmp = some idx →
    TmpEffect v env pid (.mkdir pathPtr) (update v.tmp idx (.named path true))
  | renamed {oldPtr newPtr : ℕ} {old new : List UInt8} (idx : Fin maxTmpFiles) :
    readCstrRaw env.mem oldPtr = some old → readCstrRaw env.mem newPtr = some new →
    isTmpPath new = true → v.tmpLookup old = some idx →
    TmpEffect v env pid (.rename oldPtr newPtr)
      (update v.tmp idx { v.tmp idx with path := new.take (maxTmpPath - 1) })

theorem State.tmpLookup_eq_some (h : v.tmpLookup path = some idx) :
    (v.tmp idx).inUse = true ∧ (v.tmp idx).isDir = false ∧ (v.tmp idx).path = path := by
  have hp := (position_eq_some.1 h).1
  simpa [and_assoc] using hp

theorem State.freeTmp_eq_some (h : v.freeTmp = some idx) : (v.tmp idx).inUse = false := by
  have hp := (position_eq_some.1 h).1
  simpa using hp

@[simp] theorem State.tmp_setTmp_self {file : TmpFileEntry} : (v.setTmp idx file).tmp idx = file :=
  update_self ..

theorem State.tmp_setTmp_of_ne {file : TmpFileEntry} {j : Fin maxTmpFiles} (h : j ≠ idx) :
    (v.setTmp idx file).tmp j = v.tmp j :=
  update_of_ne h ..

theorem take_of_short (h : path.length < maxTmpPath) : path.take (maxTmpPath - 1) = path :=
  List.take_of_length_le (Nat.le_of_lt_succ h)

theorem path_named (isDir : Bool) (h : path.length < maxTmpPath) :
    (TmpFileEntry.named path isDir).path = path := take_of_short h

theorem openDevice_of_isTmpPath (h : isTmpPath path = true) : openDevice path = none := by
  have hne : ∀ dev : List UInt8, isTmpPath dev = false → path ≠ dev := by
    rintro dev hdev rfl
    rw [h] at hdev
    cases hdev
  unfold openDevice
  rw [if_neg (hne _ (by decide)), if_neg (hne _ (by decide)), if_neg, if_neg (hne _ (by decide)),
    if_neg (hne _ (by decide)), if_neg (hne _ (by decide)), if_neg (hne _ (by decide))]
  rintro (hdev | hdev)
  · exact hne _ (by decide) hdev
  · exact hne _ (by decide) hdev

theorem openKind_of_isTmpPath (h : isTmpPath path = true) (hne : path ≠ bstr "/tmp") :
    openKind v env pid path flags = .ok (openTmp v path flags) := by
  rw [openKind, openDevice_of_isTmpPath h]
  exact if_pos ⟨h, hne⟩

/-- The paths of generated files are not under `/tmp/`. -/
theorem Generates.isTmpPath_eq_false {base content : List UInt8}
    (h : Generates env pid path base content) : isTmpPath path = false := by
  obtain ⟨-, hnot, hkind⟩ := h
  by_contra htmp
  rw [Bool.not_eq_false] at htmp
  have hroot : path = bstr "/tmp" := by
    by_contra hne
    exact hnot ⟨htmp, hne⟩
  subst hroot
  rcases hkind with ⟨hself, -⟩ | ⟨-, hsys, -⟩
  · exact absurd hself (by decide)
  · exact absurd hsys (by decide)

/-- The pool after an open is the one after it found or created what the path names. -/
theorem tmp_handleOpen {pathPtr : ℕ} {flags : BitVec 32} {r : Except ℕ VnodeKind}
    (h : handleOpen v env pid pathPtr flags = .ok (v', reply))
    (hp : readCstrRaw env.mem pathPtr = some path)
    (hk : openKind v env pid (normalize path) flags = .ok (w, r)) : v'.tmp = w.tmp := by
  rcases handleOpen_cases h with ⟨-, -, hnone⟩ | ⟨path', w', r', hp', hk', hr⟩
  · rw [hp] at hnone
    cases hnone
  · obtain rfl := Option.mem_unique hp hp'
    cases hk.symm.trans hk'
    rcases hr with ⟨e, -, rfl, -⟩ | ⟨kind, -, ⟨rfl, -⟩ | ⟨t, i, hn, -⟩⟩
    · rfl
    · rfl
    · exact (sameObjects_newFd hn).tmp

theorem OpenEffect.tmpEffect {pathPtr : ℕ} {flags : BitVec 32} {r : Except ℕ VnodeKind}
    (h : OpenEffect v env pid (normalize path) flags w r)
    (hp : readCstrRaw env.mem pathPtr = some path) :
    TmpEffect v env pid (.open pathPtr flags) w.tmp := by
  cases h with
  | same => exact .same _
  | found idx pos htmp hne hl =>
    split
    · next htrunc => exact .truncated idx hp hl htrunc
    · exact .same _
  | created idx htmp hne hl hc hfree => exact .created idx hp htmp hne hl hc hfree
  | generated idx base content hg hfree => exact .generated idx hp hg hfree

theorem WriteEffect.tmpEffect {n buf count : ℕ} {out : State × Reply}
    (h : WriteEffect v env t i buf count out) :
    TmpEffect v env pid (.write n buf count) out.1.tmp := by
  cases h with
  | file idx pos pos' data len => exact .written ..
  | pipe =>
    rw [writePipe]
    split <;> exact .same _
  | _ => exact .same _

theorem tmpEffect_handleUnlink (v : State) (env : Env) (pid pathPtr : ℕ) :
    TmpEffect v env pid (.unlink pathPtr) (handleUnlink v env pathPtr).1.tmp := by
  unfold handleUnlink
  split
  · exact .same _
  next hp =>
  split
  · split
    · next idx hl => exact .unlinked idx hp hl
    · exact .same _
  · exact .same _

theorem tmpEffect_handleMkdir (v : State) (env : Env) (pid pathPtr : ℕ) :
    TmpEffect v env pid (.mkdir pathPtr) (handleMkdir v env pathPtr).1.tmp := by
  unfold handleMkdir
  split
  · exact .same _
  next hp =>
  split_ifs with htmp _ hnone
  · exact .same _
  · exact .same _
  · exact .same _
  split
  · next idx hfree =>
    refine .madeDir idx hp (by simpa using htmp) (fun j hu hpath => hnone ?_) hfree
    exact ⟨j, hu, hpath⟩
  · exact .same _

/-- A rename fails without an effect, or gives the file that was found its new name. -/
theorem handleRename_cases {oldPtr newPtr : ℕ} (h : handleRename v env oldPtr newPtr = (v', reply)) :
    (v' = v ∧ reply.value ≠ 0) ∨
      ∃ old new idx, readCstrRaw env.mem oldPtr = some old ∧ readCstrRaw env.mem newPtr = some new ∧
        isTmpPath new = true ∧ v.tmpLookup old = some idx ∧
        v' = v.setTmp idx { v.tmp idx with path := new.take (maxTmpPath - 1) } ∧
        reply = okReply := by
  have hfail : ∀ e : ℕ, e ≠ 0 → (v, errReply e) = (v', reply) → v' = v ∧ reply.value ≠ 0 := by
    intro e he heq
    cases heq
    exact ⟨rfl, by simpa [errReply] using he⟩
  unfold handleRename at h
  split at h
  swap
  · exact .inl (hfail 14 (by decide) h)
  next old new ho hn =>
  split at h
  swap
  · exact .inl (hfail 30 (by decide) h)
  next htmp =>
  split at h
  · next idx hl =>
    cases h
    exact .inr ⟨old, new, idx, ho, hn, htmp.2, hl, rfl, rfl⟩
  · exact .inl (hfail 2 (by decide) h)

theorem tmpEffect_handleFtruncate (v : State) (env : Env) (pid n newLen : ℕ) :
    TmpEffect v env pid (.ftruncate n newLen) (handleFtruncate v pid n newLen).1.tmp := by
  unfold handleFtruncate
  split
  · exact .same _
  split
  · split
    · exact .same _
    · exact .resized _ _ _
  · exact .same _

/-- **What a request does to the pool.** -/
theorem serve_tmpEffect (h : serve v env pid req = some (v', reply)) :
    TmpEffect v env pid req v'.tmp := by
  by_cases hreq : req.usesTmp = false
  · rw [(serve_spares h).tmp hreq]
    exact .same req
  cases req with
  | «open» =>
    have hopen := ok_of_toOption h
    rcases handleOpen_cases hopen with ⟨rfl, -⟩ | ⟨path, w, r, hp, hk, -⟩
    · exact .same _
    · rw [tmp_handleOpen hopen hp hk]
      exact (openKind_effect hk).tmpEffect hp
  | write n buf count =>
    rcases handleWrite_cases h with ⟨rfl, -⟩ | ⟨t, i, -, -, -, heff⟩
    · exact .same _
    · exact heff.tmpEffect
  | unlink p => exact fst_of_some h ▸ tmpEffect_handleUnlink v env pid p
  | mkdir p => exact fst_of_some h ▸ tmpEffect_handleMkdir v env pid p
  | rename =>
    rcases handleRename_cases (Option.some.inj h) with
      ⟨rfl, -⟩ | ⟨old, new, idx, ho, hn, htmp, hl, rfl, -⟩
    · exact .same _
    · exact .renamed idx ho hn htmp hl
  | ftruncate n len => exact fst_of_some h ▸ tmpEffect_handleFtruncate v env pid n len
  | _ => exact absurd rfl hreq

/-- The request can take an entry of the pool: it opens a name under `/tmp/` that is not found, with
`O_CREAT`, or a name of a generated file, or it makes a directory. -/
def Request.creates (v : State) (env : Env) : Request → Bool
  | .open pathPtr flags =>
    match readCstrRaw env.mem pathPtr with
    | some path =>
      let path := normalize path
      if isTmpPath path && path != bstr "/tmp" then
        (v.tmpLookup path).isNone && hasFlag flags oCreat
      else isProcSelf path || isProcSystem path
    | none => false
  | .mkdir _ => true
  | _ => false

/-- What becomes of one entry of the pool. -/
inductive TmpFate (v : State) (env : Env) (pid : ℕ) (idx : Fin maxTmpFiles) :
    Request → TmpFileEntry → Prop
  | unused {req : Request} {file : TmpFileEntry} : file.inUse = false → TmpFate v env pid idx req file
  | kept {req : Request} {file : TmpFileEntry} : file.inUse = (v.tmp idx).inUse →
    file.path = (v.tmp idx).path → TmpFate v env pid idx req file
  | renamed {oldPtr newPtr : ℕ} {file : TmpFileEntry} : file.inUse = (v.tmp idx).inUse →
    TmpFate v env pid idx (.rename oldPtr newPtr) file
  | created {pathPtr : ℕ} {flags : BitVec 32} {path : List UInt8} :
    readCstrRaw env.mem pathPtr = some path → isTmpPath (normalize path) = true →
    normalize path ≠ bstr "/tmp" → v.tmpLookup (normalize path) = none →
    hasFlag flags oCreat = true → v.freeTmp = some idx →
    TmpFate v env pid idx (.open pathPtr flags) (.named (normalize path) false)
  | generated {pathPtr : ℕ} {flags : BitVec 32} {path base content : List UInt8} :
    readCstrRaw env.mem pathPtr = some path → Generates env pid (normalize path) base content →
    v.freeTmp = some idx →
    TmpFate v env pid idx (.open pathPtr flags) (.generated base content idx)
  | madeDir {pathPtr : ℕ} {path : List UInt8} : readCstrRaw env.mem pathPtr = some path →
    v.freeTmp = some idx → TmpFate v env pid idx (.mkdir pathPtr) (.named path true)

theorem TmpEffect.fate {tmp : Fin maxTmpFiles → TmpFileEntry} (h : TmpEffect v env pid req tmp)
    (idx : Fin maxTmpFiles) : TmpFate v env pid idx req (tmp idx) := by
  have hother : ∀ {j : Fin maxTmpFiles} {file : TmpFileEntry}, idx ≠ j →
      TmpFate v env pid idx req (update v.tmp j file idx) := fun hne => by
    rw [update_of_ne hne]
    exact .kept rfl rfl
  have hsplit : ∀ {j : Fin maxTmpFiles} {file : TmpFileEntry},
      (idx = j → TmpFate v env pid idx req file) →
      TmpFate v env pid idx req (update v.tmp j file idx) := by
    intro j file hself
    by_cases hidx : idx = j
    · have hfile := hself hidx
      rwa [hidx, update_self, ← hidx]
    · exact hother hidx
  cases h with
  | same => exact .kept rfl rfl
  | truncated | written | resized =>
    exact hsplit fun hidx => .kept (by rw [hidx]) (by rw [hidx])
  | created j hp htmp hne hl hc hfree =>
    exact hsplit fun hidx => .created hp htmp hne hl hc (hidx ▸ hfree)
  | generated j hp hgen hfree =>
    refine hsplit fun hidx => ?_
    subst hidx
    exact .generated hp hgen hfree
  | unlinked => exact hsplit fun _ => .unused rfl
  | madeDir j hp _ _ hfree => exact hsplit fun hidx => .madeDir hp (hidx ▸ hfree)
  | renamed => exact hsplit fun hidx => .renamed (by rw [hidx])

/-- **An entry that comes into use is the first one that was free, and the request is one that
creates.** -/
theorem serve_takes (h : serve v env pid req = some (v', reply)) (hu : (v.tmp idx).inUse = false)
    (hu' : (v'.tmp idx).inUse = true) : v.freeTmp = some idx ∧ req.creates v env = true := by
  have hfate := (serve_tmpEffect h).fate idx
  generalize v'.tmp idx = file at hfate hu'
  cases hfate with
  | unused hno =>
    rw [hno] at hu'
    cases hu'
  | kept hsame | renamed hsame =>
    rw [hsame, hu] at hu'
    cases hu'
  | created hp htmp hne hl hc hfree =>
    exact ⟨hfree, by simp [Request.creates, hp, htmp, hne, hl, hc]⟩
  | generated hp hg hfree =>
    refine ⟨hfree, ?_⟩
    rcases hg.2.2 with ⟨hself, -⟩ | ⟨-, hsys, -⟩
    · simp [Request.creates, hp, hg.isTmpPath_eq_false, hself]
    · simp [Request.creates, hp, hg.isTmpPath_eq_false, hsys]
  | madeDir hp hfree => exact ⟨hfree, rfl⟩

/-- An entry is given up only by an unlink. -/
theorem serve_gives_up (h : serve v env pid req = some (v', reply)) (hu : (v.tmp idx).inUse = true)
    (hu' : (v'.tmp idx).inUse = false) : ∃ pathPtr, req = .unlink pathPtr := by
  have heff := serve_tmpEffect h
  generalize v'.tmp = tmp at heff hu'
  cases heff with
  | unlinked => exact ⟨_, rfl⟩
  | same =>
    rw [hu] at hu'
    cases hu'
  | _ =>
    rw [update_apply] at hu'
    split at hu'
    · next hidx =>
      subst hidx
      simp [hu, TmpFileEntry.named, TmpFileEntry.generated] at hu'
    · rw [hu] at hu'
      cases hu'

/-! ### Opening and closing -/

/-- The number of free entries of the pool. -/
def State.freeFiles (v : State) : ℕ :=
  (List.finRange maxTmpFiles).countP fun idx => !(v.tmp idx).inUse

/-- The process opens without `O_CREAT`, reads or closes. -/
def OnlyReads (pid : ℕ) (c : Call) : Bool :=
  c.pid == pid &&
    match c.msg.decode with
    | .open _ flags => !hasFlag flags oCreat
    | .read _ _ _ | .close _ => true
    | _ => false

/-- **Opening and closing takes no entries of the pool**: from any state, in every run of a process
that opens without `O_CREAT`, reads and closes, and does not open the name of a generated file while
an entry is free, the number of free entries stays the same. -/
theorem opens_keep_pool {v₀ : State} (h : Run step (fun v c => OnlyReads pid c = true ∧
    (c.msg.decode.creates v c.env = false ∨ v.freeTmp = none)) v₀ v) :
    v.freeFiles = v₀.freeFiles := by
  have hsame : ∀ idx, (v.tmp idx).inUse = (v₀.tmp idx).inUse := by
    refine h.invariant (I := fun v => ∀ idx, (v.tmp idx).inUse = (v₀.tmp idx).inUse)
      (fun _ => rfl) fun v c v' hi hg hstep idx => ?_
    obtain ⟨⟨_, reply⟩, hs, rfl⟩ := Option.map_eq_some_iff.1 hstep
    rw [← hi idx]
    cases hu : (v.tmp idx).inUse with
    | false =>
      rw [← Bool.not_eq_true]
      intro hu'
      obtain ⟨hfree, hc⟩ := serve_takes hs hu hu'
      rcases hg.2 with hno | hno
      · exact absurd (hc.symm.trans hno) (by decide)
      · exact absurd (hfree.symm.trans hno) (by simp)
    | true =>
      rw [← Bool.not_eq_false]
      intro hu'
      obtain ⟨p, hreq⟩ := serve_gives_up hs hu hu'
      have hread := hg.1
      simp [OnlyReads, hreq] at hread
  simp only [State.freeFiles, hsame]

/-- The file is opened twice, read and closed. -/
theorem opens_keep_pool_file : ∃ v, Run step (fun v c => OnlyReads 1 c = true ∧
    (c.msg.decode.creates v c.env = false ∨ v.freeTmp = none)) written v ∧
    (v.descriptor 1 4 = none ∧ v.descriptor 1 5 ≠ none ∧ (v.tmp 0).inUse = true) ∧
    v.freeFiles = written.freeFiles :=
  Run.exists_guarded_with
    [.ofBytes (bstr "/tmp/a") 1 0x10 4096 0 0, .ofBytes (bstr "/tmp/a") 1 0x10 4096 0 0,
      .ofBytes [] 1 0x11 4 4096 1, .ofBytes [] 1 0x13 4 0 0] (by decide +kernel)
    fun _ hrun _ => opens_keep_pool hrun

/-- The entry of a generated file is not given up when its descriptor is closed. -/
theorem generated_file_leaks : ∃ v, Run step (fun _ c => OnlyReads 1 c = true) boot v ∧
    v.descriptor 1 3 = none ∧ v.freeFiles + 1 = boot.freeFiles :=
  Run.exists_of_guarded
    [.ofBytes (bstr "/proc/uptime") 1 0x10 4096 0 0, .ofBytes [] 1 0x11 3 4096 1,
      .ofBytes [] 1 0x13 3 0 0] (by decide +kernel)

end Cyanos.Vfs
