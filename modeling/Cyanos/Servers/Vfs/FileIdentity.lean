import Cyanos.Servers.Vfs.Tmpfs

/-!
# The file of a descriptor

A descriptor for a tmpfs file has the index of an entry of the pool.  Every file has a number, that
of the call with which its entry came into use, and every descriptor has the number of the file that
its open call, or that of the descriptor it was copied from, has named (`Filed`).

An entry that was unlinked can be taken for another file while there are descriptors for it, and
these then read and write the other file (`unlinked_reads_other`).

* `descriptor_keeps_file` : in a run in which no request takes an entry for which there is a
  descriptor (`TakesUnheld`), reads and writes are always of the file that was named.
-/

namespace Cyanos.Vfs

open Lib

variable {v v' w : State} {env : Env} {pid : ℕ} {req : Request} {reply : Reply}
  {t : Fin maxProcs} {i : Fin maxFds} {idx : Fin maxTmpFiles} {kind : VnodeKind}

/-- The server with the files that entries and descriptors are for. -/
structure Filed where
  vfs : State
  /-- The number of the next call. -/
  next : ℕ
  /-- The file in an entry of the pool, also when it is unlinked; `0` if there was none. -/
  file : Fin maxTmpFiles → ℕ
  /-- The file that was named when the descriptor was opened, if it is one for a file. -/
  label : Fin maxProcs → Fin maxFds → ℕ

namespace Filed

/-- Before the first call. -/
def start : Filed := ⟨boot, 1, fun _ => 0, fun _ _ => 0⟩

/-- The file that an open call names: the one that is found under `/tmp/`, or a new one. -/
def named (s : Filed) (path : List UInt8) : ℕ :=
  match s.vfs.tmpLookup path with
  | some idx => if isTmpPath path then s.file idx else s.next
  | none => s.next

/-- The files of the descriptors after a call. -/
def relabel (s : Filed) (env : Env) (pid : ℕ) (req : Request) (t : Fin maxProcs)
    (i : Fin maxFds) : ℕ :=
  match req.source s.vfs pid t i with
  | some (t₀, i₀) => s.label t₀ i₀
  | none =>
    match req with
    | .open pathPtr _ => (readCstrRaw env.mem pathPtr).elim 0 fun path => s.named (normalize path)
    | _ => 0

/-- The files in the pool after a call: an entry that comes into use is for a new file. -/
def refile (s : Filed) (v' : State) (idx : Fin maxTmpFiles) : ℕ :=
  if (s.vfs.tmp idx).inUse = false ∧ (v'.tmp idx).inUse = true then s.next else s.file idx

/-- The server after a call. -/
def step (s : Filed) (c : Call) : Option Filed :=
  (handle s.vfs c.env c.msg c.pid).map fun (v', _) =>
    ⟨v', s.next + 1, s.refile v', s.relabel c.env c.pid c.msg.decode⟩

end Filed

/-- The entry of the pool that a descriptor is for. -/
def VnodeKind.tmpIdx : VnodeKind → Option (Fin maxTmpFiles)
  | .tmpFile idx _ _ => some idx
  | _ => Option.none

theorem VnodeKind.tmpIdx_object : kind.object.tmpIdx = kind.tmpIdx := by
  cases kind <;> rfl

/-- If the request creates a file or a directory, there is no descriptor for the entry it takes. -/
def TakesUnheld (v : State) (env : Env) (req : Request) : Prop :=
  req.creates v env = true → ∀ idx, v.freeTmp = some idx →
    ∀ t i, v.Open t i → (v.fd t i).kind.tmpIdx ≠ some idx

instance : Decidable (TakesUnheld v env req) := inferInstanceAs (Decidable (_ → ∀ _, _))

/-! ### The invariant -/

/-- Every descriptor for a file is for the entry with the file that it was opened for. -/
structure FileInv (s : Filed) : Prop where
  label : ∀ t i idx, s.vfs.Open t i → (s.vfs.fd t i).kind.tmpIdx = some idx →
    s.file idx = s.label t i
  lt : ∀ idx, s.file idx < s.next

namespace FileInv

variable {s : Filed}

/-- What an open call names is in the entry that the new descriptor is for. -/
theorem refile_of_opened {pathPtr : ℕ} {flags : BitVec 32} {path : List UInt8}
    (h : serve s.vfs env pid (.open pathPtr flags) = some (v', reply))
    (hp : readCstrRaw env.mem pathPtr = some path)
    (hopen : openKind s.vfs env pid (normalize path) flags = .ok (w, .ok kind))
    (hk : kind.tmpIdx = some idx) : s.refile v' idx = s.named (normalize path) := by
  have htmp : v'.tmp = w.tmp := tmp_handleOpen (ok_of_toOption h) hp hopen
  -- An entry that is taken was not in use, and is in use afterwards.
  have htaken : ∀ file : TmpFileEntry, s.vfs.freeTmp = some idx → file.inUse = true →
      v'.tmp = (s.vfs.setTmp idx file).tmp → s.refile v' idx = s.next := by
    intro file hfree hin heq
    refine if_pos ⟨State.freeTmp_eq_some hfree, ?_⟩
    simp [heq, State.setTmp, hin]
  have heff := openKind_effect hopen
  generalize hr : Except.ok kind = r at heff
  cases heff with
  | same _ hplain =>
    have hp := hplain kind hr.symm
    cases kind <;> cases hp <;> cases hk
  | found j pos htmpPath hne hl =>
    cases hr
    cases hk
    simp [Filed.refile, (State.tmpLookup_eq_some hl).1, Filed.named, hl, htmpPath]
  | created j htmpPath hne hl hc hfree =>
    cases hr
    cases hk
    rw [htaken _ hfree rfl htmp]
    simp [Filed.named, hl]
  | generated j base content hg hfree =>
    cases hr
    cases hk
    rw [htaken _ hfree rfl htmp, Filed.named, hg.isTmpPath_eq_false]
    cases s.vfs.tmpLookup (normalize path) <;> rfl

/-- **Every call that takes no entry with a descriptor keeps the invariant.** -/
theorem serve (hi : FileInv s) (hg : TakesUnheld s.vfs env req)
    (h : serve s.vfs env pid req = some (v', reply)) :
    FileInv ⟨v', s.next + 1, s.refile v', s.relabel env pid req⟩ where
  label t i idx ho hk := by
    show s.refile v' idx = s.relabel env pid req t i
    rcases serve_open h ho with ⟨t₀, i₀, hs, ho0, hobj⟩ | ⟨hs, -, hmade⟩
    · have hk0 : (s.vfs.fd t₀ i₀).kind.tmpIdx = some idx := by
        rw [← VnodeKind.tmpIdx_object, ← hobj, VnodeKind.tmpIdx_object]
        exact hk
      -- an entry with a descriptor is not taken
      have hkept : s.refile v' idx = s.file idx := if_neg fun hu =>
        have htakes := serve_takes h hu.1 hu.2
        hg htakes.2 idx htakes.1 t₀ i₀ ho0 hk0
      rw [hkept, hi.label t₀ i₀ idx ho0 hk0]
      simp only [Filed.relabel, hs]
    · simp only [Filed.relabel, hs]
      have hk' : (v'.fd t i).kind.tmpIdx = some idx := hk
      revert hmade hk'
      generalize (v'.fd t i).kind = kind
      intro hmade hk'
      cases hmade with
      | «open» hp hopen =>
        rw [refile_of_opened h hp hopen hk']
        simp [hp]
      | pipe | eventfd | timerfdCreate => cases hk'
  lt idx := by
    show s.refile v' idx < s.next + 1
    have hlt := hi.lt idx
    unfold Filed.refile
    split <;> omega

theorem start : FileInv .start where
  label t i idx ho hk := by
    have hkind : (Filed.start.vfs.fd t i).kind = .devNull := boot_kind ho
    rw [hkind] at hk
    cases hk
  lt idx := Nat.zero_lt_one

theorem step {c : Call} {s' : Filed} (hi : FileInv s)
    (hg : TakesUnheld s.vfs c.env c.msg.decode) (h : s.step c = some s') : FileInv s' := by
  obtain ⟨⟨v', reply⟩, hhandle, rfl⟩ := Option.map_eq_some_iff.1 h
  exact hi.serve hg hhandle

end FileInv

/-! ### Reads and writes -/

/-- A read of a file gives bytes of it from the position on. -/
theorem readEntry_tmpFile {buf count pos : ℕ} {writable : Bool}
    (hk : (v.fd t i).kind = .tmpFile idx pos writable)
    (h : readEntry v env t i buf count = (v', reply)) :
    ∃ m, m ≤ (v.tmp idx).len - pos ∧ reply.bytes = loadBytes (v.tmp idx).data pos m := by
  simp only [readEntry, hk] at h
  split at h
  · cases h
    exact ⟨0, Nat.zero_le _, rfl⟩
  · cases h
    refine ⟨_, ?_, List.append_nil _⟩
    exact (Nat.min_le_left ..).trans (Nat.min_le_right ..)

/-- A write to a file changes no other entry of the pool. -/
theorem WriteEffect.tmp_of_ne {buf count pos : ℕ} {writable : Bool}
    (hk : (v.fd t i).kind = .tmpFile idx pos writable)
    (heff : WriteEffect v env t i buf count (v', reply)) (j : Fin maxTmpFiles) (hj : j ≠ idx) :
    v'.tmp j = v.tmp j := by
  generalize hout : (v', reply) = out at heff
  cases heff with
  | file idx' pos₁ pos₂ data len reply' hk' =>
    cases hout
    cases hk.symm.trans hk'
    exact Function.update_of_ne hj ..
  | pipe r hk' => cases hk.symm.trans hk'
  | same | moves | event =>
    cases hout
    rfl

/-- **A descriptor keeps its file, in a run in which no entry with a descriptor is taken.**  The bytes
that a read of a tmpfs descriptor gives are bytes of the file that was named when it was opened, and
a write to it changes this file alone; a file that is created by a later call is another one. -/
theorem descriptor_keeps_file {s : Filed}
    (h : Run Filed.step (fun s c => TakesUnheld s.vfs c.env c.msg.decode) .start s) (c : Call)
    (n buf count : ℕ) (t : Fin maxProcs) (i : Fin maxFds) (idx : Fin maxTmpFiles) (pos : ℕ)
    (writable : Bool) (v' : State) (reply : Reply)
    (htarget : s.vfs.target (maxFds + 1) c.pid n = some (some (t, i)))
    (hk : (s.vfs.fd t i).kind = .tmpFile idx pos writable)
    (hhandle : handle s.vfs c.env c.msg c.pid = some (v', reply)) :
    s.file idx = s.label t i ∧ s.label t i < s.next ∧
      (c.msg.decode = .read n buf count →
        ∃ m, m ≤ (s.vfs.tmp idx).len - pos ∧
          reply.bytes = loadBytes (s.vfs.tmp idx).data pos m) ∧
      (c.msg.decode = .write n buf count → ∀ j, j ≠ idx → v'.tmp j = s.vfs.tmp j) := by
  have hi : FileInv s := h.invariant .start fun _ _ _ hi hg hstep => hi.step hg hstep
  have hfile : s.file idx = s.label t i :=
    hi.label t i idx (State.target_eq_some htarget).2.1 (by rw [hk]; rfl)
  refine ⟨hfile, hfile ▸ hi.lt idx, fun hmsg => ?_, fun hmsg j hj => ?_⟩
  · rw [handle, hmsg] at hhandle
    rcases handleRead_cases hhandle with ⟨-, ⟨-, rfl⟩ | ⟨hbad, -⟩⟩ | ⟨t', i', htarget', -, hentry, -⟩
    · exact ⟨0, Nat.zero_le _, rfl⟩
    · rw [htarget] at hbad
      cases hbad
    · rw [htarget] at htarget'
      cases htarget'
      exact readEntry_tmpFile hk hentry
  · rw [handle, hmsg] at hhandle
    rcases handleWrite_cases hhandle with ⟨rfl, -⟩ | ⟨t', i', htarget', -, -, heff⟩
    · rfl
    · rw [htarget] at htarget'
      cases htarget'
      exact heff.tmp_of_ne hk j hj

/-- A read of two bytes from the descriptor 3 of process 1. -/
def readThree : Call := .ofBytes [] 1 0x11 3 4096 2

/-- A file is unlinked and closed, and another one is created in its entry. -/
theorem descriptor_keeps_file_after_close :
    ∃ s, Run Filed.step (fun s c => TakesUnheld s.vfs c.env c.msg.decode) .start s ∧
      (s.label 0 3 = 5 ∧ s.vfs.target (maxFds + 1) readThree.pid 3 = some (some (0, 3)) ∧
        (s.vfs.fd 0 3).kind = .tmpFile 0 0 true ∧
        (handle s.vfs readThree.env readThree.msg readThree.pid).map (·.2.bytes) = some [9]) ∧
      s.file 0 = s.label 0 3 ∧ ∃ m, [9] = loadBytes (s.vfs.tmp 0).data 0 m := by
  refine Run.exists_guarded_with
    [.ofBytes (bstr "/tmp/a") 1 0x10 4096 0x42 0, .ofBytes [7, 8] 1 0x12 3 4096 2,
      .ofBytes (bstr "/tmp/a") 1 0x1F 4096 0 0, .ofBytes [] 1 0x13 3 0 0,
      .ofBytes (bstr "/tmp/b") 1 0x10 4096 0x42 0, .ofBytes [9] 1 0x12 3 4096 1,
      .ofBytes [] 1 0x15 3 0 0] (by decide +kernel) fun s hrun hp => ?_
  obtain ⟨-, htarget, hk, hread⟩ := hp
  obtain ⟨⟨v', reply⟩, hhandle, hbytes⟩ := Option.map_eq_some_iff.1 hread
  obtain ⟨hfile, -, hreads, -⟩ := descriptor_keeps_file hrun readThree 3 4096 2 0 3 0 0 true v' reply
    htarget hk hhandle
  obtain ⟨m, -, hm⟩ := hreads rfl
  exact ⟨hfile, m, hbytes ▸ hm⟩

/-- A file is unlinked, another one is created and written: a read of the descriptor for the first
one gives the bytes of the second one. -/
theorem unlinked_reads_other :
    ∃ s, Reach Filed.step .start s ∧ (s.vfs.fd 0 3).kind = .tmpFile 0 0 true ∧
      (handle s.vfs readThree.env readThree.msg readThree.pid).map (·.2.bytes) = some [7] ∧
      (s.vfs.tmp 0).path = bstr "/tmp/b" ∧ s.label 0 3 = 1 ∧ s.file 0 = 3 :=
  Run.exists_of_foldlM
    [.ofBytes (bstr "/tmp/a") 1 0x10 4096 0x42 0, .ofBytes (bstr "/tmp/a") 1 0x1F 4096 0 0,
      .ofBytes (bstr "/tmp/b") 1 0x10 4096 0x42 0, .ofBytes [7] 1 0x12 4 4096 1] (by decide +kernel)

end Cyanos.Vfs
