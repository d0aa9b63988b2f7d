import Cyanos.Servers.Vfs.Tmpfs

/-!
# Names of tmpfs files

The entries in use of the tmpfs pool should have different paths, and a file should be found under
the name that it was given.

Opening a file looks for files of that name and not for directories; a rename and the names of
generated files are not looked up at all; and names are cut off after `MAX_TMP_PATH - 1` bytes
(`name_twice_and_name_lost`).

* `names_unique` : in a run in which every new name is short and is not the path of an entry in use
  (`NamesFresh`), paths are unique and every file is found under its name.
-/

namespace Cyanos.Vfs

open Lib Function State

variable {v v' : State} {env : Env} {pid : ℕ} {req : Request} {reply : Reply}
  {idx : Fin maxTmpFiles} {tmp : Fin maxTmpFiles → TmpFileEntry}

/-- The server with the names of the entries of the pool. -/
structure Named where
  vfs : State
  /-- The name that an entry in use was made with, or that it was given by a rename. -/
  name : Fin maxTmpFiles → List UInt8

namespace Named

/-- Before the first call. -/
def start : Named := ⟨boot, fun _ => []⟩

/-- The name with which a call makes an entry.  A generated file has the name that it is stored
under. -/
def newName (env : Env) (req : Request) (stored : List UInt8) : List UInt8 :=
  match req with
  | .open pathPtr _ =>
    match readCstrRaw env.mem pathPtr with
    | some path => if isTmpPath (normalize path) then normalize path else stored
    | none => stored
  | .mkdir pathPtr => (readCstrRaw env.mem pathPtr).getD stored
  | _ => stored

/-- The name of an entry after a call. -/
def rename (s : Named) (env : Env) (req : Request) (v' : State) (reply : Reply)
    (idx : Fin maxTmpFiles) : List UInt8 :=
  if (s.vfs.tmp idx).inUse = false ∧ (v'.tmp idx).inUse = true then
    newName env req (v'.tmp idx).path
  else
    match req with
    | .rename oldPtr newPtr =>
      if reply.value = 0 ∧
          (readCstrRaw env.mem oldPtr).bind s.vfs.tmpLookup = some idx then
        (readCstrRaw env.mem newPtr).getD []
      else s.name idx
    | _ => s.name idx

/-- The server after a call. -/
def step (s : Named) (c : Call) : Option Named :=
  (handle s.vfs c.env c.msg c.pid).map fun (v', reply) =>
    ⟨v', s.rename c.env c.msg.decode v' reply⟩

end Named

/-! ### Calls with fresh names -/

/-- No entry in use has this path, apart from those that are left out. -/
def State.NoPath (v : State) (path : List UInt8) (except : Option (Fin maxTmpFiles)) : Prop :=
  ∀ j, some j ≠ except → (v.tmp j).inUse = true → (v.tmp j).path ≠ path

instance {path : List UInt8} {except : Option (Fin maxTmpFiles)} :
    Decidable (v.NoPath path except) :=
  inferInstanceAs (Decidable (∀ _, _))

/-- The path of an open call is one that it does not create or generate, or is fresh: it has less
than `MAX_TMP_PATH` bytes and no entry in use has it; the name under which a file is generated is not
the path of an entry in use. -/
def OpensFresh (v : State) (path : List UInt8) (flags : BitVec 32) : Prop :=
  if isTmpPath path = true ∧ path ≠ bstr "/tmp" then
    v.tmpLookup path = none → hasFlag flags oCreat = true →
      path.length < maxTmpPath ∧ v.NoPath path none
  else
    ∀ idx, v.freeTmp = some idx →
      (isProcSelf path = true → v.NoPath (bstr "/tmp/.proc_" ++ decimal idx) none) ∧
        (isProcSystem path = true → v.NoPath (bstr "/tmp/.psys_" ++ decimal idx) none)

instance {path : List UInt8} {flags : BitVec 32} : Decidable (OpensFresh v path flags) :=
  inferInstanceAs (Decidable (ite ..))

/-- Every name that the call gives is fresh. -/
def NamesFresh (v : State) (env : Env) : Request → Prop
  | .open pathPtr flags => ∀ path ∈ readCstrRaw env.mem pathPtr, OpensFresh v (normalize path) flags
  | .mkdir pathPtr => ∀ path ∈ readCstrRaw env.mem pathPtr, path.length < maxTmpPath
  | .rename oldPtr newPtr => ∀ old ∈ readCstrRaw env.mem oldPtr,
    ∀ new ∈ readCstrRaw env.mem newPtr, ∀ idx, v.tmpLookup old = some idx →
      new.length < maxTmpPath ∧ v.NoPath new (some idx)
  | _ => True

instance (v : State) (env : Env) (req : Request) : Decidable (NamesFresh v env req) := by
  rcases req <;> dsimp only [NamesFresh] <;> infer_instance

/-! ### Unique paths -/

/-- Entries in use have different paths. -/
def UniquePaths (tmp : Fin maxTmpFiles → TmpFileEntry) : Prop :=
  ∀ j k, (tmp j).inUse = true → (tmp k).inUse = true → (tmp j).path = (tmp k).path → j = k

/-- An entry is replaced by one that is not in use or has a path of its own. -/
theorem uniquePaths_update {file : TmpFileEntry} (h : UniquePaths tmp)
    (hfile : file.inUse = true → ∀ j, j ≠ idx → (tmp j).inUse = true → (tmp j).path ≠ file.path) :
    UniquePaths (update tmp idx file) := by
  intro j k hj hk hpath
  by_cases hji : j = idx
  · by_cases hki : k = idx
    · rw [hji, hki]
    · rw [hji, update_self] at hj hpath
      rw [update_of_ne hki] at hk hpath
      exact absurd hpath.symm (hfile hj k hki hk)
  · by_cases hki : k = idx
    · rw [hki, update_self] at hk hpath
      rw [update_of_ne hji] at hj hpath
      exact absurd hpath (hfile hk j hji hj)
    · rw [update_of_ne hji] at hj hpath
      rw [update_of_ne hki] at hk hpath
      exact h j k hj hk hpath

/-- The names of generated files are short. -/
theorem length_generated (idx : Fin maxTmpFiles) :
    (bstr "/tmp/.proc_" ++ decimal idx).length < maxTmpPath ∧
      (bstr "/tmp/.psys_" ++ decimal idx).length < maxTmpPath := by
  revert idx
  decide +kernel

/-- A generated file has a fresh name. -/
theorem Generates.noPath {path base content : List UInt8} {flags : BitVec 32}
    (h : Generates env pid path base content) (hfree : v.freeTmp = some idx)
    (hfresh : OpensFresh v path flags) :
    (TmpFileEntry.generated base content idx).path = base ++ decimal idx ∧
      v.NoPath (base ++ decimal idx) none := by
  rw [OpensFresh, if_neg h.2.1] at hfresh
  obtain ⟨hself, hsys⟩ := hfresh idx hfree
  obtain ⟨hlen1, hlen2⟩ := length_generated idx
  rcases h.2.2 with ⟨hp, -, rfl⟩ | ⟨-, hp, -, rfl⟩
  · exact ⟨path_named false hlen1, hself hp⟩
  · exact ⟨path_named false hlen2, hsys hp⟩

/-- A created file has a fresh name. -/
theorem OpensFresh.noPath {path : List UInt8} {flags : BitVec 32} (h : OpensFresh v path flags)
    (htmp : isTmpPath path = true) (hne : path ≠ bstr "/tmp") (hl : v.tmpLookup path = none)
    (hc : hasFlag flags oCreat = true) :
    (TmpFileEntry.named path false).path = path ∧ v.NoPath path none := by
  rw [OpensFresh, if_pos ⟨htmp, hne⟩] at h
  obtain ⟨hlen, hno⟩ := h hl hc
  exact ⟨path_named false hlen, hno⟩

/-- **Fresh names keep paths unique.** -/
theorem uniquePaths_serve (h : serve v env pid req = some (v', reply)) (hg : NamesFresh v env req)
    (hu : UniquePaths v.tmp) : UniquePaths v'.tmp := by
  have heff := serve_tmpEffect h
  generalize v'.tmp = tmp at heff
  cases heff with
  | same => exact hu
  | created idx hp htmp hne hl hc =>
    obtain ⟨hpath, hno⟩ := (hg _ hp).noPath htmp hne hl hc
    refine uniquePaths_update hu fun _ j _ huse => ?_
    rw [hpath]
    exact hno j (by simp) huse
  | generated idx hp hgen hfree =>
    obtain ⟨hpath, hno⟩ := hgen.noPath hfree (hg _ hp)
    refine uniquePaths_update hu fun _ j _ huse => ?_
    rw [hpath]
    exact hno j (by simp) huse
  | madeDir idx hp htmp hnone =>
    refine uniquePaths_update hu fun _ j _ huse => ?_
    rw [path_named true (hg _ hp)]
    exact hnone j huse
  | renamed idx ho hn htmp hl =>
    obtain ⟨hlen, hno⟩ := hg _ ho _ hn idx hl
    refine uniquePaths_update hu fun _ j hj huse => ?_
    rw [take_of_short hlen]
    exact hno j (by simpa using hj) huse
  | unlinked => exact uniquePaths_update hu fun hin => by cases hin
  | truncated | written | resized =>
    exact uniquePaths_update hu fun hin j hj huse hpath => hj (hu j _ huse hin hpath)

/-! ### Names -/

/-- Paths are unique, and every entry in use is stored under its name. -/
structure NameInv (s : Named) : Prop where
  unique : UniquePaths s.vfs.tmp
  stored : ∀ idx, (s.vfs.tmp idx).inUse = true → (s.vfs.tmp idx).path = s.name idx

namespace NameInv

variable {s : Named}

theorem stored_rename {oldPtr newPtr : ℕ} (hi : NameInv s)
    (hg : NamesFresh s.vfs env (.rename oldPtr newPtr))
    (h : Vfs.serve s.vfs env pid (.rename oldPtr newPtr) = some (v', reply))
    (hu : (v'.tmp idx).inUse = true) :
    (v'.tmp idx).path = s.rename env (.rename oldPtr newPtr) v' reply idx := by
  rcases handleRename_cases (Option.some.inj h) with
    ⟨rfl, hreply⟩ | ⟨old, new, j, ho, hn, -, hl, rfl, rfl⟩
  · rw [hi.stored idx hu]
    simp [Named.rename, hu, hreply]
  · obtain ⟨hlen, -⟩ := hg _ ho _ hn j hl
    have hlive := (tmpLookup_eq_some hl).1
    by_cases hidx : idx = j
    · subst hidx
      rw [take_of_short hlen]
      simp [Named.rename, setTmp, ho, hn, hl, okReply, hlive]
    · have hne : ¬ j = idx := fun heq => hidx heq.symm
      have hold : (s.vfs.tmp idx).inUse = true := by simpa [setTmp, hidx] using hu
      simp [Named.rename, setTmp, ho, hl, hidx, hne, hi.stored idx hold, hold]

theorem rename_of_ne (hreq : ∀ p q, req ≠ .rename p q) :
    s.rename env req v' reply idx =
      if (s.vfs.tmp idx).inUse = false ∧ (v'.tmp idx).inUse = true then
        Named.newName env req (v'.tmp idx).path
      else s.name idx := by
  cases req with
  | rename p q => exact absurd rfl (hreq p q)
  | _ => rfl

theorem stored_serve (hi : NameInv s) (hg : NamesFresh s.vfs env req)
    (h : Vfs.serve s.vfs env pid req = some (v', reply)) (hu : (v'.tmp idx).inUse = true) :
    (v'.tmp idx).path = s.rename env req v' reply idx := by
  by_cases hreq : ∃ p q, req = .rename p q
  · obtain ⟨p, q, rfl⟩ := hreq
    exact hi.stored_rename hg h hu
  rw [rename_of_ne fun p q hp => hreq ⟨p, q, hp⟩]
  have hfate := (serve_tmpEffect h).fate idx
  -- An entry that was taken was not in use.
  have hnew : s.vfs.freeTmp = some idx →
      (s.vfs.tmp idx).inUse = false ∧ (v'.tmp idx).inUse = true := fun hfree =>
    ⟨freeTmp_eq_some hfree, hu⟩
  revert hu hnew
  generalize v'.tmp idx = file at hfate
  intro hu hnew
  cases hfate with
  | unused hno =>
    rw [hno] at hu
    cases hu
  | kept hsame hpath =>
    have hold : (s.vfs.tmp idx).inUse = true := hsame ▸ hu
    rw [hpath, hi.stored idx hold, if_neg]
    simp [hold]
  | renamed => exact absurd ⟨_, _, rfl⟩ hreq
  | created hp htmp hne hl hc hfree =>
    rw [if_pos (hnew hfree), ((hg _ hp).noPath htmp hne hl hc).1]
    simp [Named.newName, hp, htmp]
  | generated hp hgen hfree =>
    rw [if_pos (hnew hfree)]
    simp [Named.newName, hp, hgen.isTmpPath_eq_false]
  | madeDir hp hfree =>
    rw [if_pos (hnew hfree), path_named true (hg _ hp)]
    simp [Named.newName, hp]

theorem start : NameInv .start := by
  have hfree : ∀ idx, (Named.start.vfs.tmp idx).inUse = false := fun idx =>
    congrArg TmpFileEntry.inUse (congrFun boot_sameObjects.tmp idx)
  constructor
  · intro j k hj
    rw [hfree j] at hj
    cases hj
  · intro idx hu
    rw [hfree idx] at hu
    cases hu

theorem step {c : Call} {s' : Named} (hi : NameInv s) (hg : NamesFresh s.vfs c.env c.msg.decode)
    (h : s.step c = some s') : NameInv s' := by
  obtain ⟨⟨v', reply⟩, hhandle, rfl⟩ := Option.map_eq_some_iff.1 h
  exact ⟨uniquePaths_serve hhandle hg hi.unique, fun idx hu => hi.stored_serve hg hhandle hu⟩

theorem tmpLookup (hi : NameInv s) (hu : (s.vfs.tmp idx).inUse = true)
    (hdir : (s.vfs.tmp idx).isDir = false) : s.vfs.tmpLookup (s.name idx) = some idx := by
  cases hl : s.vfs.tmpLookup (s.name idx) with
  | none =>
    have hnone := position_eq_none.1 hl idx
    simp [hu, hdir, hi.stored idx hu] at hnone
  | some j =>
    obtain ⟨hj, -, hpath⟩ := tmpLookup_eq_some hl
    rw [hi.unique j idx hj hu (hpath.trans (hi.stored idx hu).symm)]

end NameInv

/-- An open of a name that is found gives a descriptor for the file. -/
theorem openKind_of_tmpLookup {path : List UInt8} (flags : BitVec 32) (htmp : isTmpPath path = true)
    (hne : path ≠ bstr "/tmp") (hl : v.tmpLookup path = some idx) :
    ∃ w pos writable,
      openKind v env pid path flags = .ok (w, .ok (.tmpFile idx pos writable)) := by
  unfold openKind
  rw [openDevice_of_isTmpPath htmp]
  simp only [htmp, hne, ne_eq, not_false_eq_true, and_self, if_true, openTmp, hl]
  exact ⟨_, _, _, rfl⟩

/-- **Names are unique in a run with fresh names.**  No two entries in use have the same path.  A file
is found under the name that it was created with or renamed to, and an open of this name gives a
descriptor for it. -/
theorem names_unique {s : Named}
    (h : Run Named.step (fun s c => NamesFresh s.vfs c.env c.msg.decode) .start s) :
    (∀ j k, (s.vfs.tmp j).inUse = true → (s.vfs.tmp k).inUse = true →
        (s.vfs.tmp j).path = (s.vfs.tmp k).path → j = k) ∧
      ∀ idx, (s.vfs.tmp idx).inUse = true → (s.vfs.tmp idx).isDir = false →
        s.vfs.tmpLookup (s.name idx) = some idx ∧
        ∀ env pid flags, isTmpPath (s.name idx) = true → s.name idx ≠ bstr "/tmp" →
          ∃ w pos writable, openKind s.vfs env pid (s.name idx) flags =
            .ok (w, .ok (.tmpFile idx pos writable)) := by
  have hi : NameInv s := h.invariant .start fun _ _ _ hi hg hstep => hi.step hg hstep
  refine ⟨hi.unique, fun idx hu hdir => ?_⟩
  have hl := hi.tmpLookup hu hdir
  exact ⟨hl, fun env pid flags htmp hne => openKind_of_tmpLookup flags htmp hne hl⟩

/-- Two files are created and the first one is renamed. -/
theorem names_unique_after_rename :
    ∃ s, Run Named.step (fun s c => NamesFresh s.vfs c.env c.msg.decode) .start s ∧
      (s.name 0 = bstr "/tmp/c" ∧ (s.vfs.tmp 0).inUse = true ∧ (s.vfs.tmp 0).isDir = false) ∧
      s.vfs.tmpLookup (bstr "/tmp/c") = some 0 :=
  Run.exists_guarded_with
    [.ofBytes (bstr "/tmp/a") 1 0x10 4096 0x42 0, .ofBytes (bstr "/tmp/b") 1 0x10 4096 0x42 0,
      .ofBytes (bstr "/tmp/a" ++ [0] ++ bstr "/tmp/c") 1 0x22 4096 4103 0] (by decide +kernel)
    fun _ hrun hp => hp.1 ▸ ((names_unique hrun).2 0 hp.2.1 hp.2.2).1

/-- A file is renamed to the name of another one, and both have the same path.  A file with a long
name is created, and it is not found under this name. -/
theorem name_twice_and_name_lost :
    (∃ s, Reach Named.step .start s ∧ (s.vfs.tmp 0).inUse = true ∧ (s.vfs.tmp 1).inUse = true ∧
      (s.vfs.tmp 0).path = (s.vfs.tmp 1).path) ∧
    ∃ s, Reach Named.step .start s ∧ (s.vfs.tmp 0).inUse = true ∧
      s.name 0 = bstr "/tmp/" ++ List.replicate 70 97 ∧ s.vfs.tmpLookup (s.name 0) = none := by
  constructor
  · exact Run.exists_of_foldlM
      [.ofBytes (bstr "/tmp/a") 1 0x10 4096 0x42 0, .ofBytes (bstr "/tmp/b") 1 0x10 4096 0x42 0,
        .ofBytes (bstr "/tmp/a" ++ [0] ++ bstr "/tmp/b") 1 0x22 4096 4103 0] (by decide +kernel)
  · exact Run.exists_of_foldlM
      [.ofBytes (bstr "/tmp/" ++ List.replicate 70 97) 1 0x10 4096 0x42 0] (by decide +kernel)

end Cyanos.Vfs
