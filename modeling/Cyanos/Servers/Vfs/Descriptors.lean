import Cyanos.Servers.Vfs.Effects

/-!
# Descriptors over requests

A request can make new entries, copy an entry to another place, drop entries, and change the
position of a file; what an entry is for does not change otherwise.

* `serve_open` : where an open entry comes from, by `Request.source`.
* `serve_survives` : which entries stay open, by `Request.Drops`.
-/

namespace Cyanos.Vfs

open Lib State SameTables Request Option

variable {v v' w : State} {env : Env} {pid : ℕ} {req : Request} {reply : Reply}
  {t t' t₀ : Fin maxProcs} {i i' i₀ : Fin maxFds} {kind : VnodeKind} {p n oldfd : ℕ}

/-! ### Requests that keep all descriptors -/

/-- The request keeps all descriptors. -/
def Request.isQuiet : Request → Bool
  | .read _ _ _ | .write _ _ _ | .lseek _ _ _ | .fcntl _ _ _ | .getdents64 _ _ _ | .unlink _
  | .mkdir _ | .ftruncate _ _ | .rename _ _ | .fdPath _ _ _ | .timerfdSettime _ _ _
  | .timerfdGettime _ _ | .ioctl _ _ _ | .unknown => true
  | _ => false

theorem ok_of_toOption {α : Type} {x : Except Stuck α} {a : α} (h : x.toOption = some a) :
    x = .ok a := by
  cases x with
  | error => cases h
  | ok => rw [some.inj h]

theorem fst_of_some {x : State × Reply} (h : some x = some (v', reply)) : x.1 = v' := by
  rw [some.inj h]

/-- The request is on a name or a length of a tmpfs file, and is no open. -/
def Request.editsTmp : Request → Bool
  | .unlink _ | .mkdir _ | .ftruncate _ _ | .rename _ _ => true
  | _ => false

theorem serve_editsTmp (h : serve v env pid req = some (v', reply)) (hreq : req.editsTmp = true) :
    ∃ tmp, v' = { v with tmp := tmp } := by
  cases req with
  | unlink | mkdir | ftruncate | rename =>
    rw [← fst_of_some h]
    first | rw [handleUnlink] | rw [handleMkdir] | rw [handleFtruncate] | rw [handleRename]
    repeat' split
    all_goals exact ⟨_, rfl⟩
  | _ => cases hreq

theorem serve_timerfdSettime {a b : ℕ}
    (h : serve v env pid (.timerfdSettime n a b) = some (v', reply)) :
    ∃ timers, v' = { v with timers := timers } := by
  rw [← fst_of_some h, handleTimerfdSettime]
  repeat' split
  all_goals exact ⟨_, rfl⟩

theorem serve_sameTables (h : serve v env pid req = some (v', reply)) (hq : req.isQuiet = true) :
    SameTables v v' := by
  cases req with
  | read =>
    rcases handleRead_cases h with ⟨rfl, -⟩ | ⟨t, i, -, -, -, heff⟩
    · exact .refl _
    · exact heff.changesOnly.sameTables
  | write =>
    rcases handleWrite_cases h with ⟨rfl, -⟩ | ⟨t, i, -, -, -, heff⟩
    · exact .refl _
    · exact heff.changesOnly.sameTables
  | lseek fd offset whence =>
    exact fst_of_some h ▸ (handleLseek_effect v env pid fd offset whence).sameTables
  | fcntl fd cmd arg => exact fst_of_some h ▸ (handleFcntl_effect v pid fd cmd arg).sameTables
  | getdents64 fd buf count =>
    exact (handleGetdents64_effect (ok_of_toOption h)).sameTables
  | unlink | mkdir | ftruncate | rename =>
    obtain ⟨tmp, rfl⟩ := serve_editsTmp h rfl
    exact .of_tables rfl
  | timerfdSettime =>
    obtain ⟨timers, rfl⟩ := serve_timerfdSettime h
    exact .of_tables rfl
  | fdPath | timerfdGettime | ioctl | unknown => exact fst_of_some h ▸ .refl v
  | _ => cases hq

/-! ### Where open entries come from -/

/-- The place itself, if it is open. -/
def State.self (v : State) (t : Fin maxProcs) (i : Fin maxFds) :
    Option (Fin maxProcs × Fin maxFds) :=
  if v.Open t i then some (t, i) else none

/-- The entry that an entry is after the request: the one that was copied, or the one that was
there.  A copy by `dup` or `fork_dup` goes to a place that was not open. -/
def Request.source (v : State) (pid : ℕ) (req : Request) (t : Fin maxProcs) (i : Fin maxFds) :
    Option (Fin maxProcs × Fin maxFds) :=
  match req with
  | .dup2 oldfd newfd =>
    match v.descriptor pid oldfd with
    | some (t₀, i₀) => if t = t₀ ∧ i.val = newfd then some (t₀, i₀) else v.self t i
    | none => v.self t i
  | .allocFd oldfd =>
    match v.descriptor pid oldfd with
    | some (t₀, i₀) => if t = t₀ ∧ (v.fd t i).inUse = false then some (t₀, i₀) else v.self t i
    | none => v.self t i
  | .forkDup parentPid _ =>
    match v.findTbl parentPid with
    | some p => if (v.tables t).inUse = false then some (p, i) else v.self t i
    | none => v.self t i
  | _ => v.self t i

theorem State.self_eq_some (h : v.self t i = some (t₀, i₀)) : (t, i) = (t₀, i₀) := by
  rw [self] at h
  split at h
  · exact some.inj h
  · cases h

/-- What is not the place itself is copied. -/
theorem Request.source_eq_some (h : req.source v pid t i = some (t₀, i₀)) :
    (t, i) = (t₀, i₀) ∨
      (∃ oldfd newfd, req = .dup2 oldfd newfd ∧ v.descriptor pid oldfd = some (t₀, i₀)) ∨
      (∃ oldfd, req = .allocFd oldfd ∧ v.descriptor pid oldfd = some (t₀, i₀)) ∨
      ∃ p c, req = .forkDup p c ∧ v.findTbl p = some t₀ := by
  cases req with
  | dup2 oldfd newfd =>
    simp only [source] at h
    split at h
    · next hd =>
      split at h
      · exact .inr (.inl ⟨oldfd, newfd, rfl, hd.trans h⟩)
      · exact .inl (self_eq_some h)
    · exact .inl (self_eq_some h)
  | allocFd oldfd =>
    simp only [source] at h
    split at h
    · next hd =>
      split at h
      · exact .inr (.inr (.inl ⟨oldfd, rfl, hd.trans h⟩))
      · exact .inl (self_eq_some h)
    · exact .inl (self_eq_some h)
  | forkDup p c =>
    simp only [source] at h
    split at h
    · next hp =>
      split at h
      · cases h
        exact .inr (.inr (.inr ⟨p, c, rfl, hp⟩))
      · exact .inl (self_eq_some h)
    · exact .inl (self_eq_some h)
  | _ => exact .inl (self_eq_some h)

/-- The entry is one that the request drops. -/
def Request.Drops (v : State) (pid : ℕ) (req : Request) (t : Fin maxProcs) (i : Fin maxFds) : Prop :=
  match req with
  | .close n => v.descriptor pid n = some (t, i) ∧ ∀ r b, (v.fd t i).kind ≠ .pipe r b
  | .dup2 oldfd newfd => ∃ i₀, v.descriptor pid oldfd = some (t, i₀) ∧ i.val = newfd ∧ i ≠ i₀
  | .execCloexec p => v.findTbl p = some t ∧ hasFlag (v.fd t i).flags oCloexec = true
  | .closeAll p => v.findTbl p = some t
  | _ => False

/-- What an open entry comes from: another entry for the same object, or the request made it. -/
def Descends (v : State) (env : Env) (pid : ℕ) (req : Request) (v' : State) (t : Fin maxProcs)
    (i : Fin maxFds) : Prop :=
  (∃ t₀ i₀, req.source v pid t i = some (t₀, i₀) ∧ v.Open t₀ i₀ ∧
      (v'.fd t i).kind.object = (v.fd t₀ i₀).kind.object) ∨
    req.source v pid t i = none ∧ ¬ v.Open t i ∧ Makes v env pid req (v'.fd t i).kind

theorem Descends.of_open (hs : req.source v pid t i = v.self t i) (ho : v.Open t i)
    (hk : (v'.fd t i).kind.object = (v.fd t i).kind.object) : Descends v env pid req v' t i :=
  .inl ⟨t, i, by rw [hs, self, if_pos ho], ho, hk⟩

theorem Adds.descends (h : Adds v v' (Makes v env pid req))
    (hs : req.source v pid t i = v.self t i) (ho : v'.Open t i) :
    Descends v env pid req v' t i := by
  by_cases hv : v.Open t i
  · exact .of_open hs hv ((h t i).1 hv).2
  · exact .inr ⟨by rw [hs, self, if_neg hv], hv, (h t i).2 ho hv⟩

theorem SameOpen.descends (h : SameOpen v v') (hs : req.source v pid t i = v.self t i)
    (ho : v'.Open t i) : Descends v env pid req v' t i :=
  (h.adds _).descends hs ho

/-- The entry is dropped exactly where `Request.Drops` says so, and is for the same object else. -/
def Removes (v v' : State) (pid : ℕ) (req : Request) (t : Fin maxProcs) (i : Fin maxFds) : Prop :=
  (v'.Open t i ↔ v.Open t i ∧ ¬ req.Drops v pid t i) ∧
    (v'.Open t i → (v'.fd t i).kind = (v.fd t i).kind)

theorem Removes.descends (h : Removes v v' pid req t i) (hs : req.source v pid t i = v.self t i)
    (ho : v'.Open t i) : Descends v env pid req v' t i :=
  .of_open hs (h.1.1 ho).1 (by rw [h.2 ho])

theorem Removes.survives (h : Removes v v' pid req t i) (ho : v.Open t i)
    (hd : ¬ req.Drops v pid t i) :
    v'.Open t i ∧ (v'.fd t i).kind.object = (v.fd t i).kind.object :=
  ⟨h.1.2 ⟨ho, hd⟩, by rw [h.2 (h.1.2 ⟨ho, hd⟩)]⟩

/-- An entry that is put at a place is open there. -/
theorem State.open_setFd_iff {e : FdEntry} (ht : (v.tables t).inUse = true) :
    (v.setFd t i e).Open t' i' ↔
      if (t', i') = (t, i) then e.inUse = true else v.Open t' i' := by
  by_cases h : (t', i') = (t, i)
  · cases h
    simp [Open, ht]
  · simp [Open, fd_setFd_of_ne h, h]

theorem CloseEffect.open_iff (h : CloseEffect v pid n v' reply) :
    Removes v v' pid (.close n) t i := by
  have hcleared : ∀ t₀ i₀, v.descriptor pid n = some (t₀, i₀) →
      (∀ r b, (v.fd t₀ i₀).kind ≠ .pipe r b) →
      Removes v (v.setFd t₀ i₀ .empty) pid (.close n) t i := by
    intro t₀ i₀ hd hk
    have hopen := open_of_descriptor hd
    rw [Removes, open_setFd_iff hopen.1]
    by_cases h : (t, i) = (t₀, i₀)
    · cases h
      simp [Request.Drops, hd, FdEntry.empty, hk]
    · rw [if_neg h, fd_setFd_of_ne h]
      refine ⟨⟨fun ho => ⟨ho, fun hdrop => h ?_⟩, And.left⟩, fun _ => rfl⟩
      exact (some.inj (hd.symm.trans hdrop.1)).symm
  cases h with
  | bad hd => simp [Removes, Request.Drops, hd]
  | pipe t₀ i₀ r b hd hk =>
    refine ⟨⟨fun ho => ⟨ho, fun hdrop => ?_⟩, And.left⟩, fun _ => rfl⟩
    cases hd.symm.trans hdrop.1
    exact hdrop.2 r b hk
  | event t₀ i₀ slot hd hk | timer t₀ i₀ slot hd hk => exact hcleared t₀ i₀ hd (by simp [hk])
  | other t₀ i₀ hd hk => exact hcleared t₀ i₀ hd hk

theorem Request.source_allocFd_of_open (ho : v.Open t i) :
    (allocFd oldfd).source v pid t i = v.self t i := by
  rw [source]
  cases v.descriptor pid oldfd with
  | none => rfl
  | some => simp [ho.2]

theorem Request.source_forkDup_of_open {c : ℕ} (ho : v.Open t i) :
    (forkDup p c).source v pid t i = v.self t i := by
  rw [source]
  cases v.findTbl p with
  | none => rfl
  | some => simp [ho.1]

theorem open_handleDup2 {newfd : ℕ} (h : handleDup2 v pid oldfd newfd = (v', reply))
    (ho : v'.Open t i) : Descends v env pid (.dup2 oldfd newfd) v' t i := by
  rcases handleDup2_cases h with ⟨rfl, -, hfail⟩ | ⟨t₀, i₀, j, hd, hj, rfl, -⟩
  · refine .of_open ?_ ho rfl
    simp only [source]
    cases hd : v'.descriptor pid oldfd with
    | none => rfl
    | some =>
      have hge : maxFds ≤ newfd := hfail.resolve_left (by simp [hd])
      have hne : i.val ≠ newfd := Nat.ne_of_lt (Nat.lt_of_lt_of_le i.isLt hge)
      simp [hne]
  · have hopen := open_of_descriptor hd
    by_cases hti : (t, i) = (t₀, j)
    · cases hti
      refine .inl ⟨t, i₀, ?_, hopen, by rw [fd_setFd_self]⟩
      simp [source, hd, hj]
    · rw [open_setFd_iff hopen.1, if_neg hti] at ho
      refine .of_open ?_ ho (by rw [fd_setFd_of_ne hti])
      simp only [source, hd]
      refine if_neg fun heq => hti ?_
      rw [heq.1, Fin.ext (heq.2.trans hj.symm)]

theorem open_handleAllocFd (h : handleAllocFd v pid oldfd = (v', reply))
    (ho : v'.Open t i) : Descends v env pid (.allocFd oldfd) v' t i := by
  have hsame : SameOpen v v' → Descends v env pid (.allocFd oldfd) v' t i := fun hs =>
    hs.descends (source_allocFd_of_open ((hs t i).1.1 ho)) ho
  rcases handleAllocFd_cases h with ⟨rfl | ⟨t₀, hg⟩, -⟩ | ⟨t₀, i₀, j, hd, hj, rfl, -⟩
  · exact hsame (refl _).sameOpen
  · exact hsame (sameOpen_getOrCreate hg)
  · have hopen := open_of_descriptor hd
    by_cases hti : (t, i) = (t₀, j)
    · cases hti
      refine .inl ⟨t, i₀, ?_, hopen, by rw [fd_setFd_self]⟩
      simp [source, hd, hj]
    · rw [open_setFd_iff hopen.1, if_neg hti] at ho
      exact .of_open (source_allocFd_of_open ho) ho (by rw [fd_setFd_of_ne hti])

theorem open_handleForkDup {c : ℕ} (h : handleForkDup v p c = (v', reply)) (ho : v'.Open t i) :
    Descends v env pid (.forkDup p c) v' t i := by
  rcases (handleForkDup_cases h).2 with rfl | ⟨p', t₀, hp, ht, rfl⟩
  · exact .of_open (source_forkDup_of_open ho) ho rfl
  · by_cases hti : t = t₀
    · subst hti
      have hfd : (v.setTable t ⟨c, (v.tables p').fds, true⟩).fd t i = v.fd p' i := by
        rw [fd, tables_setTable_self, fd]
      have hu : (v.fd p' i).inUse = true := hfd ▸ ho.2
      refine .inl ⟨p', i, ?_, ⟨(findTbl_eq_some hp).1, hu⟩, by rw [hfd]⟩
      simp only [source, hp]
      exact if_pos (freeTbl_eq_some ht)
    · rw [State.Open, tables_setTable_of_ne hti, fd_setTable_of_ne hti] at ho
      exact .of_open (source_forkDup_of_open ho) ho (by rw [fd_setTable_of_ne hti])

/-- The entries of a table after `exec_cloexec`. -/
theorem execCloexec_open (pid : ℕ) (h : handleExecCloexec v p = (v', reply)) :
    Removes v v' pid (.execCloexec p) t i := by
  rw [Removes]
  rcases (handleExecCloexec_cases h).2 with ⟨hp, rfl⟩ | ⟨t₀, hp, rfl⟩
  · simp [Request.Drops, hp]
  · by_cases hti : t = t₀
    · subst hti
      have hfd : (v.setTable t { v.tables t with
          fds := fun i =>
            if (v.fd t i).inUse ∧ hasFlag (v.fd t i).flags oCloexec then .empty
            else v.fd t i }).fd t i =
          if (v.fd t i).inUse ∧ hasFlag (v.fd t i).flags oCloexec then .empty else v.fd t i := by
        rw [fd, tables_setTable_self]
      rw [State.Open, hfd, tables_setTable_self]
      by_cases hc : (v.fd t i).inUse = true ∧ hasFlag (v.fd t i).flags oCloexec = true
      · rw [if_pos hc]
        simp [Request.Drops, hp, State.Open, FdEntry.empty, hc]
      · rw [if_neg hc]
        simp only [Request.Drops, hp, State.Open, true_and]
        exact ⟨⟨fun ho => ⟨ho, fun hf => hc ⟨ho.2, hf⟩⟩, And.left⟩, fun _ => trivial⟩
    · simp [Request.Drops, hp, State.Open, tables_setTable_of_ne hti, fd_setTable_of_ne hti, Ne.symm hti]

/-- The entries of a table after `close_all`. -/
theorem closeAll_open (pid : ℕ) (h : handleCloseAll v p = (v', reply)) :
    Removes v v' pid (.closeAll p) t i := by
  rw [Removes]
  rcases (handleCloseAll_cases h).2 with ⟨hp, rfl⟩ | ⟨t₀, hp, rfl⟩
  · simp [Request.Drops, hp]
  · by_cases hti : t = t₀
    · subst hti
      simp [Request.Drops, hp, State.Open, ProcFdTable.empty]
    · simp [Request.Drops, hp, State.Open, tables_setTable_of_ne hti, fd_setTable_of_ne hti, Ne.symm hti]

theorem handlePipe_effect {rfdPtr wfdPtr : ℕ} (h : handlePipe v pid rfdPtr wfdPtr = (v', reply)) :
    ∃ r, PipeEffect v pid v' r := by
  have heff := openPipe_effect v pid
  unfold handlePipe at h
  generalize openPipe v pid = out at h heff
  rcases out with ⟨w, e | ⟨t, i, j⟩⟩ <;> cases h <;> exact ⟨_, heff⟩

/-- The requests that make one descriptor. -/
def Request.isCreate : Request → Bool
  | .open _ _ | .eventfd _ | .timerfdCreate => true
  | _ => false

variable (h : serve v env pid req = some (v', reply))
include h

/-- The tables are left as they are, and `newFd` then puts the new entry, if there is one. -/
theorem serve_creates (hreq : req.isCreate = true) :
    ∃ w, w.tables = v.tables ∧ (v' = w ∨ ∃ a b e t i, e.inUse = true ∧
      Makes v env pid req e.kind ∧ newFd w pid a b e = (v', .ok (t, i))) := by
  cases req with
  | «open» =>
    rcases handleOpen_cases (ok_of_toOption h) with ⟨rfl, -⟩ | ⟨path, w, r, hp, hk, hr⟩
    · exact ⟨v', rfl, .inl rfl⟩
    · refine ⟨w, (openKind_effect hk).tables, ?_⟩
      rcases hr with ⟨e, -, rfl, -⟩ | ⟨kind, rfl, ⟨rfl, -⟩ | ⟨t, i, hn, -⟩⟩
      · exact .inl rfl
      · exact .inl rfl
      · exact .inr ⟨_, _, _, t, i, rfl, .open hp hk, hn⟩
  | eventfd =>
    rcases handleEventfd_cases (some.inj h) with ⟨rfl, -⟩ | ⟨slot, t, i, hs, hn, -⟩
    · exact ⟨v', rfl, .inl rfl⟩
    · exact ⟨v.setCounter slot _, rfl, .inr ⟨_, _, _, t, i, rfl, .eventfd hs, hn⟩⟩
  | timerfdCreate =>
    rcases handleTimerfdCreate_cases (some.inj h) with
      ⟨-, rfl, -⟩ | ⟨slot, hs, ⟨e, -, rfl, -⟩ | ⟨t, i, hn, -⟩⟩
    · exact ⟨v', rfl, .inl rfl⟩
    · exact ⟨v.setTimer slot _, rfl, .inl rfl⟩
    · exact ⟨v.setTimer slot _, rfl, .inr ⟨_, _, _, t, i, rfl, .timerfdCreate hs, hn⟩⟩
  | _ => cases hreq

theorem serve_adds (hreq : req.isCreate = true) : Adds v v' (Makes v env pid req) := by
  obtain ⟨w, hw, rfl | ⟨a, b, e, t, i, he, hmakes, hn⟩⟩ := serve_creates h hreq
  · exact (of_tables hw).sameOpen.adds _
  · exact (of_tables hw).sameOpen.then_adds (adds_newFd hn he hmakes)

/-- **Every open entry comes from the entry that `Request.source` says, or was made.** -/
theorem serve_open (ho : v'.Open t i) : Descends v env pid req v' t i := by
  have hquiet : req.isQuiet = true → req.source v pid t i = v.self t i →
      Descends v env pid req v' t i := fun hq hs =>
    (serve_sameTables h hq).sameOpen.descends hs ho
  cases req with
  | dup2 oldfd newfd => exact open_handleDup2 (some.inj h) ho
  | allocFd => exact open_handleAllocFd (some.inj h) ho
  | forkDup => exact open_handleForkDup (some.inj h) ho
  | «open» | eventfd | timerfdCreate => exact (serve_adds h rfl).descends rfl ho
  | pipe =>
    obtain ⟨r, heff⟩ := handlePipe_effect (some.inj h)
    exact (heff.adds env).descends rfl ho
  | close => exact (handleClose_effect (some.inj h)).open_iff.descends rfl ho
  | execCloexec => exact (execCloexec_open pid (some.inj h)).descends rfl ho
  | closeAll => exact (closeAll_open pid (some.inj h)).descends rfl ho
  | _ => exact hquiet rfl rfl

/-- **An open entry that the request does not drop stays open, for the same object.** -/
theorem serve_survives (ho : v.Open t i) (hd : ¬ req.Drops v pid t i) :
    v'.Open t i ∧ (v'.fd t i).kind.object = (v.fd t i).kind.object := by
  have hquiet : req.isQuiet = true →
      v'.Open t i ∧ (v'.fd t i).kind.object = (v.fd t i).kind.object := fun hq =>
    ⟨((serve_sameTables h hq).sameOpen t i).1.2 ho, ((serve_sameTables h hq).sameOpen t i).2 ho⟩
  cases req with
  | dup2 oldfd newfd =>
    rcases handleDup2_cases (some.inj h) with ⟨rfl, -, -⟩ | ⟨t₀, i₀, j, hdesc, hj, rfl, -⟩
    · exact ⟨ho, rfl⟩
    · have hopen := open_of_descriptor hdesc
      rw [open_setFd_iff hopen.1]
      by_cases hti : (t, i) = (t₀, j)
      · cases hti
        -- The entry is not dropped, so it is copied to its own place.
        obtain rfl : i = i₀ := by
          by_contra hne
          exact hd ⟨i₀, hdesc, hj, hne⟩
        rw [if_pos rfl, fd_setFd_self]
        exact ⟨ho.2, rfl⟩
      · rw [if_neg hti, fd_setFd_of_ne hti]
        exact ⟨ho, rfl⟩
  | allocFd =>
    rcases handleAllocFd_cases (some.inj h) with
      ⟨rfl | ⟨t₀, hg⟩, -⟩ | ⟨t₀, i₀, j, hdesc, hj, rfl, -⟩
    · exact ⟨ho, rfl⟩
    · exact ⟨(sameOpen_getOrCreate hg t i).1.2 ho, (sameOpen_getOrCreate hg t i).2 ho⟩
    · have hopen := open_of_descriptor hdesc
      have hti : (t, i) ≠ (t₀, j) := by
        intro hti
        cases hti
        rw [State.Open, hj] at ho
        exact Bool.false_ne_true ho.2
      rw [open_setFd_iff hopen.1, if_neg hti, fd_setFd_of_ne hti]
      exact ⟨ho, rfl⟩
  | forkDup =>
    rcases (handleForkDup_cases (some.inj h)).2 with rfl | ⟨p', t₀, -, ht, rfl⟩
    · exact ⟨ho, rfl⟩
    · have hti : t ≠ t₀ := by
        rintro rfl
        rw [State.Open, freeTbl_eq_some ht] at ho
        exact Bool.false_ne_true ho.1
      rw [State.Open, fd, tables_setTable_of_ne hti]
      exact ⟨ho, rfl⟩
  | «open» | eventfd | timerfdCreate => exact (serve_adds h rfl t i).1 ho
  | pipe a b =>
    obtain ⟨r, heff⟩ := handlePipe_effect (some.inj h)
    have hadds : Adds v v' (Makes v env pid (.pipe a b)) := heff.adds env
    exact (hadds t i).1 ho
  | close => exact (handleClose_effect (some.inj h)).open_iff.survives ho hd
  | execCloexec => exact (execCloexec_open pid (some.inj h)).survives ho hd
  | closeAll => exact (closeAll_open pid (some.inj h)).survives ho hd
  | _ => exact hquiet rfl

end Cyanos.Vfs
