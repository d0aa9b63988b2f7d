import Cyanos.Servers.Vfs.Objects

/-!
# Closing descriptors

After a close that replies `0` the number is not in use, and requests on it fail until it is given
out again; no other descriptor changes.

This is so for all kinds of descriptors but the ends of pipes, whose entries stay in use
(`close_keeps_pipe`).  Reads and writes of no bytes do not look at the descriptor.

* `serve_pid`, `serve_findTbl_of_new` : tables stay with their process, and a new descriptor is in the
  table that is found for the process.
* `close_closes_iff` : the property holds exactly where the close fails, or the descriptor is not for
  a pipe and there is no second table for the process in which the number is in use.
* `others_keep` : **a process keeps its descriptors, whatever others request**.
-/

namespace Cyanos.Vfs

open Lib State Option

variable {v v' w : State} {env : Env} {pid : ℕ} {req : Request} {reply : Reply}
  {t t' : Fin maxProcs} {i i' : Fin maxFds} {n : ℕ}

/-! ### Tables and their processes -/

theorem State.findTbl_getOrCreate (h : v.getOrCreate pid = some (t, w)) :
    w.findTbl pid = some t := by
  rcases getOrCreate_cases h with ⟨hf, rfl⟩ | ⟨hf, -, rfl⟩
  · exact hf
  · have hnone := position_eq_none.1 hf
    refine position_eq_some.2 ⟨by simp, fun t' hlt => ?_⟩
    rw [tables_setTable_of_ne (Fin.ne_of_lt hlt)]
    exact hnone t'

/-- The tables in use stay in use, for the same processes, and those of other processes than `p` do
not change. -/
structure TablesStay (p : ℕ) (v v' : State) : Prop where
  inUse : ∀ t, (v.tables t).inUse = true → (v'.tables t).inUse = true
  pid : ∀ t, (v.tables t).inUse = true → (v'.tables t).pid = (v.tables t).pid
  others : ∀ t, (v.tables t).inUse = true → (v.tables t).pid ≠ p → v'.tables t = v.tables t

namespace TablesStay

theorem of_tables (h : v'.tables = v.tables) : TablesStay pid v v' := by
  constructor <;> simp [h]

theorem refl (v : State) : TablesStay pid v v := of_tables rfl

theorem trans (h : TablesStay pid v w) (h' : TablesStay pid w v') : TablesStay pid v v' where
  inUse t hu := h'.inUse t (h.inUse t hu)
  pid t hu := (h'.pid t (h.inUse t hu)).trans (h.pid t hu)
  others t hu hp := (h'.others t (h.inUse t hu) (by rwa [h.pid t hu])).trans (h.others t hu hp)

/-- A table of the process changes. -/
theorem setOwn {tbl : ProcFdTable} (hp : (v.tables t).pid = pid)
    (hu : tbl.inUse = (v.tables t).inUse) (hpid : tbl.pid = (v.tables t).pid) :
    TablesStay pid v (v.setTable t tbl) := by
  constructor
  · intro t' hu'
    rw [tables_setTable]
    split
    · next heq => rw [hu, ← heq, hu']
    · exact hu'
  · intro t' _
    rw [tables_setTable]
    split
    · next heq => rw [hpid, heq]
    · rfl
  · intro t' _ hne
    refine tables_setTable_of_ne ?_
    rintro rfl
    exact hne hp

theorem setFd (hp : (v.tables t).pid = pid) (i : Fin maxFds) (e : FdEntry) :
    TablesStay pid v (v.setFd t i e) :=
  setOwn hp rfl rfl

theorem of_changesOnly (ht : v.findTbl pid = some t) (h : ChangesOnly v v' t i) :
    TablesStay pid v v' := by
  obtain ⟨e, -, -, htables⟩ := h
  exact (setFd (findTbl_eq_some ht).2 i e).trans (of_tables htables)

/-- Another table is taken. -/
theorem setTable {tbl : ProcFdTable} (h : v.freeTbl = some t) :
    TablesStay pid v (v.setTable t tbl) := by
  have hother : ∀ t', (v.tables t').inUse = true → (v.setTable t tbl).tables t' = v.tables t' := by
    refine fun t' hu => tables_setTable_of_ne ?_
    rintro rfl
    rw [freeTbl_eq_some h] at hu
    cases hu
  exact ⟨fun t' hu => by rw [hother t' hu, hu], fun t' hu => by rw [hother t' hu],
    fun t' hu _ => hother t' hu⟩

theorem getOrCreate (h : v.getOrCreate pid = some (t, w)) :
    TablesStay pid v w ∧ (w.tables t).pid = pid := by
  refine ⟨?_, (findTbl_eq_some (findTbl_getOrCreate h)).2⟩
  rcases getOrCreate_cases h with ⟨-, rfl⟩ | ⟨-, hfree, rfl⟩
  · exact refl _
  · exact setTable hfree

theorem newFd {a b : ℕ} {e : FdEntry} {r : Except ℕ (Fin maxProcs × Fin maxFds)}
    (h : newFd v pid a b e = (v', r)) : TablesStay pid v v' := by
  rcases newFd_cases h with ⟨rfl, -⟩ | ⟨t, i, w, hg, -, rfl, -⟩
  · exact refl _
  · exact (getOrCreate hg).1.trans (setFd (getOrCreate hg).2 ..)

theorem openPipe {x : Except ℕ (Fin maxProcs × Fin maxFds × Fin maxFds)}
    (h : PipeEffect v pid v' x) : TablesStay pid v v' := by
  have hring : ∀ r, TablesStay pid v (v.openRing r) := fun r => of_tables rfl
  cases h with
  | noRing => exact refl v
  | noTable r | noFd r => exact hring r
  | oneFd r t i _ hf => exact (hring r).trans (setFd (v := v.openRing r) (findTbl_eq_some hf).2 ..)
  | done r t w i j _ hg =>
    obtain ⟨hstay, hp⟩ := getOrCreate hg
    exact (hring r).trans (hstay.trans ((setFd hp ..).trans (setFd (by rwa [pid_setFd]) ..)))

end TablesStay

theorem EntryEffect.tablesStay (h : EntryEffect v pid v') : TablesStay pid v v' := by
  cases h with
  | same => exact .refl v
  | changes t i e hp => exact .setFd hp i e

theorem CloseEffect.tablesStay (h : CloseEffect v pid n v' reply) : TablesStay pid v v' := by
  cases h with
  | bad => exact .refl v
  | pipe => exact .of_tables rfl
  | event t i _ hd | timer t i _ hd =>
    exact (TablesStay.setFd (pid_of_descriptor hd) ..).trans (.of_tables rfl)
  | other t i hd => exact .setFd (pid_of_descriptor hd) ..

/-- The process whose descriptors a request is for. -/
def Request.owner (pid : ℕ) : Request → ℕ
  | .closeAll p | .execCloexec p => p
  | _ => pid

/-- All requests but `close_all` keep the tables in use. -/
theorem serve_tablesStay (h : serve v env pid req = some (v', reply))
    (hreq : ∀ p, req ≠ .closeAll p) : TablesStay (req.owner pid) v v' := by
  cases req with
  | read =>
    rcases handleRead_cases h with ⟨rfl, -⟩ | ⟨t, i, ht, -, -, heff⟩
    · exact .refl _
    · exact .of_changesOnly (target_eq_some ht).1 heff.changesOnly
  | write =>
    rcases handleWrite_cases h with ⟨rfl, -⟩ | ⟨t, i, ht, -, -, heff⟩
    · exact .refl _
    · exact .of_changesOnly (target_eq_some ht).1 heff.changesOnly
  | lseek fd offset whence =>
    exact fst_of_some h ▸ (handleLseek_effect v env pid fd offset whence).tablesStay
  | fcntl fd cmd arg => exact fst_of_some h ▸ (handleFcntl_effect v pid fd cmd arg).tablesStay
  | getdents64 => exact (handleGetdents64_effect (ok_of_toOption h)).tablesStay
  | unlink | mkdir | ftruncate | rename =>
    obtain ⟨tmp, rfl⟩ := serve_editsTmp h rfl
    exact .of_tables rfl
  | timerfdSettime =>
    obtain ⟨timers, rfl⟩ := serve_timerfdSettime h
    exact .of_tables rfl
  | fdPath | timerfdGettime | ioctl | unknown => exact fst_of_some h ▸ .refl v
  | «open» | eventfd | timerfdCreate =>
    obtain ⟨w, hw, rfl | ⟨a, b, e, t, i, -, -, hn⟩⟩ := serve_creates h rfl
    · exact .of_tables hw
    · exact (TablesStay.of_tables hw).trans (.newFd hn)
  | close => exact (handleClose_effect (some.inj h)).tablesStay
  | pipe =>
    obtain ⟨x, heff⟩ := handlePipe_effect (some.inj h)
    exact .openPipe heff
  | dup2 oldfd newfd =>
    rcases handleDup2_cases (some.inj h) with ⟨rfl, -⟩ | ⟨t, i, j, hd, -, rfl, -⟩
    · exact .refl _
    · exact .setFd (pid_of_descriptor hd) ..
  | forkDup =>
    rcases (handleForkDup_cases (some.inj h)).2 with rfl | ⟨_, t, -, hfree, rfl⟩
    · exact .refl _
    · exact .setTable hfree
  | execCloexec =>
    rcases (handleExecCloexec_cases (some.inj h)).2 with ⟨-, rfl⟩ | ⟨t, ht, rfl⟩
    · exact .refl _
    · exact .setOwn (findTbl_eq_some ht).2 rfl rfl
  | allocFd =>
    rcases handleAllocFd_cases (some.inj h) with
      ⟨rfl | ⟨t, hg⟩, -⟩ | ⟨t, i, j, hd, -, rfl, -⟩
    · exact .refl _
    · exact (TablesStay.getOrCreate hg).1
    · exact .setFd (pid_of_descriptor hd) ..
  | closeAll p => exact absurd rfl (hreq p)

/-- **A table that stays in use is for the same process.** -/
theorem serve_pid (h : serve v env pid req = some (v', reply)) (hu : (v.tables t).inUse = true)
    (hu' : (v'.tables t).inUse = true) : (v'.tables t).pid = (v.tables t).pid := by
  by_cases hreq : ∃ p, req = .closeAll p
  · obtain ⟨p, rfl⟩ := hreq
    rcases (handleCloseAll_cases (some.inj h)).2 with ⟨-, rfl⟩ | ⟨t', -, rfl⟩
    · rfl
    · rw [tables_setTable] at hu' ⊢
      split at hu'
      · cases hu'
      · next hne => rw [if_neg hne]
  · exact (serve_tablesStay h fun p hp => hreq ⟨p, hp⟩).pid t hu

theorem State.findTbl_setFd {e : FdEntry} : (v.setFd t i e).findTbl pid = v.findTbl pid := by
  simp [findTbl, pid_setFd]

theorem findTbl_newFd {a b : ℕ} {e : FdEntry} {r : Except ℕ (Fin maxProcs × Fin maxFds)}
    (h : newFd v pid a b e = (v', r)) (he : e.inUse = true) (ho : v'.Open t i)
    (hno : ¬ v.Open t i) : v'.findTbl pid = some t := by
  rcases newFd_cases h with ⟨rfl, -⟩ | ⟨t₀, i₀, w, hg, -, rfl, -⟩
  · exact absurd ho hno
  · have hw : ¬ w.Open t i := fun hw => hno ((sameOpen_getOrCreate hg t i).1.1 hw)
    rw [open_setFd_new (inUse_getOrCreate hg) he] at ho
    cases ho.resolve_left hw
    rw [findTbl_setFd]
    exact findTbl_getOrCreate hg

theorem findTbl_copy {e : FdEntry} (hd : v.descriptor pid n = some (t', i'))
    {j : Fin maxFds} (ho : (v.setFd t' j e).Open t i) (hno : ¬ v.Open t i) :
    (v.setFd t' j e).findTbl pid = some t := by
  have hf := (descriptor_eq_some.1 hd).1
  rw [open_setFd_iff (findTbl_eq_some hf).1] at ho
  split at ho
  · next heq =>
    cases heq
    rw [findTbl_setFd, hf]
  · exact absurd ho hno

theorem findTbl_openPipe {x : Except ℕ (Fin maxProcs × Fin maxFds × Fin maxFds)}
    (h : PipeEffect v pid v' x) (ho : v'.Open t i) (hno : ¬ v.Open t i) :
    v'.findTbl pid = some t := by
  cases h with
  | noRing | noTable | noFd => exact absurd ho hno
  | oneFd r t₀ i₀ _ hf =>
    have hu := (findTbl_eq_some hf).1
    have huse : ((v.openRing r).tables t₀).inUse = true := hu
    rw [open_setFd_iff huse] at ho
    split at ho
    · cases ho
    · exact absurd ho hno
  | done r t₀ w i₀ j₀ _ hg =>
    have hu := inUse_getOrCreate hg
    have hw : ¬ w.Open t i := fun hw => hno ((sameOpen_getOrCreate hg t i).1.1 hw)
    have ht : t = t₀ := by
      by_contra hne
      have hne1 : (t, i) ≠ (t₀, j₀) := fun heq => hne (Prod.mk.inj heq).1
      have hne2 : (t, i) ≠ (t₀, i₀) := fun heq => hne (Prod.mk.inj heq).1
      rw [State.Open, fd_setFd_of_ne hne1, fd_setFd_of_ne hne2, inUse_setFd, inUse_setFd] at ho
      exact hw ho
    subst ht
    rw [findTbl_setFd, findTbl_setFd]
    exact findTbl_getOrCreate hg

/-- **A new descriptor is in the table that is found for the process**, unless it is in a table that
`fork_dup` has made. -/
theorem serve_findTbl_of_new (h : serve v env pid req = some (v', reply)) (ho : v'.Open t i)
    (hno : ¬ v.Open t i) (hreq : ∀ p c, req ≠ .forkDup p c) : v'.findTbl pid = some t := by
  rcases serve_open h ho with ⟨t₀, i₀, hs, ho0, -⟩ | ⟨-, -, hmade⟩
  · rcases Request.source_eq_some hs with
      heq | ⟨oldfd, newfd, rfl, hd⟩ | ⟨oldfd, rfl, hd⟩ | ⟨p, c, rfl, -⟩
    · cases heq
      exact absurd ho0 hno
    · rcases handleDup2_cases (some.inj h) with ⟨rfl, -⟩ | ⟨t₁, i₁, j, hd1, -, rfl, -⟩
      · exact absurd ho hno
      · exact findTbl_copy hd1 ho hno
    · rcases handleAllocFd_cases (some.inj h) with
        ⟨rfl | ⟨t₁, hg⟩, -⟩ | ⟨t₁, i₁, j, hd1, -, rfl, -⟩
      · exact absurd ho hno
      · exact absurd ((sameOpen_getOrCreate hg t i).1.1 ho) hno
      · exact findTbl_copy hd1 ho hno
    · exact absurd rfl (hreq p c)
  · cases req with
    | «open» | eventfd | timerfdCreate =>
      obtain ⟨w, hw, hv⟩ := serve_creates h rfl
      have hnow : ¬ w.Open t i := fun hw' => hno ((SameTables.of_tables hw).open_iff.1 hw')
      rcases hv with rfl | ⟨a, b, e, t₀, i₀, he, -, hn⟩
      · exact absurd ho hnow
      · exact findTbl_newFd hn he ho hnow
    | pipe =>
      obtain ⟨x, heff⟩ := handlePipe_effect (some.inj h)
      exact findTbl_openPipe heff ho hno
    | _ => cases hmade

/-! ### The property -/

/-- The call gives the process the number `n` again, by a new descriptor or a copy of one. -/
def Reuses (pid n : ℕ) (v v' : State) (c : Call) : Prop :=
  match c.msg.decode with
  | .open _ _ | .pipe _ _ | .dup2 _ _ | .allocFd _ | .eventfd _ | .timerfdCreate =>
    c.pid = pid ∧ v'.descriptor pid n ≠ none
  | .forkDup parentPid childPid => childPid = pid ∧ v.descriptor parentPid n ≠ none
  | _ => False

/-- The call does not give the process the number `n` again. -/
def NoReuse (pid n : ℕ) (v : State) (c : Call) : Prop :=
  ∀ v', step v c = some v' → ¬ Reuses pid n v v' c

/-- Reads and writes of `count` bytes, seeks and closes of the number `n` reply `EBADF`. -/
def RepliesBadFd (v : State) (pid n count : ℕ) : Prop :=
  ∀ env, (∀ buf, (serve v env pid (.read n buf count)).map (·.2.value) = some (-9)) ∧
    (∀ buf, (serve v env pid (.write n buf count)).map (·.2.value) = some (-9)) ∧
    (∀ offset whence, (serve v env pid (.lseek n offset whence)).map (·.2.value) = some (-9)) ∧
    (serve v env pid (.close n)).map (·.2.value) = some (-9)

/-- If the close replies `0`, the number is not in use, requests on it fail until it is given out
again, and no other descriptor has changed. -/
def Closes (v : State) (pid n count : ℕ) : Prop :=
  (handleClose v pid n).2.value = 0 →
    (handleClose v pid n).1.descriptor pid n = none ∧
    (∀ w, Run step (NoReuse pid n) (handleClose v pid n).1 w → RepliesBadFd w pid n count) ∧
    ∀ t, ((handleClose v pid n).1.tables t).pid = (v.tables t).pid ∧
      ((handleClose v pid n).1.tables t).inUse = (v.tables t).inUse ∧
      ∀ i, v.descriptor pid n ≠ some (t, i) → (handleClose v pid n).1.fd t i = v.fd t i

theorem repliesBadFd_of_none {count : ℕ} (h : v.descriptor pid n = none) (hcount : count ≠ 0) :
    RepliesBadFd v pid n count := by
  intro env
  have htarget := target_of_none h
  refine ⟨fun buf => ?_, fun buf => ?_, fun offset whence => ?_, ?_⟩
  · simp [serve, handleRead, handleReadWithin, hcount, htarget, errReply]
  · simp [serve, handleWrite, handleWriteWithin, hcount, htarget, errReply]
  · simp [serve, handleLseek, h, errReply]
  · simp [serve, handleClose, h, errReply]

/-! ### Closed descriptors stay closed -/

/-- The number is not in use in any table for the process. -/
def Unused (v : State) (pid : ℕ) (i : Fin maxFds) : Prop :=
  ∀ t, (v.tables t).inUse = true → (v.tables t).pid = pid → (v.fd t i).inUse = false

theorem Unused.descriptor (h : Unused v pid i) : v.descriptor pid i = none := by
  rw [eq_none_iff_forall_not_mem]
  rintro ⟨t, j⟩ hd
  obtain ⟨ht, hj, hu⟩ := descriptor_eq_some.1 (mem_def.1 hd)
  obtain rfl := Fin.ext hj
  obtain ⟨hin, hpid⟩ := findTbl_eq_some ht
  rw [h t hin hpid] at hu
  cases hu

/-- **A number that is not in use stays so until it is given out again.** -/
theorem Unused.step {c : Call} (h : Unused v pid i) (hg : NoReuse pid i v c)
    (hs : Vfs.step v c = some v') : Unused v' pid i := by
  have hno := hg v' hs
  obtain ⟨⟨v', reply⟩, hserve, rfl⟩ := map_eq_some_iff.1 hs
  intro t hin hpid
  by_contra hu
  have ho : v'.Open t i := ⟨hin, by simpa using hu⟩
  -- The entry was not open before, since its table would have been one of the process.
  have hnew : ¬ v.Open t i := by
    intro hopen
    have hsame := serve_pid hserve hopen.1 hin
    have hunused := h t hopen.1 (hsame ▸ hpid)
    rw [hopen.2] at hunused
    cases hunused
  by_cases hfork : ∃ p child, c.msg.decode = .forkDup p child
  · obtain ⟨p, child, hmsg⟩ := hfork
    rw [handle, hmsg] at hserve
    rcases (handleForkDup_cases (some.inj hserve)).2 with rfl | ⟨p', t₀, hp, ht0, rfl⟩
    · exact hnew ho
    · have ht : t = t₀ := by
        by_contra hne
        rw [State.Open, fd, tables_setTable_of_ne hne] at ho
        exact hnew ho
      subst ht
      rw [State.Open, fd, tables_setTable_self] at ho
      rw [tables_setTable_self] at hpid
      have hd : v.descriptor p i = some (p', i) := descriptor_eq_some.2 ⟨hp, rfl, ho.2⟩
      refine hno ?_
      simp only [Reuses, hmsg]
      exact ⟨hpid, by simp [hd]⟩
  · have hf : v'.findTbl c.pid = some t :=
      serve_findTbl_of_new hserve ho hnew fun p child hmsg => hfork ⟨p, child, hmsg⟩
    have hcaller : c.pid = pid := (findTbl_eq_some hf).2.symm.trans hpid
    have hd : v'.descriptor pid i ≠ none := by
      rw [descriptor_eq_some.2 ⟨hcaller ▸ hf, rfl, ho.2⟩]
      exact some_ne_none _
    -- Only a request for a descriptor or a copy can have opened the entry.
    refine hno ?_
    rcases serve_open hserve ho with ⟨t₀, i₀, hsrc, ho0, -⟩ | ⟨-, -, hmade⟩
    · rcases Request.source_eq_some hsrc with
        heq | ⟨oldfd, newfd, hmsg, -⟩ | ⟨oldfd, hmsg, -⟩ | ⟨p, child, hmsg, -⟩
      · cases heq
        exact absurd ho0 hnew
      · simp only [Reuses, hmsg]
        exact ⟨hcaller, hd⟩
      · simp only [Reuses, hmsg]
        exact ⟨hcaller, hd⟩
      · exact absurd ⟨p, child, hmsg⟩ hfork
    · unfold Reuses
      revert hmade
      generalize c.msg.decode = req, (v'.fd t i).kind = kind
      intro hmade
      cases hmade <;> exact ⟨hcaller, hd⟩

/-! ### A close of a descriptor -/

section

variable (hd : v.descriptor pid n = some (t, i))
include hd

/-- The close of a descriptor that is not for a pipe clears its entry. -/
theorem tables_handleClose (hk : ∀ r b, (v.fd t i).kind ≠ .pipe r b) :
    (handleClose v pid n).1.tables = (v.setFd t i .empty).tables := by
  unfold handleClose
  rw [hd]
  cases hkind : (v.fd t i).kind with
  | pipe r b => exact absurd hkind (hk r b)
  | eventFd | timerFd => simp only [hkind]; rfl
  | _ => simp only [hkind]

theorem value_handleClose : (handleClose v pid n).2.value = 0 := by
  unfold handleClose
  rw [hd]
  cases hkind : (v.fd t i).kind <;> simp only [hkind] <;> rfl

/-- The close of an end of a pipe keeps its entry in use. -/
theorem descriptor_handleClose_pipe {r : Fin maxPipes} {b : Bool}
    (hk : (v.fd t i).kind = .pipe r b) :
    (handleClose v pid n).1.descriptor pid n = some (t, i) := by
  have hclose : handleClose v pid n = (v.setRing r ((v.rings r).closeEnd b), okReply) := by
    simp only [handleClose, hd, hk]
  rw [hclose]
  exact hd

theorem fd_handleClose (hk : ∀ r b, (v.fd t i).kind ≠ .pipe r b) (t' : Fin maxProcs)
    (i' : Fin maxFds) :
    (handleClose v pid n).1.fd t' i' = if t' = t ∧ i' = i then .empty else v.fd t' i' := by
  rw [fd, tables_handleClose hd hk, ← fd_setFd]
  rfl

end

theorem State.exists_findTbl_le (hu : (v.tables t).inUse = true) (hp : (v.tables t).pid = pid) :
    ∃ t₁, v.findTbl pid = some t₁ ∧ t₁ ≤ t := by
  cases ht : v.findTbl pid with
  | none =>
    have hnone := position_eq_none.1 ht t
    simp [hu, hp] at hnone
  | some t₁ =>
    refine ⟨t₁, rfl, ?_⟩
    by_contra hlt
    have hfalse := (position_eq_some.1 ht).2 t (Fin.not_le.1 hlt)
    simp [hu, hp] at hfalse

/-- When a process ends, the table that is found for it next comes later. -/
theorem State.findTbl_lt_of_closeAll (ht : v.findTbl pid = some t)
    (ht' : (v.setTable t .empty).findTbl pid = some t') : t < t' := by
  by_contra hle
  obtain ⟨hu, hp⟩ := findTbl_eq_some ht'
  rcases lt_or_eq_of_le (not_lt.1 hle) with hlt | rfl
  · rw [tables_setTable_of_ne (ne_of_lt hlt)] at hu hp
    have hfalse := (position_eq_some.1 ht).2 t' hlt
    simp [hu, hp] at hfalse
  · rw [tables_setTable_self] at hu
    cases hu

/-- A second table of the process comes to light when the first one is closed. -/
theorem exists_reveal (hpid : pid < 2 ^ 32) (k : ℕ) (v : State) (t : Fin maxProcs) (i : Fin maxFds)
    (hu : (v.tables t).inUse = true) (hp : (v.tables t).pid = pid) (hi : (v.fd t i).inUse = true)
    (hk : ∀ t₁, v.findTbl pid = some t₁ → t.val ≤ t₁.val + k) :
    ∃ w, Run step (NoReuse pid i) v w ∧ w.descriptor pid i ≠ none := by
  induction k generalizing v with
  | zero =>
    obtain ⟨t₁, ht, hle⟩ := exists_findTbl_le hu hp
    obtain rfl : t = t₁ := le_antisymm (Fin.le_def.2 (hk t₁ ht)) hle
    exact ⟨v, .refl, by rw [descriptor_eq_some.2 ⟨ht, rfl, hi⟩]; simp⟩
  | succ k ih =>
    obtain ⟨t₁, ht, -⟩ := exists_findTbl_le hu hp
    by_cases hopen : (v.fd t₁ i).inUse = true
    · exact ⟨v, .refl, by rw [descriptor_eq_some.2 ⟨ht, rfl, hopen⟩]; simp⟩
    have hne : t ≠ t₁ := by
      rintro rfl
      exact hopen hi
    set c : Call := .ofBytes [] pid 0x1C (UInt64.ofNat pid) 0 0 with hc
    have hmsg : c.msg.decode = .closeAll pid := by
      have hmod : (UInt64.ofNat pid).toNat % 2 ^ 32 = pid := by
        rw [UInt64.toNat_ofNat']
        omega
      show Request.closeAll ((UInt64.ofNat pid).toNat % 2 ^ 32) = _
      rw [hmod]
    have hstep : step v c = some (v.setTable t₁ .empty) := by
      simp only [step, handle, hmsg, serve, handleCloseAll, ht, map_some]
    have hguard : NoReuse pid i v c := by
      intro v' _ hreuse
      simp only [Reuses, hmsg] at hreuse
    have htbl : (v.setTable t₁ .empty).tables t = v.tables t := tables_setTable_of_ne hne
    obtain ⟨w, hrun, hw⟩ := ih (v.setTable t₁ .empty) (by rw [htbl, hu]) (by rw [htbl, hp])
      (by rw [fd, htbl]; exact hi) fun t₂ ht2 => by
        have hlt := Fin.lt_def.1 (findTbl_lt_of_closeAll ht ht2)
        have hbound := hk t₁ ht
        omega
    exact ⟨w, (Run.single hguard hstep).trans hrun, hw⟩

/-- **Where closing a descriptor closes it.**  The close fails; or the descriptor is not for a pipe,
the later reads and writes are of some bytes, and the number is not in use in another table for the
process. -/
theorem close_closes_iff (v : State) (pid : ℕ) (hpid : pid < 2 ^ 32) (n count : ℕ) :
    Closes v pid n count ↔
      v.descriptor pid n = none ∨
        ∃ t i, v.descriptor pid n = some (t, i) ∧ (∀ r b, (v.fd t i).kind ≠ .pipe r b) ∧
          count ≠ 0 ∧ ∀ t', t' ≠ t → (v.tables t').inUse = true → (v.tables t').pid = pid →
            (v.fd t' i).inUse = false := by
  constructor
  · intro hcloses
    cases hd : v.descriptor pid n with
    | none => exact .inl rfl
    | some ti =>
      obtain ⟨t, i⟩ := ti
      obtain rfl : i.val = n := (descriptor_eq_some.1 hd).2.1
      obtain ⟨hnone, hbad, -⟩ := hcloses (value_handleClose hd)
      have hk : ∀ r b, (v.fd t i).kind ≠ .pipe r b := by
        intro r b hk
        rw [descriptor_handleClose_pipe hd hk] at hnone
        cases hnone
      refine .inr ⟨t, i, rfl, hk, ?_, fun t' hne hu hp => ?_⟩
      · rintro rfl
        have hread := (hbad _ .refl (Call.ofBytes [] pid 0 0 0 0).env).1 0
        simp [serve, handleRead, handleReadWithin, valReply, signed] at hread
      · by_contra hi
        have htbl : (handleClose v pid i).1.tables t' = v.tables t' := by
          rw [tables_handleClose hd hk, setFd, tables_setTable_of_ne hne]
        have hopen : ((handleClose v pid i).1.fd t' i).inUse = true := by
          rw [fd, htbl, ← fd]
          simpa using hi
        have hlt := t'.isLt
        obtain ⟨w, hrun, hw⟩ := exists_reveal hpid maxProcs (handleClose v pid i).1 t' i
          (by rw [htbl, hu]) (by rw [htbl, hp]) hopen fun t₂ _ => by omega
        obtain ⟨⟨t₂, i₂⟩, hd2⟩ := ne_none_iff_exists'.1 hw
        have hclose := (hbad w hrun (Call.ofBytes [] pid 0 0 0 0).env).2.2.2
        simp only [serve, map_some, value_handleClose hd2, some.injEq] at hclose
        omega
  · rintro (hnone | ⟨t, i, hd, hk, hcount, hother⟩) hreply
    · simp [handleClose, hnone, errReply] at hreply
    · obtain rfl : i.val = n := (descriptor_eq_some.1 hd).2.1
      have hpidOf : ∀ t', ((handleClose v pid i).1.tables t').pid = (v.tables t').pid := fun t' => by
        rw [tables_handleClose hd hk, pid_setFd]
      have huseOf : ∀ t', ((handleClose v pid i).1.tables t').inUse = (v.tables t').inUse :=
        fun t' => by rw [tables_handleClose hd hk, inUse_setFd]
      have hunused : Unused (handleClose v pid i).1 pid i := by
        intro t' hu hp
        rw [huseOf] at hu
        rw [hpidOf] at hp
        rw [fd_handleClose hd hk]
        by_cases ht : t' = t
        · simp [ht, FdEntry.empty]
        · simp [ht, hother t' ht hu hp]
      refine ⟨hunused.descriptor, fun w hrun => ?_, fun t' => ⟨hpidOf t', huseOf t', fun i' hne => ?_⟩⟩
      · have hw : Unused w pid i := hrun.invariant (I := fun w => Unused w pid i) hunused
          fun _ _ _ h hg hs => h.step hg hs
        exact repliesBadFd_of_none hw.descriptor hcount
      · rw [fd_handleClose hd hk, if_neg]
        rintro ⟨rfl, rfl⟩
        exact hne hd

theorem close_closes_iff_stdin : Closes boot 1 0 5 := by
  refine (close_closes_iff boot 1 (by decide) 0 5).2 (.inr ⟨0, 0, ?_⟩)
  decide +kernel

/-- Closing an end of a pipe replies `0`; afterwards the descriptor is in use, and a read of it does
not reply `EBADF`. -/
theorem close_keeps_pipe :
    ∃ v, Reach step boot v ∧ (handleClose v 1 3).2.value = 0 ∧
      (handleClose v 1 3).1.descriptor 1 3 = some (0, 3) ∧
      (handleRead (handleClose v 1 3).1 (Call.ofBytes [] 1 0 0 0 0).env 1 3 4096 1).map
        (·.2.value) = some (-11) :=
  Run.exists_of_foldlM [.ofBytes [] 1 0x17 8192 8196 0] (by decide +kernel)

/-! ### Requests of other processes -/

/-- Another process calls, and not to close the descriptors of this one. -/
abbrev Foreign (pid : ℕ) (c : Call) : Prop :=
  c.pid ≠ pid ∧ c.msg.decode ≠ .closeAll pid ∧ c.msg.decode ≠ .execCloexec pid

/-- A table of another process than the request is for does not change. -/
theorem serve_others (h : serve v env pid req = some (v', reply)) (hu : (v.tables t).inUse = true)
    (hp : (v.tables t).pid ≠ req.owner pid) : v'.tables t = v.tables t := by
  by_cases hreq : ∃ p, req = .closeAll p
  · obtain ⟨p, rfl⟩ := hreq
    rcases (handleCloseAll_cases (some.inj h)).2 with ⟨-, rfl⟩ | ⟨t', ht, rfl⟩
    · rfl
    · refine tables_setTable_of_ne ?_
      rintro rfl
      exact hp (findTbl_eq_some ht).2
  · exact (serve_tablesStay h fun p hreq' => hreq ⟨p, hreq'⟩).others t hu hp

theorem Foreign.owner {c : Call} (h : Foreign pid c) : pid ≠ c.msg.decode.owner c.pid := by
  obtain ⟨hpid, hall, hexec⟩ := h
  generalize c.msg.decode = req at hall hexec ⊢
  intro hp
  cases req with
  | closeAll => exact hall (congrArg _ hp.symm)
  | execCloexec => exact hexec (congrArg _ hp.symm)
  | _ => exact hpid hp.symm

/-- **Other processes do not change a descriptor**: it stays open, for the same object, with the same
position and flags. -/
theorem others_keep (h : Run step (fun _ => Foreign pid) v w) (hp : (v.tables t).pid = pid)
    (ho : v.Open t i) :
    w.Open t i ∧ (w.tables t).pid = pid ∧ w.fd t i = v.fd t i := by
  have htable : w.tables t = v.tables t := by
    induction h with
    | refl => rfl
    | tail _ hg hs ih =>
      obtain ⟨⟨w, reply⟩, hserve, rfl⟩ := map_eq_some_iff.1 hs
      exact (serve_others hserve (by rw [ih, ho.1]) (by rw [ih, hp]; exact hg.owner)).trans ih
  rw [State.Open, fd, htable]
  exact ⟨ho, hp, rfl⟩

/-- Process 1 has written a file; process 2 gets its descriptors, seeks in the file and ends. -/
theorem others_keep_child_exit : ∃ w, Run step (fun _ => Foreign 1) written w ∧
    (w.descriptor 2 3 = none ∧ (written.fd 0 3).kind = .tmpFile 0 2 true) ∧
    w.Open 0 3 ∧ (w.tables 0).pid = 1 ∧ w.fd 0 3 = written.fd 0 3 :=
  Run.exists_guarded_with
    [.ofBytes [] 2 0x1A 1 2 0, .ofBytes [] 2 0x15 3 0 0, .ofBytes [] 2 0x1C 2 0 0] (by decide +kernel)
    fun _ hrun _ => others_keep hrun (by decide +kernel) (by decide +kernel)

end Cyanos.Vfs
