import Cyanos.Servers.Vfs.Server

/-!
# What requests do

For every request that changes more than one thing, all that it can do: what happens to the state
and what it replies, case by case (`ReadEffect`, `WriteEffect`, `OpenEffect`, `PipeEffect`,
`CloseEffect`, and the lemmas `handle…_cases`).  What holds after a request is derived from these.

An entry of a table is open if the table and the entry are in use.
-/

namespace Cyanos.Vfs

open Lib State TimerFdEntry Option

variable {v v' w : State} {env : Env} {pid : ℕ} {req : Request} {reply : Reply}
  {t t' t₀ : Fin maxProcs} {i i' i₀ : Fin maxFds} {kind : VnodeKind} {n buf count a b : ℕ}
  {e : FdEntry} {path : List UInt8} {flags : BitVec 32} {P : VnodeKind → Prop}

/-- Replies of less than `2 ^ 63` are not errors. -/
theorem value_valReply {stored : List (ℕ × List UInt8)} (h : n < 2 ^ 63) :
    (valReply n stored).value = n := if_pos h

/-! ### Objects -/

/-- What a descriptor is for, without its position. -/
def VnodeKind.object : VnodeKind → VnodeKind
  | .ramFile addr data _ => .ramFile addr data 0
  | .tmpFile idx _ writable => .tmpFile idx 0 writable
  | .devFb _ => .devFb 0
  | kind => kind

@[simp] theorem VnodeKind.object_eq_pipe {r : Fin maxPipes} {b : Bool} :
    kind.object = .pipe r b ↔ kind = .pipe r b := by
  cases kind <;> simp [object]

@[simp] theorem VnodeKind.object_eq_timerFd {slot : Fin maxTimerfds} :
    kind.object = .timerFd slot ↔ kind = .timerFd slot := by
  cases kind <;> simp [object]

/-- The descriptor is not for an object of the server. -/
def VnodeKind.isPlain : VnodeKind → Bool
  | .pipe _ _ | .tmpFile _ _ _ | .eventFd _ | .timerFd _ => false
  | _ => true

/-- The entry and its table are in use. -/
def State.Open (v : State) (t : Fin maxProcs) (i : Fin maxFds) : Prop :=
  (v.tables t).inUse = true ∧ (v.fd t i).inUse = true

instance : Decidable (v.Open t i) := inferInstanceAs (Decidable (_ ∧ _))

theorem State.not_open (h : (v.fd t i).inUse = false) : ¬ v.Open t i :=
  fun ho => Bool.false_ne_true (h.symm.trans ho.2)

theorem State.open_of_descriptor (h : v.descriptor pid n = some (t, i)) : v.Open t i := by
  obtain ⟨ht, -, hi⟩ := descriptor_eq_some.1 h
  exact ⟨(findTbl_eq_some ht).1, hi⟩

theorem State.pid_of_descriptor (h : v.descriptor pid n = some (t, i)) : (v.tables t).pid = pid :=
  (findTbl_eq_some (descriptor_eq_some.1 h).1).2

/-! ### Requests that keep all descriptors -/

/-- The same descriptors are open, for the same objects. -/
structure SameTables (v v' : State) : Prop where
  inUse : ∀ t, (v'.tables t).inUse = (v.tables t).inUse
  pid : ∀ t, (v'.tables t).pid = (v.tables t).pid
  fdInUse : ∀ t i, (v'.fd t i).inUse = (v.fd t i).inUse
  object : ∀ t i, (v'.fd t i).kind.object = (v.fd t i).kind.object

namespace SameTables

theorem of_tables (h : v'.tables = v.tables) : SameTables v v' := by
  constructor <;> simp [fd, h]

theorem refl (v : State) : SameTables v v := of_tables rfl

theorem trans (h : SameTables v v') (h' : SameTables v' w) : SameTables v w where
  inUse t := (h'.inUse t).trans (h.inUse t)
  pid t := (h'.pid t).trans (h.pid t)
  fdInUse t i := (h'.fdInUse t i).trans (h.fdInUse t i)
  object t i := (h'.object t i).trans (h.object t i)

theorem setFd {e : FdEntry} (hu : e.inUse = (v.fd t i).inUse)
    (ho : e.kind.object = (v.fd t i).kind.object) : SameTables v (v.setFd t i e) where
  inUse t' := inUse_setFd t'
  pid t' := pid_setFd t'
  fdInUse t' i' := by
    rw [fd_setFd]
    split
    · next h => rw [h.1, h.2, hu]
    · rfl
  object t' i' := by
    rw [fd_setFd]
    split
    · next h => rw [h.1, h.2, ho]
    · rfl

theorem open_iff (h : SameTables v v') : v'.Open t i ↔ v.Open t i := by
  simp [Open, h.inUse, h.fdInUse]

theorem descriptor (h : SameTables v v') (hd : v.descriptor pid n = some (t, i)) :
    v'.descriptor pid n = some (t, i) := by
  obtain ⟨ht, hn, hu⟩ := descriptor_eq_some.1 hd
  refine descriptor_eq_some.2 ⟨?_, hn, (h.fdInUse t i).trans hu⟩
  rw [← ht]
  simp only [findTbl, h.inUse, h.pid]

end SameTables

/-- All objects are the same. -/
structure SameObjects (v v' : State) : Prop where
  rings : v'.rings = v.rings
  tmp : v'.tmp = v.tmp
  counters : v'.counters = v.counters
  timers : v'.timers = v.timers

namespace SameObjects

theorem refl (v : State) : SameObjects v v := ⟨rfl, rfl, rfl, rfl⟩

theorem trans (h : SameObjects v v') (h' : SameObjects v' w) : SameObjects v w :=
  ⟨h'.rings.trans h.rings, h'.tmp.trans h.tmp, h'.counters.trans h.counters,
    h'.timers.trans h.timers⟩

theorem setTable (v : State) (t : Fin maxProcs) (tbl : ProcFdTable) :
    SameObjects v (v.setTable t tbl) := ⟨rfl, rfl, rfl, rfl⟩

theorem setFd (v : State) (t : Fin maxProcs) (i : Fin maxFds) (e : FdEntry) :
    SameObjects v (v.setFd t i e) := setTable ..

end SameObjects

/-! ### Positions and flags -/

/-- One entry changes at most, and it stays one for the same object. -/
def ChangesOnly (v v' : State) (t : Fin maxProcs) (i : Fin maxFds) : Prop :=
  ∃ e : FdEntry, e.inUse = (v.fd t i).inUse ∧ e.kind.object = (v.fd t i).kind.object ∧
    v'.tables = (v.setFd t i e).tables

theorem ChangesOnly.of_tables (h : v'.tables = v.tables) : ChangesOnly v v' t i :=
  ⟨v.fd t i, rfl, rfl, h.trans (congrArg State.tables setFd_fd.symm)⟩

theorem ChangesOnly.sameTables (h : ChangesOnly v v' t i) : SameTables v v' := by
  obtain ⟨e, hu, ho, htables⟩ := h
  exact (SameTables.setFd hu ho).trans (.of_tables htables)

/-- What a request for a position or the flags can do. -/
inductive EntryEffect (v : State) (pid : ℕ) : State → Prop
  | same : EntryEffect v pid v
  | changes (t : Fin maxProcs) (i : Fin maxFds) (e : FdEntry) : (v.tables t).pid = pid →
    e.inUse = (v.fd t i).inUse → e.kind.object = (v.fd t i).kind.object →
    EntryEffect v pid (v.setFd t i e)

theorem EntryEffect.sameTables (h : EntryEffect v pid v') : SameTables v v' := by
  cases h with
  | same => exact .refl v
  | changes t i e _ hu ho => exact .setFd hu ho

theorem EntryEffect.sameObjects (h : EntryEffect v pid v') : SameObjects v v' := by
  cases h with
  | same => exact .refl v
  | changes t i e => exact .setFd ..

theorem handleLseek_effect (v : State) (env : Env) (pid n : ℕ) (offset : ℤ) (whence : ℕ) :
    EntryEffect v pid (handleLseek v env pid n offset whence).1 := by
  unfold handleLseek
  cases hd : v.descriptor pid n with
  | none => exact .same
  | some ti =>
    obtain ⟨t, i⟩ := ti
    cases hk : (v.fd t i).kind with
    | ramFile | tmpFile | devFb =>
      simp only [hk]
      unfold seekReply
      split
      · exact .same
      · exact .changes _ _ _ (pid_of_descriptor hd) rfl (by rw [hk]; rfl)
    | _ =>
      simp only [hk]
      exact .same

theorem handleFcntl_effect (v : State) (pid n cmd arg : ℕ) :
    EntryEffect v pid (handleFcntl v pid n cmd arg).1 := by
  unfold handleFcntl
  split
  · exact .same
  next hd =>
  simp only
  split
  · exact .same
  · exact .changes _ _ _ (pid_of_descriptor hd) rfl rfl
  · exact .same
  · exact .changes _ _ _ (pid_of_descriptor hd) rfl rfl
  · exact .same

theorem handleGetdents64_effect
    (h : handleGetdents64 v env pid n buf count = .ok (v', reply)) : EntryEffect v pid v' := by
  unfold handleGetdents64 at h
  split at h
  · cases h
    exact .same
  split at h
  · cases h
    exact .same
  next t i hd =>
  split at h
  · next hk =>
    obtain ⟨l, -, h⟩ := exists_of_map_ok h
    cases h
    exact .changes t i _ (pid_of_descriptor hd) rfl (by rw [hk]; rfl)
  · cases h
    exact .same

/-! ### Reads and writes -/

/-- What a read of the entry can do. -/
inductive ReadEffect (v : State) (env : Env) (t : Fin maxProcs) (i : Fin maxFds) (buf count : ℕ) :
    State × Reply → Prop
  | same (reply : Reply) : ReadEffect v env t i buf count (v, reply)
  | moves (kind : VnodeKind) (reply : Reply) : kind.object = (v.fd t i).kind.object →
    ReadEffect v env t i buf count (v.setKind t i kind, reply)
  | random (lfsr : UInt64) (reply : Reply) :
    ReadEffect v env t i buf count ({ v with lfsr := lfsr }, reply)
  | pipe (r : Fin maxPipes) : (v.fd t i).kind = .pipe r false →
    ReadEffect v env t i buf count (readPipe v r buf count)
  | event (slot : Fin maxEventfds) (reply : Reply) : (v.fd t i).kind = .eventFd slot →
    ReadEffect v env t i buf count (v.setCounter slot 0, reply)
  | timer (slot : Fin maxTimerfds) (reply : Reply) : (v.fd t i).kind = .timerFd slot →
    ReadEffect v env t i buf count
      (v.setTimer slot { (v.timers slot).expire (env.ticks 0) with expirations := 0 }, reply)

theorem readEntry_effect (v : State) (env : Env) (t : Fin maxProcs) (i : Fin maxFds)
    (buf count : ℕ) : ReadEffect v env t i buf count (readEntry v env t i buf count) := by
  cases h : (v.fd t i).kind with
  | ramFile | tmpFile =>
    simp only [readEntry, h]
    split_ifs
    · exact .same _
    · exact .moves _ _ (by rw [h]; rfl)
  | devFb =>
    simp only [readEntry, h]
    split_ifs
    · exact .same _
    · exact .same _
    · exact .moves _ _ (by rw [h]; rfl)
  | pipe r isWrite =>
    cases isWrite with
    | false =>
      simp only [readEntry, h]
      exact .pipe r h
    | true =>
      simp only [readEntry, h]
      exact .same _
  | eventFd slot =>
    simp only [readEntry, h]
    split_ifs
    · exact .same _
    · exact .same _
    · exact .event slot _ h
  | timerFd slot =>
    simp only [readEntry, h]
    split_ifs with hcount hexp
    · exact .same _
    · have heta : ∀ e : TimerFdEntry, e.expirations = 0 → { e with expirations := 0 } = e := by
        rintro ⟨⟩ rfl
        rfl
      have htimer : ReadEffect v env t i buf count
          (v.setTimer slot { (v.timers slot).expire (env.ticks 0) with expirations := 0 },
            errReply 11) := .timer slot _ h
      rwa [heta _ hexp] at htimer
    · exact .timer slot _ h
  | devUrandom =>
    simp only [readEntry, h]
    exact .random _ _
  | _ =>
    simp only [readEntry, h]
    exact .same _

/-- What a write to the entry can do. -/
inductive WriteEffect (v : State) (env : Env) (t : Fin maxProcs) (i : Fin maxFds) (buf count : ℕ) :
    State × Reply → Prop
  | same (reply : Reply) : WriteEffect v env t i buf count (v, reply)
  | moves (kind : VnodeKind) (reply : Reply) : kind.object = (v.fd t i).kind.object →
    WriteEffect v env t i buf count (v.setKind t i kind, reply)
  | pipe (r : Fin maxPipes) : (v.fd t i).kind = .pipe r true →
    WriteEffect v env t i buf count (writePipe v env r buf count)
  | file (idx : Fin maxTmpFiles) (pos pos' : ℕ) (data : ℕ → UInt8) (len : ℕ) (reply : Reply) :
    (v.fd t i).kind = .tmpFile idx pos true →
    WriteEffect v env t i buf count
      ((v.setTmp idx { v.tmp idx with data := data, len := len }).setKind t i
        (.tmpFile idx pos' true), reply)
  | event (slot : Fin maxEventfds) (n : ℕ) (reply : Reply) : (v.fd t i).kind = .eventFd slot →
    WriteEffect v env t i buf count (v.setCounter slot n, reply)

theorem writeEntry_effect (v : State) (env : Env) (t : Fin maxProcs) (i : Fin maxFds)
    (buf count : ℕ) : WriteEffect v env t i buf count (writeEntry v env t i buf count) := by
  cases h : (v.fd t i).kind with
  | tmpFile idx pos writable =>
    cases writable with
    | false =>
      simp only [writeEntry, h]
      exact .same _
    | true =>
      simp only [writeEntry, h, Bool.true_eq_false, if_false]
      split_ifs
      · exact .same _
      · exact .file idx pos _ _ _ _ h
      · exact .same _
      · exact .file idx pos _ _ _ _ h
  | devFb =>
    simp only [writeEntry, h]
    split_ifs
    · exact .same _
    · exact .same _
    · exact .moves _ _ (by rw [h]; rfl)
  | pipe r isWrite =>
    cases isWrite with
    | true =>
      simp only [writeEntry, h]
      exact .pipe r h
    | false =>
      simp only [writeEntry, h]
      exact .same _
  | eventFd slot =>
    simp only [writeEntry, h]
    split_ifs
    · exact .same _
    · exact .same _
    · exact .event slot _ _ h
  | _ =>
    simp only [writeEntry, h]
    exact .same _

theorem ReadEffect.changesOnly {out : State × Reply}
    (h : ReadEffect v env t i buf count out) : ChangesOnly v out.1 t i := by
  cases h with
  | moves kind _ ho => exact ⟨{ v.fd t i with kind := kind }, rfl, ho, rfl⟩
  | pipe r =>
    refine .of_tables ?_
    rw [readPipe]
    split <;> rfl
  | same | random | event | timer => exact .of_tables rfl

theorem WriteEffect.changesOnly {out : State × Reply}
    (h : WriteEffect v env t i buf count out) : ChangesOnly v out.1 t i := by
  cases h with
  | moves kind _ ho => exact ⟨{ v.fd t i with kind := kind }, rfl, ho, rfl⟩
  | pipe r =>
    refine .of_tables ?_
    unfold writePipe
    split <;> rfl
  | file idx pos pos' data len _ hk =>
    exact ⟨{ v.fd t i with kind := .tmpFile idx pos' true }, rfl, by rw [hk]; rfl, rfl⟩
  | same | event => exact .of_tables rfl

/-- A read or write is of no bytes or fails, or works on an entry. -/
def Transfers (v : State) (pid n count : ℕ) (entry : Fin maxProcs → Fin maxFds → State × Reply)
    (Effect : Fin maxProcs → Fin maxFds → State × Reply → Prop) (v' : State) (reply : Reply) : Prop :=
  (v' = v ∧ (count = 0 ∧ reply = valReply 0 [] ∨
      v.target (maxFds + 1) pid n = some none ∧ reply = errReply 9)) ∨
    ∃ t i, v.target (maxFds + 1) pid n = some (some (t, i)) ∧ count ≠ 0 ∧
      entry t i = (v', reply) ∧ Effect t i (v', reply)

theorem transfers {entry : Fin maxProcs → Fin maxFds → State × Reply}
    {Effect : Fin maxProcs → Fin maxFds → State × Reply → Prop} (heff : ∀ t i, Effect t i (entry t i))
    (h : (if count = 0 then some (v, valReply 0 []) else
      (v.target (maxFds + 1) pid n).map fun e =>
        match e with
        | none => (v, errReply 9)
        | some (t, i) => entry t i) = some (v', reply)) :
    Transfers v pid n count entry Effect v' reply := by
  split at h
  · next hcount =>
    cases h
    exact .inl ⟨rfl, .inl ⟨hcount, rfl⟩⟩
  · next hcount =>
    obtain ⟨e, he, h⟩ := map_eq_some_iff.1 h
    rcases e with _ | ⟨t, i⟩
    · cases h
      exact .inl ⟨rfl, .inr ⟨he, rfl⟩⟩
    · exact .inr ⟨t, i, he, hcount, h, h ▸ heff t i⟩

theorem handleRead_cases (h : handleRead v env pid n buf count = some (v', reply)) :
    Transfers v pid n count (readEntry v env · · buf count) (ReadEffect v env · · buf count) v' reply :=
  transfers (readEntry_effect v env · · buf count) h

theorem handleWrite_cases (h : handleWrite v env pid n buf count = some (v', reply)) :
    Transfers v pid n count (writeEntry v env · · buf count) (WriteEffect v env · · buf count) v'
      reply :=
  transfers (writeEntry_effect v env · · buf count) h

theorem ProcFdTable.target_eq_some {tbl : ProcFdTable} {depth : ℕ}
    (h : tbl.target depth n = some (some i)) :
    (tbl.fds i).inUse = true ∧ ∀ m, (tbl.fds i).kind ≠ .devStdio m := by
  induction depth generalizing n with
  | zero => cases h
  | succ depth ih =>
    rw [target] at h
    split at h
    · cases h
    · next j hj =>
      split at h
      · exact ih h
      · next hk =>
        cases h
        exact ⟨(used_eq_some.1 hj).2, hk⟩

/-- What a read or write works on is open, and is not another descriptor. -/
theorem State.target_eq_some {depth : ℕ} (h : v.target depth pid n = some (some (t, i))) :
    v.findTbl pid = some t ∧ v.Open t i ∧ ∀ m, (v.fd t i).kind ≠ .devStdio m := by
  unfold target at h
  split at h
  · cases h
  next ht =>
  obtain ⟨_ | j, hj, h⟩ := map_eq_some_iff.1 h
  · cases h
  · cases h
    obtain ⟨hu, hk⟩ := ProcFdTable.target_eq_some hj
    exact ⟨ht, ⟨(findTbl_eq_some ht).1, hu⟩, hk⟩

/-- A read or write of a descriptor that is not in use. -/
theorem State.target_of_none (h : v.descriptor pid n = none) :
    v.target (maxFds + 1) pid n = some none := by
  unfold target
  cases ht : v.findTbl pid with
  | none => rfl
  | some t =>
    have hused : (v.tables t).used n = none := by simpa [descriptor, ht] using h
    simp [ProcFdTable.target, hused]

/-- A read or write of a descriptor that does not refer to another one. -/
theorem State.target_of_descriptor (h : v.descriptor pid n = some (t, i))
    (hk : ∀ m, (v.fd t i).kind ≠ .devStdio m) :
    v.target (maxFds + 1) pid n = some (some (t, i)) := by
  obtain ⟨ht, hn, hu⟩ := descriptor_eq_some.1 h
  have hused : (v.tables t).used n = some i := ProcFdTable.used_eq_some.2 ⟨hn, hu⟩
  unfold target ProcFdTable.target
  simp only [ht, hused]
  cases hkind : ((v.tables t).fds i).kind with
  | devStdio m => exact absurd hkind (hk m)
  | _ => rfl

/-! ### New descriptors -/

/-- `get_or_create` finds the table of the process or takes one that is not in use. -/
theorem State.getOrCreate_cases (h : v.getOrCreate pid = some (t, w)) :
    (v.findTbl pid = some t ∧ w = v) ∨
      v.findTbl pid = none ∧ v.freeTbl = some t ∧
        w = v.setTable t ⟨pid, fun _ => .empty, true⟩ := by
  unfold getOrCreate at h
  split at h
  · next hf =>
    cases h
    exact .inl ⟨hf, rfl⟩
  · next hf =>
    obtain ⟨t', ht, h⟩ := map_eq_some_iff.1 h
    cases h
    exact .inr ⟨hf, ht, rfl⟩

theorem State.getOrCreate_eq_none :
    v.getOrCreate pid = none ↔ v.findTbl pid = none ∧ v.freeTbl = none := by
  unfold getOrCreate
  cases v.findTbl pid <;> simp

/-- The open entries are the same, for the same objects. -/
def SameOpen (v v' : State) : Prop :=
  ∀ t i, (v'.Open t i ↔ v.Open t i) ∧
    (v.Open t i → (v'.fd t i).kind.object = (v.fd t i).kind.object)

theorem SameTables.sameOpen (h : SameTables v v') : SameOpen v v' :=
  fun t i => ⟨h.open_iff, fun _ => h.object t i⟩

theorem SameOpen.trans (h : SameOpen v v') (h' : SameOpen v' w) : SameOpen v w :=
  fun t i => ⟨(h' t i).1.trans (h t i).1,
    fun ho => ((h' t i).2 ((h t i).1.2 ho)).trans ((h t i).2 ho)⟩

section

variable (h : v.getOrCreate pid = some (t, w))
include h

theorem State.sameOpen_getOrCreate : SameOpen v w := by
  rcases getOrCreate_cases h with ⟨-, rfl⟩ | ⟨-, hfree, rfl⟩
  · exact (SameTables.refl w).sameOpen
  · intro t' i
    by_cases ht : t' = t
    · subst ht
      have hno : ¬ v.Open t' i := fun ho => by simp [freeTbl_eq_some hfree, Open] at ho
      refine ⟨iff_of_false (fun ho => ?_) hno, fun ho => absurd ho hno⟩
      simp [Open, fd, FdEntry.empty] at ho
    · simp [Open, fd, tables_setTable_of_ne ht]

theorem State.inUse_getOrCreate : (w.tables t).inUse = true := by
  rcases getOrCreate_cases h with ⟨ht, rfl⟩ | ⟨-, -, rfl⟩
  · exact (findTbl_eq_some ht).1
  · rw [tables_setTable_self]

/-- A table that was just created has room. -/
theorem State.allocFd_getOrCreate
    (hfull : (w.tables t).allocFd = none) : v.findTbl pid = some t ∧ w = v := by
  rcases getOrCreate_cases h with hfound | ⟨-, -, rfl⟩
  · exact hfound
  · exact absurd (position_eq_none.1 hfull 0) (by simp [FdEntry.empty])

end

/-- The process has a free descriptor, or can be given a table. -/
def State.hasRoom (v : State) (pid : ℕ) : Bool :=
  ((v.getOrCreate pid).bind fun (t, w) => (w.tables t).allocFd).isSome

/-- A request for a new descriptor fails where there is no room for it and leaves the state as it is,
or puts the entry in a place that was not open. -/
theorem newFd_cases {r : Except ℕ (Fin maxProcs × Fin maxFds)} (h : newFd v pid a b e = (v', r)) :
    (v' = v ∧ v.hasRoom pid = false ∧ ∃ e', r = .error e' ∧ (e' = a ∨ e' = b)) ∨
      ∃ t i w, v.getOrCreate pid = some (t, w) ∧ (w.tables t).allocFd = some i ∧
        v' = w.setFd t i e ∧ r = .ok (t, i) := by
  unfold newFd at h
  split at h
  · next hg =>
    cases h
    exact .inl ⟨rfl, by simp [hasRoom, hg], _, rfl, .inl rfl⟩
  next t w hg =>
  split at h
  · next ha =>
    cases h
    exact .inl ⟨(allocFd_getOrCreate hg ha).2, by simp [hasRoom, hg, ha], _, rfl, .inr rfl⟩
  · next i ha =>
    cases h
    exact .inr ⟨t, i, w, hg, ha, rfl, rfl⟩

theorem State.hasRoom_congr (h : w.tables = v.tables) : w.hasRoom pid = v.hasRoom pid := by
  have hfind : w.findTbl pid = v.findTbl pid := by simp only [findTbl, h]
  have hfree : w.freeTbl = v.freeTbl := by simp only [freeTbl, h]
  unfold hasRoom getOrCreate
  rw [hfind, hfree]
  cases v.findTbl pid with
  | some => simp [h]
  | none => cases v.freeTbl <;> simp

/-- Open entries after an entry was put in a place. -/
theorem State.open_setFd_new (ht : (v.tables t).inUse = true) (he : e.inUse = true) :
    (v.setFd t i e).Open t' i' ↔ v.Open t' i' ∨ (t', i') = (t, i) := by
  by_cases h : (t', i') = (t, i)
  · cases h
    simp [Open, ht, he]
  · simp [Open, fd_setFd_of_ne h, h]

/-- The entries that `v'` has and `v` has not are new ones of this kind. -/
def Adds (v v' : State) (P : VnodeKind → Prop) : Prop :=
  ∀ t i, (v.Open t i →
      v'.Open t i ∧ (v'.fd t i).kind.object = (v.fd t i).kind.object) ∧
    (v'.Open t i → ¬ v.Open t i → P (v'.fd t i).kind)

theorem SameOpen.adds (h : SameOpen v v') (P : VnodeKind → Prop) : Adds v v' P :=
  fun t i => ⟨fun ho => ⟨(h t i).1.2 ho, (h t i).2 ho⟩, fun ho hn => absurd ((h t i).1.1 ho) hn⟩

theorem SameOpen.then_adds (h : SameOpen v w) (h' : Adds w v' P) : Adds v v' P := by
  intro t i
  refine ⟨fun ho => ?_, fun ho hn => (h' t i).2 ho fun hw => hn ((h t i).1.1 hw)⟩
  obtain ⟨ho', hobj⟩ := (h' t i).1 ((h t i).1.2 ho)
  exact ⟨ho', hobj.trans ((h t i).2 ho)⟩

theorem State.adds_setFd_new (ht : (v.tables t).inUse = true) (hu : (v.fd t i).inUse = false)
    (he : e.inUse = true) (hP : P e.kind) : Adds v (v.setFd t i e) P := by
  intro t' i'
  by_cases h : (t', i') = (t, i)
  · cases h
    exact ⟨fun ho => absurd ho (not_open hu), fun _ _ => by rwa [fd_setFd_self]⟩
  · rw [open_setFd_new ht he, fd_setFd_of_ne h]
    exact ⟨fun ho => ⟨.inl ho, rfl⟩, fun ho hn => absurd (ho.resolve_right h) hn⟩

/-! ### Where open entries come from -/

/-- The kinds of entries that a request makes. -/
inductive Makes (v : State) (env : Env) (pid : ℕ) : Request → VnodeKind → Prop
  | open {pathPtr : ℕ} {flags : BitVec 32} {path : List UInt8} {w : State} {kind : VnodeKind} :
    readCstrRaw env.mem pathPtr = some path →
    openKind v env pid (normalize path) flags = .ok (w, .ok kind) →
    Makes v env pid (.open pathPtr flags) kind
  | pipe {rfdPtr wfdPtr : ℕ} {r : Fin maxPipes} (isWrite : Bool) : v.freeRing = some r →
    Makes v env pid (.pipe rfdPtr wfdPtr) (.pipe r isWrite)
  | eventfd {initval : ℕ} {slot : Fin maxEventfds} : v.freeCounter = some slot →
    Makes v env pid (.eventfd initval) (.eventFd slot)
  | timerfdCreate {slot : Fin maxTimerfds} : v.freeTimer = some slot →
    Makes v env pid .timerfdCreate (.timerFd slot)

/-- The path is one of those that are generated when they are opened, and `content` is what it then
has, under a name that begins with `base`. -/
def Generates (env : Env) (pid : ℕ) (path base content : List UInt8) : Prop :=
  openDevice path = none ∧ ¬ (isTmpPath path = true ∧ path ≠ bstr "/tmp") ∧
    ((isProcSelf path = true ∧ genProcSelfContent env pid path = some content ∧
        base = bstr "/tmp/.proc_") ∨
      isProcSelf path = false ∧ isProcSystem path = true ∧
        genProcSystemContent env path = some content ∧ base = bstr "/tmp/.psys_")

/-- A generated file. -/
def TmpFileEntry.generated (base content : List UInt8) (idx : Fin maxTmpFiles) : TmpFileEntry :=
  { named (base ++ decimal idx) false with
    data := fun x => content.getD x 0
    len := content.length }

/-- What opening a path can do. -/
inductive OpenEffect (v : State) (env : Env) (pid : ℕ) (path : List UInt8) (flags : BitVec 32) :
    State → Except ℕ VnodeKind → Prop
  | same (r : Except ℕ VnodeKind) : (∀ kind, r = .ok kind → kind.isPlain = true) →
    OpenEffect v env pid path flags v r
  | found (idx : Fin maxTmpFiles) (pos : ℕ) : isTmpPath path = true → path ≠ bstr "/tmp" →
    v.tmpLookup path = some idx →
    OpenEffect v env pid path flags
      (if hasFlag flags oTrunc then v.setTmp idx { v.tmp idx with len := 0 } else v)
      (.ok (.tmpFile idx pos (hasFlag flags (oWronly ||| oRdwr))))
  | created (idx : Fin maxTmpFiles) : isTmpPath path = true → path ≠ bstr "/tmp" →
    v.tmpLookup path = none → hasFlag flags oCreat = true → v.freeTmp = some idx →
    OpenEffect v env pid path flags (v.setTmp idx (.named path false))
      (.ok (.tmpFile idx 0 (hasFlag flags (oWronly ||| oRdwr))))
  | generated (idx : Fin maxTmpFiles) (base content : List UInt8) :
    Generates env pid path base content → v.freeTmp = some idx →
    OpenEffect v env pid path flags (v.setTmp idx (.generated base content idx))
      (.ok (.tmpFile idx 0 false))

theorem openStatic_isPlain (h : openStatic v env path = .ok (.ok kind)) : kind.isPlain = true := by
  unfold openStatic at h
  split at h
  · cases h
    rfl
  split at h
  · cases h
    rfl
  split at h
  · cases h
    rfl
  split at h
  · cases h
    rfl
  obtain ⟨_ | ⟨off, data⟩, -, h⟩ := exists_of_map_ok h
  · cases h
  · cases h
    rfl

theorem openTmp_effect (htmp : isTmpPath path = true) (hne : path ≠ bstr "/tmp") :
    OpenEffect v env pid path flags (openTmp v path flags).1 (openTmp v path flags).2 := by
  unfold openTmp
  simp only
  split
  · next idx hl => exact .found idx _ htmp hne hl
  next hl =>
  split_ifs with hc
  · split
    · next idx hfree => exact .created idx htmp hne hl hc hfree
    · exact .same _ fun kind hk => by cases hk
  · exact .same _ fun kind hk => by cases hk

theorem genProc_effect {base : List UInt8} {content : Option (List UInt8)}
    (h : ∀ c, content = some c → Generates env pid path base c) :
    OpenEffect v env pid path flags (orNoent v (content.bind (genProc v base))).1
      (orNoent v (content.bind (genProc v base))).2 := by
  cases hg : content.bind (genProc v base) with
  | none => exact .same _ fun kind hk => by cases hk
  | some wk =>
    obtain ⟨w, kind⟩ := wk
    obtain ⟨c, hc, hg⟩ := bind_eq_some_iff.1 hg
    obtain ⟨idx, hidx, hg⟩ := map_eq_some_iff.1 hg
    cases hg
    exact .generated idx base c (h c hc) hidx

/-- What the part of `handle_open` before the descriptor does. -/
theorem openKind_effect {r : Except ℕ VnodeKind}
    (h : openKind v env pid path flags = .ok (w, r)) : OpenEffect v env pid path flags w r := by
  unfold openKind at h
  split at h
  · next hdev =>
    cases h
    refine .same _ fun kind' hk => ?_
    cases hk
    unfold openDevice at hdev
    split_ifs at hdev
    all_goals
      cases hdev
      rfl
  next hdev =>
  split at h
  · next htmp =>
    have heff : OpenEffect v env pid path flags (openTmp v path flags).1
        (openTmp v path flags).2 := openTmp_effect htmp.1 htmp.2
    rwa [Except.ok.inj h] at heff
  next htmp =>
  split at h
  · next hself =>
    have heff : OpenEffect v env pid path flags (orNoent v (genProcSelf v env pid path)).1
        (orNoent v (genProcSelf v env pid path)).2 :=
      genProc_effect fun c hc => ⟨hdev, htmp, .inl ⟨hself, hc, rfl⟩⟩
    rwa [Except.ok.inj h] at heff
  next hself =>
  split at h
  · next hsys =>
    have heff : OpenEffect v env pid path flags (orNoent v (genProcSystem v env path)).1
        (orNoent v (genProcSystem v env path)).2 :=
      genProc_effect fun c hc => ⟨hdev, htmp, .inr ⟨by simpa using hself, hsys, hc, rfl⟩⟩
    rwa [Except.ok.inj h] at heff
  · obtain ⟨r', hs, h⟩ := exists_of_map_ok h
    cases h
    refine .same _ fun kind hk => ?_
    rw [hk] at hs
    exact openStatic_isPlain hs

theorem OpenEffect.tables {r : Except ℕ VnodeKind}
    (h : OpenEffect v env pid path flags w r) : w.tables = v.tables := by
  cases h with
  | same => rfl
  | found => split <;> rfl
  | created => rfl
  | generated => rfl

/-- `handle_open` fails before it looks at descriptors, or it finds what the path names and asks for
a descriptor. -/
theorem handleOpen_cases {pathPtr : ℕ} (h : handleOpen v env pid pathPtr flags = .ok (v', reply)) :
    (v' = v ∧ reply = errReply 14 ∧ readCstrRaw env.mem pathPtr = none) ∨
      ∃ path w r, readCstrRaw env.mem pathPtr = some path ∧
        openKind v env pid (normalize path) flags = .ok (w, r) ∧
        ((∃ e, r = .error e ∧ v' = w ∧ reply = errReply e) ∨
          ∃ kind, r = .ok kind ∧
            ((v' = w ∧ (reply = errReply 12 ∨ reply = errReply 24)) ∨
              ∃ t i, newFd w pid 12 24 ⟨kind, flags, true⟩ = (v', .ok (t, i)) ∧
                reply = valReply i [])) := by
  unfold handleOpen at h
  split at h
  · next hp =>
    cases h
    exact .inl ⟨rfl, rfl, hp⟩
  next path hp =>
  obtain ⟨⟨w, r⟩, hk, h⟩ := exists_of_map_ok h
  refine .inr ⟨path, w, r, hp, hk, ?_⟩
  cases r with
  | error e =>
    cases h
    exact .inl ⟨e, rfl, rfl, rfl⟩
  | ok kind =>
    refine .inr ⟨kind, rfl, ?_⟩
    rcases hn : newFd w pid 12 24 ⟨kind, flags, true⟩ with ⟨w', e | ⟨t, i⟩⟩
    · simp only [hn] at h
      cases h
      rcases newFd_cases hn with ⟨rfl, -, _, ⟨⟩, rfl | rfl⟩ | ⟨_, _, _, _, _, _, ⟨⟩⟩
      · exact .inl ⟨rfl, .inl rfl⟩
      · exact .inl ⟨rfl, .inr rfl⟩
    · simp only [hn] at h
      cases h
      exact .inr ⟨t, i, rfl, rfl⟩

/-- A new descriptor is the only one that is added. -/
theorem adds_newFd {r : Except ℕ (Fin maxProcs × Fin maxFds)} (h : newFd v pid a b e = (v', r))
    (he : e.inUse = true) (hP : P e.kind) : Adds v v' P := by
  rcases newFd_cases h with ⟨rfl, -⟩ | ⟨t, i, w, hg, ha, rfl, -⟩
  · exact (SameTables.refl v').sameOpen.adds P
  · exact (sameOpen_getOrCreate hg).then_adds
      (adds_setFd_new (inUse_getOrCreate hg) (ProcFdTable.allocFd_eq_some ha) he hP)

/-! ### Pipes -/

/-- The state after `handle_pipe` took a ring. -/
def State.openRing (v : State) (r : Fin maxPipes) : State :=
  v.setRing r { v.rings r with readOpen := true, writeOpen := true }

/-- What a pipe request can do. -/
inductive PipeEffect (v : State) (pid : ℕ) :
    State → Except ℕ (Fin maxProcs × Fin maxFds × Fin maxFds) → Prop
  | noRing : v.freeRing = none → PipeEffect v pid v (.error 23)
  | noTable (r : Fin maxPipes) : v.freeRing = some r → v.getOrCreate pid = none →
    PipeEffect v pid (v.openRing r) (.error 12)
  | noFd (r : Fin maxPipes) (t : Fin maxProcs) : v.freeRing = some r → v.findTbl pid = some t →
    (v.tables t).allocFd = none → PipeEffect v pid (v.openRing r) (.error 24)
  | oneFd (r : Fin maxPipes) (t : Fin maxProcs) (i : Fin maxFds) : v.freeRing = some r →
    v.findTbl pid = some t → (v.tables t).allocFd = some i →
    (∀ j, j ≠ i → (v.fd t j).inUse = true) →
    PipeEffect v pid ((v.openRing r).setFd t i .empty) (.error 24)
  | done (r : Fin maxPipes) (t : Fin maxProcs) (w : State) (i j : Fin maxFds) :
    v.freeRing = some r → (v.openRing r).getOrCreate pid = some (t, w) →
    (w.fd t i).inUse = false → (w.fd t j).inUse = false → i ≠ j →
    PipeEffect v pid ((w.setFd t i ⟨.pipe r false, 0, true⟩).setFd t j ⟨.pipe r true, 0, true⟩)
      (.ok (t, i, j))

theorem State.allocFd_setFd (he : e.inUse = true) {j : Fin maxFds}
    (h : ((v.setFd t i e).tables t).allocFd = some j) : (v.fd t j).inUse = false ∧ i ≠ j := by
  have hj := ProcFdTable.allocFd_eq_some h
  rw [← fd] at hj
  by_cases hij : i = j
  · subst hij
    rw [fd_setFd_self, he] at hj
    cases hj
  · rw [fd_setFd_of_ne (by simpa using Ne.symm hij)] at hj
    exact ⟨hj, hij⟩

theorem State.allocFd_setFd_none (h : ((v.setFd t i e).tables t).allocFd = none) (j : Fin maxFds)
    (hj : j ≠ i) : (v.fd t j).inUse = true := by
  have hall := position_eq_none.1 h j
  have hfd : ((v.setFd t i e).tables t).fds j = v.fd t j := fd_setFd_of_ne (by simpa using hj)
  simpa [hfd] using hall

theorem openPipe_effect (v : State) (pid : ℕ) :
    PipeEffect v pid (openPipe v pid).1 (openPipe v pid).2 := by
  unfold openPipe
  cases hr : v.freeRing with
  | none => exact .noRing hr
  | some r =>
    simp only
    rw [show v.setRing r _ = v.openRing r from rfl]
    cases hg : (v.openRing r).getOrCreate pid with
    | none =>
      have hnone := getOrCreate_eq_none.1 hg
      exact .noTable r hr (getOrCreate_eq_none.2 hnone)
    | some tw =>
      obtain ⟨t, w⟩ := tw
      simp only
      cases ha : (w.tables t).allocFd with
      | none =>
        obtain ⟨hf, rfl⟩ := allocFd_getOrCreate hg ha
        exact .noFd r t hr hf ha
      | some i =>
        simp only
        cases hb : ((w.setFd t i ⟨.pipe r false, 0, true⟩).tables t).allocFd with
        | none =>
          rcases getOrCreate_cases hg with ⟨hf, rfl⟩ | ⟨-, -, rfl⟩
          · simp only [setFd_setFd]
            exact .oneFd r t i hr hf ha (allocFd_setFd_none hb)
          · obtain ⟨j, hj⟩ := exists_ne i
            have hj' := allocFd_setFd_none hb j hj
            simp [State.fd, FdEntry.empty] at hj'
        | some j =>
          obtain ⟨hj, hij⟩ := allocFd_setFd rfl hb
          exact .done r t w i j hr hg (ProcFdTable.allocFd_eq_some ha) hj hij

theorem PipeEffect.adds {rfdPtr wfdPtr : ℕ} {r : Except ℕ (Fin maxProcs × Fin maxFds × Fin maxFds)}
    (env : Env) (h : PipeEffect v pid v' r) : Adds v v' (Makes v env pid (.pipe rfdPtr wfdPtr)) := by
  have hring : ∀ r, SameOpen v (v.openRing r) := fun r => (SameTables.of_tables rfl).sameOpen
  cases h with
  | noRing => exact (SameTables.refl v).sameOpen.adds _
  | noTable r | noFd r => exact (hring r).adds _
  | oneFd r t i _ _ ha =>
    have hno : ¬ (v.openRing r).Open t i := not_open (ProcFdTable.allocFd_eq_some ha)
    refine ((hring r).trans fun t' i' => ?_).adds _
    by_cases h : (t', i') = (t, i)
    · cases h
      exact ⟨iff_of_false (not_open (by rw [fd_setFd_self]; rfl)) hno, fun ho => absurd ho hno⟩
    · rw [State.Open, inUse_setFd, fd_setFd_of_ne h]
      exact ⟨Iff.rfl, fun _ => rfl⟩
  | done r t w i j hr hg hi hj =>
    have hw := inUse_getOrCreate hg
    refine ((hring r).trans (sameOpen_getOrCreate hg)).then_adds fun t' i' => ?_
    rw [open_setFd_new (by rw [inUse_setFd, hw]) rfl, open_setFd_new hw rfl]
    by_cases h2 : (t', i') = (t, j)
    · cases h2
      refine ⟨fun ho => absurd ho (not_open hj), fun _ _ => ?_⟩
      rw [fd_setFd_self]
      exact .pipe true hr
    rw [fd_setFd_of_ne h2]
    by_cases h1 : (t', i') = (t, i)
    · cases h1
      refine ⟨fun ho => absurd ho (not_open hi), fun _ _ => ?_⟩
      rw [fd_setFd_self]
      exact .pipe false hr
    · rw [fd_setFd_of_ne h1]
      exact ⟨fun ho => ⟨.inl (.inl ho), rfl⟩,
        fun ho hno => absurd ((ho.resolve_right h2).resolve_right h1) hno⟩

/-! ### Eventfds and timers -/

theorem State.freeCounter_eq_some {slot : Fin maxEventfds} (h : v.freeCounter = some slot) :
    v.counters slot = u64Max := by
  have hp := (position_eq_some.1 h).1
  simpa using hp

/-- An eventfd request fails without an effect, or takes a free counter. -/
theorem handleEventfd_cases {initval : ℕ} (h : handleEventfd v pid initval = (v', reply)) :
    (v' = v ∧ reply = errReply 24) ∨
      ∃ slot t i, v.freeCounter = some slot ∧
        newFd (v.setCounter slot (if initval = u64Max then u64Max - 1 else initval)) pid 24 24
          ⟨.eventFd slot, 0, true⟩ = (v', .ok (t, i)) ∧ reply = valReply i [] := by
  unfold handleEventfd at h
  split at h
  · cases h
    exact .inl ⟨rfl, rfl⟩
  next slot hs =>
  simp only at h
  split at h
  · next hn =>
    cases h
    obtain ⟨rfl, -, _, ⟨⟩, he⟩ | ⟨_, _, _, _, _, _, ⟨⟩⟩ := newFd_cases hn
    obtain rfl := or_self_iff.1 he
    exact .inl ⟨by simp [setCounter, ← freeCounter_eq_some hs], rfl⟩
  · next t i hn =>
    cases h
    exact .inr ⟨slot, t, i, hs, hn, rfl⟩

/-- A request for a timer finds none, fails after it cleared a free one, or takes it. -/
theorem handleTimerfdCreate_cases (h : handleTimerfdCreate v pid = (v', reply)) :
    (v.freeTimer = none ∧ v' = v ∧ reply = errReply 24) ∨
      ∃ slot, v.freeTimer = some slot ∧
        ((∃ e, newFd (v.setTimer slot { free with deadlineTicks := 1 }) pid 24 24
            ⟨.timerFd slot, 0, true⟩ =
              (v.setTimer slot { free with deadlineTicks := 1 }, .error e) ∧
            v' = v.setTimer slot .free ∧ reply = errReply 24) ∨
          ∃ t i, newFd (v.setTimer slot { free with deadlineTicks := 1 }) pid 24 24
            ⟨.timerFd slot, 0, true⟩ = (v', .ok (t, i)) ∧ reply = valReply i []) := by
  unfold handleTimerfdCreate at h
  split at h
  · next hs =>
    cases h
    exact .inl ⟨hs, rfl, rfl⟩
  next slot hs =>
  refine .inr ⟨slot, hs, ?_⟩
  simp only at h
  split at h
  · next hn =>
    cases h
    obtain ⟨rfl, -, _, ⟨⟩, he⟩ | ⟨_, _, _, _, _, _, ⟨⟩⟩ := newFd_cases hn
    obtain rfl := or_self_iff.1 he
    exact .inl ⟨24, hn, by simp [setTimer], rfl⟩
  · next t i hn =>
    cases h
    exact .inr ⟨t, i, hn, rfl⟩

/-! ### Copied and dropped descriptors -/

/-- `dup2` fails, or copies an entry. -/
theorem handleDup2_cases {oldfd newfd : ℕ} (h : handleDup2 v pid oldfd newfd = (v', reply)) :
    (v' = v ∧ reply = errReply 9 ∧ (v.descriptor pid oldfd = none ∨ maxFds ≤ newfd)) ∨
      ∃ t i j, v.descriptor pid oldfd = some (t, i) ∧ j.val = newfd ∧
        v' = v.setFd t j (v.fd t i) ∧ reply = valReply newfd [] := by
  unfold handleDup2 at h
  split at h
  · next hlt =>
    split at h
    · next hd =>
      cases h
      exact .inl ⟨rfl, rfl, .inl hd⟩
    · next hd =>
      cases h
      exact .inr ⟨_, _, ⟨newfd, hlt⟩, hd, rfl, rfl, rfl⟩
  · next hge =>
    cases h
    exact .inl ⟨rfl, rfl, .inr (Nat.not_lt.1 hge)⟩

/-- `dup` fails and has created a table at most, or copies an entry to a place not in use. -/
theorem handleAllocFd_cases {oldfd : ℕ} (h : handleAllocFd v pid oldfd = (v', reply)) :
    ((v' = v ∨ ∃ t, v.getOrCreate pid = some (t, v')) ∧
        (reply = errReply 9 ∨ reply = errReply 12 ∨ reply = errReply 24)) ∨
      ∃ t i j, v.descriptor pid oldfd = some (t, i) ∧ (v.fd t j).inUse = false ∧
        v' = v.setFd t j { v.fd t i with flags := (v.fd t i).flags &&& ~~~oCloexec } ∧
        reply = valReply j [] := by
  unfold handleAllocFd at h
  split at h
  swap
  · cases h
    exact .inl ⟨.inl rfl, .inl rfl⟩
  split at h
  · cases h
    exact .inl ⟨.inl rfl, .inr (.inl rfl)⟩
  next t w hg =>
  split at h
  · cases h
    exact .inl ⟨.inr ⟨t, hg⟩, .inl rfl⟩
  next i hu =>
  obtain ⟨hi, hopen⟩ := ProcFdTable.used_eq_some.1 hu
  split at h
  · cases h
    exact .inl ⟨.inr ⟨t, hg⟩, .inr (.inr rfl)⟩
  next j hp =>
  cases h
  -- A table that was just created has no entry to copy.
  rcases getOrCreate_cases hg with ⟨hf, rfl⟩ | ⟨-, -, rfl⟩
  · have hj := (position_eq_some.1 hp).1
    simp only [bne_iff_ne, ne_eq, Bool.and_eq_true, Bool.not_eq_true'] at hj
    exact .inr ⟨t, i, j, descriptor_eq_some.2 ⟨hf, hi, hopen⟩, hj.2, rfl, rfl⟩
  · simp [FdEntry.empty] at hopen

/-- `fork_dup` does nothing, or copies a table to one that is not in use. -/
theorem handleForkDup_cases {parentPid childPid : ℕ}
    (h : handleForkDup v parentPid childPid = (v', reply)) :
    reply = okReply ∧ (v' = v ∨
      ∃ p t, v.findTbl parentPid = some p ∧ v.freeTbl = some t ∧
        v' = v.setTable t ⟨childPid, (v.tables p).fds, true⟩) := by
  unfold handleForkDup at h
  split at h
  · next p t hp ht =>
    cases h
    exact ⟨rfl, .inr ⟨p, t, hp, ht, rfl⟩⟩
  · cases h
    exact ⟨rfl, .inl rfl⟩

/-- `exec_cloexec` does nothing, or clears the entries of a table with the flag. -/
theorem handleExecCloexec_cases {p : ℕ} (h : handleExecCloexec v p = (v', reply)) :
    reply = okReply ∧ ((v.findTbl p = none ∧ v' = v) ∨
      ∃ t, v.findTbl p = some t ∧ v' = v.setTable t { v.tables t with
        fds := fun i =>
          if (v.fd t i).inUse ∧ hasFlag (v.fd t i).flags oCloexec then .empty else v.fd t i }) := by
  unfold handleExecCloexec at h
  split at h
  · next hp =>
    cases h
    exact ⟨rfl, .inl ⟨hp, rfl⟩⟩
  · next t hp =>
    cases h
    exact ⟨rfl, .inr ⟨t, hp, rfl⟩⟩

/-- `close_all` does nothing, or clears a table. -/
theorem handleCloseAll_cases {p : ℕ} (h : handleCloseAll v p = (v', reply)) :
    reply = okReply ∧ ((v.findTbl p = none ∧ v' = v) ∨
      ∃ t, v.findTbl p = some t ∧ v' = v.setTable t .empty) := by
  unfold handleCloseAll at h
  split at h
  · next hp =>
    cases h
    exact ⟨rfl, .inl ⟨hp, rfl⟩⟩
  · next t hp =>
    cases h
    exact ⟨rfl, .inr ⟨t, hp, rfl⟩⟩

/-- What closing a descriptor can do. -/
inductive CloseEffect (v : State) (pid n : ℕ) : State → Reply → Prop
  | bad : v.descriptor pid n = none → CloseEffect v pid n v (errReply 9)
  | pipe (t : Fin maxProcs) (i : Fin maxFds) (r : Fin maxPipes) (isWrite : Bool) :
    v.descriptor pid n = some (t, i) → (v.fd t i).kind = .pipe r isWrite →
    CloseEffect v pid n (v.setRing r ((v.rings r).closeEnd isWrite)) okReply
  | event (t : Fin maxProcs) (i : Fin maxFds) (slot : Fin maxEventfds) :
    v.descriptor pid n = some (t, i) → (v.fd t i).kind = .eventFd slot →
    CloseEffect v pid n ((v.setFd t i .empty).setCounter slot u64Max) okReply
  | timer (t : Fin maxProcs) (i : Fin maxFds) (slot : Fin maxTimerfds) :
    v.descriptor pid n = some (t, i) → (v.fd t i).kind = .timerFd slot →
    CloseEffect v pid n ((v.setFd t i .empty).setTimer slot .free) okReply
  | other (t : Fin maxProcs) (i : Fin maxFds) : v.descriptor pid n = some (t, i) →
    (∀ r b, (v.fd t i).kind ≠ .pipe r b) → (∀ slot, (v.fd t i).kind ≠ .eventFd slot) →
    (∀ slot, (v.fd t i).kind ≠ .timerFd slot) →
    CloseEffect v pid n (v.setFd t i .empty) okReply

theorem handleClose_effect (h : handleClose v pid n = (v', reply)) :
    CloseEffect v pid n v' reply := by
  unfold handleClose at h
  split at h
  · next hd =>
    cases h
    exact .bad hd
  next t i hd =>
  split at h
  · next r isWrite hk =>
    cases h
    exact .pipe t i r isWrite hd hk
  · next slot hk =>
    cases h
    exact .event t i slot hd hk
  · next slot hk =>
    cases h
    exact .timer t i slot hd hk
  · next hp he ht =>
    cases h
    exact .other t i hd hp he ht

end Cyanos.Vfs
