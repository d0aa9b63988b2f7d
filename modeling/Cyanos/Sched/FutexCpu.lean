import Mathlib.Data.List.Perm.Subperm
import Mathlib.Data.List.Nodup
import Cyanos.Sched.FutexWake
import Cyanos.Sched.Wakeups

/-!
# Waiting for futexes on one CPU

The task that runs makes its calls without interruption, and a task that was switched away in
`futex_wait` clears its entry when the scheduler runs it again.  Between a signal and that moment
the entry is stale: the task is `Ready` and its entry is still there.

## Main results

* `FutexCpu.Inv`, `FutexCpu.inv_run` : in every state reached the entries are of tasks in
  `futex_wait`, one for each, and every task `Blocked` there has one.
-/

namespace Cyanos

open Lib RunQueue FutexTable List Option Function

/-! ### Changing tasks in place -/

namespace RunQueue

variable {q q' : RunQueue} {f g : Task → Task} {pid idx : ℕ} {t : Task}

/-- No two slots have tasks with one pid. -/
def UniquePids (q : RunQueue) : Prop :=
  ∀ i j t t', q.get i = some t → q.get j = some t' → t.pid = t'.pid → i = j

/-- Every task is changed by `f`, in its slot. -/
def Maps (q : RunQueue) (f : Task → Task) (q' : RunQueue) : Prop :=
  ∀ idx, q'.get idx = (q.get idx).map f

theorem Maps.get (h : q.Maps f q') {t' : Task} (ht : q'.get idx = some t') :
    ∃ t, q.get idx = some t ∧ t' = f t := by
  rw [h idx] at ht
  obtain ⟨t, hget, rfl⟩ := map_eq_some_iff.1 ht
  exact ⟨t, hget, rfl⟩

theorem UniquePids.maps (h : q.UniquePids) (hm : q.Maps f q') (hf : ∀ t, (f t).pid = t.pid) :
    q'.UniquePids := by
  intro i j t t' hi hj hpid
  obtain ⟨u, hu, rfl⟩ := hm.get hi
  obtain ⟨u', hu', rfl⟩ := hm.get hj
  rw [hf, hf] at hpid
  exact h i j u u' hu hu' hpid

theorem UniquePids.findPidIdx (h : q.UniquePids) (ht : q.get idx = some t) :
    q.findPidIdx t.pid = some idx := by
  obtain ⟨j, hj⟩ := exists_findPidIdx ht
  obtain ⟨u, hu, hpid⟩ := findPidIdx_spec hj
  rw [hj, h j idx u t hu ht hpid]

theorem UniquePids.findPid (h : q.UniquePids) (ht : q.get idx = some t) :
    q.findPid t.pid = some t :=
  findPid_eq_some.2 ⟨idx, h.findPidIdx ht, ht⟩

theorem pid_ite (pid : ℕ) (hf : ∀ t, (f t).pid = t.pid) (t : Task) :
    (if t.pid = pid then f t else t).pid = t.pid := by
  split
  · exact hf t
  · rfl

theorem UniquePids.modifyPid (h : q.UniquePids) (pid : ℕ) (f : Task → Task) :
    q.Maps (fun t => if t.pid = pid then f t else t) (q.modifyPid pid f) := by
  intro idx
  rw [get_modifyPid]
  cases ht : q.get idx with
  | none => split <;> rfl
  | some t =>
    by_cases hpid : t.pid = pid
    · rw [if_pos (hpid ▸ h.findPidIdx ht), map_some, map_some, if_pos hpid]
    · rw [if_neg, map_some, if_neg hpid]
      intro hidx
      obtain ⟨u, hu, hupid⟩ := findPidIdx_spec hidx
      exact hpid (mem_unique ht hu ▸ hupid)

theorem UniquePids.modifyPid_eq_modify (h : q.UniquePids) (ht : q.get idx = some t)
    (f : Task → Task) : q.modifyPid t.pid f = q.modify idx f := by
  rw [RunQueue.modifyPid, h.findPidIdx ht]

theorem UniquePids.modify (h : q.UniquePids) (ht : q.get idx = some t) (f : Task → Task) :
    q.Maps (fun u => if u.pid = t.pid then f u else u) (q.modify idx f) :=
  h.modifyPid_eq_modify ht f ▸ h.modifyPid t.pid f

theorem Maps.trans {q'' : RunQueue} (h : q.Maps f q') (h' : q'.Maps g q'') :
    q.Maps (fun t => g (f t)) q'' := by
  intro idx
  rw [h' idx, h idx, Option.map_map]
  rfl

theorem UniquePids.wakeWaiters (h : q.UniquePids) (pids : List ℕ) :
    q.Maps (fun t => if t.pid ∈ pids then t.wakeFutex else t) (q.wakeWaiters pids) := by
  induction pids generalizing q with
  | nil => intro idx; simp [RunQueue.wakeWaiters]
  | cons p pids ih =>
    have hone := h.modifyPid p Task.wakeFutex
    have hpid : ∀ t : Task, (if t.pid = p then t.wakeFutex else t).pid = t.pid := fun t => by
      split
      · exact pid_wakeFutex t
      · rfl
    intro idx
    rw [show q.wakeWaiters (p :: pids) = (q.modifyPid p Task.wakeFutex).wakeWaiters pids from rfl,
      ih (h.maps hone hpid) idx, hone idx, Option.map_map]
    congr 1
    funext t
    by_cases hp : t.pid = p
    · by_cases hmem : p ∈ pids <;> simp [hp, hmem, pid_wakeFutex, wakeFutex_wakeFutex]
    · simp [hp]

/-- The pids of the tasks, slot by slot. -/
def pids (q : RunQueue) : List ℕ := q.tasks.filterMap fun slot => slot.map Task.pid

theorem mem_pids : pid ∈ q.pids ↔ ∃ idx t, q.get idx = some t ∧ t.pid = pid := by
  rw [pids, mem_filterMap]
  constructor
  · rintro ⟨slot, hmem, hslot⟩
    obtain ⟨t, rfl, rfl⟩ := map_eq_some_iff.1 hslot
    obtain ⟨idx, hidx⟩ := getElem?_of_mem hmem
    exact ⟨idx, t, get_eq_some.2 hidx, rfl⟩
  · rintro ⟨idx, t, ht, rfl⟩
    exact ⟨some t, mem_of_get ht, rfl⟩

theorem Maps.mem_pids (h : q.Maps f q') (hf : ∀ t, (f t).pid = t.pid) :
    pid ∈ q'.pids ↔ pid ∈ q.pids := by
  rw [RunQueue.mem_pids, RunQueue.mem_pids]
  refine exists_congr fun idx => ⟨?_, ?_⟩
  · rintro ⟨t', ht', rfl⟩
    obtain ⟨t, ht, rfl⟩ := h.get ht'
    exact ⟨t, ht, (hf t).symm⟩
  · rintro ⟨t, ht, rfl⟩
    exact ⟨f t, by rw [h idx, ht]; rfl, hf t⟩

end RunQueue

/-! ### One entry for each task -/

namespace FutexTable

variable {tbl tbl' : FutexTable} {w w' : FutexWaiter} {pid i j : ℕ}

/-- No task has two entries. -/
def Once (tbl : FutexTable) : Prop :=
  ∀ (i j : ℕ) (w w' : FutexWaiter), tbl.slots[i]? = some (some w) →
    tbl.slots[j]? = some (some w') → w.pid = w'.pid → i = j

theorem Once.mono (h : tbl.Once)
    (hsub : ∀ (i : ℕ) (w : FutexWaiter), tbl'.slots[i]? = some (some w) →
      tbl.slots[i]? = some (some w)) : tbl'.Once :=
  fun i j w w' hi hj => h i j w w' (hsub i w hi) (hsub j w' hj)

theorem Once.clear (h : tbl.Once) (hi : (tbl.clear pid).slots[i]? = some (some w)) :
    tbl.slots[i]? = some (some w) ∧ w.pid ≠ pid := by
  unfold FutexTable.clear at hi
  split at hi
  · next idx hidx =>
    obtain ⟨hlt, hpid, -⟩ := findIdx?_eq_some_iff_getElem.1 hidx
    obtain ⟨w', hw', hpid⟩ := exists_of_any hpid
    have hne : idx ≠ i := by
      rintro rfl
      rw [setSlot, getElem?_set_self hlt] at hi
      cases hi
    rw [setSlot, getElem?_set_ne hne] at hi
    have hidx : tbl.slots[idx]? = some (some w') := by rw [getElem?_eq_getElem hlt, hw']
    exact ⟨hi, fun he => hne (h idx i w' w hidx hi (hpid.trans he.symm))⟩
  · next hnone =>
    refine ⟨hi, fun he => ?_⟩
    have hfalse := findIdx?_eq_none_iff.1 hnone (some w) (mem_of_getElem? hi)
    simp [he] at hfalse

theorem register_getElem? (hi : (tbl.register w).slots[i]? = some (some w')) :
    w' = w ∨ tbl.slots[i]? = some (some w') := by
  unfold register at hi
  split at hi
  · next idx hidx =>
    obtain ⟨hlt, -, -⟩ := findIdx?_eq_some_iff_getElem.1 hidx
    by_cases hne : idx = i
    · subst hne
      rw [setSlot, getElem?_set_self hlt] at hi
      exact .inl (some.inj (some.inj hi)).symm
    · rw [setSlot, getElem?_set_ne hne] at hi
      exact .inr hi
  · exact .inr hi

/-- The new entry is in one slot, if its task had none. -/
theorem Once.register (h : tbl.Once) (hnew : ∀ w', some w' ∈ tbl.slots → w'.pid ≠ w.pid) :
    (tbl.register w).Once := by
  have hslot : ∀ k v, (tbl.register w).slots[k]? = some (some v) →
      v.pid = w.pid → tbl.slots.findIdx? isNone = some k := by
    intro k v hk hv
    unfold FutexTable.register at hk
    split at hk
    · next idx hidx =>
      by_cases hne : idx = k
      · rw [hidx, hne]
      · rw [setSlot, getElem?_set_ne hne] at hk
        exact absurd hv (hnew v (mem_of_getElem? hk))
    · exact absurd hv (hnew v (mem_of_getElem? hk))
  intro i j v v' hi hj hpid
  by_cases hv : v.pid = w.pid
  · exact some.inj ((hslot i v hi hv).symm.trans (hslot j v' hj (hpid ▸ hv)))
  · have hold : tbl.slots[i]? = some (some v) :=
      (register_getElem? hi).resolve_left fun he => hv (he ▸ rfl)
    have hold' : tbl.slots[j]? = some (some v') :=
      (register_getElem? hj).resolve_left fun he => hv (hpid.trans (he ▸ rfl))
    exact h i j v v' hold hold' hpid

/-- The pids of all entries. -/
def pids (tbl : FutexTable) : List ℕ := tbl.slots.filterMap fun slot => slot.map FutexWaiter.pid

theorem mem_pids : pid ∈ tbl.pids ↔ ∃ w, some w ∈ tbl.slots ∧ w.pid = pid := by
  rw [pids, mem_filterMap]
  constructor
  · rintro ⟨slot, hmem, hslot⟩
    obtain ⟨w, rfl, rfl⟩ := map_eq_some_iff.1 hslot
    exact ⟨w, hmem, rfl⟩
  · rintro ⟨w, hmem, rfl⟩
    exact ⟨some w, hmem, rfl⟩

/-- A table with fewer entries than slots has room. -/
theorem hasRoom_of_length_lt (h : tbl.pids.length < maxFutexWaiters) : tbl.hasRoom = true := by
  by_contra hfull
  have hall : ∀ slot ∈ tbl.slots, (slot.map FutexWaiter.pid).isSome = true := by
    intro slot hmem
    by_contra hnone
    exact hfull (any_eq_true.2 ⟨slot, hmem, by simpa using hnone⟩)
  rw [pids, length_filterMap_eq_countP, countP_eq_length.2 hall, tbl.length_slots] at h
  exact absurd h (lt_irrefl _)

end FutexTable

/-! ### The machine -/

/-- A CPU, its tasks and the table. -/
structure FutexCpu where
  table : FutexTable
  rq : RunQueue
  /-- The task that runs. -/
  current : Option ℕ
  /-- The tasks switched away in `futex_wait`, with the address they wait for. -/
  waiting : ℕ → Option ℕ

namespace FutexCpu

/-- What the task that runs can do. -/
inductive Call
  | yield
  | exit
  /-- It waits for a message. -/
  | block (port : ℕ)
  /-- `futex_wait(uaddr)`, up to the switch to the scheduler. -/
  | wait (uaddr : ℕ)
  /-- `futex_wake(uaddr, n)`. -/
  | wake (uaddr n : ℕ)

/-- What can happen. -/
inductive Act
  /-- A new task is put into the run queue. -/
  | spawn (t : Task)
  /-- The slot of a task that has exited is emptied. -/
  | reap (idx : ℕ)
  /-- `deliver_signal(pid, signo)`. -/
  | signal (pid signo : ℕ)
  /-- `unblock_port(port)`. -/
  | unblock (port : ℕ)
  /-- The scheduler picks a task and runs it. -/
  | pick
  /-- The task that runs makes a call. -/
  | call (c : Call)

/-- Nothing runs yet. -/
def boot : FutexCpu := ⟨.new, .new, none, fun _ => none⟩

/-- Steps 4 and 5 of `futex_wait`, if the task was switched away there. -/
def resume (s : FutexCpu) (pid : ℕ) : FutexCpu :=
  if (s.waiting pid).isSome then
    { s with
      table := s.table.clear pid
      rq := s.rq.clearFutex pid
      waiting := Function.update s.waiting pid none }
  else s

/-- A call of the task that runs. -/
def doCall (s : FutexCpu) (pid : ℕ) : Call → FutexCpu
  | .yield => { s with rq := s.rq.modifyPid pid fun t => { t with state := .ready }, current := none }
  | .exit => { s with rq := s.rq.modifyPid pid fun t => { t with state := .zombie }, current := none }
  | .block port => { s with rq := s.rq.blockOnPort pid port, current := none }
  | .wait uaddr =>
    { table := s.table.register ⟨pid, uaddr⟩
      rq := s.rq.blockOnFutex pid uaddr
      current := none
      waiting := Function.update s.waiting pid (some uaddr) }
  | .wake uaddr n =>
    { s with
      table := ((Futexes.mk s.table s.rq).futexWake uaddr n).2.table
      rq := ((Futexes.mk s.table s.rq).futexWake uaddr n).2.rq }

/-- A task is made to run. -/
def run (s : FutexCpu) (idx : ℕ) (t : Task) : FutexCpu :=
  resume
    { s with
      rq := s.rq.modify idx fun t => { t with state := .running }
      current := some t.pid } t.pid

/-- One step. -/
def step (s : FutexCpu) : Act → Option FutexCpu
  | .spawn t =>
    if t.state = .ready then (s.rq.enqueue t).map fun rq => { s with rq := rq } else none
  | .reap idx =>
    if (s.rq.get idx).any fun t => t.state = .zombie then some { s with rq := s.rq.remove idx } else none
  | .signal pid signo => some { s with rq := s.rq.deliverSignal pid signo }
  | .unblock port => some { s with rq := s.rq.unblockPort port }
  | .pick =>
    if s.current.isSome then none
    else
      match s.rq.pickNext with
      | (none, rq) => some { s with rq := rq }
      | (some idx, rq) => (rq.get idx).map fun t => ({ s with rq := rq }).run idx t
  | .call c => s.current.map fun pid => s.doCall pid c

/-- No new task has the pid of a task that is there: `NEXT_PID` has not come round. -/
def NewPid (s : FutexCpu) : Act → Prop
  | .spawn t => s.rq.findPid t.pid = none
  | _ => True

instance (s : FutexCpu) (a : Act) : Decidable (s.NewPid a) := by
  rcases a <;> unfold NewPid <;> infer_instance

/-! ### The invariant -/

/-- A task that was switched away in `futex_wait` is `Blocked` and in the table, or `Ready`; the
task that runs is `Running`. -/
structure TaskOk (s : FutexCpu) (t : Task) : Prop where
  waits : ∀ u, s.waiting t.pid = some u →
    t.state = .blocked ∧ some ⟨t.pid, u⟩ ∈ s.table.slots ∨ t.state = .ready
  runs : s.current = some t.pid → t.state = .running

/-- What holds of every reachable state. -/
structure Inv (s : FutexCpu) : Prop where
  unique : s.rq.UniquePids
  task : ∀ idx t, s.rq.get idx = some t → s.TaskOk t
  /-- Entries are of tasks in `futex_wait`. -/
  entry : ∀ w, some w ∈ s.table.slots → s.waiting w.pid = some w.uaddr
  /-- There is one for each. -/
  once : s.table.Once
  live : ∀ pid u, s.waiting pid = some u → pid ∈ s.rq.pids
  current : ∀ pid, s.current = some pid → pid ∈ s.rq.pids ∧ s.waiting pid = none

theorem inv_boot : boot.Inv where
  unique i j t t' hi := by
    have hmem := mem_of_get hi
    cases eq_of_mem_replicate hmem
  task idx t ht := by cases eq_of_mem_replicate (mem_of_get ht)
  entry w hw := by cases eq_of_mem_replicate hw
  once i j w w' hi := by cases eq_of_mem_replicate (mem_of_getElem? hi)
  live := nofun
  current := nofun

variable {s s' : FutexCpu} {f : Task → Task} {pid idx : ℕ} {t t' : Task}

section

variable (h : s.Inv)
include h

/-- Every task is changed in its slot. -/
theorem Inv.maps (hm : s.rq.Maps f s'.rq) (hf : ∀ t, (f t).pid = t.pid)
    (hwaits : ∀ idx t u, s.rq.get idx = some t → s'.waiting t.pid = some u →
      (f t).state = .blocked ∧ some ⟨t.pid, u⟩ ∈ s'.table.slots ∨ (f t).state = .ready)
    (hruns : ∀ idx t, s.rq.get idx = some t → s'.current = some t.pid → (f t).state = .running)
    (hentry : ∀ w, some w ∈ s'.table.slots → s'.waiting w.pid = some w.uaddr)
    (honce : s'.table.Once) (hlive : ∀ pid u, s'.waiting pid = some u → pid ∈ s.rq.pids)
    (hcurrent : ∀ pid, s'.current = some pid → pid ∈ s.rq.pids ∧ s'.waiting pid = none) :
    s'.Inv where
  unique := h.unique.maps hm hf
  task idx t' ht' := by
    obtain ⟨t, ht, rfl⟩ := hm.get ht'
    refine ⟨fun u hu => ?_, fun hc => hruns idx t ht (hf t ▸ hc)⟩
    rw [hf] at hu ⊢
    exact hwaits idx t u ht hu
  entry := hentry
  once := honce
  live pid u hu := (hm.mem_pids hf).2 (hlive pid u hu)
  current pid hp := ⟨(hm.mem_pids hf).2 (hcurrent pid hp).1, (hcurrent pid hp).2⟩

/-- The task that runs is not `Blocked`, so nothing wakes it. -/
theorem Inv.runs_woken (ht : s.rq.get idx = some t) (hw : t.Woken t')
    (hc : s.current = some t.pid) : t'.state = .running := by
  have hrun := (h.task idx t ht).runs hc
  obtain hs | ⟨hb, -⟩ := hw.state
  · exact hs.trans hrun
  · cases hrun.symm.trans hb

/-- Tasks are woken, and nothing else happens. -/
theorem Inv.woken {rq : RunQueue} (hm : s.rq.Maps f rq)
    (hf : ∀ t : Task, t.Woken (f t)) : ({ s with rq := rq }).Inv := by
  refine h.maps hm (fun t => (hf t).pid) (fun idx t u ht hu => ?_)
    (fun idx t ht => h.runs_woken ht (hf t)) h.entry h.once h.live h.current
  obtain ⟨hb, hmem⟩ | hr := (h.task idx t ht).waits u hu
  · exact (hf t).state.imp (fun hs => ⟨hs.trans hb, hmem⟩) And.right
  · obtain hs | ⟨hb, -⟩ := (hf t).state
    · exact .inr (hs.trans hr)
    · cases hr.symm.trans hb

theorem Inv.signal (pid signo : ℕ) : ({ s with rq := s.rq.deliverSignal pid signo }).Inv :=
  h.woken (h.unique.modifyPid pid (Task.deliverSignal signo)) fun t => by
    split
    · exact .deliverSignal ..
    · exact .refl t

theorem Inv.unblock (port : ℕ) : ({ s with rq := s.rq.unblockPort port }).Inv :=
  h.woken (fun idx => get_unblockPort port idx) fun t => .wake port t

theorem Inv.spawn (hfresh : s.rq.findPid t.pid = none) (hready : t.state = .ready) {rq : RunQueue}
    (he : s.rq.enqueue t = some rq) : ({ s with rq := rq }).Inv := by
  obtain ⟨idx, -, -, -, hkept, hcases⟩ := enqueue_get he
  have hnot : t.pid ∉ s.rq.pids := by
    intro hmem
    obtain ⟨j, u, hu, hpid⟩ := mem_pids.1 hmem
    rw [← hpid, h.unique.findPid hu] at hfresh
    cases hfresh
  have hmem : ∀ p, p ∈ s.rq.pids → p ∈ rq.pids := by
    intro p hp
    obtain ⟨j, u, hu, hpid⟩ := mem_pids.1 hp
    exact mem_pids.2 ⟨j, u, (hkept j u hu).2, hpid⟩
  have hother : ∀ j u, s.rq.get j = some u → u.pid ≠ t.pid := fun j u hu he =>
    hnot (he ▸ mem_pids.2 ⟨j, u, hu, rfl⟩)
  refine ⟨fun i j u u' hi hj hpid => ?_, fun j u hu => ?_, h.entry, h.once,
    fun p u hp => hmem p (h.live p u hp), fun p hp => ⟨hmem p (h.current p hp).1, (h.current p hp).2⟩⟩
  · obtain ⟨rfl, rfl⟩ | hi := hcases i u hi
    · obtain ⟨rfl, -⟩ | hj := hcases j u' hj
      · rfl
      · exact absurd hpid.symm (hother j u' hj)
    · obtain ⟨rfl, rfl⟩ | hj := hcases j u' hj
      · exact absurd hpid (hother i u hi)
      · exact h.unique i j u u' hi hj hpid
  · obtain ⟨rfl, rfl⟩ | hu := hcases j u hu
    · exact ⟨fun _ _ => .inr hready, fun hc => absurd (h.current _ hc).1 hnot⟩
    · exact ⟨(h.task j u hu).waits, (h.task j u hu).runs⟩

theorem Inv.reap (ht : s.rq.get idx = some t) (hz : t.state = .zombie) :
    ({ s with rq := s.rq.remove idx }).Inv := by
  have hok := h.task idx t ht
  have hcases : ∀ j u, (s.rq.remove idx).get j = some u → s.rq.get j = some u := fun _ _ hu =>
    (get_remove_eq_some.1 hu).2
  -- the task that goes is neither waiting nor running
  have hwaits : s.waiting t.pid = none := by
    cases hw : s.waiting t.pid with
    | none => rfl
    | some u =>
      obtain ⟨hb, -⟩ | hr := hok.waits u hw
      · cases hz.symm.trans hb
      · cases hz.symm.trans hr
  have hcurrent : s.current ≠ some t.pid := fun hc => by cases hz.symm.trans (hok.runs hc)
  have hmem : ∀ p, p ∈ s.rq.pids → p ≠ t.pid → p ∈ (s.rq.remove idx).pids := by
    intro p hp hne
    obtain ⟨j, u, hu, rfl⟩ := mem_pids.1 hp
    refine mem_pids.2 ⟨j, u, get_remove_eq_some.2 ⟨?_, hu⟩, rfl⟩
    rintro rfl
    exact hne (congrArg Task.pid (mem_unique hu ht))
  refine ⟨fun i j u u' hi hj => h.unique i j u u' (hcases i u hi) (hcases j u' hj),
    fun j u hu => ⟨(h.task j u (hcases j u hu)).waits, (h.task j u (hcases j u hu)).runs⟩, h.entry,
    h.once, fun p u hp => hmem p (h.live p u hp) ?_, fun p hp => ⟨hmem p (h.current p hp).1 ?_,
      (h.current p hp).2⟩⟩
  · rintro rfl
    rw [hwaits] at hp
    cases hp
  · rintro rfl
    exact hcurrent hp

theorem Inv.run (ht : s.rq.get idx = some t) : (s.run idx t).Inv := by
  have hmem : t.pid ∈ s.rq.pids := mem_pids.2 ⟨idx, t, ht, rfl⟩
  have hm := h.unique.modify ht fun u => { u with state := .running }
  have hpid := pid_ite t.pid (f := fun u => { u with state := .running }) fun _ => rfl
  have hpid' := pid_ite t.pid (f := fun u => { u with blockedFutex := 0 }) fun _ => rfl
  unfold FutexCpu.run resume
  split
  · -- it was switched away in `futex_wait`: its entry goes, and it is not waiting any more
    refine h.maps (hm.trans ((h.unique.maps hm hpid).modifyPid t.pid _))
      (fun u => (hpid' _).trans (hpid u)) (fun j u v hu hv => ?_)
      (fun j u hu hc => ?_) (fun w hw => ?_) (h.once.mono fun i w hi => (h.once.clear hi).1)
      (fun p v hp => ?_) fun p hp => ?_
    · have hne : u.pid ≠ t.pid := by
        intro he
        rw [he] at hv
        cases (update_self t.pid _ s.waiting).symm.trans hv
      have hv : s.waiting u.pid = some v := (update_of_ne hne _ _).symm.trans hv
      simp only [hne, if_false]
      exact ((h.task j u hu).waits v hv).imp_left fun hb => ⟨hb.1, mem_clear_of_mem hne hb.2⟩
    · simp only [(some.inj hc).symm, if_true]
    · obtain ⟨i, hi⟩ := getElem?_of_mem hw
      obtain ⟨hold, hne⟩ := h.once.clear hi
      exact (update_of_ne hne _ _).trans (h.entry w (mem_of_getElem? hold))
    · by_cases he : p = t.pid
      · exact he ▸ hmem
      · exact h.live p v ((update_of_ne he _ _).symm.trans hp)
    · cases hp
      exact ⟨hmem, update_self _ _ _⟩
  · next hnone =>
    have hnone : s.waiting t.pid = none := by simpa using hnone
    refine h.maps hm hpid (fun j u v hu hv => ?_) (fun j u hu hc => ?_) h.entry h.once h.live
      fun p hp => ?_
    · have hne : u.pid ≠ t.pid := by
        intro he
        rw [he] at hv
        cases hnone.symm.trans hv
      simp only [hne, if_false]
      exact (h.task j u hu).waits v hv
    · simp only [(some.inj hc).symm, if_true]
    · cases hp
      exact ⟨hmem, hnone⟩

theorem Inv.pick : ({ s with rq := s.rq.pickNext.2 }).Inv :=
  h.woken (f := id) (fun idx => by rw [get_pickNext, Option.map_id, id]) fun t => .refl t

/-- The task that runs switches to the scheduler. -/
theorem Inv.leave (hc : s.current = some pid) (hf : ∀ t, (f t).pid = t.pid) :
    ({ s with rq := s.rq.modifyPid pid f, current := none }).Inv := by
  refine h.maps (h.unique.modifyPid pid f) (pid_ite pid hf) (fun idx t u ht hu => ?_)
    (fun _ _ _ => nofun) h.entry h.once h.live nofun
  have hne : t.pid ≠ pid := by
    intro he
    rw [he] at hu
    cases (h.current pid hc).2.symm.trans hu
  rw [if_neg hne]
  exact (h.task idx t ht).waits u hu

/-- There is room in the table for the task that runs: the others have one entry each at most, and
there are no more than `MAX_TASKS` of them. -/
theorem Inv.hasRoom (hc : s.current = some pid) : s.table.hasRoom = true := by
  obtain ⟨hpid, hnone⟩ := h.current pid hc
  have hnot : pid ∉ s.table.pids := by
    intro hmem
    obtain ⟨w, hw, rfl⟩ := mem_pids.1 hmem
    cases hnone.symm.trans (h.entry w hw)
  have hsub : pid :: s.table.pids ⊆ s.rq.pids := by
    rintro p (_ | ⟨_, hp⟩)
    · exact hpid
    · obtain ⟨w, hw, rfl⟩ := mem_pids.1 hp
      exact h.live w.pid w.uaddr (h.entry w hw)
  have hnodup := nodup_filterMap_keys (fun _ _ => map_eq_some_iff.1) h.once
  have hlen := ((nodup_cons.2 ⟨hnot, hnodup⟩).subperm hsub).length_le
  exact hasRoom_of_length_lt (hlen.trans ((length_filterMap_le _ _).trans s.rq.length_tasks.le))

theorem Inv.wait (hc : s.current = some pid) (uaddr : ℕ) : (s.doCall pid (.wait uaddr)).Inv := by
  obtain ⟨hpid, hnone⟩ := h.current pid hc
  have hnew : ∀ w, some w ∈ s.table.slots → w.pid ≠ pid := by
    rintro w hw rfl
    cases hnone.symm.trans (h.entry w hw)
  refine h.maps (h.unique.modifyPid pid _) (pid_ite pid fun _ => rfl)
    (fun idx t u ht hu => ?_) (fun _ _ _ => nofun) (fun w hw => ?_) (h.once.register hnew)
    (fun p u hu => ?_) nofun
  · by_cases he : t.pid = pid
    · rw [he] at hu
      obtain rfl : uaddr = u := some.inj ((update_self pid _ s.waiting).symm.trans hu)
      rw [if_pos he, he]
      exact .inl ⟨rfl, mem_register (h.hasRoom hc)⟩
    · rw [if_neg he]
      have hu : s.waiting t.pid = some u := (update_of_ne he _ _).symm.trans hu
      exact ((h.task idx t ht).waits u hu).imp_left fun hb => ⟨hb.1, mem_register_of_mem hb.2⟩
  · obtain ⟨i, hi⟩ := getElem?_of_mem hw
    obtain rfl | hold := FutexTable.register_getElem? hi
    · exact update_self _ _ _
    · have hmem := mem_of_getElem? hold
      exact (update_of_ne (hnew w hmem) _ _).trans (h.entry w hmem)
  · by_cases he : p = pid
    · exact he ▸ hpid
    · exact h.live p u ((update_of_ne he _ _).symm.trans hu)

end

theorem state_wakeFutex (h : t.state = .blocked ∨ t.state = .ready) : t.wakeFutex.state = .ready := by
  unfold Task.wakeFutex
  split
  · rfl
  · next hnot => exact h.resolve_left hnot

theorem Inv.wake (h : s.Inv) (uaddr n : ℕ) : (s.doCall pid (.wake uaddr n)).Inv := by
  have hwoken : ∀ t : Task,
      t.Woken (if t.pid ∈ (s.table.take uaddr n).1 then t.wakeFutex else t) := fun t => by
    split
    · exact .wakeFutex t
    · exact .refl t
  refine h.maps (h.unique.wakeWaiters (s.table.take uaddr n).1) (fun t => (hwoken t).pid)
    (fun idx t u ht hu => ?_) (fun idx t ht => h.runs_woken ht (hwoken t)) (fun w hw => ?_)
    (h.once.mono fun i w hi => getElem?_of_takeFrom hi) h.live h.current
  · have hwaits := (h.task idx t ht).waits u hu
    by_cases hmem : t.pid ∈ (s.table.take uaddr n).1
    · rw [if_pos hmem]
      exact .inr (state_wakeFutex (hwaits.imp_left And.left))
    · rw [if_neg hmem]
      refine hwaits.imp_left fun hb => ⟨hb.1, ?_⟩
      -- its entry was not taken
      obtain ⟨i, hi⟩ := getElem?_of_mem hb.2
      exact mem_of_getElem? ((takeFrom_getElem? hi).resolve_right fun hgone => hmem hgone.2.2)
  · obtain ⟨i, hi⟩ := getElem?_of_mem hw
    exact h.entry w (mem_of_getElem? (getElem?_of_takeFrom hi))

theorem Inv.doCall (h : s.Inv) (hc : s.current = some pid) (c : Call) : (s.doCall pid c).Inv := by
  cases c with
  | yield | exit | block => exact h.leave hc fun _ => rfl
  | wait uaddr => exact h.wait hc uaddr
  | wake uaddr n => exact h.wake ..

theorem Inv.step (h : s.Inv) {a : Act} (hnew : s.NewPid a) (hs : s.step a = some s') : s'.Inv := by
  cases a with
  | spawn =>
    rw [FutexCpu.step] at hs
    split at hs
    · next hready =>
      obtain ⟨rq, he, rfl⟩ := map_eq_some_iff.1 hs
      exact h.spawn hnew hready he
    · cases hs
  | reap =>
    simp only [FutexCpu.step] at hs
    split at hs
    · next hz =>
      obtain ⟨t, ht, hz⟩ := exists_of_any hz
      cases hs
      exact h.reap ht hz
    · cases hs
  | signal pid signo =>
    cases hs
    exact h.signal ..
  | unblock port =>
    cases hs
    exact h.unblock port
  | pick =>
    simp only [FutexCpu.step] at hs
    split at hs
    · cases hs
    · have hpick := h.pick
      split at hs
      · next rq hp =>
        cases hs
        rwa [hp] at hpick
      · next idx rq hp =>
        obtain ⟨t, ht, rfl⟩ := map_eq_some_iff.1 hs
        rw [hp] at hpick
        exact hpick.run ht
  | call c =>
    obtain ⟨pid, hc, rfl⟩ := map_eq_some_iff.1 hs
    exact h.doCall hc c

/-- **The invariant holds in every state reached.** -/
theorem inv_run (h : Run step NewPid boot s) : s.Inv :=
  h.invariant inv_boot fun _ _ _ hi hg hs => hi.step hg hs

end FutexCpu

end Cyanos
