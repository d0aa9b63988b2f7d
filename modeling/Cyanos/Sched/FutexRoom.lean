import Mathlib.Algebra.Group.Nat.Defs
import Cyanos.Sched.FutexCpu

/-!
# Room in the futex table

The same CPU with `NEXT_PID`: a new task gets the number that is next, and numbers are used up by
creations that fail as well.  The counter is a `u32` and comes round, so two tasks can have one
process id.  A task is then not known by its pid, and `FutexSlots` has what the CPU knows of a
task under the task's slot.

As long as no new task gets the pid of a task that is still there, the CPU behaves as the one of
`FutexCpu`, where tasks are known by their pids.

## Main results

* `FutexSlots.exists_rel` : every such run is matched by a run of `FutexCpu`.
* `FutexSlots.registered_of_pidFree` : no task has two entries, every entry is of a task in
  `futex_wait`, and there is room for the task that runs.
* `FutexSlots.not_stranded` : a task in `futex_wait` can be woken or is `Ready`.
* `FutexSlots.two_entries_for_one_pid` : after `2 ^ 32` creations one process id has two entries.
-/

namespace Cyanos

open Lib RunQueue Option Function FutexCpu

namespace RunQueue

variable {q : RunQueue} {f g : Task → Task} {idx : ℕ} {t : Task}

theorem modify_congr (ht : q.get idx = some t) (hfg : f t = g t) : q.modify idx f = q.modify idx g := by
  rw [modify, modify, ht, map_some, map_some, hfg]

theorem modify_modify (hlt : idx < maxTasks) :
    (q.modify idx f).modify idx g = q.modify idx fun t => g (f t) := by
  unfold modify
  rw [get_setSlot_self hlt, map_map]
  simp only [setSlot, List.set_set]
  rfl

end RunQueue

/-! ### The machine -/

/-- A CPU, its tasks, the table and the next process id. -/
structure FutexSlots where
  table : FutexTable
  rq : RunQueue
  /-- `NEXT_PID`. -/
  nextPid : ℕ
  /-- The slot of the task that runs. -/
  current : Option ℕ
  /-- The slots whose tasks were switched away in `futex_wait`, with the address they wait for. -/
  waiting : ℕ → Option ℕ

namespace FutexSlots

/-- What can happen. -/
inductive Act
  /-- A task is created.  `memory` says whether there is memory for its stack. -/
  | create (t : Task) (memory : Bool)
  /-- The slot of a task that has exited is emptied. -/
  | reap (idx : ℕ)
  /-- `deliver_signal(pid, signo)`. -/
  | signal (pid signo : ℕ)
  /-- `unblock_port(port)`. -/
  | unblock (port : ℕ)
  /-- The scheduler picks a task and runs it. -/
  | pick
  /-- The task that runs makes a call. -/
  | call (c : FutexCpu.Call)

/-- Nothing runs yet. -/
def boot : FutexSlots := ⟨.new, .new, 1, none, fun _ => none⟩

/-- `alloc_pid`: the next process id is used up. -/
def allocPid (s : FutexSlots) : FutexSlots := { s with nextPid := (s.nextPid + 1) % 2 ^ 32 }

/-- The new task, with the process id that was next. -/
def newTask (s : FutexSlots) (t : Task) : Task := { t with pid := s.nextPid, state := .ready }

/-- A task is created: the process id is taken first, whether or not there is memory and a free
slot. -/
def create (s : FutexSlots) (t : Task) (memory : Bool) : FutexSlots :=
  if memory then
    match s.rq.enqueue (s.newTask t) with
    | some rq => { s.allocPid with rq := rq }
    | none => s.allocPid
  else s.allocPid

/-- The scheduler has the CPU again. -/
def leave (s : FutexSlots) (idx : ℕ) : FutexSlots :=
  { s with rq := s.rq.modify idx Smp.requeue, current := none }

/-- A call of the task that runs, which is in slot `idx` and has the process id `pid`. -/
def doCall (s : FutexSlots) (idx pid : ℕ) : FutexCpu.Call → FutexSlots
  | .yield => s.leave idx
  | .exit => { s with rq := s.rq.modifyPid pid fun t => { t with state := .zombie } }.leave idx
  | .block port => { s with rq := s.rq.blockOnPort pid port }.leave idx
  | .wait uaddr =>
    { s with
      table := s.table.register ⟨pid, uaddr⟩
      rq := s.rq.blockOnFutex pid uaddr
      waiting := Function.update s.waiting idx (some uaddr) }.leave idx
  | .wake uaddr n =>
    { s with
      table := ((Futexes.mk s.table s.rq).futexWake uaddr n).2.table
      rq := ((Futexes.mk s.table s.rq).futexWake uaddr n).2.rq }

/-- Steps 4 and 5 of `futex_wait`, if the task was switched away there. -/
def resume (s : FutexSlots) (idx pid : ℕ) : FutexSlots :=
  if (s.waiting idx).isSome then
    { s with
      table := s.table.clear pid
      rq := s.rq.clearFutex pid
      waiting := Function.update s.waiting idx none }
  else s

/-- A task is made to run. -/
def run (s : FutexSlots) (idx : ℕ) (t : Task) : FutexSlots :=
  { s with
    rq := s.rq.modify idx fun t => { t with state := .running }
    current := some idx }.resume idx t.pid

/-- One step. -/
def step (s : FutexSlots) : Act → Option FutexSlots
  | .create t memory => some (s.create t memory)
  | .reap idx =>
    if (s.rq.get idx).any fun t => t.state = .zombie then
      some { s with rq := s.rq.remove idx, waiting := Function.update s.waiting idx none }
    else none
  | .signal pid signo => some { s with rq := s.rq.deliverSignal pid signo }
  | .unblock port => some { s with rq := s.rq.unblockPort port }
  | .pick =>
    if s.current.isSome then none
    else
      match s.rq.pickNext with
      | (none, rq) => some { s with rq := rq }
      | (some idx, rq) => (rq.get idx).map fun t => { s with rq := rq }.run idx t
  | .call c => s.current.bind fun idx => (s.rq.get idx).map fun t => s.doCall idx t.pid c

/-- A new task, for which there are memory and a free slot, does not get the process id of a task that
is still there. -/
def PidFree (s : FutexSlots) : Act → Prop
  | .create _ memory =>
    memory = true → s.rq.tasks.any Option.isNone = true → s.rq.findPid s.nextPid = none
  | _ => True

instance (s : FutexSlots) (a : Act) : Decidable (s.PidFree a) := by
  rcases a <;> unfold PidFree <;> infer_instance

/-! ### The tasks under their process ids -/

/-- The CPU `c`, where tasks are known by their process ids, is in the state `s`. -/
structure Rel (s : FutexSlots) (c : FutexCpu) : Prop where
  table : c.table = s.table
  rq : c.rq = s.rq
  idle : s.current = none → c.current = none
  busy : ∀ idx, s.current = some idx → ∃ t, s.rq.get idx = some t ∧ c.current = some t.pid
  waiting : ∀ idx t, s.rq.get idx = some t → c.waiting t.pid = s.waiting idx
  empty : ∀ idx, s.rq.get idx = none → s.waiting idx = none

variable {s s' : FutexSlots} {c : FutexCpu} {f : Task → Task} {idx : ℕ} {t : Task}

theorem rel_boot : boot.Rel FutexCpu.boot where
  table := rfl
  rq := rfl
  idle _ := rfl
  busy _ hc := by cases hc
  waiting _ _ _ := rfl
  empty _ _ := rfl

section

variable (h : s.Rel c)
include h

/-- Tasks are changed in their slots, and nothing else happens. -/
theorem Rel.maps {rq : RunQueue} (hm : s.rq.Maps f rq) (hf : ∀ t, (f t).pid = t.pid) :
    ({ s with rq := rq }).Rel { c with rq := rq } where
  table := h.table
  rq := rfl
  idle := h.idle
  busy idx hc := by
    obtain ⟨t, ht, hc⟩ := h.busy idx hc
    exact ⟨f t, by rw [hm idx, ht, map_some], by rw [hf]; exact hc⟩
  waiting idx t' ht' := by
    obtain ⟨t, ht, rfl⟩ := hm.get ht'
    rw [hf]
    exact h.waiting idx t ht
  empty idx hnone := by
    rw [hm idx, map_eq_none_iff] at hnone
    exact h.empty idx hnone

/-- A creation that fails uses up a process id. -/
theorem Rel.allocPid : s.allocPid.Rel c :=
  { h with }

/-- The new task is in a slot that was empty, and nobody waits under its process id. -/
theorem Rel.create (hi : c.Inv) (hfree : s.rq.findPid s.nextPid = none) {rq : RunQueue}
    (he : s.rq.enqueue (s.newTask t) = some rq) :
    ({ s.allocPid with rq := rq }).Rel { c with rq := rq } := by
  obtain ⟨idx, -, hnone, -, hkept, hcases⟩ := enqueue_get he
  have hnew : c.waiting s.nextPid = none := by
    cases hw : c.waiting s.nextPid with
    | none => rfl
    | some u =>
      obtain ⟨j, v, hv, hpid⟩ := mem_pids.1 (hi.live _ u hw)
      have hfound := hi.unique.findPid hv
      rw [h.rq, hpid, hfree] at hfound
      cases hfound
  refine ⟨h.table, rfl, h.idle, fun j hc => ?_, fun j u hu => ?_, fun j hj => ?_⟩
  · obtain ⟨u, hu, hc⟩ := h.busy j hc
    exact ⟨u, (hkept j u hu).2, hc⟩
  · obtain ⟨rfl, rfl⟩ | hu := hcases j u hu
    · exact hnew.trans (h.empty j hnone).symm
    · exact h.waiting j u hu
  · refine h.empty j (eq_none_iff_forall_ne_some.2 fun u hu => ?_)
    cases hj.symm.trans (hkept j u hu).2

theorem Rel.reap (hi : c.Inv) (ht : s.rq.get idx = some t) (hz : t.state = .zombie) :
    ({ s with rq := s.rq.remove idx, waiting := update s.waiting idx none }).Rel
      { c with rq := c.rq.remove idx } := by
  refine ⟨h.table, by rw [h.rq], h.idle, fun j hc => ?_, fun j u hu => ?_, fun j hj => ?_⟩
  · obtain ⟨u, hu, hpid⟩ := h.busy j hc
    refine ⟨u, get_remove_eq_some.2 ⟨?_, hu⟩, hpid⟩
    -- the task that runs is no zombie
    rintro rfl
    have hrun := (hi.task j u (h.rq ▸ hu)).runs hpid
    obtain rfl := mem_unique ht hu
    cases hz.symm.trans hrun
  · obtain ⟨hj, hu⟩ := get_remove_eq_some.1 hu
    exact (h.waiting j u hu).trans (update_of_ne hj _ _).symm
  · by_cases hne : j = idx
    · rw [hne]
      exact update_self _ _ _
    · rw [get_remove, if_neg hne] at hj
      exact (update_of_ne hne _ _).trans (h.empty j hj)

theorem Rel.unique (hi : c.Inv) : s.rq.UniquePids := h.rq ▸ hi.unique

theorem Rel.modifyPid (hu : s.rq.UniquePids) (pid : ℕ) (hf : ∀ t, (f t).pid = t.pid) :
    ({ s with rq := s.rq.modifyPid pid f }).Rel { c with rq := c.rq.modifyPid pid f } := by
  rw [h.rq]
  exact h.maps (hu.modifyPid pid f) (pid_ite pid hf)

theorem Rel.wake (hi : c.Inv) (uaddr n pid : ℕ) :
    (s.doCall idx pid (.wake uaddr n)).Rel (c.doCall pid (.wake uaddr n)) := by
  have hu := h.unique hi
  have hmaps := h.maps (hu.wakeWaiters (s.table.take uaddr n).1) fun t => by
    split
    · exact pid_wakeFutex t
    · rfl
  unfold doCall FutexCpu.doCall
  rw [h.rq, h.table]
  exact ⟨rfl, rfl, h.idle, hmaps.busy, hmaps.waiting, hmaps.empty⟩

section

variable (ht : s.rq.get idx = some t)
include ht

/-- What is known of one task changes, under its slot and under its process id. -/
theorem Rel.update_waiting (hu : s.rq.UniquePids) (table : FutexTable) (v : Option ℕ) :
    ({ s with table := table, waiting := update s.waiting idx v }).Rel
      { c with table := table, waiting := update c.waiting t.pid v } := by
  refine ⟨rfl, h.rq, h.idle, h.busy, fun j u hj => ?_, fun j hj => ?_⟩
  · by_cases he : j = idx
    · subst he
      obtain rfl := mem_unique ht hj
      simp only [update_self]
    · have hne : u.pid ≠ t.pid := fun hpid => he (hu j idx u t hj ht hpid)
      simp only [update_of_ne hne, update_of_ne he]
      exact h.waiting j u hj
  · have hne : j ≠ idx := by
      rintro rfl
      cases hj.symm.trans ht
    exact (update_of_ne hne _ _).trans (h.empty j hj)

theorem Rel.resume (hu : s.rq.UniquePids) : (s.resume idx t.pid).Rel (c.resume t.pid) := by
  unfold FutexSlots.resume FutexCpu.resume
  rw [h.waiting idx t ht, h.table]
  split
  · exact (h.update_waiting ht hu (s.table.clear t.pid) none).modifyPid hu t.pid fun _ => rfl
  · exact h

theorem Rel.run (hi : c.Inv) : (s.run idx t).Rel (c.run idx t) := by
  have hu := h.unique hi
  have hm := hu.modify ht fun u => { u with state := .running }
  have hpid := pid_ite t.pid (f := fun u => { u with state := .running }) fun _ => rfl
  have hmaps := h.maps hm hpid
  have hget : (s.rq.modify idx fun u => { u with state := .running }).get idx =
      some { t with state := .running } := by
    rw [hm idx, ht, map_some, if_pos rfl]
  unfold FutexSlots.run FutexCpu.run
  rw [h.rq]
  refine Rel.resume (t := { t with state := .running }) ⟨hmaps.table, rfl, nofun, fun j hj => ?_,
    hmaps.waiting, hmaps.empty⟩ hget (hu.maps hm hpid)
  cases hj
  exact ⟨_, hget, rfl⟩

/-- The task that runs is changed under its process id and is not `Running` any more: the scheduler
leaves it as it is. -/
theorem Rel.leave (hu : s.rq.UniquePids) (hf : ∀ t, (f t).pid = t.pid)
    (hnot : (f t).state ≠ .running) : ({ s with rq := s.rq.modifyPid t.pid f }.leave idx).Rel
      { c with rq := c.rq.modifyPid t.pid f, current := none } := by
  have hleave : (s.rq.modifyPid t.pid f).modify idx Smp.requeue = s.rq.modifyPid t.pid f := by
    rw [hu.modifyPid_eq_modify ht, modify_modify (lt_of_get ht)]
    exact modify_congr ht (if_neg hnot)
  have hmaps := h.modifyPid hu t.pid hf
  unfold FutexSlots.leave
  rw [hleave]
  exact { hmaps with idle _ := rfl, busy := nofun }

theorem Rel.yield (hi : c.Inv) (hrun : t.state = .running) :
    (s.leave idx).Rel (c.doCall t.pid .yield) := by
  have hu := h.unique hi
  have hleave : s.rq.modify idx Smp.requeue =
      s.rq.modifyPid t.pid fun t => { t with state := .ready } := by
    rw [hu.modifyPid_eq_modify ht]
    exact modify_congr ht (if_pos hrun)
  have hmaps := h.modifyPid hu t.pid (f := fun t => { t with state := .ready }) fun _ => rfl
  unfold FutexSlots.leave
  rw [hleave]
  exact { hmaps with idle _ := rfl, busy := nofun }

theorem Rel.doCall (hi : c.Inv) (hc : c.current = some t.pid) (call : FutexCpu.Call) :
    (s.doCall idx t.pid call).Rel (c.doCall t.pid call) := by
  have hu := h.unique hi
  cases call with
  | yield => exact h.yield ht hi ((hi.task idx t (h.rq ▸ ht)).runs hc)
  | exit | block => exact h.leave ht hu (fun _ => rfl) nofun
  | wait uaddr =>
    have hreg := h.update_waiting ht hu (s.table.register ⟨t.pid, uaddr⟩) (some uaddr)
    unfold FutexCpu.doCall
    rw [h.table]
    exact hreg.leave ht hu (fun _ => rfl) nofun
  | wake uaddr n => exact h.wake hi uaddr n t.pid

end

/-- **One step is matched by a step of the CPU where tasks are known by their process ids, or by
none.** -/
theorem Rel.step (hi : c.Inv) {a : Act} (hfree : s.PidFree a) (hs : s.step a = some s') :
    ∃ c', Run FutexCpu.step FutexCpu.NewPid c c' ∧ s'.Rel c' := by
  have hu := h.unique hi
  cases a with
  | create t =>
    cases hs
    unfold FutexSlots.create
    split
    · next hmem =>
      split
      · next rq he =>
        obtain ⟨idx, -, hnone, -⟩ := enqueue_spec he
        have hfree := hfree hmem (List.any_eq_true.2 ⟨_, List.mem_of_getElem? hnone, rfl⟩)
        refine ⟨_, Run.single (l := .spawn (s.newTask t)) ?_ ?_, h.create hi hfree he⟩
        · rw [FutexCpu.NewPid, h.rq]
          exact hfree
        · rw [FutexCpu.step, if_pos (show (s.newTask t).state = .ready from rfl), h.rq, he,
            map_some]
      · exact ⟨c, .refl, h.allocPid⟩
    · exact ⟨c, .refl, h.allocPid⟩
  | reap idx =>
    simp only [FutexSlots.step] at hs
    split at hs
    · next hz =>
      obtain ⟨t, ht, hstate⟩ := exists_of_any hz
      cases hs
      refine ⟨_, Run.single (l := .reap idx) trivial ?_, h.reap hi ht hstate⟩
      rw [FutexCpu.step, h.rq, if_pos hz]
    · cases hs
  | signal pid signo =>
    cases hs
    exact ⟨_, Run.single (l := .signal pid signo) trivial rfl,
      h.modifyPid hu pid fun t => (Task.Woken.deliverSignal signo t).pid⟩
  | unblock port =>
    cases hs
    refine ⟨_, Run.single (l := .unblock port) trivial rfl, ?_⟩
    rw [h.rq]
    exact h.maps (fun idx => get_unblockPort port idx) fun t => (Task.Woken.wake port t).pid
  | pick =>
    simp only [FutexSlots.step] at hs
    split at hs
    · cases hs
    · next hidle =>
      have hidle : ¬ c.current.isSome = true := by
        rw [h.idle (by simpa using hidle)]
        exact Bool.false_ne_true
      have hsame : s.rq.Maps id s.rq.pickNext.2 := fun idx => by
        rw [get_pickNext, map_id, id]
      have hpicked := h.maps hsame fun _ => rfl
      have hinv := hi.pick
      rw [h.rq] at hinv
      split at hs
      · next rq hp =>
        cases hs
        rw [hp] at hpicked
        refine ⟨_, Run.single (l := .pick) trivial ?_, hpicked⟩
        rw [FutexCpu.step, if_neg hidle, h.rq, hp]
      · next idx rq hp =>
        obtain ⟨t, ht, rfl⟩ := map_eq_some_iff.1 hs
        rw [hp] at hpicked hinv
        refine ⟨_, Run.single (l := .pick) trivial ?_, hpicked.run ht hinv⟩
        simp only [FutexCpu.step]
        rw [if_neg hidle, h.rq, hp]
        simp only [ht, map_some]
  | call call =>
    obtain ⟨idx, hidx, hs⟩ := bind_eq_some_iff.1 hs
    obtain ⟨t, ht, rfl⟩ := map_eq_some_iff.1 hs
    obtain ⟨u, hget, hc⟩ := h.busy idx hidx
    obtain rfl := mem_unique ht hget
    refine ⟨_, Run.single (l := .call call) trivial ?_, h.doCall ht hi hc call⟩
    rw [FutexCpu.step, hc, map_some]

end

/-- **Every run in which no process id is given twice is a run of that CPU.** -/
theorem exists_rel (h : Run step PidFree boot s) :
    ∃ c, Run FutexCpu.step NewPid FutexCpu.boot c ∧ s.Rel c := by
  refine h.invariant (I := fun s => ∃ c, Run FutexCpu.step NewPid FutexCpu.boot c ∧ s.Rel c)
    ⟨_, .refl, rel_boot⟩ ?_
  rintro s a s' ⟨c, hrun, hrel⟩ hfree hs
  obtain ⟨c', hrun', hrel'⟩ := hrel.step (inv_run hrun) hfree hs
  exact ⟨c', hrun.trans hrun', hrel'⟩

/-! ### Room for the task that runs -/

/-- The entries of the table are of tasks in `futex_wait`, one for each, and there is room. -/
structure Registered (s : FutexSlots) : Prop where
  /-- No task has two entries. -/
  once : s.table.Once
  /-- Every entry is of a task of the run queue that is in `futex_wait` for its address. -/
  inside : ∀ w, some w ∈ s.table.slots →
    ∃ idx t, s.rq.get idx = some t ∧ t.pid = w.pid ∧ s.waiting idx = some w.uaddr
  /-- A task that runs finds a free slot. -/
  room : ∀ idx, s.current = some idx → s.table.hasRoom = true

/-- **As long as no new task gets the process id of a task that is still there, every task has one
entry at most, every entry is of a task inside `futex_wait`, and the task that runs finds a free
slot.** -/
theorem registered_of_pidFree (h : Run step PidFree boot s) : s.Registered := by
  obtain ⟨c, hrun, hrel⟩ := exists_rel h
  have hi := FutexCpu.inv_run hrun
  refine ⟨hrel.table ▸ hi.once, fun w hw => ?_, fun idx hidx => ?_⟩
  · have hwaits := hi.entry w (hrel.table ▸ hw)
    obtain ⟨idx, t, ht, hpid⟩ := RunQueue.mem_pids.1 (hi.live _ _ hwaits)
    have ht : s.rq.get idx = some t := hrel.rq ▸ ht
    exact ⟨idx, t, ht, hpid, by rw [← hrel.waiting idx t ht, hpid, hwaits]⟩
  · obtain ⟨t, -, hc⟩ := hrel.busy idx hidx
    exact hrel.table ▸ hi.hasRoom hc

/-- Two tasks, of which the first waits at `0x1000` and the second runs. -/
def oneWaits : List Act :=
  [.create (.newKernel 0 0x8000 0x100000) true, .create (.newKernel 0 0x9000 0x100000) true, .pick,
    .call (.wait 0x1000), .pick]

/-- Three tasks, of which the first two wait, and a creation that fails. -/
def twoWait : List Act :=
  [.create (.newKernel 0 0x8000 0x100000) true, .create (.newKernel 0 0x9000 0x100000) true,
    .create (.newKernel 0 0xa000 0x100000) true, .pick, .call (.wait 0x1000), .pick,
    .call (.wait 0x2000), .create (.newKernel 0 0xb000 0x100000) false, .pick]

theorem registered_twoWait : ∃ s, Run step PidFree boot s ∧
    (s.current = some 2 ∧ s.table.pids = [1, 2]) ∧ s.Registered :=
  Run.exists_guarded_with twoWait (by decide +kernel) fun _ hrun _ => registered_of_pidFree hrun

/-- **No task is stranded in `futex_wait`**: it is `Ready`, or has its entry in the table. -/
theorem not_stranded (h : Run step PidFree boot s) {u : ℕ} (hw : s.waiting idx = some u) :
    ∃ t, s.rq.get idx = some t ∧
      (t.state = .blocked ∧ some ⟨t.pid, u⟩ ∈ s.table.slots ∨ t.state = .ready) := by
  obtain ⟨c, hrun, hrel⟩ := exists_rel h
  cases ht : s.rq.get idx with
  | none => cases (hrel.empty idx ht).symm.trans hw
  | some t =>
    have hwaits := ((inv_run hrun).task idx t (hrel.rq ▸ ht)).waits u
    rw [hrel.waiting idx t ht, hrel.table] at hwaits
    exact ⟨t, rfl, hwaits hw⟩

/-- The third task wakes the first, and the second still waits. -/
theorem not_stranded_twoWait : ∃ s, Run step PidFree boot s ∧
    (s.waiting 0 = some 0x1000 ∧ s.waiting 1 = some 0x2000 ∧ s.table.pids = [2]) ∧
    (∃ t, s.rq.get 0 = some t ∧
      (t.state = .blocked ∧ some ⟨t.pid, 0x1000⟩ ∈ s.table.slots ∨ t.state = .ready)) ∧
    ∃ t, s.rq.get 1 = some t ∧
      (t.state = .blocked ∧ some ⟨t.pid, 0x2000⟩ ∈ s.table.slots ∨ t.state = .ready) :=
  Run.exists_guarded_with (twoWait ++ [.call (.wake 0x1000 1)]) (by decide +kernel)
    fun _ hrun hw => ⟨not_stranded hrun hw.1, not_stranded hrun hw.2.1⟩

/-! ### `NEXT_PID` comes round -/

/-- Creations that fail move `NEXT_PID` on, and nothing else. -/
theorem reach_nextPid (s : FutexSlots) (h : s.nextPid < 2 ^ 32) (n : ℕ) :
    Reach step s { s with nextPid := (s.nextPid + n) % 2 ^ 32 } := by
  induction n with
  | zero =>
    rw [Nat.add_zero, Nat.mod_eq_of_lt h]
    exact .refl
  | succ n ih =>
    refine .tail (l := .create (.newKernel 0 0 0) false) ih trivial ?_
    simp only [step, create, allocPid, Bool.false_eq_true, if_false, Nat.mod_add_mod, Nat.add_assoc]

/-- The task with the process id of the one that waits is created, runs and waits too. -/
def secondWaits : List Act :=
  [.create (.newKernel 0 0xa000 0x100000) true, .call .yield, .pick, .call (.wait 0x2000)]

/-- **`2 ^ 32` creations after task 1, another task gets its process id while it waits at `0x1000`,
and waits at `0x2000`: process id 1 has two entries.** -/
theorem two_entries_for_one_pid : ∃ s, Reach step boot s ∧
    s.table.slots[0]? = some (some ⟨1, 0x1000⟩) ∧ s.table.slots[1]? = some (some ⟨1, 0x2000⟩) ∧
    ¬ s.Registered := by
  obtain ⟨s, hreach, hnext, hs⟩ : ∃ s, Reach step boot s ∧ s.nextPid = 3 ∧
      ((secondWaits.foldlM step { s with nextPid := 1 }).any fun u =>
        u.table.slots[0]? = some (some ⟨1, 0x1000⟩) ∧
          u.table.slots[1]? = some (some ⟨1, 0x2000⟩)) = true :=
    Run.exists_of_foldlM oneWaits (by decide +kernel)
  have hround := reach_nextPid s (by rw [hnext]; decide) (2 ^ 32 - 2)
  rw [hnext] at hround
  obtain ⟨u, hreach', h0, h1⟩ := Run.exists_of_foldlM _ hs
  refine ⟨u, (hreach.trans hround).trans hreach', h0, h1, fun hreg => ?_⟩
  cases hreg.once 0 1 _ _ h0 h1 rfl

end FutexSlots

end Cyanos
