import Cyanos.Lib.Run
import Cyanos.Sched.Futex
import Cyanos.Sched.RunQueue

/-!
# Waiting for a futex

One thread in `sys_futex(FUTEX_WAIT)` and, on another CPU, one that stores a new value and then
calls `sys_futex(FUTEX_WAKE)`; other threads may enter and leave the table of waiters at any time.
The waiter reads the value, enters the table, marks itself `Blocked` and switches away in four
steps; the waker stores, takes entries out of the table and wakes their tasks in three.

A waker that takes the entry before the waiter is `Blocked` finds nobody to wake, and the entry is
gone when the waiter goes to sleep (`sleeps_without_entry`).  A waker that looks into the table
before the waiter has entered it misses it as well.

* `FutexRace.Answered`: when the waker is done, the waiter is not `Blocked`, and if it has gone to
  sleep it has been made `Ready`;
* `FutexRace.InOrder`: the steps that keep out of these gaps, find room in the table, and have room
  for all the waiters they take;
* `answered_run`: **in a run of such steps the waiter is always `Answered`**.
-/

namespace Cyanos

open Lib FutexTable List Option RunQueue

namespace FutexTable

variable {tbl : FutexTable} {w w' : FutexWaiter} {uaddr n pid : ℕ}

/-- How many of the slots are of waiters for the futex. -/
def waitersIn (uaddr : ℕ) (slots : List (Option FutexWaiter)) : ℕ :=
  slots.countP fun slot => slot.any fun w => w.uaddr = uaddr

/-- How many threads wait for the futex. -/
def waitersOn (tbl : FutexTable) (uaddr : ℕ) : ℕ := waitersIn uaddr tbl.slots

/-- A slot is free. -/
def hasRoom (tbl : FutexTable) : Bool := tbl.slots.any Option.isNone

theorem mem_register (h : tbl.hasRoom = true) : some w ∈ (tbl.register w).slots := by
  unfold register
  cases hidx : tbl.slots.findIdx? isNone with
  | none =>
    obtain ⟨slot, hmem, hnone⟩ := any_eq_true.1 h
    cases (findIdx?_eq_none_iff.1 hidx slot hmem).symm.trans hnone
  | some =>
    obtain ⟨hi, -, -⟩ := findIdx?_eq_some_iff_getElem.1 hidx
    exact mem_set hi _

/-- Entries stay in their slots. -/
theorem mem_register_of_mem (h : some w ∈ tbl.slots) : some w ∈ (tbl.register w').slots := by
  unfold register
  split
  · next idx hidx =>
    obtain ⟨hi, hnone, -⟩ := findIdx?_eq_some_iff_getElem.1 hidx
    refine mem_set_of_ne h fun _ he => ?_
    rw [he] at hnone
    cases hnone
  · exact h

theorem mem_clear_of_mem (hne : w.pid ≠ pid) (h : some w ∈ tbl.slots) :
    some w ∈ (tbl.clear pid).slots := by
  unfold clear
  split
  · next idx hidx =>
    obtain ⟨hi, hpid, -⟩ := findIdx?_eq_some_iff_getElem.1 hidx
    refine mem_set_of_ne h fun _ he => hne ?_
    rw [he] at hpid
    simpa using hpid
  · exact h

theorem length_pidsOn : (tbl.pidsOn uaddr).length = tbl.waitersOn uaddr := by
  rw [pidsOn, pidsIn, length_filterMap_eq_countP, waitersOn, waitersIn]
  refine countP_congr fun slot _ => ?_
  cases slot with
  | none => rfl
  | some => simp

end FutexTable

namespace RunQueue

variable {q : RunQueue} {pid : ℕ}

theorem pid_wakeFutex (t : Task) : t.wakeFutex.pid = t.pid := by
  unfold Task.wakeFutex
  split <;> rfl

theorem wakeFutex_wakeFutex (t : Task) : t.wakeFutex.wakeFutex = t.wakeFutex := by
  by_cases h : t.state = .blocked
  · simp [Task.wakeFutex, h]
  · simp [Task.wakeFutex, h]

/-- The tasks that were taken are woken, and no other. -/
theorem findPid_wakeWaiters (pids : List ℕ) (q : RunQueue) (pid : ℕ) :
    (q.wakeWaiters pids).findPid pid =
      if pid ∈ pids then (q.findPid pid).map Task.wakeFutex else q.findPid pid := by
  induction pids generalizing q with
  | nil => simp [wakeWaiters]
  | cons p pids ih =>
    have hstep : (q.modifyPid p Task.wakeFutex).findPid pid =
        if pid = p then (q.findPid pid).map Task.wakeFutex else q.findPid pid := by
      split
      · next he =>
        subst he
        cases ht : q.findPid pid with
        | none => rw [modifyPid, findPidIdx_eq_none ht, ht, map_none]
        | some => exact findPid_modifyPid_self pid_wakeFutex ht
      · next hne => exact findPid_modifyPid_of_ne pid_wakeFutex hne
    rw [show q.wakeWaiters (p :: pids) = (q.modifyPid p Task.wakeFutex).wakeWaiters pids from rfl,
      ih, hstep]
    by_cases hp : pid = p
    · by_cases hmem : pid ∈ pids
      · simp [hp, Function.comp_def, wakeFutex_wakeFutex]
      · simp [hp ▸ hmem, hp]
    · simp [hp]

end RunQueue

/-- The two calls. -/
structure FutexCalls where
  /-- The futex. -/
  uaddr : ℕ
  /-- The value `FUTEX_WAIT` is called with. -/
  val : ℕ
  /-- The waiter. -/
  pid : ℕ
  /-- The value the waker stores. -/
  stored : ℕ
  /-- How many waiters `FUTEX_WAKE` is to wake. -/
  n : ℕ

/-- Where the waiter is in `sys_futex` and `futex_wait`. -/
inductive WaitPhase
  /-- About to read the value. -/
  | entry
  /-- The value was as expected: about to enter the table. -/
  | checked
  /-- In the table, if there was room: about to mark itself `Blocked`. -/
  | registered
  /-- It has marked itself `Blocked` and switches to the scheduler. -/
  | asleep
  /-- It runs again: about to clear its entry. -/
  | woken
  /-- About to clear `blocked_futex`. -/
  | cleared
  /-- It has returned. -/
  | done (res : ℤ)
  deriving DecidableEq, Repr

/-- Where the waker is. -/
inductive WakePhase
  /-- About to store the new value. -/
  | entry
  /-- About to take waiters out of the table. -/
  | stored
  /-- It has taken these: about to wake their tasks. -/
  | took (pids : List ℕ)
  /-- It has returned. -/
  | done
  deriving DecidableEq, Repr

/-- The waiter, the waker and what they share. -/
structure FutexRace where
  /-- The value of the futex. -/
  word : ℕ
  table : FutexTable
  rq : RunQueue
  waiter : WaitPhase
  waker : WakePhase

namespace FutexRace

/-- A step of the system. -/
inductive Act
  /-- The waiter takes its next step. -/
  | wait
  /-- The scheduler runs the waiter again. -/
  | resume
  /-- The waker takes its next step. -/
  | wake
  /-- Another thread enters the table. -/
  | join (w : FutexWaiter)
  /-- Another thread, which was woken, clears its entry. -/
  | leave (pid : ℕ)
  deriving DecidableEq, Repr

section Step

variable (c : FutexCalls)

/-- The next step of the waiter. -/
def wait (s : FutexRace) : Option FutexRace :=
  match s.waiter with
  | .entry => some { s with waiter := if s.word ≠ c.val % 2 ^ 32 then .done (-11) else .checked }
  | .checked => some { s with table := s.table.register ⟨c.pid, c.uaddr⟩, waiter := .registered }
  | .registered => some { s with rq := s.rq.blockOnFutex c.pid c.uaddr, waiter := .asleep }
  | .asleep => none
  | .woken => some { s with table := s.table.clear c.pid, waiter := .cleared }
  | .cleared => some { s with rq := s.rq.clearFutex c.pid, waiter := .done 0 }
  | .done _ => none

/-- What the scheduler has of the waiter. -/
def state (s : FutexRace) : Option TaskState := (s.rq.findPid c.pid).map Task.state

/-- The scheduler runs the waiter when it is ready. -/
def resume (s : FutexRace) : Option FutexRace :=
  if s.waiter = .asleep ∧ s.state c = some .ready then
    some { s with
      rq := s.rq.modifyPid c.pid fun t => { t with state := .running }
      waiter := .woken }
  else none

/-- The next step of the waker. -/
def wake (s : FutexRace) : Option FutexRace :=
  match s.waker with
  | .entry => some { s with word := c.stored, waker := .stored }
  | .stored =>
    some { s with
      table := (s.table.take c.uaddr c.n).2
      waker := .took (s.table.take c.uaddr c.n).1 }
  | .took pids => some { s with rq := s.rq.wakeWaiters pids, waker := .done }
  | .done => none

/-- A step of the system. -/
def step (s : FutexRace) : Act → Option FutexRace
  | .wait => s.wait c
  | .resume => s.resume c
  | .wake => s.wake c
  | .join w => if w.pid = c.pid then none else some { s with table := s.table.register w }
  | .leave pid => if pid = c.pid then none else some { s with table := s.table.clear pid }

/-- The waiter, which is running, enters `FUTEX_WAIT`; the waker is about to store another value and
to wake at least one waiter. -/
structure Begins (s : FutexRace) : Prop where
  running : s.state c = some .running
  waiter : s.waiter = .entry
  waker : s.waker = .entry
  stored : c.stored ≠ c.val % 2 ^ 32
  pos : 1 ≤ c.n

/-- The waker wakes as many waiters as there are: at most `n` threads wait on the futex. -/
def Enough (s : FutexRace) : Act → Prop
  | .wake => s.waker = .stored → s.table.waitersOn c.uaddr ≤ c.n
  | _ => True

/-- When the waker is done, the waiter is not blocked, and if it sleeps it has been made ready. -/
def Answered (s : FutexRace) : Prop := s.waker = .done →
  s.state c ≠ some .blocked ∧ (s.waiter = .asleep → s.state c = some .ready)

/-- The steps of the waiter and of the waker keep out of each other's gaps:
* the waiter enters the table when there is room;
* the waker takes waiters when the waiter is not about to enter the table, and no more of them wait
  than it has room for;
* the waker wakes them when the waiter is not about to mark itself `Blocked`. -/
def InOrder (s : FutexRace) : Act → Prop
  | .wait => s.waiter = .checked → s.table.hasRoom = true
  | .wake =>
    match s.waker with
    | .stored => s.waiter ≠ .checked ∧ s.table.waitersOn c.uaddr ≤ maxWoken
    | .took _ => s.waiter ≠ .registered
    | .entry | .done => True
  | _ => True

/-- The waker will come to the waiter: it has not yet looked into the table, and finds the waiter
there when it does, or it has taken the waiter's entry and not yet woken it. -/
def Awaited (s : FutexRace) : Prop :=
  (some ⟨c.pid, c.uaddr⟩ ∈ s.table.slots ∧ (s.waker = .entry ∨ s.waker = .stored)) ∨
    ∃ pids, s.waker = .took pids ∧ c.pid ∈ pids

/-- What holds of every state of a run. -/
structure Inv (s : FutexRace) : Prop where
  /-- The new value is there once the waker has stored it. -/
  word : s.waker ≠ .entry → s.word = c.stored
  present : s.state c ≠ none
  /-- The waker has not looked into the table when the waiter is about to enter it. -/
  checked : s.waiter = .checked → s.waker = .entry ∨ s.waker = .stored
  registered : s.waiter = .registered → s.Awaited c
  asleep : s.waiter = .asleep → s.state c = some .ready ∨ s.state c = some .blocked ∧ s.Awaited c
  awake : s.waiter ≠ .asleep → s.state c ≠ some .blocked

end Step

variable {c : FutexCalls} {s s' : FutexRace}

theorem Awaited.waker_ne_done (h : s.Awaited c) : s.waker ≠ .done := by
  rintro hd
  rcases h with ⟨-, h | h⟩ | ⟨pids, h, -⟩ <;> cases hd.symm.trans h

namespace Inv

theorem of_begins (h : s.Begins c) : s.Inv c where
  word hne := absurd h.waker hne
  present := by simp [h.running]
  checked hp := by cases h.waiter.symm.trans hp
  registered hp := by cases h.waiter.symm.trans hp
  asleep hp := by cases h.waiter.symm.trans hp
  awake _ := by simp [h.running]

section

variable (h : s.Inv c)
include h

theorem answered : s.Answered c := by
  intro hd
  by_cases hp : s.waiter = .asleep
  · have hready : s.state c = some .ready :=
      (h.asleep hp).resolve_right fun hb => hb.2.waker_ne_done hd
    exact ⟨by simp [hready], fun _ => hready⟩
  · exact ⟨h.awake hp, fun hp' => absurd hp' hp⟩

theorem task : ∃ t, s.rq.findPid c.pid = some t := by
  have h := h.present
  rwa [state, Ne, map_eq_none_iff, ← Ne, ne_none_iff_exists'] at h

/-! ### The steps -/

theorem wait (hval : c.stored ≠ c.val % 2 ^ 32) (hg : s.InOrder c .wait)
    (hs : s.wait c = some s') : s'.Inv c := by
  unfold FutexRace.wait at hs
  cases hp : s.waiter with
  | entry =>
    simp only [hp] at hs
    cases hs
    have hawake := h.awake (by simp [hp])
    by_cases hw : s.word = c.val % 2 ^ 32
    · -- The value is the old one, so the waker has not stored yet.
      have hentry : s.waker = .entry := by
        by_contra hne
        exact hval ((h.word hne).symm.trans hw)
      rw [if_neg (not_not.2 hw)]
      exact ⟨h.word, h.present, fun _ => .inl hentry, nofun, nofun, fun _ => hawake⟩
    · rw [if_pos hw]
      exact ⟨h.word, h.present, nofun, nofun, nofun, fun _ => hawake⟩
  | checked =>
    simp only [hp] at hs
    cases hs
    have hmem := mem_register (w := ⟨c.pid, c.uaddr⟩) (hg hp)
    exact ⟨h.word, h.present, nofun, fun _ => .inl ⟨hmem, h.checked hp⟩, nofun,
      fun _ => h.awake (by simp [hp])⟩
  | registered =>
    simp only [hp] at hs
    cases hs
    obtain ⟨t, ht⟩ := h.task
    have hblocked : (s.rq.blockOnFutex c.pid c.uaddr).findPid c.pid =
        some { t with state := .blocked, blockedFutex := c.uaddr } :=
      findPid_modifyPid_self (fun _ => rfl) ht
    refine ⟨h.word, ?_, nofun, nofun, fun _ => .inr ⟨?_, h.registered hp⟩, fun hne => absurd rfl hne⟩
    · simp [state, hblocked]
    · simp [state, hblocked]
  | asleep => simp only [hp] at hs; cases hs
  | woken =>
    simp only [hp] at hs
    cases hs
    exact ⟨h.word, h.present, nofun, nofun, nofun, fun _ => h.awake (by simp [hp])⟩
  | cleared =>
    simp only [hp] at hs
    cases hs
    obtain ⟨t, ht⟩ := h.task
    have hcleared : (s.rq.clearFutex c.pid).findPid c.pid = some { t with blockedFutex := 0 } :=
      findPid_modifyPid_self (fun _ => rfl) ht
    have hsame : FutexRace.state c { s with rq := s.rq.clearFutex c.pid, waiter := .done 0 } =
        s.state c := by
      simp [state, hcleared, ht]
    exact ⟨h.word, hsame ▸ h.present, nofun, nofun, nofun, fun _ => hsame ▸ h.awake (by simp [hp])⟩
  | done => simp only [hp] at hs; cases hs

theorem resume (hs : s.resume c = some s') : s'.Inv c := by
  unfold FutexRace.resume at hs
  split at hs
  swap
  · cases hs
  cases hs
  obtain ⟨t, ht⟩ := h.task
  have hrun := findPid_modifyPid_self (f := fun t => { t with state := .running })
    (fun _ => rfl) ht
  have hstate : state c
      { s with rq := s.rq.modifyPid c.pid fun t => { t with state := .running }, waiter := .woken } =
        some .running := by
    simp [state, hrun]
  exact ⟨h.word, by simp [hstate], nofun, nofun, nofun, fun _ => by simp [hstate]⟩

/-- The waker's entries are taken. -/
theorem take (hp : s.waker = .stored) (hroom : s.waiter ≠ .checked)
    (hmax : s.table.waitersOn c.uaddr ≤ maxWoken) (hn : s.table.waitersOn c.uaddr ≤ c.n) :
    Inv c { s with
      table := (s.table.take c.uaddr c.n).2
      waker := .took (s.table.take c.uaddr c.n).1 } := by
  have htook : s.Awaited c → c.pid ∈ (s.table.take c.uaddr c.n).1 := by
    rintro (⟨hmem, -⟩ | ⟨pids, hw, -⟩)
    · rw [take_fst, take_of_length_le (length_pidsOn.trans_le (le_min hn hmax))]
      exact mem_pidsOn.2 hmem
    · cases hp.symm.trans hw
  refine ⟨fun _ => h.word (by simp [hp]), h.present, fun hc => absurd hc hroom,
    fun hr => .inr ⟨_, rfl, htook (h.registered hr)⟩, fun ha => ?_, h.awake⟩
  exact (h.asleep ha).imp_right fun ⟨hb, hw⟩ => ⟨hb, .inr ⟨_, rfl, htook hw⟩⟩

/-- The tasks taken are woken. -/
theorem wakeTaken {pids : List ℕ} (hp : s.waker = .took pids) (hreg : s.waiter ≠ .registered) :
    Inv c { s with rq := s.rq.wakeWaiters pids, waker := .done } := by
  obtain ⟨t, ht⟩ := h.task
  have hst : s.state c = some t.state := by simp [state, ht]
  have hfind := findPid_wakeWaiters pids s.rq c.pid
  rw [ht] at hfind
  have hstate : FutexRace.state c { s with rq := s.rq.wakeWaiters pids, waker := .done } =
      some (if c.pid ∈ pids ∧ t.state = .blocked then .ready else t.state) := by
    unfold FutexRace.state
    rw [hfind]
    by_cases hmem : c.pid ∈ pids <;> by_cases hb : t.state = .blocked <;>
      simp [hmem, hb, Task.wakeFutex]
  refine ⟨fun _ => h.word (by simp [hp]), by simp [hstate], fun hc => ?_, fun hr => absurd hr hreg,
    fun ha => .inl ?_, fun hne => ?_⟩
  · rcases h.checked hc with h' | h' <;> cases hp.symm.trans h'
  · -- A waiter that sleeps is ready already, or its entry has been taken.
    rw [hstate]
    rcases h.asleep ha with hr | ⟨hb, hmem | ⟨pids', hp', hmem⟩⟩
    · have hr : t.state = .ready := mem_unique hst hr
      simp [hr]
    · rcases hmem.2 with h' | h' <;> cases hp.symm.trans h'
    · obtain rfl : pids = pids' := WakePhase.took.inj (hp.symm.trans hp')
      have hb : t.state = .blocked := mem_unique hst hb
      simp [hmem, hb]
  · have hb : t.state ≠ .blocked := fun hb => h.awake hne (by rw [hst, hb])
    rw [hstate, if_neg fun hc => hb hc.2]
    simpa using hb

theorem wake (hn : s.Enough c .wake) (hg : s.InOrder c .wake)
    (hs : s.wake c = some s') : s'.Inv c := by
  unfold FutexRace.wake at hs
  rw [InOrder] at hg
  cases hp : s.waker with
  | entry =>
    rw [hp] at hs
    cases hs
    have hawait : s.Awaited c → Awaited c { s with word := c.stored, waker := .stored } := by
      rintro (⟨hmem, -⟩ | ⟨pids, hw, -⟩)
      · exact .inl ⟨hmem, .inr rfl⟩
      · cases hp.symm.trans hw
    exact ⟨fun _ => rfl, h.present, fun _ => .inr rfl, fun hr => hawait (h.registered hr),
      fun ha => (h.asleep ha).imp_right fun ⟨hb, hw⟩ => ⟨hb, hawait hw⟩, h.awake⟩
  | stored =>
    rw [hp] at hs hg
    cases hs
    exact h.take hp hg.1 hg.2 (hn hp)
  | took =>
    rw [hp] at hs hg
    cases hs
    exact h.wakeTaken hp hg
  | done => rw [hp] at hs; cases hs

/-- Other threads leave the waiter's entry alone. -/
theorem table {table : FutexTable}
    (hmem : some ⟨c.pid, c.uaddr⟩ ∈ s.table.slots → some ⟨c.pid, c.uaddr⟩ ∈ table.slots) :
    Inv c { s with table := table } := by
  have hawait : s.Awaited c → Awaited c { s with table := table } :=
    Or.imp_left fun ⟨hm, hw⟩ => ⟨hmem hm, hw⟩
  exact ⟨h.word, h.present, h.checked, fun hr => hawait (h.registered hr),
    fun ha => (h.asleep ha).imp_right fun ⟨hb, hw⟩ => ⟨hb, hawait hw⟩, h.awake⟩

theorem step (hval : c.stored ≠ c.val % 2 ^ 32) {a : Act} (hn : s.Enough c a) (hg : s.InOrder c a)
    (hs : s.step c a = some s') : s'.Inv c := by
  cases a with
  | wait => exact h.wait hval hg hs
  | resume => exact h.resume hs
  | wake => exact h.wake hn hg hs
  | join =>
    rw [FutexRace.step] at hs
    split at hs
    · cases hs
    · cases hs
      exact h.table mem_register_of_mem
  | leave =>
    rw [FutexRace.step] at hs
    split at hs
    · cases hs
    · next hne =>
      cases hs
      exact h.table (mem_clear_of_mem fun he => hne he.symm)

end

end Inv

/-- **No lost wakeup.**  When the steps are `InOrder` and the waker wakes as many as wait, the
waiter is not blocked when the waker is done: it has not slept, or it has been made ready. -/
theorem answered_run {s₀ : FutexRace} (h₀ : s₀.Begins c)
    (h : Run (step c) (fun s a => s.Enough c a ∧ s.InOrder c a) s₀ s) : s.Answered c :=
  (h.invariant (Inv.of_begins h₀) fun _ _ _ hi hg hs => hi.step h₀.stored hg.1 hg.2 hs).answered

instance (s : FutexRace) : DecidablePred (s.Enough c)
  | .wake => inferInstanceAs (Decidable (_ → _ ≤ _))
  | .wait | .resume | .join _ | .leave _ => .isTrue trivial

instance (s : FutexRace) (a : Act) : Decidable (s.InOrder c a) := by
  unfold InOrder
  split <;> (try split) <;> infer_instance

/-- Task 1 waits for the futex at `0x1000` to change from 0, and another thread sets it to 1 and
wakes one waiter. -/
def oneWaiter : FutexCalls := ⟨0x1000, 0, 1, 1, 1⟩

/-- Both threads are about to begin. -/
def atEntry : FutexRace where
  word := 0
  table := .new
  rq := RunQueue.new.setSlot 0 (some { Task.newKernel 1 0x1000 0 with state := .running })
  waiter := .entry
  waker := .entry

theorem atEntry_begins : atEntry.Begins oneWaiter where
  running := rfl
  waiter := rfl
  waker := rfl
  stored := by decide
  pos := by decide

/-- The waiter sleeps, and the waker finds it and makes it ready. -/
theorem answered_run_asleep :
    ∃ s, Run (step oneWaiter) (fun s a => s.Enough oneWaiter a ∧ s.InOrder oneWaiter a) atEntry s ∧
      (s.waiter = .asleep ∧ s.waker = .done) ∧ s.state oneWaiter = some .ready :=
  Run.exists_guarded_with [.wait, .wait, .wake, .wait, .wake, .wake] (by decide +kernel)
    fun _ hrun hp => (answered_run atEntry_begins hrun hp.2).2 hp.1

/-- **A lost wakeup.**  The waker takes the waiter's entry and looks for a blocked task when the
waiter has not yet marked itself `Blocked`: the waiter sleeps with no entry in the table. -/
theorem sleeps_without_entry : atEntry.Begins oneWaiter ∧
    ∃ s, Run (step oneWaiter) (fun s a => s.Enough oneWaiter a) atEntry s ∧ (s.waker = .done ∧
      s.state oneWaiter = some .blocked ∧ s.table.waitersOn oneWaiter.uaddr = 0) ∧
      ¬s.Answered oneWaiter :=
  ⟨atEntry_begins, Run.exists_guarded_with [.wait, .wait, .wake, .wake, .wake, .wait]
    (by decide +kernel) fun _ _ hp h => (h hp.1).1 hp.2.1⟩

end FutexRace

end Cyanos
