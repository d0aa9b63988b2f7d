import Cyanos.Sched.Task

/-!
# Futexes and signals: what puts tasks to sleep and wakes them

The table of waiting tasks of `sched/src/futex.rs`, and the sections of `futex_wait`, `futex_wake`
and `deliver_signal` under the lock of the table or of the run queue.  Each section is one
definition: the code releases the lock between them.

## Main results

* `FutexTable.take_fst` : `futex_wake` takes the first entries for the address.
-/

namespace Cyanos

/-- `FutexWaiter`. -/
structure FutexWaiter where
  pid : ℕ
  uaddr : ℕ
  deriving DecidableEq, Repr

/-- `MAX_FUTEX_WAITERS`. -/
def maxFutexWaiters : ℕ := 256

/-- How many process ids `futex_wake` has room for. -/
def maxWoken : ℕ := 32

/-- `FUTEX_TABLE`. -/
structure FutexTable where
  /-- The slots. -/
  slots : List (Option FutexWaiter)
  /-- There are `MAX_FUTEX_WAITERS` slots. -/
  length_slots : slots.length = maxFutexWaiters

namespace FutexTable

/-- The table at boot. -/
def new : FutexTable := ⟨List.replicate maxFutexWaiters none, List.length_replicate⟩

/-- Replace what is in a slot. -/
def setSlot (tbl : FutexTable) (idx : ℕ) (slot : Option FutexWaiter) : FutexTable :=
  { tbl with slots := tbl.slots.set idx slot, length_slots := by simp [tbl.length_slots] }

/-- Step 1 of `futex_wait`: the first free slot, if there is one, is for the waiter. -/
def register (tbl : FutexTable) (w : FutexWaiter) : FutexTable :=
  match tbl.slots.findIdx? Option.isNone with
  | some idx => tbl.setSlot idx (some w)
  | none => tbl

/-- Step 4 of `futex_wait`: the first entry of the task is cleared. -/
def clear (tbl : FutexTable) (pid : ℕ) : FutexTable :=
  match tbl.slots.findIdx? fun slot => slot.any fun w => w.pid = pid with
  | some idx => tbl.setSlot idx none
  | none => tbl

/-- The loop of `futex_wake` over the slots, after `count` waiters have been taken: the process ids
it takes and the slots it leaves. -/
def takeFrom (uaddr n : ℕ) : ℕ → List (Option FutexWaiter) → List ℕ × List (Option FutexWaiter)
  | _, [] => ([], [])
  | count, slot :: rest =>
    if n ≤ count then ([], slot :: rest)
    else
      match slot with
      | some w =>
        if w.uaddr = uaddr ∧ count < maxWoken then
          (w.pid :: (takeFrom uaddr n (count + 1) rest).1, none :: (takeFrom uaddr n (count + 1) rest).2)
        else ((takeFrom uaddr n count rest).1, some w :: (takeFrom uaddr n count rest).2)
      | none => ((takeFrom uaddr n count rest).1, none :: (takeFrom uaddr n count rest).2)

theorem length_takeFrom (uaddr n count : ℕ) (slots : List (Option FutexWaiter)) :
    (takeFrom uaddr n count slots).2.length = slots.length := by
  induction slots generalizing count with
  | nil => rfl
  | cons slot rest ih =>
    unfold takeFrom
    split
    · rfl
    · cases slot with
      | none => simp [ih]
      | some =>
        dsimp only
        split <;> simp [ih]

/-- The section of `futex_wake(uaddr, n)` under the lock of the table. -/
def take (tbl : FutexTable) (uaddr n : ℕ) : List ℕ × FutexTable :=
  ((takeFrom uaddr n 0 tbl.slots).1,
    ⟨(takeFrom uaddr n 0 tbl.slots).2, (length_takeFrom _ _ _ _).trans tbl.length_slots⟩)

/-! ### Which entries are taken -/

variable {tbl : FutexTable} {w : FutexWaiter} {uaddr n count pid : ℕ}
  {slots : List (Option FutexWaiter)}

/-- The tasks with an entry for the address, in the order of the slots. -/
def pidsIn (uaddr : ℕ) (slots : List (Option FutexWaiter)) : List ℕ :=
  slots.filterMap fun slot => slot.bind fun w => if w.uaddr = uaddr then some w.pid else none

/-- The tasks with an entry for the address. -/
def pidsOn (tbl : FutexTable) (uaddr : ℕ) : List ℕ := pidsIn uaddr tbl.slots

theorem pidsIn_some_self (hw : w.uaddr = uaddr) :
    pidsIn uaddr (some w :: slots) = w.pid :: pidsIn uaddr slots := by
  simp [pidsIn, hw]

theorem pidsIn_some_of_ne (hw : w.uaddr ≠ uaddr) :
    pidsIn uaddr (some w :: slots) = pidsIn uaddr slots := by
  simp [pidsIn, hw]

theorem mem_pidsOn : pid ∈ tbl.pidsOn uaddr ↔ some ⟨pid, uaddr⟩ ∈ tbl.slots := by
  rw [pidsOn, pidsIn, List.mem_filterMap]
  constructor
  · rintro ⟨slot, hmem, hslot⟩
    obtain ⟨w, rfl, hw⟩ := Option.bind_eq_some_iff.1 hslot
    split at hw
    · next hu =>
      cases hw
      rwa [← hu]
    · cases hw
  · exact fun hmem => ⟨_, hmem, by simp⟩

theorem takeFrom_of_le (h : min n maxWoken ≤ count) :
    takeFrom uaddr n count slots = ([], slots) := by
  induction slots with
  | nil => rfl
  | cons slot rest ih =>
    unfold takeFrom
    split
    · rfl
    · cases slot with
      | none => simp [ih]
      | some w =>
        have hfull : ¬(w.uaddr = uaddr ∧ count < maxWoken) := by omega
        simp [hfull, ih]

theorem takeFrom_fst :
    (takeFrom uaddr n count slots).1 = (pidsIn uaddr slots).take (min n maxWoken - count) := by
  induction slots generalizing count with
  | nil => simp [takeFrom, pidsIn]
  | cons slot rest ih =>
    by_cases hle : min n maxWoken ≤ count
    · rw [takeFrom_of_le hle, Nat.sub_eq_zero_of_le hle, List.take_zero]
    · obtain ⟨m, hm⟩ : ∃ m, min n maxWoken - count = m + 1 := ⟨min n maxWoken - count - 1, by omega⟩
      unfold takeFrom
      rw [if_neg (by omega)]
      cases slot with
      | none => exact ih
      | some w =>
        dsimp only
        by_cases hw : w.uaddr = uaddr
        · have hsub : min n maxWoken - (count + 1) = m := by omega
          rw [if_pos ⟨hw, by omega⟩, pidsIn_some_self hw, hm, List.take_succ_cons, ih, hsub]
        · rw [if_neg fun h => hw h.1, pidsIn_some_of_ne hw]
          exact ih

/-- **The entries taken are the first ones for the address, at most `n` and at most 32.** -/
theorem take_fst : (tbl.take uaddr n).1 = (tbl.pidsOn uaddr).take (min n maxWoken) := takeFrom_fst

end FutexTable

/-! ### What happens to the tasks -/

/-- What `futex_wake` does to a task whose entry it took. -/
def Task.wakeFutex (t : Task) : Task :=
  if t.state = .blocked then { t with state := .ready, blockedFutex := 0 } else t

/-- What `deliver_signal(pid, signo)` does to the task. -/
def Task.deliverSignal (signo : ℕ) (t : Task) : Task :=
  if 0 < signo ∧ signo ≤ 64 then
    { t with
      signalPending := t.signalPending ||| 1#64 <<< (signo - 1)
      state := if t.state = .blocked then .ready else t.state }
  else t

namespace RunQueue

/-- Step 2 of `futex_wait`. -/
def blockOnFutex (q : RunQueue) (pid uaddr : ℕ) : RunQueue :=
  q.modifyPid pid fun t => { t with state := .blocked, blockedFutex := uaddr }

/-- The section of `futex_wake` under the lock of the run queue, for the process ids it took. -/
def wakeWaiters (q : RunQueue) (pids : List ℕ) : RunQueue :=
  pids.foldl (fun q pid => q.modifyPid pid Task.wakeFutex) q

/-- `deliver_signal(pid, signo)`. -/
def deliverSignal (q : RunQueue) (pid signo : ℕ) : RunQueue :=
  q.modifyPid pid (Task.deliverSignal signo)

/-- Step 5 of `futex_wait`. -/
def clearFutex (q : RunQueue) (pid : ℕ) : RunQueue :=
  q.modifyPid pid fun t => { t with blockedFutex := 0 }

end RunQueue

end Cyanos
