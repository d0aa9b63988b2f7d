import Cyanos.Sched.FutexWakeup

/-!
# What `futex_wake` does

`futex_wake(uaddr, n)` takes the first `n` entries of the table for the address, but at most 32, and
makes those of their tasks `Ready` that are `Blocked`.  Entries are keyed by the virtual address
alone, so a task of another process that waits at the same address in its own address space is taken
as well.

## Main results

* `FutexTable.takeFrom_getElem?` : which entries stay.
* `RunQueue.mem_wokenBy` : which tasks are counted.
* `Futexes.untouched_iff` : a task is left alone exactly when it is not among the entries taken.
* `Futexes.wakes_other_process` : a waiter of another process is woken.
-/

namespace Cyanos

open Lib

namespace FutexTable

variable {tbl : FutexTable} {w : FutexWaiter} {uaddr n count pid idx : ℕ}
  {slots : List (Option FutexWaiter)}

/-- A slot is emptied or stays as it was; it is emptied only if its entry is taken. -/
theorem takeFrom_getElem? (h : slots[idx]? = some (some w)) :
    (takeFrom uaddr n count slots).2[idx]? = some (some w) ∨
      (takeFrom uaddr n count slots).2[idx]? = some none ∧ w.uaddr = uaddr ∧
        w.pid ∈ (takeFrom uaddr n count slots).1 := by
  induction slots generalizing count idx with
  | nil => cases h
  | cons slot rest ih =>
    unfold takeFrom
    split
    · exact .inl h
    · cases idx with
      | zero =>
        obtain rfl : slot = some w := Option.some.inj h
        dsimp only
        split
        · next hu => exact .inr ⟨rfl, hu.1, .head _⟩
        · exact .inl rfl
      | succ idx =>
        have h : rest[idx]? = some (some w) := h
        cases slot with
        | none => exact ih h
        | some =>
          dsimp only
          split
          · exact (ih h).imp_right (And.imp_right (And.imp_right (List.mem_cons_of_mem _)))
          · exact ih h

/-- No slot gets a new entry. -/
theorem getElem?_of_takeFrom (h : (takeFrom uaddr n count slots).2[idx]? = some (some w)) :
    slots[idx]? = some (some w) := by
  induction slots generalizing count idx with
  | nil => cases h
  | cons slot rest ih =>
    unfold takeFrom at h
    split at h
    · exact h
    · cases slot with
      | none =>
        cases idx with
        | zero => cases h
        | succ => exact ih h
      | some =>
        dsimp only at h
        split at h
        · cases idx with
          | zero => cases h
          | succ => exact ih h
        · cases idx with
          | zero => exact h
          | succ => exact ih h

/-- An entry that is taken leaves its slot. -/
theorem exists_of_mem_takeFrom (h : pid ∈ (takeFrom uaddr n count slots).1) :
    ∃ idx : ℕ, slots[idx]? = some (some (⟨pid, uaddr⟩ : FutexWaiter)) ∧
      (takeFrom uaddr n count slots).2[idx]? = some none := by
  induction slots generalizing count with
  | nil => cases h
  | cons slot rest ih =>
    unfold takeFrom at h ⊢
    split at h
    · cases h
    · next hn =>
      rw [if_neg hn]
      cases slot with
      | none =>
        obtain ⟨idx, h1, h2⟩ := ih h
        exact ⟨idx + 1, h1, h2⟩
      | some =>
        dsimp only at h ⊢
        split at h
        · next hu =>
          rw [if_pos hu]
          rcases List.mem_cons.1 h with rfl | h
          · refine ⟨0, ?_, rfl⟩
            rw [← hu.1]
            rfl
          · obtain ⟨idx, h1, h2⟩ := ih h
            exact ⟨idx + 1, h1, h2⟩
        · next hu =>
          rw [if_neg hu]
          obtain ⟨idx, h1, h2⟩ := ih h
          exact ⟨idx + 1, h1, h2⟩

end FutexTable

namespace RunQueue

variable {q : RunQueue} {pid : ℕ} {pids : List ℕ}

/-- The task is `Blocked`. -/
def isBlocked (q : RunQueue) (pid : ℕ) : Bool := (q.findPid pid).any fun t => t.state = .blocked

/-- The tasks that `futex_wake` counts, of the process ids it took: those it finds `Blocked`. -/
def wokenBy : RunQueue → List ℕ → List ℕ
  | _, [] => []
  | q, pid :: pids =>
    (if q.isBlocked pid then [pid] else []) ++ wokenBy (q.modifyPid pid Task.wakeFutex) pids

theorem isBlocked_modifyPid (p : ℕ) :
    (q.modifyPid p Task.wakeFutex).isBlocked pid = (decide (pid ≠ p) && q.isBlocked pid) := by
  have hfind := findPid_wakeWaiters [p] q pid
  rw [show q.wakeWaiters [p] = q.modifyPid p Task.wakeFutex from rfl] at hfind
  rw [isBlocked, hfind, isBlocked]
  by_cases hp : pid = p
  · cases q.findPid pid with
    | none => simp
    | some t => by_cases hb : t.state = .blocked <;> simp [hp, Task.wakeFutex, hb]
  · simp [hp]

/-- Counted are the tasks taken that were `Blocked`. -/
theorem mem_wokenBy : pid ∈ q.wokenBy pids ↔ pid ∈ pids ∧ q.isBlocked pid = true := by
  induction pids generalizing q with
  | nil => simp [wokenBy]
  | cons p pids ih =>
    rw [wokenBy, List.mem_append, ih, isBlocked_modifyPid]
    by_cases hp : pid = p
    · by_cases hb : q.isBlocked p = true <;> simp [hp]
    · have hnot : pid ∉ (if q.isBlocked p = true then [p] else []) := by
        split <;> simp [hp]
      simp [hp]

end RunQueue

/-! ### The call -/

/-- What `futex_wake` works on. -/
structure Futexes where
  table : FutexTable
  rq : RunQueue

namespace Futexes

variable {s : Futexes} {uaddr n pid : ℕ}

/-- The tasks that `futex_wake(uaddr, n)` counts. -/
def woken (s : Futexes) (uaddr n : ℕ) : List ℕ := s.rq.wokenBy (s.table.take uaddr n).1

/-- `futex_wake(uaddr, n)`: the number it returns, and the state after it. -/
def futexWake (s : Futexes) (uaddr n : ℕ) : ℕ × Futexes :=
  ((s.woken uaddr n).length,
    ⟨(s.table.take uaddr n).2, s.rq.wakeWaiters (s.table.take uaddr n).1⟩)

/-- `futex_wake(uaddr, n)` leaves the task alone: the task is unchanged, its entries stay and it is
not counted. -/
structure Untouched (s : Futexes) (uaddr n pid : ℕ) : Prop where
  task : (s.futexWake uaddr n).2.rq.findPid pid = s.rq.findPid pid
  entries : ∀ (idx : ℕ) (w : FutexWaiter), s.table.slots[idx]? = some (some w) → w.pid = pid →
    (s.futexWake uaddr n).2.table.slots[idx]? = some (some w)
  counted : pid ∉ s.woken uaddr n

/-- **A call of `futex_wake(uaddr, n)`, by whatever task, leaves another task alone exactly when
that task has no entry among the first `n`, and the first 32, for the address.** -/
theorem untouched_iff (s : Futexes) (uaddr n pid : ℕ) :
    s.Untouched uaddr n pid ↔ pid ∉ (s.table.pidsOn uaddr).take (min n maxWoken) := by
  rw [← FutexTable.take_fst]
  constructor
  · intro h hmem
    -- its entry would be gone
    obtain ⟨idx, hslot, hgone⟩ := FutexTable.exists_of_mem_takeFrom hmem
    have hstays := h.entries idx _ hslot rfl
    cases hstays.symm.trans hgone
  · intro hnot
    refine ⟨?_, fun idx w hslot hpid => ?_, fun hmem => hnot (RunQueue.mem_wokenBy.1 hmem).1⟩
    · rw [futexWake, RunQueue.findPid_wakeWaiters, if_neg hnot]
    · exact (FutexTable.takeFrom_getElem? hslot).resolve_right fun ⟨_, _, hmem⟩ => hnot (hpid ▸ hmem)

/-- Two processes: task 1 runs, and task 2, with another page table, waits for its own word at
`0x1000`. -/
def twoProcesses : Futexes where
  table := FutexTable.new.register ⟨2, 0x1000⟩
  rq := ((RunQueue.new.setSlot 0 (some { Task.newKernel 1 0x8000 0x100000 with state := .running })
    ).setSlot 1 (some (Task.newKernel 2 0x9000 0x200000))).blockOnFutex 2 0x1000

/-- **Task 1 calls `FUTEX_WAKE` on its own word at `0x1000`: task 2 of the other process is made
`Ready`, its entry is gone, and it is counted.** -/
theorem wakes_other_process :
    (twoProcesses.rq.findPid 1).map (fun t => (t.tgid, t.pageTable)) = some (1, 0x100000) ∧
      (twoProcesses.rq.findPid 2).map (fun t => (t.tgid, t.pageTable, t.state)) =
        some (2, 0x200000, .blocked) ∧
      (twoProcesses.futexWake 0x1000 1).1 = 1 ∧
      ((twoProcesses.futexWake 0x1000 1).2.rq.findPid 2).map Task.state = some .ready ∧
      (twoProcesses.futexWake 0x1000 1).2.table.slots = FutexTable.new.slots := by
  decide +kernel

end Futexes

end Cyanos
