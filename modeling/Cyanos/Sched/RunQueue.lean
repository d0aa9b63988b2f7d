import Cyanos.Lib.Run
import Cyanos.Lib.Slots
import Cyanos.Sched.Task

/-!
# What the operations of the run queue do

Which tasks are in the slots after each operation of `RunQueue`, and what is found by process id.
-/

namespace Cyanos.RunQueue

open Lib List Option

variable {q q' : RunQueue} {t t' : Task} {idx pid : ℕ} {f : Task → Task} {slot : Option Task}

theorem get_eq_some : q.get idx = some t ↔ q.tasks[idx]? = some (some t) := by
  rw [get, getD_eq_getElem?_getD]
  cases h : q.tasks[idx]? with
  | none => simp
  | some => simp

theorem mem_of_get (h : q.get idx = some t) : some t ∈ q.tasks := mem_of_getElem? (get_eq_some.1 h)

theorem lt_of_get (h : q.get idx = some t) : idx < maxTasks := by
  obtain ⟨hi, -⟩ := List.getElem?_eq_some_iff.1 (get_eq_some.1 h)
  rwa [q.length_tasks] at hi

theorem get_setSlot_self (h : idx < maxTasks) : (q.setSlot idx slot).get idx = slot := by
  rw [get, setSlot, getD_eq_getElem?_getD, getElem?_set_self (by rwa [q.length_tasks])]
  rfl

theorem get_setSlot_of_ne {j : ℕ} (h : j ≠ idx) : (q.setSlot idx slot).get j = q.get j := by
  rw [get, get, setSlot, getD_eq_getElem?_getD, getElem?_set_ne h.symm, getD_eq_getElem?_getD]

theorem get_of_le (h : maxTasks ≤ idx) : q.get idx = none := by
  rw [get, getD_eq_getElem?_getD, getElem?_eq_none (by rwa [q.length_tasks])]
  rfl

theorem get_setSlot {j : ℕ} (h : idx < maxTasks) :
    (q.setSlot idx slot).get j = if j = idx then slot else q.get j := by
  split
  · next he => rw [he, get_setSlot_self h]
  · next hne => exact get_setSlot_of_ne hne

theorem get_modify (j : ℕ) :
    (q.modify idx f).get j = if j = idx then (q.get j).map f else q.get j := by
  by_cases hlt : idx < maxTasks
  · rw [modify, get_setSlot hlt]
    split
    · next he => rw [he]
    · rfl
  · by_cases hj : j = idx
    · rw [if_pos hj, hj, get_of_le (by omega), get_of_le (by omega), map_none]
    · rw [if_neg hj, modify, get_setSlot_of_ne hj]

theorem get_modifyPid (j : ℕ) : (q.modifyPid pid f).get j =
    if q.findPidIdx pid = some j then (q.get j).map f else q.get j := by
  unfold modifyPid
  cases hidx : q.findPidIdx pid with
  | none => rw [if_neg (by simp)]
  | some =>
    simp only [get_modify, some.injEq, eq_comm]

theorem get_unblockPort (port j : ℕ) : (q.unblockPort port).get j = (q.get j).map (wake port) := by
  rw [get, get, unblockPort, getD_eq_getElem?_getD, getD_eq_getElem?_getD, getElem?_map]
  cases q.tasks[j]? with
  | none => rfl
  | some => rfl

theorem get_remove (j : ℕ) : (q.remove idx).get j = if j = idx then none else q.get j := by
  by_cases hlt : idx < maxTasks
  · exact get_setSlot hlt
  · by_cases hj : j = idx
    · rw [if_pos hj, hj, get_of_le (by omega)]
    · rw [if_neg hj]
      exact get_setSlot_of_ne hj

theorem get_remove_eq_some {j : ℕ} :
    (q.remove idx).get j = some t ↔ j ≠ idx ∧ q.get j = some t := by
  rw [get_remove]
  split <;> simp [*]

theorem isReady_iff : q.isReady idx = true ↔ ∃ t, q.get idx = some t ∧ t.state = .ready := by
  rw [isReady, Option.any_eq_true]
  simp

/-- Picking a task changes where the next search begins and nothing else. -/
theorem get_pickNext (j : ℕ) : q.pickNext.2.get j = q.get j := by
  unfold pickNext
  split
  · rfl
  · split <;> rfl

theorem isReady_of_pickNext (h : q.pickNext.1 = some idx) : q.isReady idx = true := by
  unfold pickNext at h
  split at h
  · cases h
  · split at h
    · next hfind =>
      cases h
      exact find?_some hfind
    · cases h

theorem findPidIdx_spec (h : q.findPidIdx pid = some idx) : ∃ t, q.get idx = some t ∧ t.pid = pid := by
  obtain ⟨hi, hp, -⟩ := findIdx?_eq_some_iff_getElem.1 h
  obtain ⟨t, ht, hpid⟩ := exists_of_any hp
  exact ⟨t, get_eq_some.2 (by rw [getElem?_eq_getElem hi, ht]), hpid⟩

/-- A task in the queue is found by its process id, or another one with the same process id is. -/
theorem exists_findPidIdx (h : q.get idx = some t) : ∃ j, q.findPidIdx t.pid = some j := by
  cases hidx : q.findPidIdx t.pid with
  | some j => exact ⟨j, rfl⟩
  | none =>
    have hnot := findIdx?_eq_none_iff.1 hidx (some t) (mem_of_get h)
    simp at hnot

theorem findPid_eq_some : q.findPid pid = some t ↔
    ∃ idx, q.findPidIdx pid = some idx ∧ q.get idx = some t := bind_eq_some_iff

theorem mem_setSlot (h : some t ∈ (q.setSlot idx slot).tasks) : some t ∈ q.tasks ∨ slot = some t := by
  rcases mem_or_eq_of_mem_set h with h | h
  · exact .inl h
  · exact .inr h.symm

theorem modifyPid_eq (hidx : q.findPidIdx pid = some idx) (ht : q.get idx = some t) :
    q.modifyPid pid f = q.setSlot idx (some (f t)) := by
  rw [modifyPid, hidx]
  simp only [modify, ht, map_some]

/-- The tasks after one of them has been changed. -/
theorem mem_modifyPid (h : some t ∈ (q.modifyPid pid f).tasks) :
    some t ∈ q.tasks ∨ ∃ u, q.findPid pid = some u ∧ t = f u := by
  unfold modifyPid at h
  split at h
  · next idx hidx =>
    rcases mem_setSlot h with h | h
    · exact .inl h
    · obtain ⟨u, hu, rfl⟩ := map_eq_some_iff.1 h
      exact .inr ⟨u, findPid_eq_some.2 ⟨idx, hidx, hu⟩, rfl⟩
  · exact .inl h

/-- The tasks after one has been added. -/
theorem mem_enqueue (h : q.enqueue t' = some q') (ht : some t ∈ q'.tasks) :
    some t ∈ q.tasks ∨ t = t' := by
  obtain ⟨idx, -, rfl⟩ := map_eq_some_iff.1 h
  exact (mem_setSlot ht).imp_right fun h => (some.inj h).symm

/-- A task is added to an empty slot. -/
theorem enqueue_spec (h : q.enqueue t = some q') : ∃ idx < maxTasks, q.tasks[idx]? = some none ∧
    q' = { q.setSlot idx (some t) with len := q.len + 1 } := by
  obtain ⟨idx, hidx, rfl⟩ := map_eq_some_iff.1 h
  obtain ⟨hi, hnone, -⟩ := findIdx?_eq_some_iff_getElem.1 hidx
  refine ⟨idx, by rwa [← q.length_tasks], ?_, rfl⟩
  rw [getElem?_eq_getElem hi, isNone_iff_eq_none.1 hnone]

/-- A task is added to a slot that was empty, and the others stay where they are. -/
theorem enqueue_get (h : q.enqueue t = some q') :
    ∃ idx, q.tasks.findIdx? isNone = some idx ∧ q.get idx = none ∧ q'.get idx = some t ∧
      (∀ j u, q.get j = some u → j ≠ idx ∧ q'.get j = some u) ∧
      ∀ j u, q'.get j = some u → (j = idx ∧ u = t) ∨ q.get j = some u := by
  obtain ⟨idx, hidx, hq⟩ := map_eq_some_iff.1 h
  obtain ⟨hi, hnone, -⟩ := findIdx?_eq_some_iff_getElem.1 hidx
  have hlt : idx < maxTasks := by rwa [← q.length_tasks]
  have hempty : q.get idx = none := by
    rw [get, getD_eq_getElem?_getD, getElem?_eq_getElem hi, isNone_iff_eq_none.1 hnone]
    rfl
  have hget : ∀ j, q'.get j = if j = idx then some t else q.get j := fun j => hq ▸ get_setSlot hlt
  refine ⟨idx, hidx, hempty, (hget idx).trans (if_pos rfl), fun j u hu => ?_, fun j u hu => ?_⟩
  · have hne : j ≠ idx := by
      rintro rfl
      cases hempty.symm.trans hu
    exact ⟨hne, by rw [hget, if_neg hne, hu]⟩
  · rw [hget] at hu
    split at hu
    · next hj => exact .inl ⟨hj, (some.inj hu).symm⟩
    · exact .inr hu

theorem mem_remove (h : some t ∈ (q.remove idx).tasks) : some t ∈ q.tasks :=
  (mem_setSlot h).resolve_right (by simp)

/-! ### Finding tasks after a change -/

/-- Where a process id is found depends on the process ids only. -/
theorem findPidIdx_setSlot {old : Option Task} (hold : q.tasks[idx]? = some old)
    (h : (slot.any fun t => t.pid = pid) = old.any fun t => t.pid = pid) :
    (q.setSlot idx slot).findPidIdx pid = q.findPidIdx pid := findIdx?_set hold h

/-- A change to one slot is not noticed by a task that is found in another. -/
theorem findPid_setSlot_of_ne {old : Option Task} (hold : q.tasks[idx]? = some old)
    (h : (slot.any fun t => t.pid = pid) = old.any fun t => t.pid = pid)
    (hne : q.findPidIdx pid ≠ some idx) : (q.setSlot idx slot).findPid pid = q.findPid pid := by
  rw [findPid, findPid, findPidIdx_setSlot hold h]
  cases hj : q.findPidIdx pid with
  | none => rfl
  | some => exact get_setSlot_of_ne fun he => hne (he ▸ hj)

theorem findPid_modifyPid_of_ne {pid' : ℕ} (hf : ∀ t, (f t).pid = t.pid) (hne : pid' ≠ pid) :
    (q.modifyPid pid f).findPid pid' = q.findPid pid' := by
  cases hidx : q.findPidIdx pid with
  | none => rw [modifyPid, hidx]
  | some =>
    obtain ⟨t, ht, hpid⟩ := findPidIdx_spec hidx
    rw [modifyPid_eq hidx ht]
    refine findPid_setSlot_of_ne (get_eq_some.1 ht) ?_ fun hidx' => ?_
    · simp [hf]
    · obtain ⟨u, hu, hpid'⟩ := findPidIdx_spec hidx'
      obtain rfl : t = u := mem_unique ht hu
      exact hne (hpid'.symm.trans hpid)

theorem findPid_modifyPid_self (hf : ∀ t, (f t).pid = t.pid) (ht : q.findPid pid = some t) :
    (q.modifyPid pid f).findPid pid = some (f t) := by
  obtain ⟨idx, hidx, hget⟩ := findPid_eq_some.1 ht
  rw [modifyPid_eq hidx hget, findPid, findPidIdx_setSlot (get_eq_some.1 hget) (by simp [hf]), hidx]
  exact get_setSlot_self (lt_of_get hget)

theorem findPid_enqueue_of_ne (h : q.enqueue t = some q') (hne : t.pid ≠ pid) :
    q'.findPid pid = q.findPid pid := by
  obtain ⟨idx, -, hnone, rfl⟩ := enqueue_spec h
  refine findPid_setSlot_of_ne hnone (by simp [hne]) fun hidx => ?_
  obtain ⟨u, hu, -⟩ := findPidIdx_spec hidx
  cases hnone.symm.trans (get_eq_some.1 hu)

theorem findPidIdx_eq_none (h : q.findPid pid = none) : q.findPidIdx pid = none := by
  cases hidx : q.findPidIdx pid with
  | none => rfl
  | some idx =>
    obtain ⟨t, ht, -⟩ := findPidIdx_spec hidx
    cases h.symm.trans (findPid_eq_some.2 ⟨idx, hidx, ht⟩)

theorem findPid_enqueue_self (h : q.enqueue t = some q') (hfree : q.findPid t.pid = none) :
    q'.findPid t.pid = some t := by
  obtain ⟨idx, hlt, hnone, rfl⟩ := enqueue_spec h
  have hidx : (q.setSlot idx (some t)).findPidIdx t.pid = some idx :=
    findIdx?_set_self (findPidIdx_eq_none hfree) (by rwa [q.length_tasks]) (by simp)
  exact findPid_eq_some.2 ⟨idx, hidx, get_setSlot_self hlt⟩

/-- A task is not missed by those that are found elsewhere. -/
theorem findPid_remove {j : ℕ} (hj : q.findPidIdx pid = some j) (hne : j ≠ idx) :
    (q.remove idx).findPid pid = q.findPid pid := by
  have hidx : (q.setSlot idx none).findPidIdx pid = some j := findIdx?_set_of_ne hj hne rfl
  have hget : (q.remove idx).get j = q.get j := get_setSlot_of_ne hne
  have hfind : (q.remove idx).findPid pid = (q.remove idx).get j :=
    congrArg (fun i => i.bind (q.remove idx).get) hidx
  rw [hfind, hget, findPid, hj]
  rfl

end Cyanos.RunQueue
