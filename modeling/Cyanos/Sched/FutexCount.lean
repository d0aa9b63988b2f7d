import Cyanos.Sched.FutexCpu

/-!
# How many tasks `futex_wake` wakes

`futex_wake(uaddr, n)` takes the first `n` entries for the address, and has room for 32.  On one CPU
every task `Blocked` on the address has an entry, so the right number is woken unless a stale entry,
of a task that a signal has made `Ready`, is taken in the place of one that is `Blocked`, or the
room ends.

## Main results

* `FutexCpu.wakesRight_iff` : `futex_wake` wakes the right number exactly when every task `Blocked`
  on the address is among the first entries it takes, or it takes `n` entries of `Blocked` tasks.
* `FutexCpu.stale_entry_counted` : a signalled task keeps another one asleep.
-/

namespace Cyanos

open Lib RunQueue FutexTable List Option

namespace RunQueue

variable {q : RunQueue} {pid : ℕ} {pids : List ℕ}

theorem UniquePids.isBlocked_iff (h : q.UniquePids) :
    q.isBlocked pid = true ↔ ∃ idx t, q.get idx = some t ∧ t.pid = pid ∧ t.state = .blocked := by
  rw [isBlocked, Option.any_eq_true]
  constructor
  · rintro ⟨t, ht, hb⟩
    obtain ⟨idx, hidx, hget⟩ := findPid_eq_some.1 ht
    obtain ⟨t', hget', hpid⟩ := findPidIdx_spec hidx
    obtain rfl := mem_unique hget hget'
    exact ⟨idx, t, hget, hpid, of_decide_eq_true hb⟩
  · rintro ⟨idx, t, ht, rfl, hb⟩
    exact ⟨t, h.findPid ht, decide_eq_true hb⟩

/-- A task that is taken once is counted if it is `Blocked` at the start. -/
theorem wokenBy_eq_filter (h : pids.Nodup) : q.wokenBy pids = pids.filter q.isBlocked := by
  induction pids generalizing q with
  | nil => rfl
  | cons p pids ih =>
    obtain ⟨hp, hnodup⟩ := nodup_cons.1 h
    have hrest : pids.filter (q.modifyPid p Task.wakeFutex).isBlocked = pids.filter q.isBlocked := by
      refine filter_congr fun p' hp' => ?_
      have hne : p' ≠ p := fun he => hp (he ▸ hp')
      rw [isBlocked_modifyPid, decide_eq_true hne, Bool.true_and]
    rw [wokenBy, ih hnodup, hrest, filter_cons]
    split <;> rfl

end RunQueue

namespace FutexTable

variable {tbl : FutexTable}

theorem Once.nodup_pidsOn (h : tbl.Once) (uaddr : ℕ) : (tbl.pidsOn uaddr).Nodup := by
  refine nodup_filterMap_keys (fun slot p hp => ?_) h
  obtain ⟨w, rfl, hp⟩ := bind_eq_some_iff.1 hp
  obtain ⟨-, ⟨⟩⟩ := ite_none_right_eq_some.1 hp
  exact ⟨w, rfl, rfl⟩

end FutexTable

namespace FutexCpu

variable {s : FutexCpu} {u n pid : ℕ}

/-- The tasks that are `Blocked` in `futex_wait` on the address. -/
def sleepers (s : FutexCpu) (u : ℕ) : List ℕ :=
  s.rq.tasks.filterMap fun slot => slot.bind fun t =>
    if t.state = .blocked ∧ s.waiting t.pid = some u then some t.pid else none

/-- `futex_wake(u, n)`: the number it returns, and what it leaves. -/
def futexWake (s : FutexCpu) (u n : ℕ) : ℕ × Futexes := (Futexes.mk s.table s.rq).futexWake u n

/-- The tasks that `futex_wake(u, n)` has made `Ready`. -/
def madeReady (s : FutexCpu) (u n : ℕ) : List ℕ :=
  (s.sleepers u).filter fun pid => ((s.futexWake u n).2.rq.findPid pid).any fun t => t.state = .ready

/-- `futex_wake(u, n)` wakes the right number: of the `k` tasks `Blocked` on the address
`min n k`. -/
structure WakesRight (s : FutexCpu) (u n : ℕ) : Prop where
  /-- So many are made `Ready`. -/
  made : (s.madeReady u n).length = min n (s.sleepers u).length
  /-- This is the number returned. -/
  returned : (s.futexWake u n).1 = min n (s.sleepers u).length
  /-- Tasks that wait on other addresses are left alone. -/
  others : ∀ pid v, s.waiting pid = some v → v ≠ u → (Futexes.mk s.table s.rq).Untouched u n pid
  /-- The tasks that are not woken are still `Blocked` and have their entries. -/
  rest : ∀ pid ∈ s.sleepers u, pid ∉ s.madeReady u n →
    (s.futexWake u n).2.rq.isBlocked pid = true ∧
      some ⟨pid, u⟩ ∈ (s.futexWake u n).2.table.slots

/-- The entries that `futex_wake(u, n)` takes. -/
def taken (s : FutexCpu) (u n : ℕ) : List ℕ := (s.table.pidsOn u).take (min n maxWoken)

theorem Inv.mem_sleepers (h : s.Inv) :
    pid ∈ s.sleepers u ↔ s.rq.isBlocked pid = true ∧ s.waiting pid = some u := by
  rw [sleepers, mem_filterMap, h.unique.isBlocked_iff]
  constructor
  · rintro ⟨slot, hmem, hslot⟩
    obtain ⟨t, rfl, ht⟩ := bind_eq_some_iff.1 hslot
    obtain ⟨hb, ⟨⟩⟩ := ite_none_right_eq_some.1 ht
    obtain ⟨idx, hidx⟩ := getElem?_of_mem hmem
    exact ⟨⟨idx, t, get_eq_some.2 hidx, rfl, hb.1⟩, hb.2⟩
  · rintro ⟨⟨idx, t, ht, rfl, hb⟩, hw⟩
    exact ⟨some t, mem_of_get ht, by simp [hb, hw]⟩

theorem Inv.nodup_sleepers (h : s.Inv) (u : ℕ) : (s.sleepers u).Nodup := by
  refine nodup_filterMap_keys (fun slot p hp => ?_) fun i j t t' ht ht' =>
    h.unique i j t t' (get_eq_some.2 ht) (get_eq_some.2 ht')
  obtain ⟨t, rfl, hp⟩ := bind_eq_some_iff.1 hp
  obtain ⟨-, ⟨⟩⟩ := ite_none_right_eq_some.1 hp
  exact ⟨t, rfl, rfl⟩

/-- The tasks `Blocked` on the address are those `Blocked` that have an entry for it. -/
theorem Inv.mem_sleepers_iff_entry (h : s.Inv) :
    pid ∈ s.sleepers u ↔ s.rq.isBlocked pid = true ∧ pid ∈ s.table.pidsOn u := by
  rw [h.mem_sleepers, mem_pidsOn]
  refine and_congr_right fun hb => ⟨fun hw => ?_, fun hmem => h.entry _ hmem⟩
  obtain ⟨idx, t, ht, rfl, hstate⟩ := h.unique.isBlocked_iff.1 hb
  obtain ⟨-, hmem⟩ | hr := (h.task idx t ht).waits u hw
  · exact hmem
  · cases hstate.symm.trans hr

theorem Inv.nodup_taken (h : s.Inv) (u n : ℕ) : (s.taken u n).Nodup :=
  (h.once.nodup_pidsOn u).sublist (take_sublist _ _)

theorem Inv.futexWake_fst (h : s.Inv) (u n : ℕ) :
    (s.futexWake u n).1 = ((s.taken u n).filter s.rq.isBlocked).length := by
  have htaken : (s.table.take u n).1 = s.taken u n := take_fst
  have hnodup := h.nodup_taken u n
  rw [← htaken] at hnodup ⊢
  exact congrArg length (wokenBy_eq_filter hnodup)

theorem findPid_futexWake (s : FutexCpu) (u n pid : ℕ) :
    (s.futexWake u n).2.rq.findPid pid =
      if pid ∈ s.taken u n then (s.rq.findPid pid).map Task.wakeFutex else s.rq.findPid pid := by
  rw [taken, ← take_fst]
  exact findPid_wakeWaiters _ _ _

/-- The tasks made `Ready` are those among the entries taken that were `Blocked`. -/
theorem Inv.mem_madeReady (h : s.Inv) :
    pid ∈ s.madeReady u n ↔ pid ∈ s.taken u n ∧ s.rq.isBlocked pid = true := by
  rw [madeReady, mem_filter, h.mem_sleepers_iff_entry, findPid_futexWake]
  constructor
  · rintro ⟨⟨hb, -⟩, hr⟩
    refine ⟨?_, hb⟩
    by_contra hnot
    rw [if_neg hnot] at hr
    obtain ⟨t, ht, hb⟩ := exists_of_any hb
    rw [ht, any_some] at hr
    cases hb.symm.trans (of_decide_eq_true hr)
  · rintro ⟨hmem, hb⟩
    refine ⟨⟨hb, mem_of_mem_take hmem⟩, ?_⟩
    obtain ⟨t, ht, hb⟩ := exists_of_any hb
    rw [if_pos hmem, ht, map_some, any_some]
    exact decide_eq_true (state_wakeFutex (.inl hb))

theorem Inv.length_madeReady (h : s.Inv) (u n : ℕ) :
    (s.madeReady u n).length = ((s.taken u n).filter s.rq.isBlocked).length := by
  have hperm : (s.madeReady u n).Perm ((s.taken u n).filter s.rq.isBlocked) := by
    refine (perm_ext_iff_of_nodup ((h.nodup_sleepers u).filter _)
      ((h.nodup_taken u n).filter _)).2 fun pid => ?_
    exact h.mem_madeReady.trans mem_filter.symm
  exact hperm.length_eq

/-- A task that waits on another address has no entry for this one. -/
theorem Inv.others (h : s.Inv) {v : ℕ} (hw : s.waiting pid = some v) (hne : v ≠ u) :
    (Futexes.mk s.table s.rq).Untouched u n pid := by
  refine (Futexes.untouched_iff ..).2 fun hmem => hne ?_
  have hentry := h.entry _ (mem_pidsOn.1 (mem_of_mem_take hmem))
  exact mem_unique hw hentry

theorem Inv.rest (h : s.Inv) (hs : pid ∈ s.sleepers u) (hnot : pid ∉ s.madeReady u n) :
    (s.futexWake u n).2.rq.isBlocked pid = true ∧
      some ⟨pid, u⟩ ∈ (s.futexWake u n).2.table.slots := by
  obtain ⟨hb, hentry⟩ := h.mem_sleepers_iff_entry.1 hs
  have hnot : pid ∉ s.taken u n := fun hmem => hnot (h.mem_madeReady.2 ⟨hmem, hb⟩)
  have halone := (Futexes.untouched_iff ⟨s.table, s.rq⟩ u n pid).2 hnot
  obtain ⟨idx, hidx⟩ := getElem?_of_mem (mem_pidsOn.1 hentry)
  refine ⟨?_, mem_of_getElem? (halone.entries idx _ hidx rfl)⟩
  rw [isBlocked, findPid_futexWake, if_neg hnot]
  exact hb

/-- Only the number can be wrong. -/
theorem Inv.wakesRight_iff_length (h : s.Inv) (u n : ℕ) :
    s.WakesRight u n ↔
      ((s.taken u n).filter s.rq.isBlocked).length = min n (s.sleepers u).length := by
  constructor
  · intro hr
    rw [← h.futexWake_fst]
    exact hr.returned
  · intro hlen
    exact ⟨(h.length_madeReady u n).trans hlen, (h.futexWake_fst u n).trans hlen,
      fun _ _ hw hne => h.others hw hne, fun _ hs hnot => h.rest hs hnot⟩

/-- Every task `Blocked` on the address is among the first `n` entries for it and among the first
32, or `n` is at most 32 and the first `n` entries are all of `Blocked` tasks. -/
def NoneStale (s : FutexCpu) (u n : ℕ) : Prop :=
  (∀ pid ∈ s.sleepers u, pid ∈ s.taken u n) ∨
    n ≤ maxWoken ∧ ∀ pid ∈ (s.table.pidsOn u).take n, s.rq.isBlocked pid = true

instance (s : FutexCpu) (u n : ℕ) : Decidable (s.NoneStale u n) := by
  unfold NoneStale
  infer_instance

theorem length_taken_le (s : FutexCpu) (u n : ℕ) : (s.taken u n).length ≤ min n maxWoken :=
  length_take_le _ _

theorem Inv.subperm_sleepers (h : s.Inv) (u n : ℕ) :
    ((s.taken u n).filter s.rq.isBlocked).Subperm (s.sleepers u) := by
  refine ((h.nodup_taken u n).filter _).subperm fun pid hmem => ?_
  obtain ⟨hmem, hb⟩ := mem_filter.1 hmem
  exact h.mem_sleepers_iff_entry.2 ⟨hb, mem_of_mem_take hmem⟩

theorem Inv.length_of_noneStale (h : s.Inv) (hn : s.NoneStale u n) :
    ((s.taken u n).filter s.rq.isBlocked).length = min n (s.sleepers u).length := by
  have hlen := (length_filter_le s.rq.isBlocked _).trans (s.length_taken_le u n)
  have hle := (h.subperm_sleepers u n).length_le
  obtain hall | ⟨hmax, hblocked⟩ := hn
  · -- all of them are taken
    have hge : (s.sleepers u).length ≤ ((s.taken u n).filter s.rq.isBlocked).length := by
      refine ((h.nodup_sleepers u).subperm fun pid hs => ?_).length_le
      exact mem_filter.2 ⟨hall pid hs, (h.mem_sleepers.1 hs).1⟩
    omega
  · -- all that are taken are counted
    have htaken : s.taken u n = (s.table.pidsOn u).take n := by rw [taken, Nat.min_eq_left hmax]
    have hfilter : (s.taken u n).filter s.rq.isBlocked = s.taken u n :=
      filter_eq_self.2 (htaken ▸ hblocked)
    by_cases hshort : (s.table.pidsOn u).length ≤ n
    · have hge : (s.sleepers u).length ≤ (s.taken u n).length := by
        refine ((h.nodup_sleepers u).subperm fun pid hs => ?_).length_le
        rw [htaken, take_of_length_le hshort]
        exact (h.mem_sleepers_iff_entry.1 hs).2
      rw [hfilter] at hle hlen ⊢
      omega
    · have hfull : (s.taken u n).length = n := by rw [htaken, length_take]; omega
      rw [hfilter] at hle ⊢
      omega

theorem Inv.noneStale_of_length (h : s.Inv)
    (hlen : ((s.taken u n).filter s.rq.isBlocked).length = min n (s.sleepers u).length) :
    s.NoneStale u n := by
  have hle := s.length_taken_le u n
  have hfilter := length_filter_le s.rq.isBlocked (s.taken u n)
  by_cases hk : (s.sleepers u).length ≤ n
  · -- as many are woken as there are, so those woken are all of them
    refine .inl fun pid hs => ?_
    have hperm := (h.subperm_sleepers u n).perm_of_length_le (by omega)
    exact (mem_filter.1 (hperm.mem_iff.2 hs)).1
  · -- `n` are woken, so `n` are taken and all of them are woken
    have htaken : s.taken u n = (s.table.pidsOn u).take n := by
      rw [taken, Nat.min_eq_left (by omega)]
    refine .inr ⟨by omega, ?_⟩
    rw [← htaken]
    exact length_filter_eq_length_iff.1 (by omega)

/-- **In every state reached with new pids, `futex_wake(u, n)` makes `min n k` of the `k` tasks
`Blocked` on the address `Ready`, returns that number, leaves the tasks that wait on other addresses
alone and the rest `Blocked` and registered, exactly when no stale entry and no lack of room keeps
one of them from it.** -/
theorem wakesRight_iff (h : Run step NewPid boot s) (u n : ℕ) :
    s.WakesRight u n ↔ s.NoneStale u n :=
  (inv_run h).wakesRight_iff_length u n |>.trans
    ⟨(inv_run h).noneStale_of_length, (inv_run h).length_of_noneStale⟩

/-- Two tasks are started and wait on the word at `0x1000`, then a third one runs. -/
def twoWaiters : List Act :=
  [.spawn (.newKernel 1 0x8000 0x100000), .spawn (.newKernel 2 0x9000 0x100000),
    .spawn (.newKernel 3 0xa000 0x100000), .pick, .call (.wait 0x1000), .pick, .call (.wait 0x1000),
    .pick]

theorem wakesRight_iff_twoWaiters :
    ∃ s, Run step NewPid boot s ∧ (s.sleepers 0x1000 = [1, 2] ∧ s.NoneStale 0x1000 1) ∧
      s.WakesRight 0x1000 1 :=
  Run.exists_guarded_with twoWaiters (by decide +kernel)
    fun _ hrun hp => (wakesRight_iff hrun 0x1000 1).2 hp.2

/-- **Task 1 is sent a signal and has not run since: `futex_wake(0x1000, 1)` takes its stale entry,
wakes nobody and returns 0, and task 2 sleeps on.** -/
theorem stale_entry_counted :
    ∃ s, Run step NewPid boot s ∧ s.sleepers 0x1000 = [2] ∧ (s.futexWake 0x1000 1).1 = 0 ∧
      s.madeReady 0x1000 1 = [] :=
  Run.exists_of_guarded (twoWaiters ++ [.signal 1 1]) (by decide +kernel)

end FutexCpu

end Cyanos
