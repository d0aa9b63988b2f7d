import Cyanos.Sched.FutexCpu

/-!
# What a task is blocked on

`Task::blocked_on` is documented to be set exactly while the task sleeps on a port.  It is set by
`block_on_port` and cleared by `unblock_port` only.  `deliver_signal` makes a task `Ready` that is
`Blocked` for whatever reason, and leaves the field as it is: a task that was woken by a signal
from a port keeps the port, and can be registered on a futex as well.

## Main results

* `FutexCpu.booked_run` : the fields tell the state in every run in which no task that sleeps on a
  port is sent a signal.
* `FutexCpu.port_and_futex` : such a signal leaves a task registered on both.
-/

namespace Cyanos

open Lib RunQueue Option

namespace FutexCpu

/-- What is written in the tasks is so. -/
structure Booked (s : FutexCpu) : Prop where
  /-- A task with a port sleeps. -/
  blocked : ∀ idx t port, s.rq.get idx = some t → t.blockedOn = some port → t.state = .blocked
  /-- A task that is ready or runs has no port. -/
  awake : ∀ idx t, s.rq.get idx = some t → t.state = .ready ∨ t.state = .running →
    t.blockedOn = none
  /-- A task with a port has no futex, neither in the task nor in the table. -/
  one : ∀ idx t, s.rq.get idx = some t → t.blockedOn ≠ none →
    t.blockedFutex = 0 ∧ ∀ w, some w ∈ s.table.slots → w.pid ≠ t.pid

/-- No task that sleeps on a port is sent a signal, and a new task sleeps on nothing. -/
def Quiet (s : FutexCpu) : Act → Prop
  | .spawn t => s.rq.findPid t.pid = none ∧ t.blockedOn = none ∧ t.blockedFutex = 0
  | .signal pid signo => 0 < signo ∧ signo ≤ 64 →
    ∀ t ∈ s.rq.findPid pid, t.state = .blocked → t.blockedOn = none
  | _ => True

instance (s : FutexCpu) (a : Act) : Decidable (s.Quiet a) := by
  rcases a <;> dsimp only [Quiet] <;> infer_instance

variable {s s' : FutexCpu} {f : Task → Task} {pid idx : ℕ} {t t' : Task}

theorem Quiet.newPid {a : Act} (h : s.Quiet a) : s.NewPid a := by
  cases a with
  | spawn => exact h.1
  | _ => trivial

/-- A task with a port sleeps outside `futex_wait`, and a task outside `futex_wait` has no futex. -/
structure TaskBooked (s : FutexCpu) (t : Task) : Prop where
  port : t.blockedOn ≠ none → t.state = .blocked ∧ s.waiting t.pid = none
  futex : s.waiting t.pid = none → t.blockedFutex = 0

/-- What holds of every reachable state besides `Inv`. -/
def Booking (s : FutexCpu) : Prop := ∀ idx t, s.rq.get idx = some t → s.TaskBooked t

theorem booking_boot : boot.Booking := fun _ _ ht => by
  cases List.eq_of_mem_replicate (mem_of_get ht)

theorem Booking.booked (h : s.Booking) (hi : s.Inv) : s.Booked where
  blocked idx t port ht hp := ((h idx t ht).port (hp ▸ some_ne_none port)).1
  awake idx t ht hawake := by
    by_contra hp
    have hb := ((h idx t ht).port hp).1
    obtain hr | hr := hawake
    · cases hr.symm.trans hb
    · cases hr.symm.trans hb
  one idx t ht hp := by
    have hnot := ((h idx t ht).port hp).2
    refine ⟨(h idx t ht).futex hnot, fun w hw he => ?_⟩
    cases hnot.symm.trans (he ▸ hi.entry w hw)

theorem Booking.maps (hm : s.rq.Maps f s'.rq)
    (hf : ∀ idx t, s.rq.get idx = some t → s'.TaskBooked (f t)) : s'.Booking := by
  intro idx t' ht'
  obtain ⟨t, ht, rfl⟩ := hm.get ht'
  exact hf idx t ht

/-- One task is changed, and what is known of the others stays. -/
theorem Booking.modifyPid (h : s.Booking)
    (hm : s.rq.Maps (fun t => if t.pid = pid then f t else t) s'.rq)
    (hwaiting : ∀ p, p ≠ pid → s'.waiting p = s.waiting p)
    (hf : ∀ idx t, s.rq.get idx = some t → t.pid = pid → s'.TaskBooked (f t)) : s'.Booking := by
  refine Booking.maps hm fun idx t ht => ?_
  by_cases he : t.pid = pid
  · rw [if_pos he]
    exact hf idx t ht he
  · rw [if_neg he]
    exact ⟨fun hp => hwaiting _ he ▸ (h idx t ht).port hp,
      fun hw => (h idx t ht).futex (hwaiting _ he ▸ hw)⟩

/-- A task without a port, outside `futex_wait` or inside. -/
theorem TaskBooked.of_none (hp : t.blockedOn = none)
    (hf : s.waiting t.pid = none → t.blockedFutex = 0) : s.TaskBooked t :=
  ⟨fun h => absurd hp h, hf⟩

section

variable (h : s.Booking)
include h

theorem Booking.signal (hi : s.Inv) {signo : ℕ} (hq : s.Quiet (.signal pid signo)) :
    ({ s with rq := s.rq.deliverSignal pid signo }).Booking := by
  refine h.modifyPid (hi.unique.modifyPid pid _) (fun _ _ => rfl) fun idx t ht he => ?_
  have hok := h idx t ht
  unfold Task.deliverSignal
  split
  · next hs =>
    refine .of_none ?_ hok.futex
    by_contra hp
    exact hp (hq hs t (he ▸ hi.unique.findPid ht) (hok.port hp).1)
  · exact ⟨hok.port, hok.futex⟩

theorem Booking.unblock (port : ℕ) : ({ s with rq := s.rq.unblockPort port }).Booking := by
  refine Booking.maps (fun idx => get_unblockPort ..) fun idx t ht => ?_
  have hok := h idx t ht
  unfold wake
  split
  · exact .of_none rfl hok.futex
  · exact ⟨hok.port, hok.futex⟩

theorem Booking.spawn (hp : t.blockedOn = none) (hf : t.blockedFutex = 0) {rq : RunQueue}
    (he : s.rq.enqueue t = some rq) : ({ s with rq := rq }).Booking := by
  obtain ⟨idx, -, -, -, -, hcases⟩ := enqueue_get he
  intro j u hu
  obtain ⟨-, rfl⟩ | hu := hcases j u hu
  · exact .of_none hp fun _ => hf
  · exact ⟨(h j u hu).port, (h j u hu).futex⟩

theorem Booking.reap (idx : ℕ) : ({ s with rq := s.rq.remove idx }).Booking := by
  intro j u hu
  obtain ⟨-, hu⟩ := get_remove_eq_some.1 hu
  exact ⟨(h j u hu).port, (h j u hu).futex⟩

/-- A task that is picked is `Ready`, and out of `futex_wait` when it runs. -/
theorem Booking.run (hi : s.Inv) (ht : s.rq.get idx = some t)
    (hready : t.state = .ready) : (s.run idx t).Booking := by
  have hm := hi.unique.modify ht fun u => { u with state := .running }
  have hpid := pid_ite t.pid (f := fun u => { u with state := .running }) fun _ => rfl
  have hnone : ∀ j u, s.rq.get j = some u → u.pid = t.pid → u.blockedOn = none := by
    intro j u hu he
    obtain rfl := hi.unique j idx u t hu ht he
    obtain rfl := mem_unique ht hu
    by_contra hp
    cases hready.symm.trans ((h j t hu).port hp).1
  have hrun : ({ s with
      rq := s.rq.modify idx fun u => { u with state := .running }
      current := some t.pid } : FutexCpu).Booking :=
    h.modifyPid hm (fun _ _ => rfl) fun j u hu he => .of_none (hnone j u hu he) (h j u hu).futex
  unfold FutexCpu.run resume
  split
  · refine hrun.modifyPid ((hi.unique.maps hm hpid).modifyPid t.pid _)
      (fun p hp => Function.update_of_ne hp _ _) fun j u hu he => .of_none ?_ fun _ => rfl
    obtain ⟨v, hv, rfl⟩ := hm.get hu
    rw [hpid] at he
    rw [if_pos he]
    exact hnone j v hv he
  · exact hrun

/-- The task that runs is outside `futex_wait` and has neither port nor futex. -/
theorem Booking.current (hi : s.Inv) (hc : s.current = some pid) (ht : s.rq.get idx = some t)
    (he : t.pid = pid) : t.blockedOn = none ∧ t.blockedFutex = 0 ∧ s.waiting t.pid = none := by
  have hwaits : s.waiting t.pid = none := he ▸ (hi.current pid hc).2
  refine ⟨?_, (h idx t ht).futex hwaits, hwaits⟩
  by_contra hp
  cases ((hi.task idx t ht).runs (he ▸ hc)).symm.trans ((h idx t ht).port hp).1

theorem Booking.wake (hi : s.Inv) (uaddr n : ℕ) : (s.doCall pid (.wake uaddr n)).Booking := by
  refine Booking.maps (hi.unique.wakeWaiters (s.table.take uaddr n).1) fun idx t ht => ?_
  have hok := h idx t ht
  split
  · next htaken =>
    -- the task is in `futex_wait`
    rw [FutexTable.take_fst] at htaken
    have hwaits := hi.entry _ (FutexTable.mem_pidsOn.1 (List.mem_of_mem_take htaken))
    have hp : t.blockedOn = none := by
      by_contra hp
      cases (hok.port hp).2.symm.trans hwaits
    unfold Task.wakeFutex
    split
    · exact .of_none hp fun _ => rfl
    · exact .of_none hp hok.futex
  · exact ⟨hok.port, hok.futex⟩

theorem Booking.doCall (hi : s.Inv) (hc : s.current = some pid) (c : Call) :
    (s.doCall pid c).Booking := by
  cases c with
  | yield | exit =>
    refine h.modifyPid (hi.unique.modifyPid pid _) (fun _ _ => rfl) fun idx t ht he => ?_
    exact .of_none (h.current hi hc ht he).1 (h idx t ht).futex
  | block =>
    refine h.modifyPid (hi.unique.modifyPid pid _) (fun _ _ => rfl) fun idx t ht he => ?_
    exact ⟨fun _ => ⟨rfl, (h.current hi hc ht he).2.2⟩, (h idx t ht).futex⟩
  | wait =>
    refine h.modifyPid (hi.unique.modifyPid pid _) (fun p hp => Function.update_of_ne hp _ _)
      fun idx t ht he => .of_none (h.current hi hc ht he).1 fun hw => ?_
    subst he
    simp only [doCall, Function.update_self] at hw
    cases hw
  | wake uaddr n => exact h.wake hi uaddr n

theorem Booking.step (hi : s.Inv) {a : Act} (hq : s.Quiet a)
    (hs : s.step a = some s') : s'.Booking := by
  cases a with
  | spawn =>
    simp only [FutexCpu.step] at hs
    split at hs
    · obtain ⟨rq, he, rfl⟩ := map_eq_some_iff.1 hs
      exact h.spawn hq.2.1 hq.2.2 he
    · cases hs
  | reap idx =>
    simp only [FutexCpu.step] at hs
    split at hs
    · cases hs
      exact h.reap idx
    · cases hs
  | signal =>
    cases hs
    exact h.signal hi hq
  | unblock port =>
    cases hs
    exact h.unblock port
  | pick =>
    simp only [FutexCpu.step] at hs
    split at hs
    · cases hs
    · have hpick : ({ s with rq := s.rq.pickNext.2 }).Booking := fun idx t ht => by
        have hget : s.rq.get idx = some t := (get_pickNext idx).symm.trans ht
        exact ⟨(h idx t hget).port, (h idx t hget).futex⟩
      have hinv := hi.pick
      split at hs
      · next rq hp =>
        cases hs
        rwa [hp] at hpick
      · next idx rq hp =>
        obtain ⟨t, ht, rfl⟩ := map_eq_some_iff.1 hs
        rw [hp] at hpick hinv
        refine hpick.run hinv ht ?_
        obtain ⟨u, hu, hready⟩ := isReady_iff.1
          (isReady_of_pickNext (congrArg Prod.fst hp))
        have hget := get_pickNext (q := s.rq) idx
        rw [hp] at hget
        rwa [some.inj (ht.symm.trans (hget.trans hu))]
  | call c =>
    obtain ⟨pid, hc, rfl⟩ := map_eq_some_iff.1 hs
    exact h.doCall hi hc c

end

/-- **In every run in which no task that sleeps on a port is sent a signal, a task with a port is
`Blocked`, a task that is ready or runs has none, and no task is registered on a port and on a
futex.** -/
theorem booked_run (h : Run step Quiet boot s) : s.Booked := by
  have hboth : s.Inv ∧ s.Booking :=
    h.invariant (I := fun s => s.Inv ∧ s.Booking) ⟨inv_boot, booking_boot⟩ fun _ _ _ hs hq hst =>
      ⟨hs.1.step hq.newPid hst, hs.2.step hs.1 hq hst⟩
  exact hboth.2.booked hboth.1

/-- Task 1 sleeps on port 7, task 2 waits for a futex and is sent a signal, and task 3 runs. -/
def onePort : List Act :=
  [.spawn (.newKernel 1 0x8000 0x100000), .spawn (.newKernel 2 0x9000 0x100000),
    .spawn (.newKernel 3 0xa000 0x100000), .pick, .call (.block 7), .pick, .call (.wait 0x1000),
    .pick, .signal 2 1]

theorem booked_onePort :
    ∃ s, Run step Quiet boot s ∧ ((s.rq.findPid 1).map Task.blockedOn = some (some 7) ∧
      (s.rq.findPid 2).map Task.state = some .ready) ∧ s.Booked :=
  Run.exists_guarded_with onePort (by decide +kernel) fun _ hrun _ => booked_run hrun

/-- Task 1 is registered on port 7 and on a futex. -/
abbrev OnBoth (s : FutexCpu) : Prop :=
  (s.rq.get 0).any (fun t => t.pid = 1 ∧ t.blockedOn = some 7 ∧ t.blockedFutex = 0x1000) ∧
    s.table.slots[0]? = some (some ⟨1, 0x1000⟩)

/-- **Task 1 sleeps on port 7 and is sent signal 1: it runs with the port in its task, calls
`futex_wait(0x1000)` and is registered on both.** -/
theorem port_and_futex : ∃ s s', Reach step boot s ∧ Reach step s s' ∧
    (s.rq.get 0).any (fun t => t.state = .running ∧ t.blockedOn = some 7) ∧ s'.OnBoth ∧
      ¬s.Booked ∧ ¬s'.Booked := by
  obtain ⟨s, hreach, hs, hnext⟩ : ∃ s, Reach step boot s ∧
      (s.rq.get 0).any (fun t => t.state = .running ∧ t.blockedOn = some 7) ∧
      ([.call (.wait 0x1000)].foldlM step s).any fun s' => s'.OnBoth :=
    Run.exists_of_foldlM [.spawn (.newKernel 1 0x8000 0x100000), .pick, .call (.block 7),
      .signal 1 1, .pick] (by decide +kernel)
  obtain ⟨s', hreach', hboth⟩ := Run.exists_of_foldlM _ hnext
  refine ⟨s, s', hreach, hreach', hs, hboth, fun hb => ?_, fun hb => ?_⟩
  · obtain ⟨t, ht, hrun, hport⟩ := exists_of_any hs
    cases (hb.awake 0 t ht (.inr hrun)).symm.trans hport
  · obtain ⟨t, ht, hpid, hport, -⟩ := exists_of_any hboth.1
    exact (hb.one 0 t ht (hport ▸ some_ne_none 7)).2 _ (List.mem_of_getElem? hboth.2) hpid.symm

end FutexCpu

end Cyanos
