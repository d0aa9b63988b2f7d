import Mathlib.Data.Fintype.Basic
import Cyanos.Lib.Run
import Cyanos.Sched.Wakeups

/-!
# At most one CPU on the context of a task

`scheduler_run_loop` picks a task, reads its context pointer, marks it `Running` and switches to it
in separate sections, and `pick_next` leaves a task `Ready`.  A second CPU that comes in between
picks the same task, and both switch to its context (`two_cpus_on_one_task`).  The way back has the
same gap: a task that has marked itself `Blocked` is still on its context when a waker makes it
`Ready`, and a slot emptied under a CPU that still runs its task is used for another one.

* `Spaced`: the steps that do not fall into one of these gaps;
* `OwnSlots`: every CPU has the slot it works on to itself, and while it is on the task of the slot
  the task is not ready;
* `exclusive_run`: **in a run of such steps no two CPUs are ever on the context of the same task**.
-/

namespace Cyanos

open Lib RunQueue Phase Option

namespace Phase

variable {p : Phase}

theorem busy_of_on {idx : ℕ} (h : p.on = some idx) : p.busy = some idx := by
  cases p <;> first | exact h | cases h

theorem busy_of_ref {r : TaskRef} (h : p.ref = some r) : p.busy = some r.idx := by
  cases p <;> first | cases h; rfl | cases h

theorem ref_of_switched {c : ℕ} (h : p.switched = some c) : ∃ r, p.ref = some r ∧ r.ctx = c := by
  cases p <;> first | cases h; exact ⟨_, rfl, rfl⟩ | cases h

theorem busy_eq_some {idx : ℕ} : p.busy = some idx ↔ p.picking = some idx ∨ p.on = some idx := by
  cases p <;> simp [busy, picking, on]

end Phase

namespace Smp

variable {ι : Type}

/-- No two CPUs have switched to the context of the same task. -/
def Exclusive (s : Smp ι) : Prop :=
  ∀ i j c, (s.cpu i).switched = some c → (s.cpu j).switched = some c → i = j

/-- What `Spaced` asks of the scheduler loop of a CPU in a phase. -/
def SpacedPhase (s : Smp ι) : Phase → Prop
  | .idle => ∀ idx ∈ s.rq.pickNext.1, ∀ j, (s.cpu j).picking ≠ some idx
  | .hooked z => ∀ j, (s.cpu j).busy ≠ some z.idx
  | _ => True

/-- The step does not come in between two sections of another CPU that belong together:
* a slot is picked when no CPU has picked it without having marked the task `Running`;
* a task is woken when no CPU is still on it;
* a slot is emptied, by the scheduler or by `wait_pid`, when no CPU has picked or runs its task. -/
def Spaced (s : Smp ι) : Act ι → Prop
  | .sched i => s.SpacedPhase (s.cpu i)
  | .task _ (.waitPid pid) => ∀ idx ∈ s.rq.findPidIdx pid, (s.zombieInfo idx).isSome →
      ∀ j, (s.cpu j).busy ≠ some idx
  | .wake w => ∀ idx < maxTasks, s.rq.isReady idx = false → (s.rq.wakeBy w).isReady idx = true →
      ∀ j, (s.cpu j).on ≠ some idx
  | _ => True

instance [Fintype ι] (s : Smp ι) (p : Phase) : Decidable (s.SpacedPhase p) := by
  rcases p <;> dsimp only [SpacedPhase] <;> infer_instance

instance [Fintype ι] (s : Smp ι) (a : Act ι) : Decidable (s.Spaced a) := by
  unfold Spaced
  split <;> infer_instance

/-- Every CPU has the slot it works on to itself. -/
structure OwnSlots (s : Smp ι) : Prop where
  /-- The slot has a task. -/
  occupied : ∀ i idx, (s.cpu i).busy = some idx → (s.rq.get idx).isSome
  /-- The context pointer points into the box in the slot. -/
  home : ∀ i r, (s.cpu i).ref = some r → s.ctx r.idx = r.ctx
  /-- No other CPU works on the slot. -/
  alone : ∀ i j idx, (s.cpu i).busy = some idx → (s.cpu j).busy = some idx → i = j
  /-- A task that a CPU is on is not ready. -/
  notReady : ∀ i idx, (s.cpu i).on = some idx → s.rq.isReady idx = false
  /-- The boxes are numbered. -/
  fresh : ∀ idx, (s.rq.get idx).isSome → s.ctx idx < s.nextCtx
  /-- A box is in one slot. -/
  distinct : ∀ idx idx', (s.rq.get idx).isSome → (s.rq.get idx').isSome →
    s.ctx idx = s.ctx idx' → idx = idx'

theorem zombieInfo_idx {s : Smp ι} {idx : ℕ} {z : ZombieInfo} (h : s.zombieInfo idx = some z) :
    z.idx = idx := by
  unfold zombieInfo at h
  split at h
  · split at h
    · cases h
      rfl
    · cases h
  · cases h

namespace OwnSlots

variable {s : Smp ι} {i : ι} {s' : Smp ι} {p : Phase}

/-- CPUs that work on different slots are on the contexts of different tasks. -/
theorem exclusive (h : s.OwnSlots) : s.Exclusive := by
  intro i j c hi hj
  obtain ⟨r, hr, hrc⟩ := ref_of_switched hi
  obtain ⟨r', hr', hrc'⟩ := ref_of_switched hj
  have hb := busy_of_ref hr
  have hb' := busy_of_ref hr'
  have hsame : r.idx = r'.idx := by
    refine h.distinct _ _ (h.occupied i _ hb) (h.occupied j _ hb') ?_
    rw [h.home i r hr, h.home j r' hr', hrc, hrc']
  exact h.alone i j _ hb (hsame ▸ hb')

theorem boot : (boot : Smp ι).OwnSlots where
  occupied i idx h := by cases h
  home i r h := by cases h
  alone i j idx h := by cases h
  notReady i idx h := by cases h
  fresh idx h := by simp [Smp.boot, new, RunQueue.get] at h
  distinct idx idx' h := by simp [Smp.boot, new, RunQueue.get] at h

/-! ### What keeps the slots apart -/

section

variable (h : s.OwnSlots)
include h

theorem history (log : ExitLog) (history : History) :
    OwnSlots { s with log := log, history := history } :=
  { h with }

/-- The tasks change and stay where they are. -/
theorem queue {rq : RunQueue} (hsome : ∀ j, (rq.get j).isSome = (s.rq.get j).isSome)
    (hready : ∀ i idx, (s.cpu i).on = some idx → rq.isReady idx = false) :
    OwnSlots { s with rq := rq } where
  occupied i idx hi := (hsome idx).trans (h.occupied i idx hi)
  home := h.home
  alone := h.alone
  notReady := hready
  fresh idx hidx := h.fresh idx ((hsome idx).symm.trans hidx)
  distinct idx idx' hidx hidx' :=
    h.distinct idx idx' ((hsome idx).symm.trans hidx) ((hsome idx').symm.trans hidx')

/-- A task that is changed is not ready afterwards unless it was before. -/
theorem modify (idx : ℕ) {f : Task → Task} (hf : ∀ t, (f t).state = .ready → t.state = .ready) :
    OwnSlots { s with rq := s.rq.modify idx f } := by
  refine h.queue (fun j => ?_) fun i j hi => ?_
  · rw [get_modify]
    split
    · exact isSome_map
    · rfl
  · have hnot := h.notReady i j hi
    rw [← Bool.not_eq_true, isReady_iff] at hnot ⊢
    rintro ⟨t', ht', hr⟩
    rw [get_modify] at ht'
    split at ht'
    · obtain ⟨t, ht, rfl⟩ := map_eq_some_iff.1 ht'
      exact hnot ⟨t, ht, hf t hr⟩
    · exact hnot ⟨t', ht', hr⟩

theorem modifyPid (pid : ℕ) {f : Task → Task} (hf : ∀ t, (f t).state = .ready → t.state = .ready) :
    OwnSlots { s with rq := s.rq.modifyPid pid f } := by
  unfold RunQueue.modifyPid
  cases s.rq.findPidIdx pid with
  | none => exact h
  | some idx => exact h.modify idx hf

/-- A slot that no CPU works on is emptied. -/
theorem remove {idx : ℕ} (hfree : ∀ j, (s.cpu j).busy ≠ some idx) :
    OwnSlots { s with rq := s.rq.remove idx } := by
  have hsome : ∀ j, ((s.rq.remove idx).get j).isSome → (s.rq.get j).isSome := by
    intro j hj
    rw [get_remove] at hj
    split at hj
    · cases hj
    · exact hj
  have hkeep : ∀ i j, (s.cpu i).busy = some j → (s.rq.remove idx).get j = s.rq.get j := by
    intro i j hi
    rw [get_remove, if_neg fun hj => hfree i (by rw [hi, hj])]
  refine ⟨fun i j hi => ?_, h.home, h.alone, fun i j hi => ?_, fun j hj => h.fresh j (hsome j hj),
    fun j j' hj hj' => h.distinct j j' (hsome j hj) (hsome j' hj')⟩
  · rw [hkeep i j hi]
    exact h.occupied i j hi
  · rw [isReady, hkeep i j (busy_of_on hi)]
    exact h.notReady i j hi

/-- What a turn of `wait_pid` does. -/
theorem waitPid {caller pid : ℕ}
    (hg : ∀ idx ∈ s.rq.findPidIdx pid, (s.zombieInfo idx).isSome → ∀ j, (s.cpu j).busy ≠ some idx) :
    (s.waitPid caller pid).OwnSlots := by
  unfold Smp.waitPid
  split
  swap
  · exact h.history ..
  next idx hidx =>
  split
  swap
  · exact h.history ..
  next z hz =>
  have hzi : z.idx = idx := zombieInfo_idx hz
  have hfree := hg idx hidx (by rw [hz]; rfl)
  exact (h.remove (hzi ▸ hfree)).history s.log _

/-- What a waker does. -/
theorem wake {w : Wake} (hg : s.Spaced (.wake w)) : OwnSlots { s with rq := s.rq.wakeBy w } := by
  refine h.queue (s.rq.wakeBy_woken w).sameLife.isSome fun i idx hi => ?_
  obtain ⟨t, ht⟩ := isSome_iff_exists.1 (h.occupied i idx (busy_of_on hi))
  exact Bool.eq_false_of_not_eq_true fun hr => hg idx (lt_of_get ht) (h.notReady i idx hi) hr i hi

/-- A new task goes to an empty slot, which no CPU works on. -/
theorem enqueue {t : Task} (hs : s.enqueue t = some s') : s'.OwnSlots := by
  obtain ⟨idx₀, rq, ctx, -, heq, -, hctx0, hkept, hcases⟩ := enqueue_cases hs
  have hdist := enqueue_distinct hs h.fresh h.distinct
  subst heq
  refine ⟨fun i j hi => ?_, fun i r hr => ?_, h.alone, fun i j hi => ?_, fun j hj => ?_, hdist⟩
  · rw [(hkept j (h.occupied i j hi)).1]
    exact h.occupied i j hi
  · exact (hkept _ (h.occupied i _ (busy_of_ref hr))).2.trans (h.home i r hr)
  · rw [isReady, (hkept j (h.occupied i j (busy_of_on hi))).1]
    exact h.notReady i j hi
  · obtain ⟨u, hu⟩ := isSome_iff_exists.1 hj
    rcases hcases j u hu with ⟨rfl, -⟩ | hold
    · simp [hctx0]
    · have hj' : (s.rq.get j).isSome := by simp [hold]
      have hlt := h.fresh j hj'
      simp only [(hkept j hj').2]
      omega

end

variable [DecidableEq ι]

section

variable (h : s.OwnSlots)
include h

/-- A CPU goes on to a phase in which it works on a slot that no other CPU works on. -/
theorem goto
    (hb : ∀ idx, p.busy = some idx → (s.rq.get idx).isSome ∧ ∀ j, (s.cpu j).busy = some idx → j = i)
    (hr : ∀ r, p.ref = some r → s.ctx r.idx = r.ctx)
    (ho : ∀ idx, p.on = some idx → s.rq.isReady idx = false) : (s.goto i p).OwnSlots := by
  have hcpu : ∀ j, (s.goto i p).cpu j = if j = i then p else s.cpu j :=
    fun j => Function.update_apply ..
  refine ⟨fun j idx hj => ?_, fun j r hj => ?_, fun j j' idx hj hj' => ?_, fun j idx hj => ?_, h.fresh,
    h.distinct⟩
  · rw [hcpu] at hj
    split at hj
    · exact (hb idx hj).1
    · exact h.occupied j idx hj
  · rw [hcpu] at hj
    split at hj
    · exact hr r hj
    · exact h.home j r hj
  · rw [hcpu] at hj hj'
    split at hj <;> split at hj'
    · next hji hji' => rw [hji, hji']
    · next hji hji' => exact absurd ((hb idx hj).2 j' hj') hji'
    · next hji hji' => exact absurd ((hb idx hj').2 j hj) hji
    · exact h.alone j j' idx hj hj'
  · rw [hcpu] at hj
    split at hj
    · exact ho idx hj
    · exact h.notReady j idx hj

/-- A CPU goes on with the slot it works on, or leaves it. -/
theorem advance (hb : ∀ idx, p.busy = some idx → (s.cpu i).busy = some idx)
    (hr : ∀ r, p.ref = some r → s.ctx r.idx = r.ctx)
    (ho : ∀ idx, p.on = some idx → s.rq.isReady idx = false) : (s.goto i p).OwnSlots :=
  h.goto (fun idx hidx => ⟨h.occupied i idx (hb idx hidx),
    fun j hj => h.alone j i idx hj (hb idx hidx)⟩) hr ho

/-- A CPU that is on a task stays on it. -/
theorem stay (ho : p.on = (s.cpu i).on) (hp : p.picking = none)
    (hr : ∀ r, p.ref = some r → (s.cpu i).ref = some r) : (s.goto i p).OwnSlots := by
  refine h.advance (fun idx hidx => busy_of_on ?_) (fun r hr' => h.home i r (hr r hr'))
    fun idx hidx => h.notReady i idx (ho ▸ hidx)
  rw [busy_eq_some, hp] at hidx
  rcases hidx with hidx | hidx
  · cases hidx
  · exact ho ▸ hidx

/-- A CPU is done with its slot. -/
theorem leave (hp : p.busy = none) : (s.goto i p).OwnSlots := by
  have hr : ∀ r, p.ref ≠ some r := fun r hr => by cases hp.symm.trans (busy_of_ref hr)
  have ho : ∀ idx, p.on ≠ some idx := fun idx ho => by cases hp.symm.trans (busy_of_on ho)
  exact h.advance (fun idx hidx => by cases hp.symm.trans hidx) (fun r h => absurd h (hr r))
    fun idx h => absurd h (ho idx)

/-! ### The steps of the scheduler loop -/

theorem pick (i : ι) (hg : ∀ idx ∈ s.rq.pickNext.1, ∀ j, (s.cpu j).picking ≠ some idx) :
    (s.pick i).OwnSlots := by
  have hq : OwnSlots { s with rq := s.rq.pickNext.2 } := by
    refine h.queue (fun j => by rw [get_pickNext]) fun j idx hj => ?_
    rw [isReady, get_pickNext]
    exact h.notReady j idx hj
  unfold Smp.pick
  split
  swap
  · exact hq.leave rfl
  next idx hidx =>
  have hready := isReady_of_pickNext hidx
  refine hq.goto (fun idx' hidx' => ?_) (fun r hr => by cases hr) fun idx' h' => by cases h'
  cases hidx'
  refine ⟨?_, fun j hj => ?_⟩
  · obtain ⟨t, ht, -⟩ := isReady_iff.1 hready
    rw [get_pickNext, ht]
    rfl
  · -- A CPU that is on the task has taken it out of the ready ones.
    rcases busy_eq_some.1 hj with hj | hj
    · exact absurd hj (hg _ hidx j)
    · cases hready.symm.trans (h.notReady j _ hj)

theorem publish {r : TaskRef} (hi : s.cpu i = .chosen r) :
    ({ s with rq := s.rq.modify r.idx fun t => { t with state := .running } }.goto i
      (.published r)).OwnSlots := by
  have hq := h.modify r.idx (f := fun t => { t with state := .running }) fun _ hr => by cases hr
  refine hq.advance (fun idx hidx => ?_) (fun r' hr' => ?_) fun idx hidx => ?_
  · rw [hi]
    exact hidx
  · cases hr'
    exact h.home i r (by rw [hi]; rfl)
  · cases hidx
    rw [← Bool.not_eq_true, isReady_iff]
    rintro ⟨t, ht, hr⟩
    rw [get_modify, if_pos rfl] at ht
    obtain ⟨u, -, rfl⟩ := Option.map_eq_some_iff.1 ht
    cases hr

/-- The task is made ready again when the CPU is no longer on it. -/
theorem settle {idx : ℕ} (hi : s.cpu i = .returned idx) :
    ({ s with rq := s.rq.modify idx requeue }.goto i (.settled idx)).OwnSlots := by
  have hleft : (s.goto i (.settled idx)).OwnSlots := h.leave rfl
  refine queue hleft (fun j => ?_) fun j idx' hj => ?_
  · rw [get_modify]
    split
    · exact isSome_map
    · rfl
  · have hji : j ≠ i := by
      rintro rfl
      simp [on] at hj
    have hj' : (s.cpu j).on = some idx' := by
      rwa [goto_of_ne hji] at hj
    have hne : idx' ≠ idx := by
      rintro rfl
      exact hji (h.alone j i idx' (busy_of_on hj') (by rw [hi]; rfl))
    rw [isReady, get_modify, if_neg hne]
    exact h.notReady j idx' hj'

theorem sched (hg : s.Spaced (.sched i)) (hs : s.sched i = some s') : s'.OwnSlots := by
  replace hg : s.SpacedPhase (s.cpu i) := hg
  cases sched_cases hs with
  | pick hi =>
    rw [hi] at hg
    exact h.pick i hg
  | choose hi =>
    refine h.advance (fun idx' hidx => ?_) (fun r hr => ?_) fun idx' hidx => by cases hidx
    · rw [hi]
      exact hidx
    · cases hr
      rfl
  | publish hi => exact h.publish hi
  | run hi => exact h.stay (by rw [hi]; rfl) rfl fun r' hr' => by rw [hi]; exact hr'
  | settle hi => exact h.settle hi
  | check =>
    refine h.leave ?_
    split <;> rfl
  | hook | free | logExit => exact (h.history _ _).leave rfl
  | remove hi =>
    rw [hi] at hg
    exact ((h.remove hg).history s.log _).leave rfl

/-! ### The steps of tasks -/

/-- The task a CPU runs, or has run until it marked itself, does something. -/
theorem call {r : TaskRef} (hr : (s.cpu i).ref = some r) (ho : (s.cpu i).on = some r.idx) {c : Call}
    (hg : s.Spaced (.task i c)) : (s.call i r c).OwnSlots := by
  have hstay : ∀ r', (leaving r).ref = some r' → (s.cpu i).ref = some r' := by
    intro r' hr'
    rw [hr]
    exact hr'
  cases c with
  | blockOnPort | blockOnFutex =>
    exact (h.modifyPid r.pid fun _ hr => by cases hr).stay ho.symm rfl hstay
  | exit =>
    exact ((h.modifyPid r.pid fun _ hr => by cases hr).history s.log _).stay ho.symm rfl hstay
  | waitPid => exact h.waitPid hg
  | yieldNow => exact h.stay ho.symm rfl fun r' hr' => by cases hr'

theorem task {c : Call} (hg : s.Spaced (.task i c)) (hs : s.task i c = some s') : s'.OwnSlots := by
  unfold Smp.task at hs
  split at hs
  · next r hi =>
    cases hs
    exact h.call (by rw [hi]; rfl) (by rw [hi]; rfl) hg
  · next r hi =>
    split at hs
    · cases hs
      exact h.call (by rw [hi]; rfl) (by rw [hi]; rfl) hg
    · cases hs
  · cases hs

theorem step {a : Act ι} (hg : s.Spaced a) (hs : s.step a = some s') : s'.OwnSlots := by
  cases a with
  | sched => exact h.sched hg hs
  | task => exact h.task hg hs
  | wake =>
    cases hs
    exact h.wake hg
  | enqueue => exact h.enqueue hs

end

end OwnSlots

variable [DecidableEq ι] {s : Smp ι}

/-- **At most one CPU on a task.**  In every state of a run whose steps are `Spaced`, no two CPUs
have switched to the context of the same task. -/
theorem exclusive_run (h : Run step Spaced boot s) : s.Exclusive :=
  (h.invariant OwnSlots.boot fun _ _ _ hi hg hs => hi.step hg hs).exclusive

/-- Two CPUs run two tasks. -/
theorem exclusive_run_twoTasks : ∃ s : Smp (Fin 2), Run step Spaced boot s ∧
    ((s.cpu 0).switched = some 0 ∧ (s.cpu 1).switched = some 1) ∧ s.Exclusive :=
  Run.exists_guarded_with
    [.enqueue (.newKernel 1 0x1000 0), .enqueue (.newKernel 2 0x2000 0), .sched 0, .sched 0, .sched 1,
      .sched 0, .sched 1, .sched 1, .sched 0, .sched 1] (by decide +kernel)
    fun _ hrun _ => exclusive_run hrun

/-- **Two CPUs on one task.**  The second CPU picks the task when the first one has picked it and
has not marked it `Running`. -/
theorem two_cpus_on_one_task : ∃ s : Smp (Fin 2), Reach step boot s ∧
    ((s.cpu 0).switched = some 0 ∧ (s.cpu 1).switched = some 0) ∧ ¬s.Exclusive :=
  Run.exists_guarded_with
    [.enqueue (.newKernel 1 0x1000 0), .sched 0, .sched 1, .sched 0, .sched 1, .sched 0, .sched 1,
      .sched 0, .sched 1] (by decide +kernel)
    fun _ _ hp h => absurd (h 0 1 0 hp.1 hp.2) (by decide)

end Smp

end Cyanos
