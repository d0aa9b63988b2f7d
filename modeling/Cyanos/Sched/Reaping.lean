import Cyanos.Lib.Ring
import Cyanos.Sched.Wakeups

/-!
# Zombies are reaped once: what is to hold

A task that exits is a zombie until somebody takes it out of the run queue.  The scheduler loop of
the CPU it ran on does that in steps: it finds the zombie, calls the exit hook, empties the slot,
frees the kernel stack and logs the exit code.  `wait_pid` does it too, in one section, when it
comes across a zombie: it empties the slot and returns the exit code, and neither calls the hook nor
frees the stack. Between the emptying of the slot and the log, `wait_pid` finds the task neither in
the run queue nor in the log.  And a second CPU that picks the slot while the first one is still to
look at it finds the same zombie.

* `ReapedOnce`: hook and stack once for every task that exited, no other task removed, and
  `wait_pid` returns the exit code;
* `Orderly`: the steps that keep out of these gaps;
* `Reaping`: where every box is, and what every CPU knows about the slot it works on.  A state in
  which this holds is `ReapedOnce` (`Reaping.reapedOnce`);
* `Reaping.queue`, `Reaping.goto`: steps after which every zombie is where it was keep it;
* `Deals.reaping`: so does a step that deals with one task, if what it leaves of that task is right.
-/

namespace Cyanos

open Lib

namespace Phase

/-- The slot the CPU works on, from when it picks it until it has emptied it or found no zombie in
it. -/
def slot (p : Phase) : Option ℕ := p.busy.or p.finishing

/-- The slot in which the CPU is going to find a zombie, or has just found it. -/
def ending : Phase → Option ℕ
  | leaving r => some r.idx
  | returned idx | settled idx => some idx
  | found z => some z.idx
  | _ => none

/-- The zombie whose slot the CPU has emptied and whose exit it has not logged. -/
def reaped : Phase → Option ZombieInfo
  | removed z | freed z => some z
  | _ => none

/-- The CPU is not past the exit hook. -/
def plain : Phase → Bool
  | hooked _ | removed _ | freed _ => false
  | _ => true

theorem slot_of_ending {p : Phase} {idx : ℕ} (h : p.ending = some idx) : p.slot = some idx := by
  cases p <;> first | exact h | cases h

theorem reaped_of_plain {p : Phase} (h : p.plain = true) : p.reaped = none := by
  cases p <;> first | rfl | cases h

end Phase

namespace Smp

variable {ι : Type} {s s' : Smp ι}

/-! ### What is to hold -/

/-- The CPU is about to reap the task of the box. -/
def Handles (s : Smp ι) (i : ι) (c : ℕ) : Prop :=
  match s.cpu i with
  | .leaving r => r.ctx = c
  | .returned idx | .settled idx => s.box idx = some c
  | .found z | .hooked z | .removed z | .freed z => z.ctx = c
  | _ => False

/-- Every task that exited is reaped exactly once. -/
structure ReapedOnce (s : Smp ι) : Prop where
  /-- The exit hook is not called twice. -/
  hooks : ∀ c, (s.history.deeds c).hooks ≤ 1
  /-- The kernel stack is not freed twice. -/
  frees : ∀ c, (s.history.deeds c).frees ≤ 1
  /-- When no CPU is about to reap a task that exited, it has been reaped: it is not in the run
  queue, the hook has been called and the stack freed. -/
  once : ∀ c, (s.history.deeds c).code ≠ none → (∀ i, ¬s.Handles i c) →
    (∀ idx, s.box idx ≠ some c) ∧ (s.history.deeds c).hooks = 1 ∧ (s.history.deeds c).frees = 1
  /-- No other task is removed. -/
  removals : ∀ e ∈ s.history.removals, e.2 = none ∨ e.2 = some e.1
  /-- A `wait_pid` that began when the task was in the run queue returns its exit code, unless the
  log was overrun. -/
  returns : ∀ r ∈ s.history.returns, r.later < exitLogLen →
    ∃ code, (s.history.deeds r.ctx).code = some code ∧ r.result = some code

/-- What `Orderly` asks of the scheduler loop of a CPU in a phase. -/
def OrderlyPhase (s : Smp ι) : Phase → Prop
  | .idle => ∀ idx ∈ s.rq.pickNext.1, ∀ j, (s.cpu j).slot ≠ some idx
  | _ => True

/-- The step keeps out of the gaps:
* a slot is picked when no CPU works on it;
* a turn of `wait_pid(pid)` comes when the task is not a zombie and no CPU has emptied its slot
  without having logged its exit, and its record has not been overwritten by those of tasks that
  exited earlier;
* a new task has a new process id. -/
def Orderly (s : Smp ι) : Act ι → Prop
  | .sched i => s.OrderlyPhase (s.cpu i)
  | .task _ (.waitPid pid) =>
    (∀ idx ∈ s.rq.findPidIdx pid, s.zombieInfo idx = none) ∧
    (∀ j, ∀ z ∈ (s.cpu j).reaped, z.pid ≠ pid) ∧
    ∀ c < s.nextCtx, s.history.pid c = pid → s.history.laterExits c < exitLogLen →
      s.history.laterRecords c < exitLogLen
  | .enqueue t => ∀ c < s.nextCtx, s.history.pid c ≠ t.pid
  | _ => True

/-! ### The invariant -/

/-- The zombie is in its slot. -/
def InSlot (s : Smp ι) (z : ZombieInfo) : Prop :=
  s.ctx z.idx = z.ctx ∧ ∃ t, s.rq.get z.idx = some t ∧ t.pid = z.pid ∧ t.state = .zombie

/-- The zombie has left the run queue and is not yet in the log. -/
structure Gone (s : Smp ι) (z : ZombieInfo) : Prop where
  lt : z.ctx < s.nextCtx
  pid : s.history.pid z.ctx = z.pid
  notLogged : z.ctx ∉ s.history.logged
  notIn : ∀ idx, s.box idx ≠ some z.ctx

/-- What a CPU in a phase can rely on. -/
def Knows (s : Smp ι) : Phase → Prop
  | .idle => True
  | .picked idx => ∃ t, s.rq.get idx = some t ∧ t.state ≠ .zombie
  | .chosen r | .published r | .running r =>
    s.ctx r.idx = r.ctx ∧ ∃ t, s.rq.get r.idx = some t ∧ t.pid = r.pid ∧ t.state ≠ .zombie
  | .leaving r => s.ctx r.idx = r.ctx ∧ ∃ t, s.rq.get r.idx = some t
  | .returned idx | .settled idx => ∃ t, s.rq.get idx = some t
  | .found z => s.InSlot z ∧ s.history.deeds z.ctx = ⟨some z.exitCode, 0, 0⟩
  | .hooked z => s.InSlot z ∧ s.history.deeds z.ctx = ⟨some z.exitCode, 1, 0⟩
  | .removed z => s.Gone z ∧ s.history.deeds z.ctx = ⟨some z.exitCode, 1, 0⟩
  | .freed z => s.Gone z ∧ s.history.deeds z.ctx = ⟨some z.exitCode, 1, 1⟩

/-- What holds of a task in the run queue. -/
structure SlotOk (s : Smp ι) (idx : ℕ) (t : Task) : Prop where
  lt : s.ctx idx < s.nextCtx
  pid : s.history.pid (s.ctx idx) = t.pid
  notLogged : s.ctx idx ∉ s.history.logged
  live : t.state ≠ .zombie → s.history.deeds (s.ctx idx) = {}
  /-- A CPU is going to deal with a zombie. -/
  zombie : t.state = .zombie →
    (∃ i, (s.cpu i).ending = some idx ∧ s.history.deeds (s.ctx idx) = ⟨some t.exitCode, 0, 0⟩) ∨
    ∃ i z, s.cpu i = .hooked z ∧ z.idx = idx

/-- Where the task of a box is: in the run queue, with a CPU that reaps it, or in the log. -/
def Whereabouts (s : Smp ι) (c : ℕ) : Prop :=
  (∃ idx, s.box idx = some c) ∨ (∃ i, ∃ z ∈ (s.cpu i).reaped, z.ctx = c) ∨ c ∈ s.history.logged

/-- The record of the task of a box in the exit log. -/
def record (s : Smp ι) (c : ℕ) : ExitRecord := ⟨s.history.pid c, ((s.history.deeds c).code).getD 0⟩

/-- Where every box is, and what every CPU knows about the slot it works on. -/
structure Reaping (s : Smp ι) : Prop where
  alone : ∀ i j idx, (s.cpu i).slot = some idx → (s.cpu j).slot = some idx → i = j
  aloneReaped : ∀ i j, ∀ z ∈ (s.cpu i).reaped, ∀ z' ∈ (s.cpu j).reaped, z.ctx = z'.ctx → i = j
  knows : ∀ i, s.Knows (s.cpu i)
  slots : ∀ idx t, s.rq.get idx = some t → s.SlotOk idx t
  distinct : ∀ idx idx', (s.rq.get idx).isSome → (s.rq.get idx').isSome →
    s.ctx idx = s.ctx idx' → idx = idx'
  pids : ∀ c c', c < s.nextCtx → c' < s.nextCtx → s.history.pid c = s.history.pid c' → c = c'
  unborn : ∀ c, s.nextCtx ≤ c → s.history.deeds c = {}
  whereabouts : ∀ c < s.nextCtx, s.Whereabouts c
  logged : ∀ c ∈ s.history.logged, c < s.nextCtx ∧ ∃ code, s.history.deeds c = ⟨some code, 1, 1⟩
  ring : RingOf exitLogLen s.log.slots s.log.idx (s.history.logged.map s.record)
  awaited : ∀ caller pid c, s.history.awaited caller pid = some c →
    c < s.nextCtx ∧ s.history.pid c = pid
  returns : ∀ r ∈ s.history.returns, r.later < exitLogLen →
    ∃ code, (s.history.deeds r.ctx).code = some code ∧ r.result = some code
  removals : ∀ e ∈ s.history.removals, e.2 = some e.1

theorem box_eq_some {idx c : ℕ} :
    s.box idx = some c ↔ (∃ t, s.rq.get idx = some t) ∧ s.ctx idx = c := by
  unfold box
  cases s.rq.get idx with
  | none => simp
  | some => simp

/-- The slot has the same task in both states, a zombie in both or in neither, and the same has been
done for it. -/
def SameSlot (s s' : Smp ι) (idx : ℕ) : Prop :=
  s'.ctx idx = s.ctx idx ∧ Option.Rel Task.SameLife (s.rq.get idx) (s'.rq.get idx) ∧
    s'.history.deeds (s.ctx idx) = s.history.deeds (s.ctx idx)

theorem SameSlot.some_of {idx : ℕ} {t : Task} (h : s.SameSlot s' idx)
    (ht : s.rq.get idx = some t) : ∃ t', s'.rq.get idx = some t' ∧ t.SameLife t' :=
  exists_of_some_rel (ht ▸ h.2.1)

theorem InSlot.frame {z : ZombieInfo} (h : s.InSlot z) (hs : s.SameSlot s' z.idx) :
    s'.InSlot z := by
  obtain ⟨hc, t, ht, hpid, hz⟩ := h
  obtain ⟨t', ht', hl⟩ := hs.some_of ht
  exact ⟨hs.1.trans hc, t', ht', hl.pid.trans hpid, hl.zombie.2 hz⟩

/-- What a CPU knows is about the slot it works on, or about the zombie it has taken out. -/
theorem Knows.frame {s s' : Smp ι} {p : Phase} (h : s.Knows p)
    (hslot : ∀ idx, p.slot = some idx → s.SameSlot s' idx)
    (hgone : ∀ z ∈ p.reaped, s.Gone z →
      s'.Gone z ∧ s'.history.deeds z.ctx = s.history.deeds z.ctx) : s'.Knows p := by
  cases p with
  | idle => trivial
  | picked idx =>
    obtain ⟨t, ht, hz⟩ := h
    obtain ⟨t', ht', hl⟩ := (hslot idx rfl).some_of ht
    exact ⟨t', ht', mt hl.zombie.1 hz⟩
  | chosen r | published r | running r =>
    obtain ⟨hc, t, ht, hpid, hz⟩ := h
    obtain ⟨t', ht', hl⟩ := (hslot r.idx rfl).some_of ht
    exact ⟨(hslot r.idx rfl).1.trans hc, t', ht', hl.pid.trans hpid, mt hl.zombie.1 hz⟩
  | leaving r =>
    obtain ⟨hc, t, ht⟩ := h
    obtain ⟨t', ht', -⟩ := (hslot r.idx rfl).some_of ht
    exact ⟨(hslot r.idx rfl).1.trans hc, t', ht'⟩
  | returned idx | settled idx =>
    obtain ⟨t, ht⟩ := h
    obtain ⟨t', ht', -⟩ := (hslot idx rfl).some_of ht
    exact ⟨t', ht'⟩
  | found z | hooked z =>
    have hs := hslot z.idx rfl
    exact ⟨h.1.frame hs, by rw [← h.2, ← h.1.1, hs.2.2]⟩
  | removed z | freed z =>
    obtain ⟨hg, hd⟩ := hgone z rfl h.1
    exact ⟨hg, hd.trans h.2⟩

theorem Knows.goto [DecidableEq ι] {q : Phase} (h : s.Knows q) (i : ι) (p : Phase) :
    (s.goto i p).Knows q :=
  h.frame (fun idx _ => ⟨rfl, RunQueue.SameLife.of_get_eq (fun _ => rfl) idx, rfl⟩)
    fun _ _ hz => ⟨{ hz with }, rfl⟩

namespace Reaping

variable {s s' : Smp ι} {i : ι} {idx : ℕ}

/-! ### What follows from it -/

section

variable (h : s.Reaping)
include h

theorem knows_of {p : Phase} (hi : s.cpu i = p) : s.Knows p := hi ▸ h.knows i

/-- A slot is worked on by one CPU. -/
theorem own (hi : (s.cpu i).slot = some idx) (j : ι) (hj : j ≠ i) :
    (s.cpu j).slot ≠ some idx := fun hj' => hj (h.alone j i idx hj' hi)

/-- A box is in one slot. -/
theorem idx_eq {idx' : ℕ} {t t' : Task} (ht : s.rq.get idx = some t) (ht' : s.rq.get idx' = some t')
    (hc : s.ctx idx' = s.ctx idx) : idx' = idx :=
  h.distinct idx' idx (by simp [ht']) (by simp [ht]) hc

/-- There is a task in a slot that a CPU works on. -/
theorem occupied (hi : (s.cpu i).slot = some idx) : ∃ t, s.rq.get idx = some t := by
  have hk := h.knows i
  generalize s.cpu i = p at hi hk
  cases p with
  | picked =>
    cases hi
    obtain ⟨t, ht, -⟩ := hk
    exact ⟨t, ht⟩
  | chosen | published | running =>
    cases hi
    obtain ⟨-, t, ht, -⟩ := hk
    exact ⟨t, ht⟩
  | leaving =>
    cases hi
    exact hk.2
  | returned | settled =>
    cases hi
    exact hk
  | found | hooked =>
    cases hi
    obtain ⟨⟨-, t, ht, -⟩, -⟩ := hk
    exact ⟨t, ht⟩
  | idle | removed | freed => cases hi

/-- A CPU that deals with a zombie in the slot deals with the task in it. -/
theorem handles_of_ending (hi : (s.cpu i).ending = some idx) : s.Handles i (s.ctx idx) := by
  have hk := h.knows i
  unfold Handles
  generalize hp : s.cpu i = p at hi hk
  cases p with
  | leaving =>
    cases hi
    exact hk.1.symm
  | returned | settled =>
    cases hi
    exact box_eq_some.2 ⟨hk, rfl⟩
  | found =>
    cases hi
    exact hk.1.1.symm
  | _ => cases hi

/-- A zombie that a CPU has taken out is gone; the CPU handles it, and the hook has been called
once. -/
theorem of_reaped {z : ZombieInfo} (hi : z ∈ (s.cpu i).reaped) :
    s.Gone z ∧ s.Handles i z.ctx ∧ (s.history.deeds z.ctx).hooks = 1 ∧
      (s.history.deeds z.ctx).frees ≤ 1 := by
  have hk := h.knows i
  unfold Handles
  generalize hp : s.cpu i = p at hi hk
  cases p with
  | removed | freed =>
    cases hi
    exact ⟨hk.1, by simp [hk.2]⟩
  | _ => cases hi

/-- What has been done for a task in the run queue. -/
theorem deeds_of_get {t : Task} (ht : s.rq.get idx = some t) :
    s.history.deeds (s.ctx idx) = {} ∨
      ∃ i, s.Handles i (s.ctx idx) ∧ (s.history.deeds (s.ctx idx)).hooks ≤ 1 ∧
        (s.history.deeds (s.ctx idx)).frees = 0 := by
  have hok := h.slots idx t ht
  by_cases hz : t.state = .zombie
  · right
    rcases hok.zombie hz with ⟨i, hi, hd⟩ | ⟨i, z, hi, rfl⟩
    · exact ⟨i, h.handles_of_ending hi, by simp [hd]⟩
    · have hk := h.knows i
      rw [hi] at hk
      refine ⟨i, by rw [Handles, hi, hk.1.1], ?_⟩
      simp [hk.1.1, hk.2]
  · exact .inl (hok.live hz)

theorem reapedOnce : s.ReapedOnce := by
  have hcases : ∀ c, s.history.deeds c = {} ∨ (∃ i, s.Handles i c) ∧
      (s.history.deeds c).hooks ≤ 1 ∧ (s.history.deeds c).frees ≤ 1 ∨
      c ∈ s.history.logged := by
    intro c
    by_cases hc : c < s.nextCtx
    swap
    · exact .inl (h.unborn c (by omega))
    rcases h.whereabouts c hc with ⟨idx, hidx⟩ | ⟨i, z, hi, rfl⟩ | hlog
    · obtain ⟨⟨t, ht⟩, rfl⟩ := box_eq_some.1 hidx
      rcases h.deeds_of_get ht with hd | ⟨i, hi, hh, hf⟩
      · exact .inl hd
      · exact .inr (.inl ⟨⟨i, hi⟩, hh, by omega⟩)
    · obtain ⟨-, hh, hk, hf⟩ := h.of_reaped hi
      exact .inr (.inl ⟨⟨i, hh⟩, by omega, hf⟩)
    · exact .inr (.inr hlog)
  have hdone : ∀ c ∈ s.history.logged,
      (s.history.deeds c).hooks = 1 ∧ (s.history.deeds c).frees = 1 := by
    intro c hc
    obtain ⟨-, code, hd⟩ := h.logged c hc
    simp [hd]
  refine ⟨fun c => ?_, fun c => ?_, fun c hcode hno => ?_, fun e he => .inr (h.removals e he), h.returns⟩
  · rcases hcases c with hd | ⟨-, hh, -⟩ | hlog
    · simp [hd]
    · exact hh
    · exact (hdone c hlog).1.le
  · rcases hcases c with hd | ⟨-, -, hf⟩ | hlog
    · simp [hd]
    · exact hf
    · exact (hdone c hlog).2.le
  · rcases hcases c with hd | ⟨⟨i, hi⟩, -⟩ | hlog
    · simp [hd] at hcode
    · exact absurd hi (hno i)
    · refine ⟨fun idx hidx => ?_, hdone c hlog⟩
      obtain ⟨⟨t, ht⟩, rfl⟩ := box_eq_some.1 hidx
      exact (h.slots idx t ht).notLogged hlog

/-! ### Steps after which every zombie is where it was -/

/-- A section that leaves every task in its slot, and makes no task a zombie. -/
theorem queue {rq : RunQueue} (hq : s.rq.SameLife rq) : Reaping { s with rq := rq } := by
  have hbox : ∀ idx, box { s with rq := rq } idx = s.box idx := by
    intro idx
    have hsome := hq.isSome idx
    unfold box
    cases hg : s.rq.get idx <;> cases hg' : rq.get idx <;> simp_all
  have hgone : ∀ z, s.Gone z → Gone { s with rq := rq } z :=
    fun z hz => ⟨hz.lt, hz.pid, hz.notLogged, fun idx hidx => hz.notIn idx ((hbox idx).symm.trans hidx)⟩
  refine { h with
    knows i := ?_, slots idx t' ht' := ?_, distinct idx idx' hi hi' := ?_, whereabouts c hc := ?_ }
  · exact (h.knows i).frame (fun idx _ => ⟨rfl, hq idx, rfl⟩) fun z _ hz => ⟨hgone z hz, rfl⟩
  · obtain ⟨t, ht, hl⟩ := hq.of_some ht'
    have hok := h.slots idx t ht
    refine ⟨hok.lt, hok.pid.trans hl.pid.symm, hok.notLogged, fun hz => hok.live fun hz' => hz ?_,
      fun hz => ?_⟩
    · exact hl.zombie.2 hz'
    · rw [hl.exitCode]
      exact hok.zombie (hl.zombie.1 hz)
  · rw [hq.isSome] at hi hi'
    exact h.distinct idx idx' hi hi'
  · exact (h.whereabouts c hc).imp_left fun ⟨idx, hidx⟩ => ⟨idx, (hbox idx).trans hidx⟩

end

variable [DecidableEq ι]

/-- A CPU goes on, and no zombie in its slot is forgotten. -/
theorem goto (h : s.Reaping) {i : ι} {q p : Phase} (hi : s.cpu i = q) (hold : q.plain = true)
    (hp : p.plain = true)
    (hslot : ∀ idx, p.slot = some idx → ∀ j, j ≠ i → (s.cpu j).slot ≠ some idx)
    (hknows : s.Knows p)
    (hend : ∀ idx t, q.ending = some idx → s.rq.get idx = some t → t.state = .zombie →
      p.ending = some idx) : (s.goto i p).Reaping := by
  subst hi
  have hcpu : ∀ j, (s.goto i p).cpu j = if j = i then p else s.cpu j :=
    fun j => Function.update_apply s.cpu i p j
  have hreaped : ∀ j, ((s.goto i p).cpu j).reaped = (s.cpu j).reaped := by
    intro j
    rw [hcpu]
    split
    · next hj => rw [hj, Phase.reaped_of_plain hp, Phase.reaped_of_plain hold]
    · rfl
  refine { h with
    alone j j' idx hj hj' := ?_, aloneReaped j j' := ?_, knows j := ?_, slots idx t ht := ?_
    whereabouts c hc := ?_ }
  · rw [hcpu] at hj hj'
    split at hj <;> split at hj'
    · next hji hji' => rw [hji, hji']
    · next hji hji' => exact absurd hj' (hslot idx hj j' hji')
    · next hji hji' => exact absurd hj (hslot idx hj' j hji)
    · exact h.alone j j' idx hj hj'
  · rw [hreaped, hreaped]
    exact h.aloneReaped j j'
  · rw [hcpu]
    split
    · exact hknows.goto i p
    · exact (h.knows j).goto i p
  · have hok := h.slots idx t ht
    refine { hok with zombie hz := ?_ }
    rcases hok.zombie hz with ⟨j, hj, hd⟩ | ⟨j, z, hj, hzi⟩
    · refine .inl ⟨j, ?_, hd⟩
      rw [hcpu]
      split
      · next hji => exact hend idx t (hji ▸ hj) ht hz
      · exact hj
    · have hji : j ≠ i := by
        rintro rfl
        rw [hj] at hold
        cases hold
      exact .inr ⟨j, z, by rw [goto_of_ne hji, hj], hzi⟩
  · rcases h.whereabouts c hc with hidx | ⟨j, z, hz, hzc⟩ | hlog
    · exact .inl hidx
    · exact .inr (.inl ⟨j, z, by rwa [hreaped], hzc⟩)
    · exact .inr (.inr hlog)

/-- A CPU goes on with the same slot. -/
theorem advance (h : s.Reaping) {q p : Phase} (hi : s.cpu i = q) (hold : q.plain = true)
    (hp : p.plain = true) (hslot : p.slot = q.slot) (hknows : s.Knows p)
    (hend : ∀ idx, q.ending = some idx → p.ending = some idx) : (s.goto i p).Reaping :=
  h.goto hi hold hp (fun _ hidx => h.own (hi ▸ hslot ▸ hidx)) hknows
    fun idx _ hidx _ _ => hend idx hidx

/-! ### Steps that deal with one task -/

end Reaping

/-- The CPU `i` deals with the task of the box `c`, and no other CPU does. -/
structure Sole (s : Smp ι) (i : ι) (c : ℕ) : Prop where
  lt : c < s.nextCtx
  notLogged : c ∉ s.history.logged
  own : ∀ idx, (s.cpu i).slot = some idx → s.ctx idx = c
  mine : ∀ z ∈ (s.cpu i).reaped, z.ctx = c
  others : ∀ j, j ≠ i → (∀ idx, (s.cpu j).slot = some idx → s.ctx idx ≠ c) ∧
    ∀ z ∈ (s.cpu j).reaped, z.ctx ≠ c

namespace Reaping

variable {s : Smp ι}

/-- The task in the slot that a CPU works on. -/
theorem sole_of_slot (h : s.Reaping) {i : ι} {p : Phase} {idx : ℕ} {t : Task} (hp : s.cpu i = p)
    (hi : p.slot = some idx) (hreaped : p.reaped = none) (ht : s.rq.get idx = some t) :
    s.Sole i (s.ctx idx) where
  lt := (h.slots idx t ht).lt
  notLogged := (h.slots idx t ht).notLogged
  own idx' hidx' := by rw [Option.mem_unique hi (hp ▸ hidx')]
  mine z hz := by cases hreaped.symm.trans (hp ▸ hz)
  others j hj := by
    refine ⟨fun idx' hj' hc => ?_, fun z hz hc => ?_⟩
    · obtain ⟨t', ht'⟩ := h.occupied hj'
      obtain rfl := h.idx_eq ht ht' hc
      exact h.own (hp ▸ hi) j hj hj'
    · exact (h.of_reaped hz).1.notIn idx (box_eq_some.2 ⟨⟨t, ht⟩, hc.symm⟩)

/-- The task that a CPU has taken out. -/
theorem sole_of_reaped (h : s.Reaping) {i : ι} {p : Phase} {z : ZombieInfo} (hp : s.cpu i = p)
    (hi : z ∈ p.reaped) (hslot : p.slot = none) : s.Sole i z.ctx := by
  subst hp
  obtain ⟨hgone, -⟩ := h.of_reaped hi
  refine ⟨hgone.lt, hgone.notLogged, fun idx hidx => ?_,
    fun z' hz' => by rw [Option.mem_unique hi hz'], fun j hj => ⟨fun idx hj' hc => ?_, ?_⟩⟩
  · cases hslot.symm.trans hidx
  · exact hgone.notIn idx (box_eq_some.2 ⟨h.occupied hj', hc⟩)
  · exact fun z' hz' hc => hj (h.aloneReaped j i z' hz' z hi hc)

end Reaping

/-- In the step from `s` to `s'` the CPU `i` deals with the task of the box `c` and with no
other. -/
structure Deals (s s' : Smp ι) (i : ι) (c : ℕ) : Prop where
  nextCtx : s'.nextCtx = s.nextCtx
  ctx : s'.ctx = s.ctx
  pid : s'.history.pid = s.history.pid
  awaited : s'.history.awaited = s.history.awaited
  returns : s'.history.returns = s.history.returns
  cpu : ∀ j, j ≠ i → s'.cpu j = s.cpu j
  queue : ∀ idx, s.ctx idx ≠ c → s'.rq.get idx = s.rq.get idx
  isSome : ∀ idx, (s'.rq.get idx).isSome → (s.rq.get idx).isSome
  deeds : ∀ c', c' ≠ c → s'.history.deeds c' = s.history.deeds c'
  /-- An exit code is not lost. -/
  code : ∀ code, (s.history.deeds c).code = some code → (s'.history.deeds c).code = some code
  sole : s.Sole i c

/-- The log after the step: as before, or with the record of the task of the box `c`. -/
def LogStep (s s' : Smp ι) (c : ℕ) : Prop :=
  s'.history.logged = s.history.logged ∧ s'.log = s.log ∨
    ∃ code, s'.history.deeds c = ⟨some code, 1, 1⟩ ∧ s'.history.logged = c :: s.history.logged ∧
      s'.log = s.log.logExit (s.history.pid c) code

/-- No other record is added. -/
theorem LogStep.mem_iff {c c' : ℕ} (h : s.LogStep s' c) (hne : c' ≠ c) :
    c' ∈ s'.history.logged ↔ c' ∈ s.history.logged := by
  rcases h with ⟨hl, -⟩ | ⟨-, -, hl, -⟩
  · rw [hl]
  · rw [hl, List.mem_cons, or_iff_right hne]

namespace Deals

variable {s s' : Smp ι} {i : ι} {c : ℕ} {idx : ℕ}

/-- Records are added, and no other task of the queue changes. -/
theorem of_records [DecidableEq ι] {rq : RunQueue} {log : ExitLog} {history : History} {p : Phase}
    (hsole : s.Sole i c) (hqueue : ∀ idx, s.ctx idx ≠ c → rq.get idx = s.rq.get idx)
    (hsome : ∀ idx, (rq.get idx).isSome → (s.rq.get idx).isSome) (hpid : history.pid = s.history.pid)
    (hawaited : history.awaited = s.history.awaited) (hreturns : history.returns = s.history.returns)
    (hdeeds : ∀ c', c' ≠ c → history.deeds c' = s.history.deeds c')
    (hcode : ∀ code, (s.history.deeds c).code = some code → (history.deeds c).code = some code) :
    s.Deals ({ s with rq := rq, log := log, history := history }.goto i p) i c where
  nextCtx := rfl
  ctx := rfl
  pid := hpid
  awaited := hawaited
  returns := hreturns
  cpu _ hj := goto_of_ne hj _ _
  queue := hqueue
  isSome := hsome
  deeds := hdeeds
  code := hcode
  sole := hsole

section

variable (d : s.Deals s' i c)
include d

theorem box {c' : ℕ} (hc : c' ≠ c) : s'.box idx = some c' ↔ s.box idx = some c' := by
  rw [box_eq_some, box_eq_some, d.ctx]
  refine and_congr_left fun hidx => ?_
  rw [d.queue idx (by rwa [hidx])]

theorem gone (hlog : s.LogStep s' c) {z : ZombieInfo} (hz : s.Gone z)
    (hc : z.ctx ≠ c) : s'.Gone z :=
  ⟨d.nextCtx ▸ hz.lt, d.pid ▸ hz.pid, mt (hlog.mem_iff hc).1 hz.notLogged,
    fun idx hidx => hz.notIn idx ((d.box hc).1 hidx)⟩

theorem sameSlot (hc : s.ctx idx ≠ c) : s.SameSlot s' idx := by
  refine ⟨congrFun d.ctx idx, ?_, d.deeds _ hc⟩
  rw [d.queue idx hc]
  exact RunQueue.SameLife.of_get_eq (fun _ => rfl) idx

/-- The slots of the other tasks. -/
theorem slotOk (hlog : s.LogStep s' c) {t : Task} (hc : s.ctx idx ≠ c)
    (h : s.SlotOk idx t) : s'.SlotOk idx t := by
  have hctx : s'.ctx idx = s.ctx idx := congrFun d.ctx idx
  have hother : ∀ j, (s.cpu j).slot = some idx → s'.cpu j = s.cpu j := by
    intro j hj
    refine d.cpu j ?_
    rintro rfl
    exact hc (d.sole.own idx hj)
  refine ⟨by rw [hctx, d.nextCtx]; exact h.lt, by rw [hctx, d.pid]; exact h.pid,
    fun hmem => h.notLogged ((hlog.mem_iff hc).1 (hctx ▸ hmem)),
    fun hz => by rw [hctx, d.deeds _ hc]; exact h.live hz, fun hz => ?_⟩
  · rcases h.zombie hz with ⟨j, hj, hd⟩ | ⟨j, z, hj, rfl⟩
    · refine .inl ⟨j, ?_, by rw [hctx, d.deeds _ hc]; exact hd⟩
      rw [hother j (Phase.slot_of_ending hj)]
      exact hj
    · exact .inr ⟨j, z, (hother j (by rw [hj]; rfl)).trans hj, rfl⟩

/-- The log has the records of the tasks that have been logged. -/
theorem ring (hlog : s.LogStep s' c)
    (h : RingOf exitLogLen s.log.slots s.log.idx (s.history.logged.map s.record)) :
    RingOf exitLogLen s'.log.slots s'.log.idx (s'.history.logged.map s'.record) := by
  have hrec : s.history.logged.map s'.record = s.history.logged.map s.record := by
    refine List.map_congr_left fun c' hc' => ?_
    have hne : c' ≠ c := fun he => d.sole.notLogged (he ▸ hc')
    rw [record, record, d.deeds c' hne, d.pid]
  rcases hlog with ⟨hl, hlog⟩ | ⟨code, hd, hl, hlog⟩
  · rw [hl, hlog, hrec]
    exact h
  · have hc : s'.record c = ⟨s.history.pid c, code⟩ := by
      rw [record, hd, d.pid]
      rfl
    rw [hl, hlog, List.map_cons, hc, hrec]
    exact h.cons _

/-- What is to be shown of a step that deals with one task is about that task. -/
theorem reaping (h : s.Reaping) {q p : Phase} (hi : s.cpu i = q) (hp : s'.cpu i = p)
    (hslot : ∀ idx, p.slot = some idx → q.slot = some idx)
    (hreaped : ∀ z ∈ p.reaped, z.ctx = c) (hknows : s'.Knows p)
    (hc : ∀ idx t, s'.rq.get idx = some t → s.ctx idx = c → s'.SlotOk idx t)
    (hwhere : s'.Whereabouts c) (hlog : s.LogStep s' c)
    (hrem : ∀ e ∈ s'.history.removals, e.2 = some e.1) : s'.Reaping := by
  subst hi hp
  have hctx : ∀ idx, s'.ctx idx = s.ctx idx := congrFun d.ctx
  have hreap : ∀ j, ∀ z ∈ (s'.cpu j).reaped, z.ctx = c ∧ j = i ∨ z ∈ (s.cpu j).reaped ∧ z.ctx ≠ c := by
    intro j z hz
    by_cases hj : j = i
    · subst hj
      exact .inl ⟨hreaped z hz, rfl⟩
    · rw [d.cpu j hj] at hz
      exact .inr ⟨hz, (d.sole.others j hj).2 z hz⟩
  refine ⟨fun j j' idx hj hj' => ?_, fun j j' z hz z' hz' he => ?_, fun j => ?_, fun idx t ht => ?_,
    fun idx idx' hidx hidx' he => ?_, ?_, fun c' hc' => ?_, fun c' hc' => ?_, fun c' hc' => ?_,
    d.ring hlog h.ring, ?_, fun r hr hlater => ?_, hrem⟩
  · have hback : ∀ j, (s'.cpu j).slot = some idx → (s.cpu j).slot = some idx := by
      intro j hj
      by_cases hji : j = i
      · subst hji
        exact hslot idx hj
      · rwa [d.cpu j hji] at hj
    exact h.alone j j' idx (hback j hj) (hback j' hj')
  · rcases hreap j z hz with ⟨hzc, rfl⟩ | ⟨hz, hzc⟩ <;> rcases hreap j' z' hz' with ⟨hzc', rfl⟩ | ⟨hz', hzc'⟩
    · rfl
    · exact absurd (he.symm.trans hzc) hzc'
    · exact absurd (he.trans hzc') hzc
    · exact h.aloneReaped j j' z hz z' hz' he
  · by_cases hj : j = i
    · subst hj
      exact hknows
    · rw [d.cpu j hj]
      refine (h.knows j).frame (fun idx hidx => d.sameSlot ((d.sole.others j hj).1 idx hidx)) fun z hz hg => ?_
      have hzc := (d.sole.others j hj).2 z hz
      exact ⟨d.gone hlog hg hzc, d.deeds _ hzc⟩
  · by_cases hidx : s.ctx idx = c
    · exact hc idx t ht hidx
    · exact d.slotOk hlog hidx (h.slots idx t (by rwa [d.queue idx hidx] at ht))
  · rw [hctx, hctx] at he
    exact h.distinct idx idx' (d.isSome idx hidx) (d.isSome idx' hidx') he
  · rw [d.nextCtx, d.pid]
    exact h.pids
  · rw [d.nextCtx] at hc'
    rw [d.deeds c' (by have := d.sole.lt; omega)]
    exact h.unborn c' hc'
  · by_cases he : c' = c
    · exact he ▸ hwhere
    · rcases h.whereabouts c' (d.nextCtx ▸ hc') with ⟨idx, hidx⟩ | ⟨j, z, hz, hzc⟩ | hmem
      · exact .inl ⟨idx, (d.box he).2 hidx⟩
      · have hj : j ≠ i := by
          rintro rfl
          exact he (hzc.symm.trans (d.sole.mine z hz))
        exact .inr (.inl ⟨j, z, by rwa [d.cpu j hj], hzc⟩)
      · exact .inr (.inr ((hlog.mem_iff he).2 hmem))
  · rw [d.nextCtx]
    by_cases he : c' = c
    · subst he
      rcases hlog with ⟨hl, -⟩ | ⟨code, hd, -⟩
      · exact absurd (hl ▸ hc') d.sole.notLogged
      · exact ⟨d.sole.lt, code, hd⟩
    · rw [d.deeds c' he]
      exact h.logged c' ((hlog.mem_iff he).1 hc')
  · rw [d.awaited, d.nextCtx, d.pid]
    exact h.awaited
  · rw [d.returns] at hr
    obtain ⟨code, hcode, hres⟩ := h.returns r hr hlater
    refine ⟨code, ?_, hres⟩
    by_cases he : r.ctx = c
    · rw [he] at hcode ⊢
      exact d.code code hcode
    · rw [d.deeds _ he]
      exact hcode

end

end Deals

end Smp

end Cyanos
