import Mathlib.Data.Option.Basic
import Cyanos.Lib.OptionRel
import Cyanos.Sched.RunQueue
import Cyanos.Sched.Smp

/-!
# What the wakers do to the tasks

`unblock_port`, `futex_wake` and `deliver_signal` leave every task where it is.  The only change of
state they make is from `Blocked` to `Ready`.
-/

namespace Cyanos

open Lib Option

/-- What a section that wakes tasks can do to a task. -/
structure Task.Woken (t t' : Task) : Prop where
  pid : t'.pid = t.pid
  kernelStack : t'.kernelStack = t.kernelStack
  exitCode : t'.exitCode = t.exitCode
  state : t'.state = t.state ∨ t.state = .blocked ∧ t'.state = .ready

namespace Task.Woken

variable {t t' t'' : Task}

theorem refl (t : Task) : t.Woken t := ⟨rfl, rfl, rfl, .inl rfl⟩

theorem trans (h : t.Woken t') (h' : t'.Woken t'') : t.Woken t'' where
  pid := h'.pid.trans h.pid
  kernelStack := h'.kernelStack.trans h.kernelStack
  exitCode := h'.exitCode.trans h.exitCode
  state := by
    rcases h.state with hs | ⟨hb, hr⟩
    · rw [← hs]
      exact h'.state
    · rcases h'.state with hs' | ⟨hb', -⟩
      · exact .inr ⟨hb, hs'.trans hr⟩
      · cases hr.symm.trans hb'

theorem zombie_iff (h : t.Woken t') : t'.state = .zombie ↔ t.state = .zombie := by
  rcases h.state with hs | ⟨hb, hr⟩
  · rw [hs]
  · rw [hb, hr]
    simp

theorem wake (port : ℕ) (t : Task) : t.Woken (RunQueue.wake port t) := by
  unfold RunQueue.wake
  split
  · next h => exact ⟨rfl, rfl, rfl, .inr ⟨h.2, rfl⟩⟩
  · exact refl t

theorem wakeFutex (t : Task) : t.Woken t.wakeFutex := by
  unfold Task.wakeFutex
  split
  · next h => exact ⟨rfl, rfl, rfl, .inr ⟨h, rfl⟩⟩
  · exact refl t

theorem deliverSignal (signo : ℕ) (t : Task) : t.Woken (t.deliverSignal signo) := by
  unfold Task.deliverSignal
  split
  · refine ⟨rfl, rfl, rfl, ?_⟩
    by_cases h : t.state = .blocked
    · exact .inr ⟨h, if_pos h⟩
    · exact .inl (if_neg h)
  · exact refl t

end Task.Woken

/-- The task is the same one, and a zombie if it was one before. -/
structure Task.SameLife (t t' : Task) : Prop where
  pid : t'.pid = t.pid
  exitCode : t'.exitCode = t.exitCode
  zombie : t'.state = .zombie ↔ t.state = .zombie

theorem Task.SameLife.refl (t : Task) : t.SameLife t := ⟨rfl, rfl, .rfl⟩

namespace RunQueue

variable {q q' q'' : RunQueue} {pid : ℕ} {f : Task → Task}

/-- What a section that wakes tasks can do to the run queue. -/
def Woken (q q' : RunQueue) : Prop := ∀ j, Option.Rel Task.Woken (q.get j) (q'.get j)

namespace Woken

theorem of_map {g : ℕ → Task → Task} (hg : ∀ j (t : Task), t.Woken (g j t))
    (h : ∀ j, q'.get j = (q.get j).map (g j)) : q.Woken q' := by
  intro j
  rw [h]
  exact rel_map_self (hg j) _

theorem refl (q : RunQueue) : q.Woken q := of_map (fun _ t => .refl t) fun _ => map_id_apply.symm

theorem trans (h : q.Woken q') (h' : q'.Woken q'') : q.Woken q'' := fun j =>
  rel_trans (fun ht ht' => ht.trans ht') (h j) (h' j)

end Woken

theorem modifyPid_woken (hf : ∀ t : Task, t.Woken (f t)) : q.Woken (q.modifyPid pid f) := by
  intro j
  rw [get_modifyPid]
  split
  · exact rel_map_self hf _
  · exact Woken.refl q j

theorem wakeWaiters_woken (pids : List ℕ) (q : RunQueue) : q.Woken (q.wakeWaiters pids) := by
  induction pids generalizing q with
  | nil => exact .refl q
  | cons pid pids ih => exact (modifyPid_woken .wakeFutex).trans (ih _)

/-- The tasks stay in their slots, and no task becomes a zombie or ceases to be one. -/
def SameLife (q q' : RunQueue) : Prop := ∀ j, Option.Rel Task.SameLife (q.get j) (q'.get j)

namespace SameLife

theorem of_some {j : ℕ} {t : Task} (h : q.SameLife q') (ht : q'.get j = some t) :
    ∃ t₀, q.get j = some t₀ ∧ t₀.SameLife t :=
  exists_of_rel_some (ht ▸ h j)

theorem isSome (h : q.SameLife q') (j : ℕ) : (q'.get j).isSome = (q.get j).isSome :=
  isSome_of_rel (h j)

theorem of_get_eq (h : ∀ j, q'.get j = q.get j) : q.SameLife q' := by
  intro j
  rw [h]
  cases q.get j with
  | none => exact .none
  | some t => exact .some (.refl t)

end SameLife

theorem Woken.sameLife (h : q.Woken q') : q.SameLife q' := fun j =>
  rel_mono (h j) fun _ _ _ ht => ⟨ht.pid, ht.exitCode, ht.zombie_iff⟩

/-- **Wakers only make blocked tasks ready.** -/
theorem wakeBy_woken (q : RunQueue) (w : Wake) : q.Woken (q.wakeBy w) := by
  cases w with
  | unblockPort port => exact .of_map (fun _ => .wake port) (get_unblockPort port)
  | futexWake pids => exact wakeWaiters_woken pids q
  | deliverSignal pid signo => exact modifyPid_woken (.deliverSignal signo)

end RunQueue

/-! ### New tasks -/

section

variable {ι : Type} {s s' : Smp ι} {t : Task} (hs : s.enqueue t = some s')
include hs

/-- A new task goes to an empty slot, with a new box. -/
theorem Smp.enqueue_cases : ∃ idx₀ rq ctx, t.state = .ready ∧
    s' = { s with
      rq := rq
      ctx := ctx
      nextCtx := s.nextCtx + 1
      history := s.history.add s.nextCtx t.pid } ∧
    rq.get idx₀ = some t ∧ ctx idx₀ = s.nextCtx ∧
    (∀ idx, (s.rq.get idx).isSome → rq.get idx = s.rq.get idx ∧ ctx idx = s.ctx idx) ∧
    ∀ idx u, rq.get idx = some u → (idx = idx₀ ∧ u = t) ∨ s.rq.get idx = some u := by
  unfold enqueue at hs
  split at hs
  swap
  · cases hs
  next hready =>
  split at hs
  swap
  · cases hs
  next idx₀ rq hidx hrq =>
  cases hs
  obtain ⟨idx, hidx', -, hnew, hkept, hcases⟩ := RunQueue.enqueue_get hrq
  obtain rfl := mem_unique hidx' hidx
  refine ⟨idx, rq, _, hready, rfl, hnew, Function.update_self .., fun j hj => ?_, hcases⟩
  obtain ⟨u, hu⟩ := isSome_iff_exists.1 hj
  exact ⟨(hkept j u hu).2.trans hu.symm, Function.update_of_ne (hkept j u hu).1 _ _⟩

/-- Boxes stay in one slot each. -/
theorem Smp.enqueue_distinct (hlt : ∀ idx, (s.rq.get idx).isSome → s.ctx idx < s.nextCtx)
    (hd : ∀ idx idx', (s.rq.get idx).isSome → (s.rq.get idx').isSome → s.ctx idx = s.ctx idx' →
      idx = idx') (idx idx' : ℕ) (hi : (s'.rq.get idx).isSome) (hi' : (s'.rq.get idx').isSome)
    (he : s'.ctx idx = s'.ctx idx') : idx = idx' := by
  obtain ⟨idx₀, rq, ctx, -, rfl, -, hctx0, hkept, hcases⟩ := enqueue_cases hs
  obtain ⟨u, hu⟩ := isSome_iff_exists.1 hi
  obtain ⟨u', hu'⟩ := isSome_iff_exists.1 hi'
  simp only at he
  rcases hcases idx u hu with ⟨rfl, -⟩ | hu <;> rcases hcases idx' u' hu' with ⟨rfl, -⟩ | hu'
  · rfl
  · have hold := hlt idx' (by simp [hu'])
    rw [hctx0, (hkept idx' (by simp [hu'])).2] at he
    omega
  · have hold := hlt idx (by simp [hu])
    rw [hctx0, (hkept idx (by simp [hu])).2] at he
    omega
  · rw [(hkept idx (by simp [hu])).2, (hkept idx' (by simp [hu'])).2] at he
    exact hd idx idx' (by simp [hu]) (by simp [hu']) he

end

end Cyanos
