import Cyanos.Lib.Run
import Cyanos.Sched.Delivery

/-!
# Signal numbers and the table of actions

`deliver_signal` takes the signals 1 to 64 and `rt_sigaction` the signals 1 to 63, while a task has
actions for four.  A higher signal is an index out of bounds: at once in `rt_sigaction`, and for a
signal sent when the task next comes to `check_and_deliver_signals` with the signal unmasked.

## Main results

* `Signals.inTable_run` : the kernel does not panic in any run in which only the first four signals
  are sent or given an action.
* `Signals.kill_panics` : sending signal 9 to a new task does it.
-/

namespace Cyanos

namespace Signal.Task

/-- A task as it is created, with the default action for every signal. -/
def new (addressSpace : Option AddressSpace) : Task where
  addressSpace := addressSpace
  signalPending := 0
  signalMask := 0
  signalActions := Vector.replicate 4 ⟨0, 0, 0, 0⟩

/-- `deliver_signal` for a task that is there. -/
def deliverSignal (t : Task) (signo : ℕ) : ℤ × Task :=
  if 0 < signo ∧ signo ≤ 64 then
    (0, { t with signalPending := t.signalPending ||| sigBit (signo - 1) })
  else (-22, t)

/-- `clear_pending_signal`. -/
def clearPendingSignal (t : Task) (signo : ℕ) : Task :=
  if 0 < signo ∧ signo ≤ 64 then
    { t with signalPending := t.signalPending &&& ~~~sigBit (signo - 1) }
  else t

/-- `replace_signal_mask`. -/
def replaceSignalMask (t : Task) (mask : BitVec 64) : Task := { t with signalMask := mask }

/-- `sys_sigprocmask` with the set it reads, if any. -/
def sysSigprocmask (t : Task) (how : ℕ) (set : Option (BitVec 64)) : ℤ × Task :=
  match set with
  | none => (0, t)
  | some set =>
    match how with
    | 0 => (0, { t with signalMask := t.signalMask ||| set })
    | 1 => (0, { t with signalMask := t.signalMask &&& ~~~set })
    | 2 => (0, { t with signalMask := set })
    | _ => (-22, t)

/-- `sys_sigaction` with the new action it reads, if any; `wantsOld` says whether the old one is
asked for.  `none` is an index out of bounds. -/
def sysSigaction (t : Task) (signum : ℕ) (act : Option SigAction) (wantsOld : Bool) :
    Option (ℤ × Task) :=
  if wantsOld ∧ 4 ≤ signum - 1 then none
  else
    match act with
    | none => some (0, t)
    | some act =>
      if h : signum - 1 < 4 then
        some (0, { t with signalActions := t.signalActions.set (signum - 1) act })
      else none

/-- `sys_rt_sigaction`. -/
def sysRtSigaction (t : Task) (signum : ℕ) (act : Option SigAction) (wantsOld : Bool) :
    Option (ℤ × Task) :=
  if signum = 0 ∨ 64 ≤ signum then some (-22, t) else t.sysSigaction signum act wantsOld

theorem InTable.deliverSignal {t : Task} (h : t.InTable) {signo : ℕ}
    (hsigno : signo ≤ 4 ∨ 64 < signo) : (t.deliverSignal signo).2.InTable := by
  rw [Task.deliverSignal]
  split
  · next hok =>
    intro i hi
    simp only [BitVec.getLsbD_or, Bool.or_eq_true, sigBit] at hi
    obtain hi | hi := hi
    · exact h i hi
    · -- the bit raised is that of the signal
      simp at hi
      omega
  · exact h

theorem InTable.clearPendingSignal {t : Task} (h : t.InTable) (signo : ℕ) :
    (t.clearPendingSignal signo).InTable := by
  rw [Task.clearPendingSignal]
  split
  · intro i hi
    rw [BitVec.getLsbD_and, Bool.and_eq_true] at hi
    exact h i hi.1
  · exact h

/-- `rt_sigaction` on a signal of the table stays in it, and raises no signal. -/
theorem sysRtSigaction_spec {t : Task} {signum : ℕ} {act : Option SigAction} {wantsOld : Bool}
    (h : signum ≤ 4 ∨ 64 ≤ signum ∨ (act = none ∧ wantsOld = false)) :
    ∃ r t', t.sysRtSigaction signum act wantsOld = some (r, t') ∧
      t'.signalPending = t.signalPending := by
  rw [sysRtSigaction]
  split
  · exact ⟨_, _, rfl, rfl⟩
  · next hacc =>
    unfold sysSigaction
    rw [if_neg ?_]
    · cases act with
      | none => exact ⟨_, _, rfl, rfl⟩
      | some =>
        have hlt : signum - 1 < 4 := by
          obtain h | h | h := h
          · omega
          · exact absurd (.inr h) hacc
          · cases h.1
        simp only [dif_pos hlt]
        exact ⟨_, _, rfl, rfl⟩
    · rintro ⟨hold, hge⟩
      obtain h | h | h := h
      · omega
      · exact hacc (.inr h)
      · rw [h.2] at hold; cases hold

end Signal.Task

open Signal Lib

/-! ### Runs -/

/-- The signal state of all tasks. -/
structure Signals where
  /-- The tasks by pid. -/
  tasks : ℕ → Option Signal.Task
  /-- An index was out of bounds. -/
  panicked : Bool

/-- The calls that touch signals. -/
inductive SignalCall where
  /-- A task is created by `spawn`, `fork` or `clone`. -/
  | spawn (pid : ℕ) (space : Option AddressSpace)
  /-- `deliver_signal(pid, signo)`, from `kill`, `tgkill` or a timer. -/
  | deliverSignal (pid signo : ℕ)
  /-- `clear_pending_signal(signo)` by the task. -/
  | clearPendingSignal (pid signo : ℕ)
  /-- `replace_signal_mask(mask)` by the task, or the mask `rt_sigreturn` restores. -/
  | replaceSignalMask (pid : ℕ) (mask : BitVec 64)
  /-- `rt_sigprocmask` by the task. -/
  | sigprocmask (pid how : ℕ) (set : Option (BitVec 64))
  /-- `rt_sigaction` by the task. -/
  | rtSigaction (pid signum : ℕ) (act : Option SigAction) (wantsOld : Bool)
  /-- `check_and_deliver_signals` on the task's way back to user space, with the registers saved
  and the memory it has then. -/
  | checkAndDeliver (pid : ℕ) (frame : UserFrame) (mem : Bytes)

namespace Signals

/-- No task yet. -/
def boot : Signals := ⟨fun _ => none, false⟩

/-- Replace a task. -/
def set (s : Signals) (pid : ℕ) (t : Option Signal.Task) : Signals :=
  { s with tasks := fun p => if p = pid then t else s.tasks p }

/-- Change a task that is there. -/
def modify (s : Signals) (pid : ℕ) (f : Signal.Task → Signal.Task) : Signals :=
  s.set pid ((s.tasks pid).map f)

/-- One call.  After a panic nothing runs any more. -/
def step (s : Signals) (call : SignalCall) : Option Signals :=
  if s.panicked then none
  else
    match call with
    | .spawn pid space =>
      if (s.tasks pid).isSome then none else some (s.set pid (some (.new space)))
    | .deliverSignal pid signo => some (s.modify pid fun t => (t.deliverSignal signo).2)
    | .clearPendingSignal pid signo => some (s.modify pid fun t => t.clearPendingSignal signo)
    | .replaceSignalMask pid mask => some (s.modify pid fun t => t.replaceSignalMask mask)
    | .sigprocmask pid how set => some (s.modify pid fun t => (t.sysSigprocmask how set).2)
    | .rtSigaction pid signum act wantsOld =>
      match s.tasks pid with
      | none => some s
      | some t =>
        match t.sysRtSigaction signum act wantsOld with
        | none => some { s with panicked := true }
        | some (_, t) => some (s.set pid (some t))
    | .checkAndDeliver pid frame mem =>
      match s.tasks pid with
      | none => some s
      | some t =>
        if hpid : pid = 0 then some s
        else
          match (signalLoop t).2 with
          | .panic _ => some { s with panicked := true }
          | _ =>
            -- a task that does not come back from here has exited
            some (s.set pid ((checkAndDeliverSignals ⟨pid, hpid, some t, frame, mem⟩).bind
              Cpu.task))

/-- Only the first four signals are sent or given an action; a number the call rejects may be
any. -/
def FirstFour (_ : Signals) : SignalCall → Prop
  | .deliverSignal _ signo => signo ≤ 4 ∨ 64 < signo
  | .rtSigaction _ signum act wantsOld =>
    signum ≤ 4 ∨ 64 ≤ signum ∨ (act = none ∧ wantsOld = false)
  | _ => True

instance (s : Signals) (call : SignalCall) : Decidable (s.FirstFour call) := by
  rcases call <;> dsimp only [FirstFour] <;> infer_instance

/-- Only signals of the table are pending anywhere, and no index was out of bounds. -/
structure Safe (s : Signals) : Prop where
  inTable : ∀ pid t, s.tasks pid = some t → t.InTable
  quiet : s.panicked = false

theorem safe_boot : boot.Safe := ⟨nofun, rfl⟩

theorem Safe.set {s : Signals} (h : s.Safe) (pid : ℕ) {t : Option Task}
    (ht : ∀ t', t = some t' → t'.InTable) : (s.set pid t).Safe := by
  refine ⟨fun p t' hp => ?_, h.quiet⟩
  simp only [Signals.set] at hp
  split at hp
  · exact ht t' hp
  · exact h.inTable p t' hp

theorem Safe.modify {s : Signals} (h : s.Safe) (pid : ℕ) {f : Task → Task}
    (hf : ∀ t, t.InTable → (f t).InTable) : (s.modify pid f).Safe := by
  refine h.set pid fun t' ht' => ?_
  obtain ⟨t, ht, rfl⟩ := Option.map_eq_some_iff.1 ht'
  exact hf t (h.inTable pid t ht)

theorem Safe.step {s s' : Signals} {call : SignalCall} (h : s.Safe) (hg : s.FirstFour call)
    (hs : s.step call = some s') : s'.Safe := by
  unfold Signals.step at hs
  rw [if_neg (by simp [h.quiet])] at hs
  cases call with
  | spawn pid =>
    simp only at hs
    split at hs
    · cases hs
    · cases hs
      refine h.set pid fun t ht => ?_
      cases ht
      intro i hi
      simp [Task.new] at hi
  | deliverSignal pid =>
    cases hs
    exact h.modify pid fun t ht => ht.deliverSignal hg
  | clearPendingSignal pid signo =>
    cases hs
    exact h.modify pid fun t ht => ht.clearPendingSignal signo
  | replaceSignalMask pid =>
    cases hs
    exact h.modify pid fun t ht => ht
  | sigprocmask pid =>
    cases hs
    refine h.modify pid fun t ht => ?_
    unfold Task.sysSigprocmask
    split
    · exact ht
    · split <;> exact ht
  | rtSigaction pid =>
    simp only at hs
    split at hs
    · cases hs
      exact h
    · next t ht =>
      obtain ⟨r, t', heq, hpending⟩ := Task.sysRtSigaction_spec hg
      rw [heq] at hs
      cases hs
      refine h.set pid fun t'' ht'' => ?_
      cases ht''
      rw [Task.InTable, hpending]
      exact h.inTable pid t ht
  | checkAndDeliver pid =>
    simp only at hs
    split at hs
    · cases hs
      exact h
    · next t ht =>
      have hin := h.inTable pid t ht
      split at hs
      · cases hs
        exact h
      · next hpid =>
        split at hs
        · next bit hpanic => exact absurd hpanic (signalLoop_inTable hin bit)
        · cases hs
          refine h.set pid fun t' ht' => ?_
          obtain ⟨c', hc', ht'⟩ := Option.bind_eq_some_iff.1 ht'
          rw [checkAndDeliverSignals, if_neg hpid] at hc'
          obtain ⟨t₁, ht1, hin1⟩ := deliver_inTable hin hc'
          rwa [Option.mem_unique ht' ht1]

/-- **In every run in which only the first four signals are sent or given an action, no index
into a table of actions is out of bounds.** -/
theorem inTable_run {s : Signals} (h : Run step FirstFour boot s) : s.panicked = false :=
  (h.invariant safe_boot fun _ _ _ hi hg hs => hi.step hg hs).quiet

/-- On its way to user space with nothing in its registers and memory. -/
def return0 (pid : ℕ) : SignalCall :=
  .checkAndDeliver pid ⟨Vector.replicate 31 0, 0, 0, 0⟩ fun _ => 0

/-- A task ignores signal 4, masks signal 2 and is sent both; another is sent signal 3 and ends. -/
theorem inTable_run_sent : ∃ s, Run step FirstFour boot s ∧
    ((s.tasks 1).map Signal.Task.signalPending = some 2 ∧ (s.tasks 2).isNone = true) ∧
    s.panicked = false :=
  Run.exists_guarded_with [.spawn 1 none, .spawn 2 none, .rtSigaction 1 4 (some ⟨1, 0, 0, 0⟩) true,
    .sigprocmask 1 0 (some 2), .deliverSignal 1 2, .deliverSignal 1 4, .deliverSignal 2 3, return0 1,
    return0 2] (by decide +kernel) fun _ hrun _ => inTable_run hrun

/-- **Signal 9, sent to a new task, panics the kernel when the task next returns to user
space.** -/
theorem kill_panics : ∃ s, Reach step boot s ∧ s.panicked = true :=
  Run.exists_of_foldlM [.spawn 1 none, .deliverSignal 1 9, return0 1] (by decide +kernel)

end Signals

end Cyanos
