import Mathlib.Data.List.GetD
import Cyanos.Kernel.Memory

/-!
# Signal delivery on AArch64

`sched/src/signal.rs` and the trap stub of `arch/aarch64/src/exception.rs`.  A system call saves
the user's registers in a `UserFrame` on the kernel's stack, runs its handler, delivers a pending
signal by pushing a signal frame on the user's stack, and returns with whatever the `UserFrame`
then holds.  `rt_sigreturn` reads a signal frame back.

The kernel's saved frame is kept apart from `mem`, the physical memory that signal frames are
written to and read from.  `none` stands for a task that does not come back: it exits, or the
kernel panics.
-/

namespace Cyanos.Signal

open Lib Option Nat

/-! ### State -/

/-- Physical memory, byte by byte. -/
abbrev Bytes : Type := ℕ → UInt8

/-- The `n`-byte word at `a`, lowest byte first. -/
def Bytes.load (m : Bytes) (a : ℕ) : ℕ → ℕ
  | 0 => 0
  | n + 1 => (m a).toNat + 256 * m.load (a + 1) n

/-- Store the lowest `n` bytes of `v` at `a`, lowest byte first. -/
def Bytes.store (m : Bytes) (a n v : ℕ) : Bytes := fun i =>
  if a ≤ i ∧ i < a + n then UInt8.ofNat (v / 256 ^ (i - a)) else m i

/-- `u64` at offset `off` of a record at `p`. -/
def Bytes.word (m : Bytes) (p off : ℕ) : BitVec 64 := BitVec.ofNat 64 (m.load (wadd p off) 8)

/-- Write a `u64` at offset `off` of a record at `p`. -/
def Bytes.setWord (m : Bytes) (p off : ℕ) (v : BitVec 64) : Bytes := m.store (wadd p off) 8 v.toNat

/-- `UserFrame`. -/
@[ext] structure UserFrame where
  /-- `x0` to `x30`. -/
  x : Vector (BitVec 64) 31
  /-- The user's stack pointer. -/
  spEl0 : BitVec 64
  /-- The address the exception returns to. -/
  elrEl1 : BitVec 64
  /-- The state the exception returns to. -/
  spsrEl1 : BitVec 64

/-- The register `i`. -/
def UserFrame.reg (f : UserFrame) (i : Fin 31) : BitVec 64 := f.x[i]

/-- The frame with another value in the register `i`. -/
def UserFrame.setReg (f : UserFrame) (i : Fin 31) (v : BitVec 64) : UserFrame :=
  { f with x := f.x.set i v }

/-- `SigAction`. -/
structure SigAction where
  /-- `0` for the default action, `1` to ignore, else the address of a handler. -/
  handler : BitVec 64
  /-- `SA_*` flags. -/
  flags : BitVec 32
  /-- Signals blocked while the handler runs. -/
  mask : BitVec 64
  /-- Where the handler returns to. -/
  restorer : BitVec 64

/-- What signals use of a `Task`. -/
structure Task where
  /-- `address_space`. -/
  addressSpace : Option AddressSpace
  /-- Signals raised and not yet delivered; bit `n` is signal `n + 1`. -/
  signalPending : BitVec 64
  /-- Signals blocked. -/
  signalMask : BitVec 64
  /-- The actions of the first four signals. -/
  signalActions : Vector SigAction 4

/-- The action of signal `bit + 1`. -/
def Task.action (t : Task) (bit : Fin 4) : SigAction := t.signalActions[bit]

/-- A processor in a system call of a user task. -/
structure Cpu where
  /-- `CURRENT_PID`. -/
  pid : ℕ
  /-- The idle task makes no system calls. -/
  pid_ne : pid ≠ 0
  /-- `RUN_QUEUE.find_pid(pid)`. -/
  task : Option Task
  /-- The saved registers. -/
  frame : UserFrame
  /-- Physical memory. -/
  mem : Bytes

/-- Write the result of a system call into the slot of `x0`. -/
def Cpu.setResult (c : Cpu) (r : BitVec 64) : Cpu :=
  { c with frame := { c.frame with x := c.frame.x.set 0 r } }

/-- Raise signals. -/
def Cpu.raise (c : Cpu) (fired : BitVec 64) : Cpu :=
  { c with task := c.task.map fun t => { t with signalPending := t.signalPending ||| fired } }

/-- Where the task's address space has a virtual address. -/
def Cpu.translate (c : Cpu) (virt : ℕ) : Option ℕ :=
  (c.task.bind Task.addressSpace).bind fun s => s.virtToPhys virt

/-! ### The signal frame -/

/-- `SIGINFO_SIZE`, which is also `UC_OFFSET`. -/
def ucOffset : ℕ := 128
/-- `SIGMASK_OFFSET`. -/
def sigmaskOffset : ℕ := 168
/-- `FAULT_ADDR_OFFSET`. -/
def faultAddrOffset : ℕ := 296
/-- `REGS_OFFSET`. -/
def regsOffset : ℕ := 304
/-- `SP_OFFSET`. -/
def spOffset : ℕ := 552
/-- `PC_OFFSET`. -/
def pcOffset : ℕ := 560
/-- `PSTATE_OFFSET`. -/
def pstateOffset : ℕ := 568
/-- `SIGFRAME_SIZE`. -/
def sigframeSize : ℕ := 4672

/-- The signal frame `prepare` writes at `p`. -/
def saveFrame (m : Bytes) (p sig : ℕ) (oldMask : BitVec 64) (f : UserFrame) : Bytes :=
  let m := m.store p sigframeSize 0
  let m := m.store p 4 sig
  let m := (m.setWord p sigmaskOffset oldMask).setWord p faultAddrOffset 0
  let m := (List.finRange 31).foldl (fun m i => m.setWord p (regsOffset + i * 8) f.x[i]) m
  ((m.setWord p spOffset f.spEl0).setWord p pcOffset f.elrEl1).setWord p pstateOffset f.spsrEl1

/-- The registers of the frame, stored one after the other. -/
def saveRegs (p : ℕ) (f : UserFrame) (l : List (Fin 31)) (m : Bytes) : Bytes :=
  l.foldl (fun m (i : Fin 31) => m.setWord p (regsOffset + i * 8) f.x[i]) m

/-- `aarch64::prepare`: push a signal frame and enter the handler; `none` if there is no room for
it.  The saved state of the processor stays. -/
def prepare (c : Cpu) (sig : ℕ) (handler restorer oldMask : BitVec 64) : Option Cpu :=
  let oldSp := c.frame.spEl0.toNat
  if oldSp < sigframeSize then none
  else
    let newSp := alignDown (oldSp - sigframeSize) 16
    if newSp = 0 ∨ userSpaceEnd ≤ newSp then none
    else
      (c.translate newSp).map fun framePhys =>
        { c with
          mem := saveFrame c.mem framePhys sig oldMask c.frame
          frame :=
            { c.frame with
              x := (((c.frame.x.set 0 (.ofNat 64 sig)).set 1 (.ofNat 64 newSp)).set 2
                (.ofNat 64 (newSp + ucOffset))).set 30 restorer
              elrEl1 := handler
              spEl0 := .ofNat 64 newSp } }

/-- Where `prepare` puts the frame. -/
def Cpu.newSp (c : Cpu) : ℕ := alignDown (c.frame.spEl0.toNat - sigframeSize) 16

/-- There is room for a frame below the stack pointer, in user space, and its first byte is at
`p`. -/
def Cpu.Room (c : Cpu) (p : ℕ) : Prop :=
  sigframeSize ≤ c.frame.spEl0.toNat ∧ c.newSp ≠ 0 ∧ c.newSp < userSpaceEnd ∧
    c.translate c.newSp = some p

/-- The registers and the mask of the signal frame at `framePhys`, as they are found. -/
def Cpu.loadFrame (c : Cpu) (framePhys : ℕ) : Cpu :=
  { c with
    frame :=
      { x := Vector.ofFn fun i => c.mem.word framePhys (regsOffset + i * 8)
        spEl0 := c.mem.word framePhys spOffset
        elrEl1 := c.mem.word framePhys pcOffset
        spsrEl1 := c.mem.word framePhys pstateOffset }
    task := c.task.map fun t => { t with signalMask := c.mem.word framePhys sigmaskOffset } }

@[simp] theorem Cpu.loadFrame_elr (c : Cpu) (p : ℕ) :
    (c.loadFrame p).frame.elrEl1 = c.mem.word p pcOffset := rfl

@[simp] theorem Cpu.loadFrame_spsr (c : Cpu) (p : ℕ) :
    (c.loadFrame p).frame.spsrEl1 = c.mem.word p pstateOffset := rfl

/-- `aarch64::restore`: load the signal frame at the user's stack pointer. -/
def restore (c : Cpu) : Option Cpu := (c.translate c.frame.spEl0.toNat).map c.loadFrame

/-- `restore_signal_frame`. -/
def restoreSignalFrame (c : Cpu) : Option Cpu := if c.pid = 0 then some c else restore c

/-- `sys_rt_sigreturn`. -/
def sysRtSigreturn (c : Cpu) : Option (BitVec 64 × Cpu) :=
  (restoreSignalFrame c).map fun c => (0, c)

/-! ### Delivery -/

/-- `SIGDFL_IGNORE`: the signals whose default action is to ignore. -/
def sigdflIgnore : BitVec 64 := 1#64 <<< 16 ||| 1#64 <<< 22 ||| 1#64 <<< 27

/-- The signal's own bit. -/
def sigBit (bit : ℕ) : BitVec 64 := 1#64 <<< bit

/-- The task once signal `bit + 1` is taken: no longer pending, blocked during its handler unless
`SA_NODEFER` says otherwise, and reset to its default if `SA_RESETHAND` says so. -/
def Task.take (t : Task) (bit : Fin 4) : Task :=
  let action := t.signalActions[bit]
  { t with
    signalPending := t.signalPending &&& ~~~sigBit bit
    signalMask :=
      if action.flags &&& 0x40000000 = 0 then t.signalMask ||| (sigBit bit ||| action.mask)
      else t.signalMask
    signalActions :=
      if action.flags &&& 0x80000000 ≠ 0 then t.signalActions.set bit { action with handler := 0 }
      else t.signalActions }

variable {t : Task} {c c' : Cpu} {bit : Fin 4}

theorem take_pending_lt (h : t.signalPending.getLsbD bit = true) :
    (t.take bit).signalPending.toNat < t.signalPending.toNat := by
  have hle : (t.take bit).signalPending.toNat ≤ t.signalPending.toNat := by
    exact and_le_left
  refine lt_of_le_of_ne hle fun heq => ?_
  -- the bit itself is gone
  have hbit : (t.take bit).signalPending.getLsbD bit = false := by
    have hlt : (bit : ℕ) < 64 := by omega
    simp [Task.take, sigBit, hlt]
  rw [BitVec.eq_of_toNat_eq heq, h] at hbit
  exact absurd hbit (by decide)

theorem pending_of_unmasked (h : t.signalPending &&& ~~~t.signalMask ≠ 0) :
    t.signalPending.getLsbD (t.signalPending &&& ~~~t.signalMask).ctz.toNat = true := by
  have := BitVec.getLsbD_true_ctz_of_ne_zero h
  rw [BitVec.getLsbD_and, Bool.and_eq_true] at this
  exact this.1

/-- The loop of `check_and_deliver_signals`: the lowest signal that is pending and not blocked.
One that is ignored is dropped and the next one taken; a default action ends the task; a handler
is entered.  The table has four actions, and indexing past it panics. -/
def deliver (c : Cpu) (t : Task) : Option Cpu :=
  if h : t.signalPending &&& ~~~t.signalMask = 0 then some { c with task := some t }
  else
    let bit := (t.signalPending &&& ~~~t.signalMask).ctz.toNat
    if hb : bit < 4 then
      let action := t.signalActions[bit]
      if action.handler = 0 then
        if sigdflIgnore.getLsbD bit then deliver c (t.take ⟨bit, hb⟩) else none
      else if action.handler = 1 then deliver c (t.take ⟨bit, hb⟩)
      else
        let restorer := if action.flags &&& 0x04000000 ≠ 0 then action.restorer else 0
        prepare { c with task := some (t.take ⟨bit, hb⟩) } (bit + 1) action.handler restorer
          t.signalMask
    else none
termination_by t.signalPending.toNat
decreasing_by all_goals exact take_pending_lt (pending_of_unmasked h)

/-- `check_and_deliver_signals`. -/
def checkAndDeliverSignals (c : Cpu) : Option Cpu :=
  if c.pid = 0 then some c
  else
    match c.task with
    | none => some c
    | some t => deliver c t

/-! ### The trap stub -/

/-- The word the stub loads from offset `off` of the saved frame. -/
def UserFrame.slot (f : UserFrame) (off : ℕ) : BitVec 64 :=
  (f.x.toList ++ [f.spEl0, f.elrEl1, f.spsrEl1]).getD (off / 8) 0

/-- `exc_el0_return`: the registers loaded, and what `eret` then returns to. -/
def excEl0Return (f : UserFrame) : UserFrame where
  spsrEl1 := f.slot 264
  elrEl1 := f.slot 256
  spEl0 := f.slot 248
  x := Vector.ofFn fun i => f.slot (i * 8)

/-- `syscall_dispatch` of a call: on the way out, timers raise the signals `fired`. -/
def dispatch (call : Cpu → Option (BitVec 64 × Cpu)) (fired : BitVec 64) (c : Cpu) :
    Option (BitVec 64 × Cpu) :=
  (call c).map fun (r, c) => (r, c.raise fired)

/-- `exc_el0_sync` from its call of `syscall_dispatch` on: the result goes to the slot of `x0`,
a signal may be delivered, and the saved registers are loaded. -/
def svc (call : Cpu → Option (BitVec 64 × Cpu)) (fired : BitVec 64) (c : Cpu) :
    Option UserFrame := do
  let (r, c) ← dispatch call fired c
  let c ← checkAndDeliverSignals (c.setResult r)
  return excEl0Return c.frame

/-- The processor when `exc_el0_sync` comes to `exc_el0_return`. -/
def svcState (call : Cpu → Option (BitVec 64 × Cpu)) (fired : BitVec 64) (c : Cpu) : Option Cpu :=
  (dispatch call fired c).bind fun (r, c) => checkAndDeliverSignals (c.setResult r)

theorem svc_eq_map_svcState (call : Cpu → Option (BitVec 64 × Cpu)) (fired : BitVec 64) (c : Cpu) :
    svc call fired c = (svcState call fired c).map fun c => excEl0Return c.frame := by
  rw [svc, svcState]
  cases dispatch call fired c with
  | none => rfl
  | some rc => cases h : checkAndDeliverSignals (rc.2.setResult rc.1) <;> simp [h]

theorem UserFrame.slot_x (f : UserFrame) {i : ℕ} (hi : i < 31) : f.slot (i * 8) = f.x[i] := by
  have hlen : i < f.x.toList.length := by simpa using hi
  rw [slot, Nat.mul_div_cancel _ (by decide), List.getD_append _ _ _ _ hlen,
    List.getD_eq_getElem _ _ hlen, Vector.getElem_toList]

theorem UserFrame.slot_last (f : UserFrame) {i : ℕ} :
    f.slot ((31 + i) * 8) = [f.spEl0, f.elrEl1, f.spsrEl1].getD i 0 := by
  have hlen : f.x.toList.length = 31 := by simp
  rw [slot, Nat.mul_div_cancel _ (by decide), List.getD_append_right _ _ _ _ (by omega), hlen,
    Nat.add_sub_cancel_left]

/-- The stub loads every register from where the frame has it. -/
theorem excEl0Return_eq (f : UserFrame) : excEl0Return f = f := by
  apply UserFrame.ext
  · refine Vector.ext fun i hi => ?_
    rw [excEl0Return, Vector.getElem_ofFn, f.slot_x hi]
  · exact f.slot_last (i := 0)
  · exact f.slot_last (i := 1)
  · exact f.slot_last (i := 2)

/-! ### What a system call returns to -/

theorem prepare_of_room {p : ℕ} (h : c.Room p) (sig : ℕ) (handler restorer oldMask : BitVec 64) :
    ∃ c', prepare c sig handler restorer oldMask = some c' ∧
      c'.mem = saveFrame c.mem p sig oldMask c.frame ∧ c'.frame.spEl0 = .ofNat 64 c.newSp ∧
      c'.task = c.task := by
  obtain ⟨hroom, hne, hlt, hp⟩ := h
  have hprep : prepare c sig handler restorer oldMask = _ :=
    (if_neg (not_lt.2 hroom)).trans (if_neg (not_or.2 ⟨hne, not_le.2 hlt⟩))
  exact ⟨_, hprep.trans (congrArg (Option.map _) hp), by with_reducible rfl, rfl, rfl⟩

/-- A handler is entered in the state the task was in, with its frame below the stack, in the memory
found there. -/
theorem prepare_spec {sig : ℕ} {handler restorer oldMask : BitVec 64}
    (h : prepare c sig handler restorer oldMask = some c') :
    (∃ p, c.Room p ∧ c'.translate c'.frame.spEl0.toNat = some p ∧
      c'.mem = saveFrame c.mem p sig oldMask c.frame) ∧
      c'.task = c.task ∧ c'.frame.spsrEl1 = c.frame.spsrEl1 ∧ c'.frame.elrEl1 = handler := by
  simp only [prepare] at h
  split at h
  · cases h
  next hroom =>
  split at h
  · cases h
  next hspace =>
  obtain ⟨p, hp, rfl⟩ := map_eq_some_iff.1 h
  obtain ⟨hne, hlt⟩ := not_or.1 hspace
  have hsp : (BitVec.ofNat 64 (alignDown (c.frame.spEl0.toNat - sigframeSize) 16)).toNat =
      alignDown (c.frame.spEl0.toNat - sigframeSize) 16 := by
    rw [BitVec.toNat_ofNat, mod_eq_of_lt]
    exact lt_trans (not_le.1 hlt) (by decide)
  have hfound := hp
  rw [← hsp] at hfound
  exact ⟨⟨p, ⟨not_lt.1 hroom, hne, not_le.1 hlt, hp⟩, hfound, by with_reducible rfl⟩, rfl, rfl, rfl⟩

/-- How a task with the frame `f` goes on with the registers `regs`: in the state it was in,
where its frame says or at the start of one of its handlers. -/
def GoesOn (f : UserFrame) (t : Task) (regs : UserFrame) : Prop :=
  regs.spsrEl1 = f.spsrEl1 ∧
    (regs.elrEl1 = f.elrEl1 ∨ ∃ i : Fin 4, t.signalActions[i].handler ≠ 0 ∧
      regs.elrEl1 = t.signalActions[i].handler)

theorem GoesOn.of_take {f f' : UserFrame} (h : GoesOn f (t.take bit) f') : GoesOn f t f' := by
  refine ⟨h.1, ?_⟩
  obtain h | ⟨i, hi, h⟩ := h.2
  · exact .inl h
  · -- taking a signal only ever resets handlers
    have heq : (t.take bit).signalActions[i].handler = t.signalActions[i].handler := by
      revert hi
      simp only [Task.take, Fin.getElem_fin]
      split
      · rw [Vector.getElem_set]
        split <;> simp
      · exact fun _ => rfl
    exact .inr ⟨i, heq ▸ hi, h.trans heq⟩

theorem deliver_goesOn (h : deliver c t = some c') : GoesOn c.frame t c'.frame := by
  fun_induction deliver c t with
  | case1 => cases h; exact ⟨rfl, .inl rfl⟩
  | case2 _ _ _ _ _ _ _ ih | case4 _ _ _ _ _ _ _ ih => exact (ih h).of_take
  | case3 => cases h
  | case5 t _ bit hb action h0 =>
    obtain ⟨-, -, hspsr, helr⟩ := prepare_spec h
    exact ⟨hspsr, .inr ⟨⟨bit, hb⟩, h0, helr⟩⟩
  | case6 => cases h

/-- **A system call returns to the state its handler left in the saved frame, at the address it
left there or at the start of one of the task's signal handlers.** -/
theorem svc_goesOn {call : Cpu → Option (BitVec 64 × Cpu)} {fired : BitVec 64} {regs : UserFrame}
    (h : svc call fired c = some regs) :
    ∃ r c', call c = some (r, c') ∧ regs.spsrEl1 = c'.frame.spsrEl1 ∧
      (c'.task = none → regs.elrEl1 = c'.frame.elrEl1) ∧
      ∀ t, c'.task = some t → GoesOn c'.frame t regs := by
  simp only [svc, dispatch, bind_eq_bind, bind_eq_some_iff,
    map_eq_some_iff, pure_def, some.injEq] at h
  obtain ⟨_, ⟨⟨r, c₁⟩, hcall, rfl⟩, c₂, hdeliver, rfl⟩ := h
  rw [excEl0Return_eq]
  simp only [checkAndDeliverSignals] at hdeliver
  rw [if_neg (Cpu.pid_ne _)] at hdeliver
  refine ⟨r, c₁, hcall, ?_⟩
  cases htask : c₁.task with
  | none =>
    have hsame : some ((c₁.raise fired).setResult r) = some c₂ := by
      simpa [Cpu.setResult, Cpu.raise, htask] using hdeliver
    cases hsame
    exact ⟨rfl, fun _ => rfl, nofun⟩
  | some t =>
    have hrun : deliver ((c₁.raise fired).setResult r)
        { t with signalPending := t.signalPending ||| fired } = some c₂ := by
      simpa [Cpu.setResult, Cpu.raise, htask] using hdeliver
    have hgo := deliver_goesOn hrun
    refine ⟨hgo.1, nofun, fun t' ht' => ?_⟩
    cases ht'
    exact hgo

end Cyanos.Signal
