import Cyanos.Lib.Run
import Cyanos.Sched.Delivery

/-!
# `rt_sigreturn` and privilege

A signal frame lies in the user's memory, and `rt_sigreturn` loads the processor state and the
program counter it holds without looking at them.

## Main results

* `Signal.sigreturn_el0_iff` : the return from `rt_sigreturn` selects EL0 and the program counter
  restored is in user space exactly when the words of the signal frame say so.
* `Signal.sigreturn_raises_privilege` : a frame whose state word selects EL1 is loaded as it is.
-/

namespace Cyanos.Signal

open Lib Option

/-- The state selects EL0 in AArch64: `M[3:0]` is zero, and so is `M[4]`. -/
def SelectsEl0 (spsr : BitVec 64) : Prop := spsr.extractLsb' 0 4 = 0 ∧ spsr.getLsbD 4 = false

instance (spsr : BitVec 64) : Decidable (SelectsEl0 spsr) := inferInstanceAs (Decidable (_ ∧ _))

theorem sysRtSigreturn_eq_some {c c' : Cpu} {r : BitVec 64} :
    sysRtSigreturn c = some (r, c') ↔
      ∃ p, c.translate c.frame.spEl0.toNat = some p ∧ r = 0 ∧ c' = c.loadFrame p := by
  unfold sysRtSigreturn restoreSignalFrame restore
  rw [if_neg c.pid_ne]
  simp only [map_map, map_eq_some_iff, Function.comp_apply, Prod.mk.injEq]
  exact exists_congr fun p => and_congr_right fun _ =>
    and_congr ⟨Eq.symm, Eq.symm⟩ ⟨Eq.symm, Eq.symm⟩

/-- The task returns to user space: no signal is left to deliver to it, or there is room for the frame
of a handler. -/
def Cpu.Returns (c : Cpu) : Prop :=
  ∀ t, c.task = some t →
    match (signalLoop t).2 with
    | .quiet _ => True
    | .enter _ t' => ∃ p, Cpu.Room { c with task := some t' } p
    | .exit _ | .panic _ => False

theorem isSome_checkAndDeliverSignals {c : Cpu} :
    (checkAndDeliverSignals c).isSome ↔ c.Returns := by
  rw [checkAndDeliverSignals, if_neg c.pid_ne, Cpu.Returns]
  cases c.task with
  | none => simp
  | some t =>
    simp only [some.injEq, forall_eq', deliver_eq]
    cases (signalLoop t).2 with
    | quiet => simp
    | enter bit t' =>
      refine ⟨fun h => ?_, fun ⟨p, hroom⟩ => ?_⟩
      · obtain ⟨c', hc'⟩ := isSome_iff_exists.1 h
        obtain ⟨⟨p, hroom, -⟩, -⟩ := prepare_spec hc'
        exact ⟨p, hroom⟩
      · obtain ⟨c', hc', -⟩ :=
          prepare_of_room (c := { c with task := some (t'.take bit) }) hroom _ _ _ _
        exact isSome_of_eq_some hc'
    | exit | panic => simp

theorem Cpu.returns_setResult {c : Cpu} {r : BitVec 64} : (c.setResult r).Returns ↔ c.Returns :=
  Iff.rfl

/-- Whether the task returns depends on the mask and the stack pointer in the frame. -/
theorem isSome_svc_sigreturn {c : Cpu} {fired : BitVec 64} {p : ℕ}
    (hp : c.translate c.frame.spEl0.toNat = some p) :
    (svc sysRtSigreturn fired c).isSome ↔ ((c.loadFrame p).raise fired).Returns := by
  rw [svc_eq_map_svcState, isSome_map, svcState, dispatch,
    sysRtSigreturn_eq_some.2 ⟨p, hp, rfl, rfl⟩, map_some, bind_some,
    isSome_checkAndDeliverSignals, Cpu.returns_setResult]

/-- **The return from `rt_sigreturn` selects EL0 and the program counter restored is in user
space exactly when the signal frame found at the stack pointer, if any, says so.** -/
theorem sigreturn_el0_iff (c : Cpu) (fired : BitVec 64) :
    ((∀ regs, svc sysRtSigreturn fired c = some regs → SelectsEl0 regs.spsrEl1) ∧
      ∀ r c', sysRtSigreturn c = some (r, c') → c'.frame.elrEl1.toNat < userSpaceEnd) ↔
    ∀ p, c.translate c.frame.spEl0.toNat = some p →
      (((c.loadFrame p).raise fired).Returns → SelectsEl0 (c.mem.word p pstateOffset)) ∧
        (c.mem.word p pcOffset).toNat < userSpaceEnd := by
  constructor
  · rintro ⟨hspsr, hpc⟩ p hp
    refine ⟨fun hreturns => ?_, ?_⟩
    · obtain ⟨regs, hregs⟩ := isSome_iff_exists.1 ((isSome_svc_sigreturn hp).2 hreturns)
      obtain ⟨r, c', hcall, heq, -⟩ := svc_goesOn hregs
      obtain ⟨q, hq, -, rfl⟩ := sysRtSigreturn_eq_some.1 hcall
      have hel0 := hspsr regs hregs
      rwa [heq, Cpu.loadFrame_spsr, mem_unique hq hp] at hel0
    · have hlt := hpc 0 (c.loadFrame p) (sysRtSigreturn_eq_some.2 ⟨p, hp, rfl, rfl⟩)
      rwa [Cpu.loadFrame_elr] at hlt
  · intro h
    refine ⟨fun regs hregs => ?_, fun r c' hcall => ?_⟩
    · obtain ⟨r, c', hcall, heq, -⟩ := svc_goesOn hregs
      obtain ⟨p, hp, -, rfl⟩ := sysRtSigreturn_eq_some.1 hcall
      rw [heq, Cpu.loadFrame_spsr]
      exact (h p hp).1 ((isSome_svc_sigreturn hp).1 (isSome_of_eq_some hregs))
    · obtain ⟨p, hp, -, rfl⟩ := sysRtSigreturn_eq_some.1 hcall
      rw [Cpu.loadFrame_elr]
      exact (h p hp).2

/-- Memory with a forged signal frame at `0x100000`: state `0x3c5`, which is EL1 with its own stack
pointer and interrupts masked, and program counter `0xffff_0000_4008_0000`. -/
def forgedMem : Bytes :=
  let m : Bytes := fun _ => 0
  (m.setWord 0x100000 pcOffset 0xffff000040080000).setWord 0x100000 pstateOffset 0x3c5

/-- A task whose stack pointer is at that frame. -/
def forgedFrame : Cpu where
  pid := 1
  pid_ne := by decide
  task := some
    { addressSpace := some
        { pageTableRoot := 0x1000
          regions := [some ⟨0x10000, 0x18000, 0x100000, .ofUser true false, false, []⟩]
          heapStart := 0
          heapEnd := 0 }
      signalPending := 0
      signalMask := 0
      signalActions := Vector.replicate 4 ⟨0, 0, 0, 0⟩ }
  frame := ⟨Vector.replicate 31 0, 0x10000, 0x400000, 0⟩
  mem := forgedMem

/-- **`rt_sigreturn` on that frame returns to EL1.** -/
theorem sigreturn_raises_privilege :
    ∃ regs, svc sysRtSigreturn 0 forgedFrame = some regs ∧ regs.spsrEl1 = 0x3c5 ∧
      ¬SelectsEl0 regs.spsrEl1 ∧ regs.elrEl1 = 0xffff000040080000 :=
  exists_of_any (by decide +kernel)

end Cyanos.Signal
