import Mathlib.Data.List.Nodup
import Cyanos.Lib.Stack
import Cyanos.Sched.Signal

/-!
# System calls on AArch64

The stubs of `arch/aarch64/src/exception.rs` that take a system call, instruction by instruction.
The functions they call are taken as they may be under the calling convention, and the system call
as one that leaves the saved registers alone: it neither delivers a signal nor replaces the image.

There are two stubs.  `exc_el0_sync` is the one written for system calls; the vector table leads to
`exc_el0_sync_impl`.

* `A64.exec_excEl0SyncEntry`, `A64.exec_excEl0SyncImplEntry` : what each hands to
  `syscall_dispatch`;
* `A64.exec_excEl0SyncLeave`, `A64.exec_excEl0SyncImplLeave` : the registers it returns to the user
  with.
-/

namespace Cyanos

open Lib Signal List Function

namespace A64

/-- The system registers that the stubs use. -/
inductive SysReg
  | spEl0
  | elrEl1
  | spsrEl1
  | esrEl1
  | tpidrEl1
  deriving DecidableEq, Repr

/-- The functions that the stubs call. -/
inductive Fn
  | archSerialPutc
  | syscallDispatch
  | checkAndDeliverSignals
  | excEl0FaultHandler
  deriving DecidableEq, Repr

/-- Instructions.  An offset is from the stack pointer; a jump is over so many instructions. -/
inductive Instr
  | movImm (d : Fin 31) (imm : BitVec 64)
  | mov (d n : Fin 31)
  /-- `mov d, sp`. -/
  | movFromSp (d : Fin 31)
  /-- `mov sp, n`. -/
  | movToSp (n : Fin 31)
  | addSp (imm : BitVec 64)
  | subSp (imm : BitVec 64)
  | stp (a b : Fin 31) (off : ℕ)
  | str (a : Fin 31) (off : ℕ)
  | ldp (a b : Fin 31) (off : ℕ)
  | ldr (a : Fin 31) (off : ℕ)
  /-- `stp a, b, [sp, #-16]!`. -/
  | stpPre (a b : Fin 31)
  /-- `str a, [sp, #-8]!`. -/
  | strPre (a : Fin 31)
  /-- `ldp a, b, [sp], #16`. -/
  | ldpPost (a b : Fin 31)
  /-- `ldr a, [sp], #8`. -/
  | ldrPost (a : Fin 31)
  /-- `ldr d, =exc_el0_sync_impl`. -/
  | ldrImpl (d : Fin 31)
  /-- `str w, [n]`, where `n` is the data register of the UART. -/
  | uart (w n : Fin 31)
  | mrs (d : Fin 31) (r : SysReg)
  | msr (r : SysReg) (n : Fin 31)
  | lsr (d n : Fin 31) (sh : ℕ)
  | and (d n : Fin 31) (imm : BitVec 64)
  | cmp (n : Fin 31) (imm : BitVec 64)
  | cbz (n : Fin 31) (jump : ℕ)
  | bne (jump : ℕ)
  | beq (jump : ℕ)
  | b (jump : ℕ)
  /-- `br n`, to the instruction that follows here. -/
  | br (n : Fin 31)
  | bl (f : Fn)
  deriving DecidableEq, Repr

end A64

/-- The state of an AArch64 CPU in the kernel. -/
structure A64 where
  /-- `x0` to `x30`. -/
  x : Fin 31 → BitVec 64
  /-- The kernel's stack pointer. -/
  sp : BitVec 64
  sys : A64.SysReg → BitVec 64
  /-- The flag `Z`. -/
  z : Bool
  /-- The words of the kernel's stack, by address. -/
  mem : BitVec 64 → BitVec 64

namespace A64

/-- What the stubs run in. -/
structure Env where
  /-- What a function does until it returns. -/
  call : Fn → A64 → A64
  /-- The address behind the call of a function. -/
  ret : Fn → BitVec 64
  /-- The address of `exc_el0_sync_impl`. -/
  impl : BitVec 64

/-- Functions keep the registers `x19` to `x29` and the stack pointer.  The output of a character
takes no exception; the other functions leave the saved registers on the stack alone. -/
structure Env.Convention (env : Env) : Prop where
  saved : ∀ f s (i : Fin 31), 19 ≤ i → i < 30 → (env.call f s).x i = s.x i
  sp : ∀ f s, (env.call f s).sp = s.sp
  sys : ∀ s, (env.call .archSerialPutc s).sys = s.sys
  frame : ∀ f s, f ≠ .archSerialPutc → ∀ k < 34,
    (env.call f s).mem (wordAt s.sp k) = s.mem (wordAt s.sp k)

/-- Write a register. -/
def setX (s : A64) (d : Fin 31) (v : BitVec 64) : A64 := { s with x := Function.update s.x d v }

/-- Write a word. -/
def store (s : A64) (a v : BitVec 64) : A64 := { s with mem := Function.update s.mem a v }

/-- The address at an offset. -/
def addr (s : A64) (off : ℕ) : BitVec 64 := s.sp + BitVec.ofNat 64 off

/-- What an instruction does, and how many of those that follow it jumps over. -/
def step (env : Env) : Instr → A64 → A64 × ℕ
  | .movImm d imm, s => (s.setX d imm, 0)
  | .mov d n, s => (s.setX d (s.x n), 0)
  | .movFromSp d, s => (s.setX d s.sp, 0)
  | .movToSp n, s => ({ s with sp := s.x n }, 0)
  | .addSp imm, s => ({ s with sp := s.sp + imm }, 0)
  | .subSp imm, s => ({ s with sp := s.sp - imm }, 0)
  | .stp a b off, s => ((s.store (s.addr off) (s.x a)).store (s.addr (off + 8)) (s.x b), 0)
  | .str a off, s => (s.store (s.addr off) (s.x a), 0)
  | .ldp a b off, s => ((s.setX a (s.mem (s.addr off))).setX b (s.mem (s.addr (off + 8))), 0)
  | .ldr a off, s => (s.setX a (s.mem (s.addr off)), 0)
  | .stpPre a b, s =>
    ({ (s.store (s.sp - 8) (s.x b)).store (s.sp - 8 - 8) (s.x a) with sp := s.sp - 8 - 8 }, 0)
  | .strPre a, s => ({ s.store (s.sp - 8) (s.x a) with sp := s.sp - 8 }, 0)
  | .ldpPost a b, s =>
    ({ (s.setX a (s.mem (s.addr 0))).setX b (s.mem (s.addr 8)) with sp := s.addr 16 }, 0)
  | .ldrPost a, s => ({ s.setX a (s.mem (s.addr 0)) with sp := s.addr 8 }, 0)
  | .ldrImpl d, s => (s.setX d env.impl, 0)
  | .uart _ _, s => (s, 0)
  | .mrs d r, s => (s.setX d (s.sys r), 0)
  | .msr r n, s => ({ s with sys := Function.update s.sys r (s.x n) }, 0)
  | .lsr d n sh, s => (s.setX d (s.x n >>> sh), 0)
  | .and d n imm, s => (s.setX d (s.x n &&& imm), 0)
  | .cmp n imm, s => ({ s with z := s.x n = imm }, 0)
  | .cbz n jump, s => (s, if s.x n = 0#64 then jump else 0)
  | .bne jump, s => (s, if s.z then 0 else jump)
  | .beq jump, s => (s, if s.z then jump else 0)
  | .b jump, s => (s, jump)
  | .br _, s => (s, 0)
  | .bl f, s => (env.call f (s.setX 30 (env.ret f)), 0)

/-! ### `exc_el0_sync` -/

/-- The macro `reload_kernel_sp`. -/
def reloadKernelSp : List Instr :=
  [.msr .spEl0 9, .mrs 9 .tpidrEl1, .cbz 9 1, .movToSp 9, .mrs 9 .spEl0]

/-- The pairs of registers in the `UserFrame`, with their offsets. -/
def framePairs : List (Fin 31 × Fin 31 × ℕ) :=
  [(0, 1, 0), (2, 3, 16), (4, 5, 32), (6, 7, 48), (8, 9, 64), (10, 11, 80), (12, 13, 96),
    (14, 15, 112), (16, 17, 128), (18, 19, 144), (20, 21, 160), (22, 23, 176), (24, 25, 192),
    (26, 27, 208), (28, 29, 224)]

/-- The rest of the `UserFrame`. -/
def saveRest : List Instr :=
  [.str 30 240, .mrs 9 .spEl0, .str 9 248, .mrs 9 .elrEl1, .str 9 256, .mrs 9 .spsrEl1, .str 9 264]

/-- All registers are loaded. -/
def loadRegs : List Instr :=
  framePairs.map (fun p => .ldp p.1 p.2.1 p.2.2) ++ [.ldr 30 240, .addSp 272]

/-- The stack is the task's kernel stack, and all registers are saved there. -/
def saveFrame : List Instr :=
  reloadKernelSp ++ [.subSp 272] ++ framePairs.map (fun p => .stp p.1 p.2.1 p.2.2) ++ saveRest

/-- Any exception but a system call goes to `exc_el0_fault`. -/
def svcTest : List Instr := [.mrs 9 .esrEl1, .lsr 9 9 26, .cmp 9 0x15, .bne 13]

/-- The arguments of `syscall_dispatch`. -/
def moveArgs : List Instr :=
  [.movFromSp 7, .mov 6 5, .mov 5 4, .mov 4 3, .mov 3 2, .mov 2 1, .mov 1 0, .mov 0 8]

/-- `exc_el0_sync` up to the call of `syscall_dispatch`. -/
def excEl0SyncEntry : List Instr :=
  [.movImm 9 0x24, .bl .archSerialPutc] ++ saveFrame ++ svcTest ++ moveArgs

/-- `exc_el0_return`. -/
def excEl0Return : List Instr :=
  [.ldr 9 264, .msr .spsrEl1 9, .ldr 9 256, .msr .elrEl1 9, .ldr 9 248, .msr .spEl0 9] ++ loadRegs

/-- `exc_el0_sync` from the call of `syscall_dispatch` on. -/
def excEl0SyncLeave : List Instr :=
  [.bl .syscallDispatch, .str 0 0, .movFromSp 0, .bl .checkAndDeliverSignals, .b 3] ++
    [.mrs 0 .esrEl1, .mrs 1 .elrEl1, .bl .excEl0FaultHandler] ++ excEl0Return

theorem exec_reloadKernelSp (env : Env) (s : A64) : exec (step env) reloadKernelSp (s, 0) =
    ({ s with
      sp := if s.sys .tpidrEl1 = 0#64 then s.sp else s.sys .tpidrEl1
      sys := update s.sys .spEl0 (s.x 9) }, 0) := by
  by_cases h : s.sys .tpidrEl1 = 0#64
  · simp [reloadKernelSp, exec, advance, step, setX, h]
  · simp [reloadKernelSp, exec, advance, step, setX, h]

/-- The registers of the pairs, with their offsets. -/
def slots (ps : List (Fin 31 × Fin 31 × ℕ)) : List (Fin 31 × ℕ) :=
  ps.flatMap fun p => [(p.1, p.2.2), (p.2.1, p.2.2 + 8)]

theorem slots_cons (p : Fin 31 × Fin 31 × ℕ) (ps : List (Fin 31 × Fin 31 × ℕ)) :
    slots (p :: ps) = [(p.1, p.2.2), (p.2.1, p.2.2 + 8)] ++ slots ps :=
  flatMap_cons

theorem mem_slots_framePairs : ∀ i : Fin 31, i ≠ 30 → (i, 8 * i.val) ∈ slots framePairs := by
  decide

theorem exec_stps (env : Env) (s : A64) (ps : List (Fin 31 × Fin 31 × ℕ)) :
    exec (step env) (ps.map fun p => .stp p.1 p.2.1 p.2.2) (s, 0) =
      ({ s with mem := updates ((slots ps).map fun q => (s.addr q.2, s.x q.1)) s.mem }, 0) := by
  induction ps generalizing s with
  | nil => rfl
  | cons p ps ih =>
    rw [map_cons, exec_cons, step, ih, slots_cons, map_append, updates_append]
    rfl

theorem exec_ldps (env : Env) (s : A64) (ps : List (Fin 31 × Fin 31 × ℕ)) :
    exec (step env) (ps.map fun p => .ldp p.1 p.2.1 p.2.2) (s, 0) =
      ({ s with x := updates ((slots ps).map fun q => (q.1, s.mem (s.addr q.2))) s.x }, 0) := by
  induction ps generalizing s with
  | nil => rfl
  | cons p ps ih =>
    rw [map_cons, exec_cons, step, ih, slots_cons, map_append, updates_append]
    rfl

theorem exec_saveRest (env : Env) (s : A64) :
    ∃ s', exec (step env) saveRest (s, 0) = (s', 0) ∧ s'.sp = s.sp ∧ s'.sys = s.sys ∧
      (∀ i, i ≠ 9 → s'.x i = s.x i) ∧
      s'.mem = updates [(s.addr 240, s.x 30), (s.addr 248, s.sys .spEl0),
        (s.addr 256, s.sys .elrEl1), (s.addr 264, s.sys .spsrEl1)] s.mem := by
  refine ⟨_, rfl, rfl, rfl, fun i hi => ?_, rfl⟩
  simp [advance, step, setX, store, hi]

/-- The number and the arguments that `syscall_dispatch` is called with. -/
def dispatchArgs (s : A64) : List (BitVec 64) := [s.x 0, s.x 1, s.x 2, s.x 3, s.x 4, s.x 5, s.x 6]

/-- The number and the arguments of a system call, in the user's registers. -/
def userArgs (x : Fin 31 → BitVec 64) : List (BitVec 64) := [x 8, x 0, x 1, x 2, x 3, x 4, x 5]

theorem exec_moveArgs (env : Env) (s : A64) :
    ∃ s', exec (step env) moveArgs (s, 0) = (s', 0) ∧ s'.sp = s.sp ∧ s'.mem = s.mem ∧
      s'.dispatchArgs = userArgs s.x :=
  ⟨_, rfl, rfl, rfl, rfl⟩

/-- The words of a `UserFrame`. -/
def words (f : UserFrame) : List (BitVec 64) := f.x.toList ++ [f.spEl0, f.elrEl1, f.spsrEl1]

theorem length_words (f : UserFrame) : (words f).length = 34 := by simp [words]

/-- The CPU after the call of `arch_serial_putc` with which `exc_el0_sync` begins. -/
def greeted (env : Env) (s : A64) : A64 :=
  env.call .archSerialPutc ((s.setX 9 0x24).setX 30 (env.ret .archSerialPutc))

/-- The registers that `exc_el0_sync` saves: in the place of the user's stack pointer, which
`reload_kernel_sp` has overwritten, there is `x9`. -/
def pushed (s : A64) : UserFrame := ⟨Vector.ofFn s.x, s.x 9, s.sys .elrEl1, s.sys .spsrEl1⟩

/-- The offsets in the `UserFrame`. -/
def frameOffs : List ℕ := (slots framePairs).map Prod.snd ++ [240, 248, 256, 264]

theorem nodup_frameOffs : frameOffs.Nodup ∧ ∀ off ∈ frameOffs, off < 2 ^ 64 := by decide

/-- What the stores of `exc_el0_sync` leave on the stack. -/
theorem onStack_saved (s : A64) (v : BitVec 64) :
    OnStack (updates [(s.addr 240, s.x 30), (s.addr 248, v), (s.addr 256, s.sys .elrEl1),
      (s.addr 264, s.sys .spsrEl1)]
      (updates ((slots framePairs).map fun q => (s.addr q.2, s.x q.1)) s.mem)) s.sp
      (words ⟨Vector.ofFn s.x, v, s.sys .elrEl1, s.sys .spsrEl1⟩) := by
  rw [← updates_append]
  have hnodup : (((slots framePairs).map (fun q => (s.addr q.2, s.x q.1)) ++
      [(s.addr 240, s.x 30), (s.addr 248, v), (s.addr 256, s.sys .elrEl1),
        (s.addr 264, s.sys .spsrEl1)]).map Prod.fst).Nodup := by
    have hmap := List.Nodup.map_on (f := s.addr) (fun off hoff off' hoff' =>
      offset_inj (nodup_frameOffs.2 off hoff) (nodup_frameOffs.2 off' hoff')) nodup_frameOffs.1
    simpa [frameOffs, map_append, map_map, comp_def] using hmap
  intro k w hw
  refine updates_of_mem hnodup (mem_append.2 ?_)
  rw [words, Vector.toList_ofFn] at hw
  by_cases hk : k < 31
  · rw [List.getElem?_append_left (by simpa using hk), List.getElem?_ofFn, dif_pos hk] at hw
    cases hw
    by_cases h30 : k = 30
    · subst h30
      exact .inr (.head _)
    · have hne : (⟨k, hk⟩ : Fin 31) ≠ 30 := fun he => h30 (congrArg Fin.val he)
      exact .inl (mem_map.2 ⟨_, mem_slots_framePairs ⟨k, hk⟩ hne, rfl⟩)
  · rw [getElem?_append_right (by simpa using hk), length_ofFn] at hw
    obtain ⟨hlt, rfl⟩ := List.getElem?_eq_some_iff.1 hw
    obtain rfl | rfl | rfl : k = 31 ∨ k = 32 ∨ k = 33 := by
      have hlt : k - 31 < 3 := hlt
      omega
    · exact .inr (.tail _ (.head _))
    · exact .inr (.tail _ (.tail _ (.head _)))
    · exact .inr (.tail _ (.tail _ (mem_cons_of_mem _ (.head _))))

/-- The exception is a system call: the class in `ESR_EL1` is 0x15. -/
def IsSvc (s : A64) : Prop := s.sys .esrEl1 >>> 26 = 0x15#64

variable {s : A64} {env : Env} {f : UserFrame}

theorem exec_svcTest (env : Env) (h : s.IsSvc) :
    ∃ s', exec (step env) svcTest (s, 0) = (s', 0) ∧ s'.sp = s.sp ∧ s'.mem = s.mem ∧
      ∀ i, i ≠ 9 → s'.x i = s.x i := by
  have h : s.sys .esrEl1 >>> 26 = 0x15#64 := h
  refine ⟨{ s.setX 9 0x15#64 with z := true }, ?_, rfl, rfl, fun i hi => ?_⟩
  · simp [svcTest, exec, advance, step, setX, h]
  · simp [setX, hi]

/-- The registers are saved with `x9` in the place of the user's stack pointer. -/
theorem exec_saveFrame (env : Env) (s : A64) :
    ∃ s', exec (step env) saveFrame (s, 0) = (s', 0) ∧ s'.sys .esrEl1 = s.sys .esrEl1 ∧
      (∀ i, i ≠ 9 → s'.x i = s.x i) ∧ OnStack s'.mem s'.sp (words (pushed s)) := by
  -- the state in which the pairs are stored
  let s₁ : A64 := { s with
    sp := (if s.sys .tpidrEl1 = 0#64 then s.sp else s.sys .tpidrEl1) - 272
    sys := update s.sys .spEl0 (s.x 9) }
  obtain ⟨s', he, hsp, hsys, hx, hmem⟩ := exec_saveRest env { s₁ with
    mem := updates ((slots framePairs).map fun q => (s₁.addr q.2, s₁.x q.1)) s₁.mem }
  refine ⟨s', ?_, by rw [hsys]; rfl, hx, ?_⟩
  · rw [saveFrame, exec_append, exec_append, exec_append, exec_reloadKernelSp, exec_cons, step,
      exec_nil, exec_stps]
    exact he
  · rw [hmem, hsp]
    exact onStack_saved s₁ (s.x 9)

/-- **`exc_el0_sync` calls `syscall_dispatch` with what is in the argument registers after the call
of `arch_serial_putc`, and with the registers as they are then saved.** -/
theorem exec_excEl0SyncEntry (hc : env.Convention) (hsvc : s.IsSvc) :
    ∃ s', exec (step env) excEl0SyncEntry (s, 0) = (s', 0) ∧
      s'.dispatchArgs = userArgs (greeted env s).x ∧
      OnStack s'.mem s'.sp (words (pushed (greeted env s))) := by
  have hstart : exec (step env) [.movImm 9 0x24, .bl .archSerialPutc] (s, 0) =
      (greeted env s, 0) := rfl
  obtain ⟨s₁, he1, hesr1, hx1, hstack1⟩ := exec_saveFrame env (greeted env s)
  have hsvc1 : s₁.IsSvc := by
    rw [IsSvc, hesr1, greeted, hc.sys]
    exact hsvc
  obtain ⟨s₂, he2, hsp2, hmem2, hx2⟩ := exec_svcTest env hsvc1
  obtain ⟨s₃, he3, hsp3, hmem3, hargs3⟩ := exec_moveArgs ..
  have hx : ∀ i, i ≠ 9 → s₂.x i = (greeted env s).x i := fun i hi => (hx2 i hi).trans (hx1 i hi)
  refine ⟨s₃, ?_, ?_, ?_⟩
  · rw [excEl0SyncEntry, exec_append, exec_append, exec_append, hstart, he1, he2, he3]
  · rw [hargs3]
    simp [userArgs, hx]
  · rw [hsp3, hmem3, hsp2, hmem2]
    exact hstack1

/-- The user's registers: those that `eret` returns with, and those an exception finds. -/
def userRegs (s : A64) : UserFrame := ⟨Vector.ofFn s.x, s.sys .spEl0, s.sys .elrEl1, s.sys .spsrEl1⟩

theorem mem_of_onStack_words (h : OnStack s.mem s.sp (words f)) {off : ℕ} (hdvd : 8 ∣ off)
    (hlt : off < 272) : s.mem (s.addr off) = f.slot off := by
  obtain ⟨k, rfl⟩ := hdvd
  have hk : k < (words f).length := by rw [length_words]; omega
  have hword : (words f)[k]? = some ((words f).getD k 0) := by
    rw [getD_eq_getElem .., getElem?_eq_getElem hk]
  rw [UserFrame.slot, Nat.mul_div_cancel_left _ (by decide)]
  exact h k _ hword

/-- The system registers are loaded from the frame. -/
theorem exec_loadSys (env : Env) (s : A64) :
    ∃ s', exec (step env) [.ldr 9 264, .msr .spsrEl1 9, .ldr 9 256, .msr .elrEl1 9, .ldr 9 248,
        .msr .spEl0 9] (s, 0) = (s', 0) ∧ s'.sp = s.sp ∧ s'.mem = s.mem ∧
      s'.sys .spEl0 = s.mem (s.addr 248) ∧ s'.sys .elrEl1 = s.mem (s.addr 256) ∧
      s'.sys .spsrEl1 = s.mem (s.addr 264) :=
  ⟨_, rfl, rfl, rfl, rfl, rfl, rfl⟩

theorem updates_slots (g : ℕ → BitVec 64) (x : Fin 31 → BitVec 64) (i : Fin 31) (hi : i ≠ 30) :
    updates ((slots framePairs).map fun q => (q.1, g q.2)) x i = g (8 * i.val) := by
  have hnodup : ((slots framePairs).map Prod.fst).Nodup := by decide
  refine updates_of_mem ?_ (mem_map.2 ⟨_, mem_slots_framePairs i hi, rfl⟩)
  rwa [map_map]

theorem exec_loadRegs (env : Env) (s : A64) :
    ∃ s', exec (step env) loadRegs (s, 0) = (s', 0) ∧ s'.sys = s.sys ∧
      ∀ i, s'.x i = s.mem (s.addr (8 * i.val)) := by
  refine ⟨{ s with
    x := update
      (updates ((slots framePairs).map fun q => (q.1, s.mem (s.addr q.2))) s.x) 30
      (s.mem (s.addr 240))
    sp := s.sp + 272 }, ?_, rfl, fun i => ?_⟩
  · rw [loadRegs, exec_append, exec_ldps]
    rfl
  · by_cases hi : i = 30
    · subst hi
      rfl
    · exact (update_of_ne hi _ _).trans
        (updates_slots (fun off => s.mem (s.addr off)) s.x i hi)

/-- **The registers returned with are those of the frame.** -/
theorem exec_excEl0Return (env : Env) (h : OnStack s.mem s.sp (words f)) :
    ∃ s', exec (step env) excEl0Return (s, 0) = (s', 0) ∧ s'.userRegs = Signal.excEl0Return f := by
  obtain ⟨s₁, he1, hsp1, hmem1, hsp, helr, hspsr⟩ := exec_loadSys env s
  obtain ⟨s₂, he2, hsys2, hx2⟩ := exec_loadRegs env s₁
  refine ⟨s₂, by rw [excEl0Return, exec_append, he1, he2], UserFrame.ext ?_ ?_ ?_ ?_⟩
  · refine Vector.ext fun i hi => ?_
    rw [userRegs, Signal.excEl0Return, Vector.getElem_ofFn, Vector.getElem_ofFn, hx2, hmem1, addr,
      hsp1, Nat.mul_comm]
    exact mem_of_onStack_words h (Nat.dvd_mul_left 8 i) (by omega)
  · rw [userRegs, hsys2]
    exact hsp.trans (mem_of_onStack_words h (by decide) (by decide))
  · rw [userRegs, hsys2]
    exact helr.trans (mem_of_onStack_words h (by decide) (by decide))
  · rw [userRegs, hsys2]
    exact hspsr.trans (mem_of_onStack_words h (by decide) (by decide))

/-- The state in which a function returns. -/
def called (env : Env) (f : Fn) (s : A64) : A64 := env.call f (s.setX 30 (env.ret f))

theorem Env.Convention.onStack (hc : env.Convention) {f : Fn} (hf : f ≠ .archSerialPutc)
    {l : List (BitVec 64)} (h : OnStack s.mem s.sp l) (hlen : l.length ≤ 34) :
    OnStack (called env f s).mem (called env f s).sp l := by
  rw [called, hc.sp]
  exact h.congr fun k hk => hc.frame f (s.setX 30 (env.ret f)) hf k (by omega)

/-- **After `syscall_dispatch` the registers returned with are those saved, with the result in
`x0`.** -/
theorem exec_excEl0SyncLeave (hc : env.Convention) (h : OnStack s.mem s.sp (words f)) :
    ∃ s', exec (step env) excEl0SyncLeave (s, 0) = (s', 0) ∧
      s'.userRegs = f.setReg 0 ((called env .syscallDispatch s).x 0) := by
  have h1 := hc.onStack (f := .syscallDispatch) (by decide) h (length_words f).le
  generalize hs1 : called env .syscallDispatch s = s₁ at h1 ⊢
  have h2 := h1.store (by rw [length_words]; decide) (k := 0) (by rw [length_words]; decide)
    (s₁.x 0)
  have h3 := hc.onStack (f := .checkAndDeliverSignals)
    (s := (s₁.store (s₁.addr 0) (s₁.x 0)).setX 0 s₁.sp) (by decide) h2
    (by rw [length_set, length_words])
  have hset : (words f).set 0 (s₁.x 0) = words (f.setReg 0 (s₁.x 0)) := by
    rw [words, words, set_append_left _ _ (by simp), UserFrame.setReg, Vector.toList_set]
    rfl
  rw [hset] at h3
  obtain ⟨s', he', hregs⟩ := exec_excEl0Return env h3
  refine ⟨s', ?_, by rw [hregs, excEl0Return_eq]⟩
  rw [excEl0SyncLeave, exec_append, exec_append, exec_cons, step, show env.call _ _ = s₁ from hs1]
  -- the fault handler is jumped over
  exact he'

/-! ### `exc_el0_sync_impl` -/

/-- The slot of the vector table for exceptions of user tasks. -/
def vector : List Instr := [.ldrImpl 9, .br 9]

/-- The pairs of registers that `exc_el0_sync_impl` pushes. -/
def pushPairs : List (Fin 31 × Fin 31) :=
  [(0, 1), (2, 3), (4, 5), (6, 7), (8, 9), (10, 11), (12, 13), (14, 15), (16, 17), (18, 19),
    (20, 21), (22, 23), (24, 25), (26, 27), (28, 29)]

/-- `exc_el0_sync_impl` up to the test for a system call: it prints an `E` and pushes all
registers. -/
def pushFrame : List Instr :=
  [.stpPre 0 1, .movImm 0 0x45, .movImm 1 0x09000000, .uart 0 1, .ldpPost 0 1] ++
    pushPairs.map (fun p => .stpPre p.1 p.2) ++ [.strPre 30]

/-- The test for a system call, and what is done for any other exception. -/
def implTest : List Instr :=
  [.mrs 0 .esrEl1, .mrs 1 .elrEl1, .lsr 2 0 26, .and 2 2 0x3f, .cmp 2 21, .beq 2] ++
    [.bl .excEl0FaultHandler, .b 19]

/-- `el0_syscall_handler` up to the call of `syscall_dispatch`. -/
def loadArgs : List Instr :=
  [.movImm 9 0x53, .movImm 10 0x09000000, .uart 9 10, .ldr 0 120, .ldr 1 128, .ldr 2 112,
    .ldr 3 104, .ldr 4 96, .ldr 5 88, .ldr 6 80, .movFromSp 7, .movImm 9 0x44,
    .movImm 10 0x09000000, .uart 9 10]

/-- From the vector to the call of `syscall_dispatch`. -/
def excEl0SyncImplEntry : List Instr := vector ++ pushFrame ++ implTest ++ loadArgs

/-- From the call of `syscall_dispatch` on. -/
def excEl0SyncImplLeave : List Instr :=
  [.bl .syscallDispatch, .movImm 9 0x52, .movImm 10 0x09000000, .uart 9 10, .str 0 128] ++
    [.ldrPost 30] ++ pushPairs.reverse.map (fun p => .ldpPost p.1 p.2)

/-- The words of pairs of registers. -/
def pairWords (x : Fin 31 → BitVec 64) (ps : List (Fin 31 × Fin 31)) : List (BitVec 64) :=
  ps.flatMap fun p => [x p.1, x p.2]

theorem exec_stpPres (env : Env) (ps : List (Fin 31 × Fin 31)) {l : List (BitVec 64)}
    (h : OnStack s.mem s.sp l) (hlen : 8 * (l.length + 2 * ps.length) ≤ 2 ^ 64) :
    ∃ s', exec (step env) (ps.map fun p => .stpPre p.1 p.2) (s, 0) = (s', 0) ∧ s'.x = s.x ∧
      s'.sys = s.sys ∧ OnStack s'.mem s'.sp (pairWords s.x ps.reverse ++ l) := by
  induction ps generalizing s l with
  | nil => exact ⟨s, rfl, rfl, rfl, h⟩
  | cons p ps ih =>
    rw [length_cons] at hlen
    have h1 := (h.push (by omega) (s.x p.2)).push (by rw [length_cons]; omega) (s.x p.1)
    obtain ⟨s', he, hx, hsys, hstack⟩ := ih
      (s := { (s.store (s.sp - 8) (s.x p.2)).store (s.sp - 8 - 8) (s.x p.1) with
        sp := s.sp - 8 - 8 }) h1 (by rw [length_cons, length_cons]; omega)
    refine ⟨s', he, hx, hsys, ?_⟩
    rw [reverse_cons, pairWords, flatMap_append, append_assoc]
    exact hstack

theorem exec_ldpPosts (env : Env) (ps : List (Fin 31 × Fin 31)) (x : Fin 31 → BitVec 64)
    (h : OnStack s.mem s.sp (pairWords x ps)) :
    ∃ s', exec (step env) (ps.map fun p => .ldpPost p.1 p.2) (s, 0) = (s', 0) ∧ s'.sys = s.sys ∧
      s'.x = updates ((ps.flatMap fun p => [p.1, p.2]).map fun i => (i, x i)) s.x := by
  induction ps generalizing s with
  | nil => exact ⟨s, rfl, rfl, rfl⟩
  | cons p ps ih =>
    have h0 : s.mem (s.addr 0) = x p.1 := h 0 _ rfl
    have h1 : s.mem (s.addr 8) = x p.2 := h 1 _ rfl
    obtain ⟨s', he, hsys, hx⟩ := ih
      (s := { (s.setX p.1 (x p.1)).setX p.2 (x p.2) with sp := s.addr 16 }) (h.drop 2)
    refine ⟨s', ?_, hsys, hx⟩
    rw [map_cons, exec_cons, step, h0, h1]
    exact he

/-- The words that `exc_el0_sync_impl` pushes. -/
def implWords (x : Fin 31 → BitVec 64) : List (BitVec 64) := x 30 :: pairWords x pushPairs.reverse

theorem length_pairWords (x : Fin 31 → BitVec 64) (ps : List (Fin 31 × Fin 31)) :
    (pairWords x ps).length = 2 * ps.length := by
  simp [pairWords, Nat.mul_comm]

theorem length_implWords (x : Fin 31 → BitVec 64) : (implWords x).length = 31 := rfl

/-- Printing a character leaves the registers as they were. -/
theorem exec_printE (env : Env) (s : A64) :
    ∃ s', exec (step env) [.stpPre 0 1, .movImm 0 0x45, .movImm 1 0x09000000, .uart 0 1,
        .ldpPost 0 1] (s, 0) = (s', 0) ∧ s'.x = s.x ∧ s'.sys = s.sys := by
  have hnil : OnStack s.mem s.sp [] := by rintro _ _ ⟨⟩
  have hstack := (hnil.push (by decide) (s.x 1)).push (by simp) (s.x 0)
  refine ⟨_, rfl, ?_, rfl⟩
  funext i
  by_cases h1 : i = 1
  · subst h1
    exact hstack 1 _ rfl
  · by_cases h0 : i = 0
    · subst h0
      exact hstack 0 _ rfl
    · simp [advance, step, setX, store, h0, h1]

theorem exec_pushFrame (env : Env) (s : A64) :
    ∃ s', exec (step env) pushFrame (s, 0) = (s', 0) ∧ s'.sys = s.sys ∧
      OnStack s'.mem s'.sp (implWords s.x) := by
  obtain ⟨s₁, he1, hx1, hsys1⟩ := exec_printE env s
  have hnil : OnStack s₁.mem s₁.sp [] := by rintro _ _ ⟨⟩
  obtain ⟨s₂, he2, hx2, hsys2, hstack2⟩ := exec_stpPres env pushPairs hnil (by decide)
  rw [append_nil] at hstack2
  refine ⟨{ s₂.store (s₂.sp - 8) (s₂.x 30) with sp := s₂.sp - 8 }, ?_, hsys2.trans hsys1, ?_⟩
  · rw [pushFrame, exec_append, exec_append, he1, he2]
    rfl
  · rw [implWords, ← hx1, ← hx2]
    exact (hx2 ▸ hstack2).push (by rw [length_pairWords]; decide) (s₂.x 30)

theorem exec_implTest (env : Env) (h : s.IsSvc) :
    ∃ s', exec (step env) implTest (s, 0) = (s', 0) ∧ s'.sp = s.sp ∧ s'.mem = s.mem := by
  have h : s.sys .esrEl1 >>> 26 = 0x15#64 := h
  refine ⟨{ ((s.setX 0 (s.sys .esrEl1)).setX 1 (s.sys .elrEl1)).setX 2 0x15#64 with
    z := true }, ?_, rfl, rfl⟩
  simp [implTest, exec, advance, step, setX, h]

/-- The registers that `el0_syscall_handler` takes for the number and the arguments. -/
def implArgs (x : Fin 31 → BitVec 64) : List (BitVec 64) :=
  [x 14, x 15, x 17, x 16, x 19, x 18, x 21]

theorem exec_loadArgs (env : Env) {x : Fin 31 → BitVec 64} (h : OnStack s.mem s.sp (implWords x)) :
    ∃ s', exec (step env) loadArgs (s, 0) = (s', 0) ∧ s'.sp = s.sp ∧ s'.mem = s.mem ∧
      s'.dispatchArgs = implArgs x := by
  refine ⟨_, rfl, rfl, rfl, ?_⟩
  have h120 : s.mem (s.addr 120) = x 14 := h 15 _ rfl
  have h128 : s.mem (s.addr 128) = x 15 := h 16 _ rfl
  have h112 : s.mem (s.addr 112) = x 17 := h 14 _ rfl
  have h104 : s.mem (s.addr 104) = x 16 := h 13 _ rfl
  have h96 : s.mem (s.addr 96) = x 19 := h 12 _ rfl
  have h88 : s.mem (s.addr 88) = x 18 := h 11 _ rfl
  have h80 : s.mem (s.addr 80) = x 21 := h 10 _ rfl
  rw [implArgs, ← h120, ← h128, ← h112, ← h104, ← h96, ← h88, ← h80]
  rfl

/-- **`exc_el0_sync_impl` calls `syscall_dispatch` with the wrong registers.** -/
theorem exec_excEl0SyncImplEntry (env : Env) (hsvc : s.IsSvc) :
    ∃ s', exec (step env) excEl0SyncImplEntry (s, 0) = (s', 0) ∧
      s'.dispatchArgs = implArgs (update s.x 9 env.impl) ∧
      OnStack s'.mem s'.sp (implWords (update s.x 9 env.impl)) := by
  have hstart : exec (step env) vector (s, 0) = (s.setX 9 env.impl, 0) := rfl
  obtain ⟨s₁, he1, hsys1, hstack1⟩ := exec_pushFrame env (s.setX 9 env.impl)
  have hsvc1 : s₁.IsSvc := by
    rw [IsSvc, hsys1]
    exact hsvc
  obtain ⟨s₂, he2, hsp2, hmem2⟩ := exec_implTest env hsvc1
  rw [← hsp2, ← hmem2] at hstack1
  obtain ⟨s₃, he3, hsp3, hmem3, hargs3⟩ := exec_loadArgs env hstack1
  refine ⟨s₃, ?_, hargs3, ?_⟩
  · rw [excEl0SyncImplEntry, exec_append, exec_append, exec_append, hstart, he1, he2, he3]
  · rw [hsp3, hmem3]
    exact hstack1

/-- **`exc_el0_sync_impl` returns with the result in `x15`, and with the system registers as they
are after `syscall_dispatch`.** -/
theorem exec_excEl0SyncImplLeave (hc : env.Convention) {x : Fin 31 → BitVec 64}
    (h : OnStack s.mem s.sp (implWords x)) :
    ∃ s', exec (step env) excEl0SyncImplLeave (s, 0) = (s', 0) ∧
      s'.sys = (called env .syscallDispatch s).sys ∧
      s'.x = update x 15 ((called env .syscallDispatch s).x 0) := by
  have h1 := hc.onStack (f := .syscallDispatch) (by decide) h (by rw [length_implWords]; decide)
  generalize hs1 : called env .syscallDispatch s = s₁ at h1 ⊢
  have h2 := h1.store (by rw [length_implWords]; decide) (k := 16)
    (by rw [length_implWords]; decide) (s₁.x 0)
  have hset : (implWords x).set 16 (s₁.x 0) = implWords (update x 15 (s₁.x 0)) := rfl
  rw [hset] at h2
  generalize update x 15 (s₁.x 0) = x' at h2 ⊢
  -- `x30` is popped first, and then the pairs
  let s₂ : A64 := ((s₁.setX 9 0x52).setX 10 0x09000000).store (s₁.addr 128) (s₁.x 0)
  have h30 : s₂.mem (s₁.addr 0) = x' 30 := h2 0 _ rfl
  obtain ⟨s', he', hsys', hx'⟩ := exec_ldpPosts env pushPairs.reverse x'
    (s := { s₂.setX 30 (x' 30) with sp := s₁.addr 8 }) (h2.drop 1)
  refine ⟨s', ?_, hsys', ?_⟩
  · rw [excEl0SyncImplLeave, exec_append, exec_append, exec_cons, step,
      show env.call _ _ = s₁ from hs1, ← he', ← h30]
    rfl
  · have hall : ∀ i : Fin 31, i ∉ pushPairs.reverse.flatMap (fun p => [p.1, p.2]) → i = 30 := by
      decide
    rw [hx']
    funext i
    rw [updates_map]
    split
    · rfl
    · next hi =>
      obtain rfl := hall i hi
      rfl

end A64

end Cyanos
