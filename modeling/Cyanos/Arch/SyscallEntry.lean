import Cyanos.Arch.A64
import Cyanos.Arch.X86

/-!
# What a system call leaves of the user's registers

On x86-64 every register comes back, but `syscall_dispatch` is called with a stack that is 8 bytes
off.  On AArch64 `exc_el0_sync` prints a character before it has saved anything, so that `x9`, `x30`
and whatever else the printing uses are lost, and overwrites the user's stack pointer with `x9`.
The stub that the vector table leads to, `exc_el0_sync_impl`, saves all but `x9`, takes the
arguments from the wrong places and puts the result into `x15`.

## Main results

* `A64.preserves_entry_iff`, `A64.preserves_impl_iff` : when the two stubs happen to preserve the
  registers.
* `X86.preserves`, `X86.aligned_iff` : `syscall_entry` preserves them, with a misaligned stack.
* `syscall_preserves_iff` : both together.
-/

namespace Cyanos

open Lib Signal UserFrame Function

namespace A64

/-- The state in which a stub calls `syscall_dispatch`. -/
def atCall (env : Env) (entry : List Instr) (s : A64) : A64 := (exec (step env) entry (s, 0)).1

/-- The state in which a stub returns to the user. -/
def returned (env : Env) (entry leave : List Instr) (s : A64) : A64 :=
  (exec (step env) (entry ++ leave) (s, 0)).1

/-- A stub hands the user's number and arguments to `syscall_dispatch`, and returns with the user's
registers, apart from `x0`. -/
structure Preserves (env : Env) (entry leave : List Instr) (s : A64) : Prop where
  args : (atCall env entry s).dispatchArgs = userArgs s.x
  regs : ∀ i, i ≠ 0 → (returned env entry leave s).x i = s.x i
  sp : (returned env entry leave s).sys .spEl0 = s.sys .spEl0
  pc : (returned env entry leave s).sys .elrEl1 = s.sys .elrEl1
  flags : (returned env entry leave s).sys .spsrEl1 = s.sys .spsrEl1

/-- `arch_serial_putc` returns with `x0` to `x18` and `x30` as they were in the user task, though
`x9` and `x30` are overwritten for the call, and the user's stack pointer is the value of `x9`. -/
structure Undisturbed (env : Env) (s : A64) : Prop where
  regs : ∀ i : Fin 31, i < 19 ∨ i = 30 → (greeted env s).x i = s.x i
  sp : s.sys .spEl0 = s.x 9

variable {env : Env} {s : A64}

/-- What `exc_el0_sync` returns with. -/
theorem returned_entry (hc : env.Convention) (hsvc : s.IsSvc) :
    (∀ i, i ≠ 0 → (returned env excEl0SyncEntry excEl0SyncLeave s).x i = (greeted env s).x i) ∧
      (returned env excEl0SyncEntry excEl0SyncLeave s).sys .spEl0 = (greeted env s).x 9 ∧
      (returned env excEl0SyncEntry excEl0SyncLeave s).sys .elrEl1 = s.sys .elrEl1 ∧
      (returned env excEl0SyncEntry excEl0SyncLeave s).sys .spsrEl1 = s.sys .spsrEl1 := by
  obtain ⟨s₁, he1, -, hstack1⟩ := exec_excEl0SyncEntry hc hsvc
  obtain ⟨s₂, he2, hregs⟩ := exec_excEl0SyncLeave hc hstack1
  have hret : returned env excEl0SyncEntry excEl0SyncLeave s = s₂ := by
    rw [returned, exec_append, he1, he2]
  have hsys : (greeted env s).sys = s.sys := hc.sys _
  rw [hret]
  refine ⟨fun i hi => ?_, congrArg spEl0 hregs, ?_, ?_⟩
  · have hx := congrArg (fun f : UserFrame => f.reg i) hregs
    have hne : 0 ≠ i.val := fun h => hi (Fin.ext h.symm)
    simpa [userRegs, pushed, reg, setReg, hne] using hx
  · rw [← hsys]
    exact congrArg elrEl1 hregs
  · rw [← hsys]
    exact congrArg spsrEl1 hregs

theorem preserves_entry_iff (hc : env.Convention) (hsvc : s.IsSvc) :
    Preserves env excEl0SyncEntry excEl0SyncLeave s ↔ Undisturbed env s := by
  obtain ⟨hx, hsp, hpc, hflags⟩ := returned_entry hc hsvc
  obtain ⟨s₁, he1, hargs1, -⟩ := exec_excEl0SyncEntry hc hsvc
  have hcall : atCall env excEl0SyncEntry s = s₁ := by rw [atCall, he1]
  constructor
  · intro h
    -- `x0` is the first argument, and the others are returned with
    have h0 : (greeted env s).x 0 = s.x 0 := by
      have hargs := hcall ▸ h.args
      rw [hargs1] at hargs
      simp only [userArgs, List.cons.injEq] at hargs
      exact hargs.2.1
    have hkeep : ∀ i, (greeted env s).x i = s.x i := by
      intro i
      by_cases hi : i = 0
      · rw [hi, h0]
      · rw [← hx i hi, h.regs i hi]
    exact ⟨fun i _ => hkeep i, by rw [← h.sp, hsp, hkeep]⟩
  · rintro ⟨hlow, h9⟩
    have hkeep : ∀ i, (greeted env s).x i = s.x i := by
      intro i
      by_cases hi : i < 19 ∨ i = 30
      · exact hlow i hi
      · have hge : 19 ≤ i := by omega
        have hlt : i < 30 := by omega
        have h30 : i ≠ 30 := fun he => hi (.inr he)
        have h9 : i ≠ 9 := by
          rintro rfl
          exact absurd hge (by decide)
        rw [greeted, hc.saved _ _ i hge hlt]
        exact (update_of_ne h30 _ _).trans (update_of_ne h9 _ _)
    refine ⟨?_, fun i hi => (hx i hi).trans (hkeep i), ?_, hpc, hflags⟩
    · rw [hcall, hargs1, funext hkeep]
    · rw [hsp, hkeep, h9]

/-- The user's registers are such that `exc_el0_sync_impl` does no harm: `x9` is the address of the
stub, the registers it takes for the arguments have their values, `x15` is the result, and
`syscall_dispatch` returns with the system registers as they were. -/
structure Agrees (env : Env) (s : A64) : Prop where
  args : implArgs s.x = userArgs s.x
  stub : s.x 9 = env.impl
  result : s.x 15 = (called env .syscallDispatch (atCall env excEl0SyncImplEntry s)).x 0
  sys : ∀ r ∈ [SysReg.spEl0, .elrEl1, .spsrEl1],
    (called env .syscallDispatch (atCall env excEl0SyncImplEntry s)).sys r = s.sys r

theorem preserves_impl_iff (hc : env.Convention) (hsvc : s.IsSvc) :
    Preserves env excEl0SyncImplEntry excEl0SyncImplLeave s ↔ Agrees env s := by
  obtain ⟨s₁, he1, hargs1, hstack1⟩ := exec_excEl0SyncImplEntry env hsvc
  obtain ⟨s₂, he2, hsys2, hx2⟩ := exec_excEl0SyncImplLeave hc hstack1
  have hcall : atCall env excEl0SyncImplEntry s = s₁ := by rw [atCall, he1]
  have hret : returned env excEl0SyncImplEntry excEl0SyncImplLeave s = s₂ := by
    rw [returned, exec_append, he1, he2]
  have hargs : s₁.dispatchArgs = implArgs s.x := hargs1
  constructor
  · intro h
    have hregs := h.regs
    rw [hret, hx2] at hregs
    refine ⟨?_, ?_, ?_, ?_⟩
    · rw [← hargs, ← hcall]
      exact h.args
    · exact (hregs 9 (by decide)).symm
    · rw [hcall]
      exact (hregs 15 (by decide)).symm
    · rw [hcall, ← hsys2, ← hret]
      simp [h.sp, h.pc, h.flags]
  · rintro ⟨hsame, h9, h15, hsys⟩
    rw [hcall] at h15 hsys
    rw [← hsys2, ← hret] at hsys
    refine ⟨?_, fun i _ => ?_, hsys _ (by decide), hsys _ (by decide), hsys _ (by decide)⟩
    · rw [hcall, hargs, hsame]
    · rw [hret, hx2, ← h15, ← h9, update_eq_self, update_eq_self]

end A64

namespace X86

/-- The state in which `syscall_entry`, at the address `start`, calls `syscall_dispatch`. -/
def atCall (call : X86 → X86) (start : BitVec 64) (u : X86) : X86 :=
  (exec (step call) syscallEntry (syscall start u, 0)).1

/-- The state in which it returns to the user. -/
def returned (call : X86 → X86) (start : BitVec 64) (u : X86) : X86 :=
  (exec (step call) (syscallEntry ++ syscallLeave) (syscall start u, 0)).1

/-- `syscall_entry` hands the user's number and arguments to `syscall_dispatch`, and returns with
the user's registers, apart from `rax` and from `rcx` and `r11`, which are `SYSCALL`'s. -/
structure Preserves (call : X86 → X86) (start : BitVec 64) (u : X86) : Prop where
  args : (atCall call start u).dispatchArgs = userArgs u.r
  regs : ∀ q, q ≠ .rax → q ≠ .rcx → q ≠ .r11 → (returned call start u).r q = u.r q
  pc : (returned call start u).rip = u.rip
  flags : (returned call start u).rflags = u.rflags

/-- If the top of the kernel stack is a multiple of 16, so is the stack pointer at the call. -/
def Aligned (call : X86 → X86) (start : BitVec 64) (u : X86) : Prop :=
  16 ∣ (u.gs true 0).toNat → 16 ∣ ((atCall call start u).r .rsp).toNat

variable {call : X86 → X86} {u : X86}

theorem preserves (hc : Convention call) (hu : u.kernelGs = false) (start : BitVec 64) :
    Preserves call start u := by
  obtain ⟨s₁, args, he1, hargs1, -, hlen, hstack1⟩ := exec_syscallEntry call hu start
  obtain ⟨s₂, he2, hrip, hflags, hregs⟩ := exec_syscallLeave hc hlen hstack1
  have hret : returned call start u = s₂ := by rw [returned, exec_append, he1, he2]
  refine ⟨?_, ?_, ?_, ?_⟩
  · rw [atCall, he1, hargs1]
  · rw [hret]
    exact hregs
  · rw [hret, hrip]
  · rw [hret, hflags]

/-- There are 23 words on the stack: the stack pointer is a multiple of 16 when the top is not. -/
theorem aligned_iff (hu : u.kernelGs = false) (start : BitVec 64) :
    Aligned call start u ↔ ¬16 ∣ (u.gs true 0).toNat := by
  obtain ⟨s₁, args, he1, -, hsp1, -⟩ := exec_syscallEntry call hu start
  rw [Aligned, atCall, he1, hsp1, BitVec.toNat_sub, show BitVec.toNat 184 = 184 from rfl]
  omega

end X86

/-- **System calls and the user's registers.**  `exc_el0_sync` hands over the arguments and returns
with the user's registers exactly when printing a character leaves `x0` to `x18` and `x30` as the
user had them and the user's stack pointer is `x9`; the stub in its place in the vector table
exactly when the user's registers agree with what it mistakes them for; `syscall_entry` always, but
with an aligned stack only if the top of the kernel stack is not aligned. -/
theorem syscall_preserves_iff {env : A64.Env} {s : A64} {call : X86 → X86} {u : X86}
    (hc : env.Convention) (hsvc : s.IsSvc) (hx : X86.Convention call) (hu : u.kernelGs = false)
    (start : BitVec 64) :
    (A64.Preserves env A64.excEl0SyncEntry A64.excEl0SyncLeave s ↔ A64.Undisturbed env s) ∧
      (A64.Preserves env A64.excEl0SyncImplEntry A64.excEl0SyncImplLeave s ↔ A64.Agrees env s) ∧
      (X86.Preserves call start u ∧ X86.Aligned call start u ↔ ¬16 ∣ (u.gs true 0).toNat) :=
  ⟨A64.preserves_entry_iff hc hsvc, A64.preserves_impl_iff hc hsvc,
    (and_iff_right (X86.preserves hx hu start)).trans (X86.aligned_iff hu start)⟩

namespace A64

/-- Functions that return at once. -/
def quiet : Env := ⟨fun _ s => s, fun _ => 0x400, 0x500⟩

theorem quiet_convention : quiet.Convention :=
  ⟨fun _ _ _ _ _ => rfl, fun _ _ => rfl, fun _ => rfl, fun _ _ _ _ _ => rfl⟩

/-- Registers in which those that `exc_el0_sync_impl` takes for the arguments have their values. -/
def agreeing (i : Fin 31) : BitVec 64 :=
  0x100 + match i with
    | 14 => 8
    | 15 => 0
    | 16 => 2
    | 17 => 1
    | 18 => 4
    | 19 => 3
    | 21 => 5
    | i => BitVec.ofNat 64 i

/-- Functions that put these values into the registers they may change; one is the address of the
stub. -/
def settling : Env where
  call _ s := { s with x := fun i => if 19 ≤ i.val ∧ i.val < 30 then s.x i else agreeing i }
  ret _ := 0x400
  impl := 0x109

theorem settling_convention : settling.Convention :=
  ⟨fun _ _ _ h h' => if_pos ⟨h, h'⟩, fun _ _ => rfl, fun _ => rfl, fun _ _ _ _ _ => rfl⟩

/-- A user task in a system call. -/
def user (x : Fin 31 → BitVec 64) (sp : BitVec 64) : A64 where
  x := x
  sp := 0x10000
  sys
    | .spEl0 => sp
    | .elrEl1 => 0x8000
    | .spsrEl1 => 0
    | .esrEl1 => 0x56000000
    | .tpidrEl1 => 0x20000
  z := false
  mem _ := 0

theorem user_isSvc (x : Fin 31 → BitVec 64) (sp : BitVec 64) : (user x sp).IsSvc := by
  change 0x56000000#64 >>> 26 = 0x15#64
  decide

/-- A user task in which every register has its number, and the stack pointer is `0x7000`. -/
def numbered : A64 := user (fun i => BitVec.ofNat 64 i) 0x7000

end A64

/-- A user task whose kernel stack has the given top. -/
def X86.user (top : BitVec 64) : X86 where
  r q := 0x100 + BitVec.ofNat 64 q.ctorIdx
  rip := 0x8000
  rflags := 0x202
  cs := 0x23
  ss := 0x1b
  kernelGs := false
  gs kernel off := if kernel ∧ off = 0 then top else 0
  mem _ := 0

theorem X86.id_convention : Convention id := ⟨fun _ _ _ => rfl, fun _ _ _ _ => rfl⟩

/-- The registers agree, and the kernel stack of the other task is not aligned. -/
theorem syscall_preserves_iff_agreeing :
    A64.Preserves A64.settling A64.excEl0SyncEntry A64.excEl0SyncLeave (A64.user A64.agreeing 0x109) ∧
      A64.Preserves A64.settling A64.excEl0SyncImplEntry A64.excEl0SyncImplLeave
        (A64.user A64.agreeing 0x109) ∧
      X86.Preserves id 0x1000 (X86.user 0x10008) ∧ X86.Aligned id 0x1000 (X86.user 0x10008) := by
  obtain ⟨hentry, himpl, hx⟩ := syscall_preserves_iff A64.settling_convention
    (A64.user_isSvc A64.agreeing 0x109) X86.id_convention (u := X86.user 0x10008) rfl 0x1000
  refine ⟨hentry.2 ⟨by decide +kernel, rfl⟩, himpl.2 ⟨rfl, rfl, ?_, ?_⟩, hx.2 (by decide)⟩
  · decide +kernel
  · decide +kernel

/-- **Nothing that the kernel calls changes a register, and still `x9`, `x30` and the user's stack
pointer are lost; the other stub calls `syscall_dispatch` with `x14`, `x15` and so on; and on x86-64
the stack pointer is not a multiple of 16 although the top of the kernel stack is.** -/
theorem user_registers_lost :
    A64.quiet.Convention ∧ A64.numbered.IsSvc ∧
      (A64.returned A64.quiet A64.excEl0SyncEntry A64.excEl0SyncLeave A64.numbered).x 9 = 0x24 ∧
      (A64.returned A64.quiet A64.excEl0SyncEntry A64.excEl0SyncLeave A64.numbered).x 30 = 0x400 ∧
      (A64.returned A64.quiet A64.excEl0SyncEntry A64.excEl0SyncLeave A64.numbered).sys .spEl0 =
        0x24 ∧
      (A64.atCall A64.quiet A64.excEl0SyncImplEntry A64.numbered).dispatchArgs =
        [14, 15, 17, 16, 19, 18, 21] ∧
      (A64.returned A64.quiet A64.excEl0SyncImplEntry A64.excEl0SyncImplLeave
        A64.numbered).x 15 = 14 ∧
      X86.Convention id ∧ ((X86.atCall id 0x1000 (X86.user 0x10000)).r .rsp).toNat % 16 = 8 := by
  refine ⟨A64.quiet_convention, A64.user_isSvc _ _, ?_, ?_, ?_, ?_, ?_, X86.id_convention, ?_⟩ <;>
    decide +kernel

end Cyanos
