import Cyanos.Lib.Stack

/-!
# System calls on x86-64

`syscall_entry` of `arch/x86_64/src/syscall.rs`, instruction by instruction, from the `SYSCALL` of
the user to the `IRETQ`.  `syscall_dispatch` is taken as it may be under the calling convention, and
as one that leaves the saved registers alone.

* `X86.exec_syscallEntry` : `syscall_dispatch` is called with the user's number and arguments, and
  with a stack pointer 23 words below the top of the kernel stack;
* `X86.exec_syscallLeave` : the user's registers come back.
-/

namespace Cyanos

open Lib List

namespace X86

/-- The general registers. -/
inductive Reg
  | rax | rbx | rcx | rdx | rsi | rdi | rbp | rsp
  | r8 | r9 | r10 | r11 | r12 | r13 | r14 | r15
  deriving DecidableEq, Repr

/-- What can be pushed. -/
inductive Src
  | imm (v : BitVec 64)
  /-- `gs:[off]`. -/
  | gs (off : ℕ)
  | reg (q : Reg)
  deriving DecidableEq, Repr

/-- Instructions. -/
inductive Instr
  | swapgs
  /-- `mov gs:[off], q`. -/
  | movToGs (off : ℕ) (q : Reg)
  /-- `mov q, gs:[off]`. -/
  | movFromGs (q : Reg) (off : ℕ)
  | push (src : Src)
  | pop (q : Reg)
  | mov (d q : Reg)
  | addRsp (imm : ℕ)
  /-- `call syscall_dispatch`. -/
  | call
  | iretq
  deriving DecidableEq, Repr

end X86

/-- The state of an x86-64 CPU. -/
structure X86 where
  r : X86.Reg → BitVec 64
  rip : BitVec 64
  rflags : BitVec 64
  cs : BitVec 64
  ss : BitVec 64
  /-- `GS` is the kernel's. -/
  kernelGs : Bool
  /-- The words at the user's `GS` and at the kernel's, which is the `PerCpuSyscall`. -/
  gs : Bool → ℕ → BitVec 64
  /-- The words of the kernel's stack, by address. -/
  mem : BitVec 64 → BitVec 64

namespace X86

/-- Write a register. -/
def set (s : X86) (q : Reg) (v : BitVec 64) : X86 := { s with r := Function.update s.r q v }

/-- The value of an operand. -/
def eval (s : X86) : Src → BitVec 64
  | .imm v => v
  | .gs off => s.gs s.kernelGs off
  | .reg q => s.r q

/-- An instruction.  `call` is what `syscall_dispatch` does until it returns. -/
def step (call : X86 → X86) : Instr → X86 → X86 × ℕ
  | .swapgs, s => ({ s with kernelGs := !s.kernelGs }, 0)
  | .movToGs off q, s =>
    ({ s with
      gs := Function.update s.gs s.kernelGs (Function.update (s.gs s.kernelGs) off (s.r q)) }, 0)
  | .movFromGs q off, s => (s.set q (s.gs s.kernelGs off), 0)
  | .push src, s =>
    ({ s.set .rsp (s.r .rsp - 8) with mem := Function.update s.mem (s.r .rsp - 8) (s.eval src) }, 0)
  | .pop q, s => ((s.set .rsp (wordAt (s.r .rsp) 1)).set q (s.mem (s.r .rsp)), 0)
  | .mov d q, s => (s.set d (s.r q), 0)
  | .addRsp imm, s => (s.set .rsp (s.r .rsp + BitVec.ofNat 64 imm), 0)
  | .call, s => (call s, 0)
  | .iretq, s =>
    ({ s.set .rsp (s.mem (wordAt (s.r .rsp) 3)) with
      rip := s.mem (wordAt (s.r .rsp) 0)
      cs := s.mem (wordAt (s.r .rsp) 1)
      rflags := s.mem (wordAt (s.r .rsp) 2)
      ss := s.mem (wordAt (s.r .rsp) 4) }, 0)

/-- `SYSCALL`: the user's `RIP` is in `rcx`, `RFLAGS` in `r11`, and interrupts are off. -/
def syscall (entry : BitVec 64) (u : X86) : X86 :=
  { (u.set .rcx u.rip).set .r11 u.rflags with
    rip := entry, rflags := u.rflags &&& ~~~0x200#64, cs := 0x08, ss := 0x10 }

/-- Functions keep the stack pointer, `rbx`, `rbp` and `r12` to `r15`; `syscall_dispatch` has three
words of arguments on the stack to itself and leaves the saved registers above them alone. -/
structure Convention (call : X86 → X86) : Prop where
  saved : ∀ s, ∀ q ∈ [Reg.rsp, .rbx, .rbp, .r12, .r13, .r14, .r15], (call s).r q = s.r q
  frame : ∀ s k, 3 ≤ k → k < 23 → (call s).mem (wordAt (s.r .rsp) k) = s.mem (wordAt (s.r .rsp) k)

/-! ### `syscall_entry` -/

/-- The kernel's `GS` and stack. -/
def switchStack : List Instr := [.swapgs, .movToGs 8 .rsp, .movFromGs .rsp 0]

/-- The frame for `IRETQ`, and the rest of the `UserFrame`. -/
def frameSrcs : List Src :=
  [.imm 0x1b, .gs 8, .reg .r11, .imm 0x23, .reg .rcx] ++
    [.reg .r11, .reg .rcx, .reg .rax, .reg .rdi, .reg .rsi, .reg .rdx, .reg .r8, .reg .r9, .reg .r10,
      .reg .rbx, .reg .rbp, .reg .r12, .reg .r13, .reg .r14, .reg .r15]

/-- The arguments on the stack. -/
def argSrcs : List Src := [.imm 0, .reg .r11, .reg .r9]

/-- The arguments in registers. -/
def moveArgs : List Instr :=
  [.mov .r9 .r8, .mov .r8 .r10, .mov .rcx .rdx, .mov .rdx .rsi, .mov .rsi .rdi, .mov .rdi .rax]

/-- `syscall_entry` up to the call of `syscall_dispatch`. -/
def syscallEntry : List Instr :=
  switchStack ++ frameSrcs.map .push ++ [.mov .r11 .rsp] ++ argSrcs.map .push ++ moveArgs

/-- The registers that are popped, down to the slot of `rax`. -/
def popped : List Reg := [.r15, .r14, .r13, .r12, .rbp, .rbx, .r10, .r9, .r8, .rdx, .rsi, .rdi]

/-- `syscall_entry` from the call of `syscall_dispatch` on. -/
def syscallLeave : List Instr :=
  [.call, .addRsp 24] ++ popped.map .pop ++ [.addRsp 8, .pop .rcx, .pop .r11, .swapgs, .iretq]

variable {s u : X86}

theorem set_of_ne {q q' : Reg} (h : q ≠ q') (v : BitVec 64) : (s.set q' v).r q = s.r q :=
  Function.update_of_ne h _ _

theorem set_self (s : X86) (q : Reg) (v : BitVec 64) : (s.set q v).r q = v :=
  Function.update_self _ _ _

/-- Pushing operands, none of which is the stack pointer. -/
theorem exec_pushes (call : X86 → X86) (srcs : List Src) {l : List (BitVec 64)}
    (h : OnStack s.mem (s.r .rsp) l) (hlen : 8 * (l.length + srcs.length) ≤ 2 ^ 64)
    (hsrcs : .reg .rsp ∉ srcs) :
    ∃ s', exec (step call) (srcs.map .push) (s, 0) = (s', 0) ∧
      (∀ q, q ≠ .rsp → s'.r q = s.r q) ∧
      s'.r .rsp = s.r .rsp - BitVec.ofNat 64 (8 * srcs.length) ∧
      OnStack s'.mem (s'.r .rsp) ((srcs.map s.eval).reverse ++ l) := by
  induction srcs generalizing s l with
  | nil => exact ⟨s, rfl, fun _ _ => rfl, by simp, h⟩
  | cons src srcs ih =>
    rw [mem_cons, not_or] at hsrcs
    rw [length_cons] at hlen
    let s₁ : X86 :=
      { s.set .rsp (s.r .rsp - 8) with mem := Function.update s.mem (s.r .rsp - 8) (s.eval src) }
    have heval : ∀ src ∈ srcs, s₁.eval src = s.eval src := by
      intro src hsrc
      cases src with
      | imm => rfl
      | gs => rfl
      | reg q =>
        have hq : q ≠ .rsp := by
          rintro rfl
          exact hsrcs.2 hsrc
        exact set_of_ne hq _
    obtain ⟨s', he, hr, hsp, hstack⟩ := ih (s := s₁) (h.push (by omega) (s.eval src))
      (by rw [length_cons]; omega) hsrcs.2
    refine ⟨s', he, fun q hq => (hr q hq).trans (set_of_ne hq _), ?_, ?_⟩
    · rw [hsp, show s₁.r .rsp = s.r .rsp - 8 from rfl, length_cons]
      bv_omega
    · rw [map_congr_left heval] at hstack
      rw [map_cons, reverse_cons, append_assoc]
      exact hstack

/-- Popping registers other than the stack pointer. -/
theorem exec_pops (call : X86 → X86) (qs : List Reg) (g : Reg → BitVec 64) {l : List (BitVec 64)}
    (h : OnStack s.mem (s.r .rsp) (qs.map g ++ l)) (hqs : .rsp ∉ qs) :
    ∃ s', exec (step call) (qs.map .pop) (s, 0) = (s', 0) ∧
      (∀ q, q ≠ .rsp → s'.r q = if q ∈ qs then g q else s.r q) ∧
      OnStack s'.mem (s'.r .rsp) l := by
  induction qs generalizing s with
  | nil => exact ⟨s, rfl, fun _ _ => rfl, h⟩
  | cons p qs ih =>
    rw [mem_cons, not_or] at hqs
    have hp : s.mem (s.r .rsp) = g p := by
      have hp := h 0 (g p) rfl
      rwa [show wordAt (s.r .rsp) 0 = s.r .rsp by simp [wordAt]] at hp
    let s₁ : X86 := (s.set .rsp (wordAt (s.r .rsp) 1)).set p (g p)
    have hsp1 : s₁.r .rsp = wordAt (s.r .rsp) 1 := (set_of_ne hqs.1 _).trans (set_self _ _ _)
    obtain ⟨s', he, hr, hstack⟩ := ih (by rw [hsp1]; exact h.drop 1) hqs.2
    refine ⟨s', ?_, fun q hq => (hr q hq).trans ?_, hstack⟩
    · rw [map_cons, exec_cons, step, hp]
      exact he
    · by_cases hqp : q = p
      · subst hqp
        simp [s₁, set_self]
      · simp [s₁, hqp, set_of_ne hqp, set_of_ne hq]

theorem exec_switchStack (call : X86 → X86) (h : s.kernelGs = false) :
    ∃ s', exec (step call) switchStack (s, 0) = (s', 0) ∧ s'.kernelGs = true ∧
      s'.gs true 8 = s.r .rsp ∧ s'.r .rsp = s.gs true 0 ∧ ∀ q, q ≠ .rsp → s'.r q = s.r q := by
  refine ⟨_, rfl, ?_, ?_, ?_, fun q hq => ?_⟩
  · simp [advance, step, set, h]
  · simp [advance, step, set, h]
  · simp [advance, step, set, h]
  · simp [advance, step, set, h, hq]

/-- The words of the `UserFrame`. -/
def frameWords (u : X86) : List (BitVec 64) :=
  popped.map u.r ++ [u.r .rax, u.rip, u.rflags] ++ [u.rip, 0x23, u.rflags, u.r .rsp, 0x1b]

theorem length_frameWords (u : X86) : (frameWords u).length = 20 := rfl

/-- The number and the arguments that `syscall_dispatch` is called with, the last one on the
stack. -/
def dispatchArgs (s : X86) : List (BitVec 64) :=
  [s.r .rdi, s.r .rsi, s.r .rdx, s.r .rcx, s.r .r8, s.r .r9, s.mem (s.r .rsp)]

/-- The number and the arguments of a system call, in the user's registers. -/
def userArgs (r : Reg → BitVec 64) : List (BitVec 64) :=
  [r .rax, r .rdi, r .rsi, r .rdx, r .r10, r .r8, r .r9]

theorem exec_moveArgs (call : X86 → X86) (s : X86) :
    ∃ s', exec (step call) moveArgs (s, 0) = (s', 0) ∧ s'.mem = s.mem ∧ s'.r .rsp = s.r .rsp ∧
      [s'.r .rdi, s'.r .rsi, s'.r .rdx, s'.r .rcx, s'.r .r8, s'.r .r9] =
        [s.r .rax, s.r .rdi, s.r .rsi, s.r .rdx, s.r .r10, s.r .r8] :=
  ⟨_, rfl, rfl, rfl, rfl⟩

/-- **`syscall_dispatch` is called with the user's number and arguments, 23 words below the top of
the kernel stack.** -/
theorem exec_syscallEntry (call : X86 → X86) (hu : u.kernelGs = false) (start : BitVec 64) :
    ∃ s' args, exec (step call) syscallEntry (syscall start u, 0) = (s', 0) ∧
      s'.dispatchArgs = userArgs u.r ∧ s'.r .rsp = u.gs true 0 - 184 ∧ args.length = 3 ∧
      OnStack s'.mem (s'.r .rsp) (args ++ frameWords u) := by
  obtain ⟨s₁, he1, hkgs1, hgs1, hsp1, hr1⟩ := exec_switchStack call (s := syscall start u) hu
  have hnil : OnStack s₁.mem (s₁.r .rsp) [] := by rintro _ _ ⟨⟩
  obtain ⟨s₂, he2, hr2, hsp2, hstack2⟩ := exec_pushes call frameSrcs hnil (by decide) (by decide)
  have hframe : (frameSrcs.map s₁.eval).reverse ++ [] = frameWords u := by
    simp [frameSrcs, eval, hr1, hkgs1, hgs1, syscall, set, frameWords, popped]
  rw [hframe] at hstack2
  let s₃ : X86 := s₂.set .r11 (s₂.r .rsp)
  obtain ⟨s₄, he4, hr4, hsp4, hstack4⟩ := exec_pushes call argSrcs (s := s₃) hstack2
    (by rw [length_frameWords]; decide) (by decide)
  obtain ⟨s₅, he5, hmem5, hsp5, hargs5⟩ := exec_moveArgs call s₄
  -- registers other than those that are written so far
  have hr : ∀ q, q ≠ .rsp → q ≠ .r11 → q ≠ .rcx → s₄.r q = u.r q := by
    intro q hq h11 hcx
    rw [hr4 q hq, set_of_ne h11, hr2 q hq, hr1 q hq]
    exact (set_of_ne h11 _).trans (set_of_ne hcx _)
  rw [← hmem5, ← hsp5] at hstack4
  refine ⟨s₅, (argSrcs.map s₃.eval).reverse, ?_, ?_, ?_, rfl, hstack4⟩
  · rw [syscallEntry, exec_append, exec_append, exec_append, exec_append, he1, he2, exec_cons,
      step, exec_nil,
      he4, he5]
  · have h9 : s₅.mem (s₅.r .rsp) = s₄.r .r9 := by
      have h9 := hstack4 0 _ rfl
      rw [show wordAt (s₅.r .rsp) 0 = s₅.r .rsp by simp [wordAt]] at h9
      exact h9.trans (hr4 .r9 (by decide)).symm
    simp only [cons.injEq] at hargs5
    simp only [dispatchArgs, userArgs, h9, hargs5]
    simp [hr]
  · rw [hsp5, hsp4, show s₃.r .rsp = s₂.r .rsp from rfl, hsp2, hsp1]
    exact BitVec.sub_sub _ _ _

/-- `IRETQ` returns to where the user was, behind the slots of `rax`, `rcx` and `r11`. -/
theorem exec_iret (call : X86 → X86) {s u : X86}
    (h : OnStack s.mem (s.r .rsp)
      ([u.r .rax, u.rip, u.rflags] ++ [u.rip, 0x23, u.rflags, u.r .rsp, 0x1b])) :
    ∃ s', exec (step call) [.addRsp 8, .pop .rcx, .pop .r11, .swapgs, .iretq] (s, 0) = (s', 0) ∧
      s'.r .rsp = u.r .rsp ∧ s'.rip = u.rip ∧ s'.rflags = u.rflags ∧
      ∀ q, q ≠ .rsp → q ≠ .rcx → q ≠ .r11 → s'.r q = s.r q := by
  have hword : ∀ j, s.mem (wordAt (wordAt (wordAt (wordAt (s.r .rsp) 1) 1) 1) j) =
      s.mem (wordAt (s.r .rsp) (3 + j)) := by
    intro j
    rw [wordAt_add, wordAt_add, wordAt_add]
    congr 2
    omega
  refine ⟨_, rfl, ?_, ?_, ?_, fun q hsp hcx h11 => ?_⟩
  · exact (hword 3).trans (h 6 _ rfl)
  · exact (hword 0).trans (h 3 _ rfl)
  · exact (hword 2).trans (h 5 _ rfl)
  · simp [advance, step, set, hsp, hcx, h11]

/-- **The user's registers come back.** -/
theorem exec_syscallLeave {call : X86 → X86} (hc : Convention call) {args : List (BitVec 64)}
    (hlen : args.length = 3) (h : OnStack s.mem (s.r .rsp) (args ++ frameWords u)) :
    ∃ s', exec (step call) syscallLeave (s, 0) = (s', 0) ∧ s'.rip = u.rip ∧ s'.rflags = u.rflags ∧
      ∀ q, q ≠ .rax → q ≠ .rcx → q ≠ .r11 → s'.r q = u.r q := by
  have hsp : (call s).r .rsp = s.r .rsp := hc.saved s .rsp (by decide)
  let s₁ : X86 := (call s).set .rsp (wordAt ((call s).r .rsp) 3)
  have hstack1 : OnStack s₁.mem (s₁.r .rsp) (frameWords u) := by
    have hdrop := h.drop 3
    rw [← hlen, drop_left, hlen] at hdrop
    rw [show s₁.r .rsp = wordAt ((call s).r .rsp) 3 from rfl, hsp]
    refine hdrop.congr fun k hk => ?_
    rw [length_frameWords] at hk
    rw [wordAt_add]
    exact hc.frame s (3 + k) (by omega) (by omega)
  rw [frameWords, append_assoc] at hstack1
  obtain ⟨s₂, he2, hr2, hstack2⟩ := exec_pops call popped u.r hstack1 (by decide)
  obtain ⟨s₃, he3, hsp3, hrip3, hflags3, hr3⟩ := exec_iret call hstack2
  have hstart : exec (step call) [.call, .addRsp 24] (s, 0) = (s₁, 0) := rfl
  refine ⟨s₃, by rw [syscallLeave, exec_append, exec_append, hstart, he2, he3], hrip3, hflags3,
    fun q hax hcx h11 => ?_⟩
  have hall : ∀ q : Reg, q ≠ .rax → q ≠ .rcx → q ≠ .r11 → q ≠ .rsp → q ∈ popped := by
    intro q
    cases q <;> decide
  by_cases hq : q = .rsp
  · rw [hq, hsp3]
  · rw [hr3 q hq hcx h11, hr2 q hq, if_pos (hall q hax hcx h11 hq)]

end X86

end Cyanos
