import Cyanos.Kernel.Caller.Dispatch

/-!
# Handlers that stay in user space whatever their arguments

The handlers that check every range before they touch it.  Each proof follows the text of its
handler: a check gives the fact about the range that the fields touched after it use.
-/

namespace Cyanos.Caller

open Lib Effect

/-! ### Rules -/

section Rules

variable {α : Type} {p n off len : ℕ} {fs : List (ℕ × ℕ)} {c : Prop} {e : α} {k : Sys α}

@[simp] theorem safe_pure {a : α} : (pure a : Sys α).Safe InUser := trivial

@[simp] theorem safe_halt : (halt : Sys α).Safe InUser := trivial

@[simp] theorem safe_value : value.Safe InUser := fun _ => trivial

theorem safe_flag : flag.Safe InUser := fun _ => trivial

theorem safe_count : count.Safe InUser := fun _ => trivial

theorem safe_mapped {va : ℕ} : (mapped va).Safe InUser := fun _ => trivial

theorem safe_vnode {fd : ℕ} : (vnode fd).Safe InUser := within_vnode.2 ⟨trivial, fun _ _ => trivial⟩

theorem safe_ite [Decidable c] {x y : Sys α} (hx : c → x.Safe InUser)
    (hy : ¬c → y.Safe InUser) : (if c then x else y).Safe InUser :=
  (within_ite c x y).2 ⟨hx, hy⟩

theorem safe_guard [Decidable c] (h : ¬c → k.Safe InUser) :
    (if c then pure e else k).Safe InUser := safe_ite (fun _ => safe_pure) h

/-- After a check, it has succeeded. -/
theorem safe_check {c : Bool} (h : c = true → k.Safe InUser) :
    (if !c then pure e else k).Safe InUser := safe_guard fun hc => h (by simpa using hc)

/-- After a check of a pointer that may be null, it has succeeded if it is not. -/
theorem safe_checkNonnull {c : Bool} (h : (p ≠ 0 → c = true) → k.Safe InUser) :
    (if p ≠ 0 ∧ !c then pure e else k).Safe InUser := by
  refine safe_guard fun hc => h fun hp => ?_
  simpa [hp] using hc

/-- After a check that is not the only one. -/
theorem safe_checkAlso {b : Bool} [Decidable c] (h : b = true → k.Safe InUser) :
    (if c ∨ !b then pure e else k).Safe InUser := by
  refine safe_guard fun hc => h ?_
  rw [not_or] at hc
  simpa using hc.2

/-- A table that may answer either way. -/
theorem safe_flagCheck (h : k.Safe InUser) :
    (do if !(← flag) then pure e else k : Sys α).Safe InUser :=
  safe_flag.bind fun _ => safe_check fun _ => h

theorem safe_flagValue {c : Bool → Prop} [∀ b, Decidable (c b)] {k : Sys ℤ} (h : k.Safe InUser) :
    (do if c (← flag) then value else k : Sys ℤ).Safe InUser :=
  safe_flag.bind fun _ => safe_ite (fun _ => safe_value) fun _ => h

theorem safe_when [Decidable c] {x : Sys Unit} (h : c → x.Safe InUser) :
    (when c x).Safe InUser := safe_ite h fun _ => safe_pure

section

variable (h : validateUserBuf p n = true)
include h

theorem inUser_of_validate (hl : off + len ≤ n) :
    InUser ⟨wadd p off, len⟩ := inUser_part (validateUserBuf_iff.1 h).2 hl

theorem safe_touch (hl : off + len ≤ n) :
    (touch p off len).Safe InUser := ⟨inUser_of_validate h hl, trivial⟩

theorem safe_load (hl : off + len ≤ n) :
    (load p off len).Safe InUser := ⟨inUser_of_validate h hl, fun _ _ => trivial⟩

theorem safe_fields (hf : ∀ f ∈ fs, f.1 + f.2 ≤ n) : (fields p fs).Safe InUser :=
  within_fields.2 ⟨fieldsIn_of_le (validateUserBuf_iff.1 h).2 hf, trivial⟩

theorem safe_userCopy (hl : len ≤ n) : (userCopy len p len).Safe InUser := by
  have h := (validateUserBuf_iff.1 h).2
  refine (safe_userCopy_iff ?_ le_rfl).2 (.inr (by omega))
  unfold userSpaceEnd at h
  omega

end

/-- A word or record that is touched if it may be. -/
theorem safe_whenTouch [Decidable c] (hk : k.Safe InUser) :
    (do when (c ∧ validateUserBuf p n = true) (touch p 0 n); k).Safe InUser :=
  (safe_when fun h => safe_touch h.2 (Nat.zero_add n).le).bind fun _ => hk

theorem validateUserBuf_of_aligned {a : ℕ} (h : validateUserPtrAligned p n a = true) :
    validateUserBuf p n = true := by
  rw [validateUserPtrAligned, Bool.and_eq_true] at h
  exact h.1

/-- What a check of `n` records of `size` bytes says of one of them. -/
theorem record_le {k i size : ℕ} (h : validateUserBuf p (satMul k size) = true) (hi : i < k) :
    i * size + size ≤ satMul k size := by
  have hle := (validateUserBuf_iff.1 h).2
  have hmul : i * size + size ≤ k * size := by
    rw [← Nat.succ_mul]
    exact Nat.mul_le_mul_right size hi
  unfold satMul userSpaceEnd at *
  omega

end Rules

/-! ### Messages, tasks and signals -/

variable {fd n buf iov msg len addr k i : ℕ} {b : Buf}

theorem safe_recvLoop {turns : ℕ} (h : validateUserBuf msg messageSize = true) :
    (recvLoop msg turns).Safe InUser := by
  induction turns with
  | zero => exact safe_halt
  | succ turns ih =>
    refine safe_flag.bind fun _ => safe_ite ?_ fun _ => ?_
    · exact fun _ => (safe_touch h le_rfl).ret
    · exact safe_flagCheck (safe_flagCheck ih)

@[simp] theorem safe_sysSend : (sysSend msg).Safe InUser :=
  safe_check fun h => (safe_touch (validateUserBuf_of_aligned h) le_rfl).bind fun _ => safe_value

@[simp] theorem safe_sysRecv : (sysRecv msg).Safe InUser :=
  safe_check fun h => safe_flagCheck <| safe_count.bind fun _ =>
    safe_recvLoop (validateUserBuf_of_aligned h)

@[simp] theorem safe_sysCall : (sysCall msg).Safe InUser :=
  safe_check fun h => safe_flagCheck <|
    (safe_touch (validateUserBuf_of_aligned h) le_rfl).bind fun _ => safe_flagValue safe_sysRecv

@[simp] theorem safe_sysSpawn {entry stack : ℕ} : (sysSpawn entry stack).Safe InUser :=
  safe_guard fun _ => safe_guard fun _ => safe_pure

@[simp] theorem safe_sysWait {status : ℕ} : (sysWait status).Safe InUser :=
  safe_checkNonnull fun h => safe_flagCheck <|
    (safe_when fun hs => safe_touch (validateUserBuf_of_aligned (h hs)) le_rfl).ret

@[simp] theorem safe_sysWaitid {infop : ℕ} : (sysWaitid infop).Safe InUser :=
  safe_flagCheck <| (safe_when fun h => safe_fields h.2 (by decide)).ret

@[simp] theorem safe_sysRtSigsuspend {mask : ℕ} : (sysRtSigsuspend mask).Safe InUser :=
  safe_whenTouch safe_pure

@[simp] theorem safe_sysRtSigtimedwait {set info timeout : ℕ} :
    (sysRtSigtimedwait set info timeout).Safe InUser :=
  safe_whenTouch <| (safe_when fun h => safe_fields h.2 (by decide)).bind fun _ =>
    safe_flagCheck <| (safe_when fun h => safe_fields h.2 (by decide)).bind fun _ => safe_value

@[simp] theorem safe_sysFutex {uaddr op val : ℕ} : (sysFutex uaddr op val).Safe InUser := by
  unfold sysFutex
  split
  · exact safe_check fun h => (safe_load (validateUserBuf_of_aligned h) le_rfl).bind fun _ =>
      safe_guard fun _ => safe_pure
  · exact safe_value
  · exact safe_pure

@[simp] theorem safe_sysArchPrctl {code : ℕ} : (sysArchPrctl code addr).Safe InUser := by
  unfold sysArchPrctl
  split
  · exact safe_pure
  · exact safe_check fun h => (safe_touch (validateUserBuf_of_aligned h) le_rfl).ret
  · exact safe_pure

@[simp] theorem safe_sysSigpending {set : ℕ} : (sysSigpending set).Safe InUser :=
  safe_check fun h => (safe_touch h le_rfl).ret

@[simp] theorem safe_sysSigaltstack {oss : ℕ} : (sysSigaltstack oss).Safe InUser :=
  (safe_when fun h => safe_fields h.2 (by decide)).ret

/-! ### Times and limits -/

@[simp] theorem safe_sysClockGettime {tp : ℕ} : (sysClockGettime tp).Safe InUser :=
  safe_check fun h => (safe_fields (validateUserBuf_of_aligned h) (by decide)).ret

@[simp] theorem safe_sysGetrandom : (sysGetrandom buf n).Safe InUser :=
  safe_guard fun _ => safe_check fun h => (safe_touch h (by omega)).ret

@[simp] theorem safe_sysPrctl {option arg2 : ℕ} : (sysPrctl option arg2).Safe InUser := by
  unfold sysPrctl
  split
  · exact (safe_when fun h => safe_touch (n := 16) h le_rfl).ret
  · exact safe_pure
  · exact safe_pure

@[simp] theorem safe_writePair {q : ℕ} : (writePair q).Safe InUser :=
  safe_checkNonnull fun h =>
    (safe_when fun hq => safe_fields (h hq) (by decide)).ret

@[simp] theorem safe_sysTimes : (sysTimes buf).Safe InUser := safe_whenTouch safe_value

@[simp] theorem safe_sysNanosleep {rqtp : ℕ} : (sysNanosleep rqtp).Safe InUser :=
  safe_guard fun _ => safe_check fun h =>
    (safe_load h (by decide)).bind fun _ => (safe_load h (by decide)).bind fun _ =>
      safe_guard fun _ => safe_pure

@[simp] theorem safe_sysGettimeofday {tv tz : ℕ} : (sysGettimeofday tv tz).Safe InUser :=
  safe_checkNonnull fun h =>
    (safe_when fun htv => safe_fields (h htv) (by decide)).bind fun _ => safe_whenTouch safe_pure

@[simp] theorem safe_sysTime {tloc : ℕ} : (sysTime tloc).Safe InUser := safe_whenTouch safe_value

@[simp] theorem safe_sysSysinfo {info : ℕ} : (sysSysinfo info).Safe InUser :=
  safe_check fun h => (safe_fields h (by decide)).ret

@[simp] theorem safe_sysGetrusage {usage : ℕ} : (sysGetrusage usage).Safe InUser :=
  safe_check fun h => (safe_fields h (by decide)).ret

@[simp] theorem safe_sysSchedGetparam {param : ℕ} : (sysSchedGetparam param).Safe InUser :=
  safe_whenTouch safe_pure

@[simp] theorem safe_sysSchedGetaffinity {size mask : ℕ} : (sysSchedGetaffinity size mask).Safe InUser :=
  safe_guard fun _ => safe_check fun h => (safe_touch h (by omega)).bind fun _ =>
    (safe_when fun _ => safe_touch h (by omega)).ret

@[simp] theorem safe_sysCapget {data : ℕ} : (sysCapget data).Safe InUser :=
  (safe_when fun h => safe_fields h.2 (by decide)).ret

@[simp] theorem safe_sysUname (arch : Arch) : (sysUname arch.machineLen buf).Safe InUser := by
  refine safe_check fun h => (safe_fields h ?_).ret
  cases arch <;> decide

@[simp] theorem safe_sysGetresxid {r e s : ℕ} : (sysGetresxid r e s).Safe InUser :=
  safe_whenTouch (safe_whenTouch (safe_whenTouch safe_pure))

theorem safe_handleTimerSettime_own {q : ℕ} : (Tty.handleTimerSettime (.own q)).Safe InUser :=
  safe_guard fun _ => within_bind _ |>.2 <| within_bufFields.2 ⟨trivial, safe_pure⟩

theorem safe_handleTimerCreate_zero : (Tty.handleTimerCreate 0).Safe InUser :=
  safe_flagValue <| (safe_when fun h => absurd rfl h).ret

@[simp] theorem safe_sysSetitimer {which new old : ℕ} : (sysSetitimer which new old).Safe InUser :=
  safe_checkNonnull fun hnew => safe_checkNonnull fun hold => safe_guard fun _ =>
    (safe_when fun h => safe_fields (hnew h) (by decide)).bind fun _ =>
      (safe_when fun h => safe_touch (hold h) le_rfl).bind fun _ =>
        safe_handleTimerCreate_zero.bind fun _ => safe_count.bind fun _ =>
          safe_handleTimerSettime_own.ret

@[simp] theorem safe_sysGetitimer {which cur : ℕ} : (sysGetitimer which cur).Safe InUser :=
  safe_guard fun _ => safe_check fun h => (safe_touch h le_rfl).ret

@[simp] theorem safe_sysAlarm : sysAlarm.Safe InUser :=
  safe_handleTimerCreate_zero.bind fun _ => safe_count.bind fun _ =>
    safe_handleTimerSettime_own.ret

@[simp] theorem safe_sysTimerSettime {ispec : ℕ} : (sysTimerSettime ispec).Safe InUser := by
  refine safe_checkNonnull fun h => safe_guard fun hi => ?_
  exact (safe_fields (h hi) (by decide)).ret

@[simp] theorem safe_sysTimerGettime {ospec : ℕ} : (sysTimerGettime ospec).Safe InUser :=
  safe_check fun h => safe_guard fun _ => safe_flagCheck <| (safe_fields h (by decide)).ret

@[simp] theorem safe_sysTimerfdSettime {new : ℕ} : (sysTimerfdSettime new).Safe InUser :=
  safe_checkAlso fun h => (safe_fields h (by decide)).bind fun _ => safe_value

/-! ### Input and output -/

/-- A buffer of the kernel's own, or a caller's whose first `n` bytes are in user space. -/
def Buf.Valid (n : ℕ) : Buf → Prop
  | caller p => p + n ≤ userSpaceEnd
  | own _ => True

section

variable (h : b.Valid n)
include h

theorem Buf.Valid.touch {off : ℕ} (hl : off + len ≤ n) : (b.touch off len).Safe InUser := by
  cases b with
  | caller => exact ⟨inUser_part h hl, trivial⟩
  | own => exact safe_pure

theorem Buf.Valid.fields {fs : List (ℕ × ℕ)}
    (hf : ∀ f ∈ fs, f.1 + f.2 ≤ n) : (b.fields fs).Safe InUser := by
  cases b with
  | caller => exact within_bufFields.2 ⟨fieldsIn_of_le h hf, trivial⟩
  | own => exact within_bufFields.2 ⟨trivial, trivial⟩

/-- Touch a prefix of a buffer and return its length. -/
theorem Buf.Valid.part {m : ℕ} {r : ℤ} (hm : m ≤ n) :
    (do b.touch 0 m; pure r : Sys ℤ).Safe InUser :=
  (h.touch (by omega)).ret

theorem safe_handleRead {hops : ℕ} : (Vfs.handleRead hops fd b n).Safe InUser := by
  induction hops generalizing fd with
  | zero | succ =>
    unfold Vfs.handleRead
    refine safe_guard fun _ => safe_vnode.bind fun kind => ?_
    rcases kind with _ | kind
    · exact safe_pure
    · cases kind with
      | devNull | pipeWrite => exact safe_pure
      | devZero | devUrandom | ramFile | tmpFile => exact h.part (by omega)
      | devStdio => first | exact safe_halt | apply_assumption
      | devFb remaining =>
        cases remaining with
        | none => exact safe_pure
        | some => exact h.part (by omega)
      | pipeRead => exact safe_guard fun _ => h.part (by omega)
      | eventFd | timerFd =>
        exact safe_guard fun _ => safe_guard fun _ => h.part (by omega)

theorem safe_handleWrite {hops : ℕ} : (Vfs.handleWrite hops fd b n).Safe InUser := by
  induction hops generalizing fd with
  | zero | succ =>
    unfold Vfs.handleWrite
    refine safe_guard fun _ => safe_vnode.bind fun kind => ?_
    rcases kind with _ | kind
    · exact safe_pure
    · cases kind with
      | devNull | devZero | devUrandom | ramFile | pipeRead | timerFd => exact safe_pure
      | pipeWrite => exact safe_check fun _ => h.part (by omega)
      | tmpFile =>
        exact safe_check fun _ => safe_guard fun _ => h.part (by omega)
      | eventFd =>
        exact safe_guard fun _ => (h.touch (by omega)).bind fun _ => safe_value
      | devStdio => first | exact safe_halt | apply_assumption
      | devFb remaining =>
        cases remaining with
        | none => exact safe_pure
        | some => exact h.part (by omega)

end

theorem valid_of_validate {p : ℕ} (h : validateUserBuf p n = true) :
    (Buf.caller p).Valid n := (validateUserBuf_iff.1 h).2

theorem safe_vfsRead (h : b.Valid n) : (vfsRead fd b n).Safe InUser :=
  safe_count.bind fun _ => safe_handleRead h

theorem safe_vfsWrite (h : b.Valid n) : (vfsWrite fd b n).Safe InUser :=
  safe_count.bind fun _ => safe_handleWrite h

theorem safe_retry {p : Sys ℤ} (h : p.Safe InUser) (turns : ℕ) : (retry p turns).Safe InUser := by
  induction turns with
  | zero => exact safe_halt
  | succ turns ih => exact h.bind fun _ => safe_guard fun _ => ih

@[simp] theorem safe_sysWrite : (sysWrite fd buf n).Safe InUser :=
  safe_guard fun _ => safe_check fun h => safe_ite
    (fun _ => (safe_userCopy h le_rfl).bind fun _ => safe_check fun _ => safe_pure)
    fun _ => safe_vfsWrite (valid_of_validate h)

@[simp] theorem safe_sysRead : (sysRead fd buf n).Safe InUser := by
  refine safe_ite (fun _ => ?_) fun _ => ?_
  · refine safe_guard fun hn => safe_check fun h => safe_count.bind fun got => ?_
    exact (safe_userCopy h (by omega)).bind fun _ => safe_check fun _ => safe_pure
  · refine safe_checkNonnull fun h => safe_count.bind fun turns => ?_
    by_cases hn : n = 0
    · subst hn
      refine safe_retry (safe_count.bind fun hops => ?_) turns
      unfold Vfs.handleRead
      exact safe_pure
    · exact safe_retry (safe_vfsRead (valid_of_validate (h hn))) turns

/-- The two words of a record in an array that was checked. -/
theorem safe_iovec {α : Type} {f : ℕ → ℕ → Sys α}
    (h : validateUserBuf iov (satMul k 16) = true) (hi : i < k)
    (hf : ∀ base len, (f base len).Safe InUser) :
    (do f (← load iov (i * 16) 8) (← load iov (i * 16 + 8) 8) : Sys α).Safe InUser := by
  have hrec := record_le h hi
  exact (safe_load h (by omega)).bind fun base => (safe_load h (by omega)).bind (hf base)

theorem safe_writevLoop {total : ℕ} (h : validateUserBuf iov (satMul k 16) = true)
    (hn : i + n ≤ k) : (writevLoop iov n i total).Safe InUser := by
  induction n generalizing i total with
  | zero => exact safe_pure
  | succ n ih =>
    refine safe_iovec h (by omega) fun base len => ?_
    refine safe_ite (fun _ => ih (by omega)) fun _ => safe_check fun hb => ?_
    exact (safe_touch hb (by omega)).bind fun _ => ih (by omega)

@[simp] theorem safe_sysWritev {iovcnt : ℕ} : (sysWritev fd iov iovcnt).Safe InUser :=
  safe_guard fun _ => safe_check fun h =>
    safe_ite (fun _ => safe_writevLoop h (by omega)) fun _ => safe_pure

section

variable (h : validateUserBuf iov (satMul k 16) = true) (hn : i + n ≤ k)
include h hn

theorem safe_readvConsole : (readvConsole iov n i).Safe InUser := by
  induction n generalizing i with
  | zero => exact safe_pure
  | succ n ih =>
    refine safe_iovec h (by omega) fun base len => ?_
    exact safe_ite (fun _ => safe_sysRead) fun _ => ih (by omega)

theorem safe_readvLoop {total : ℤ} : (readvLoop fd iov n i total).Safe InUser := by
  induction n generalizing i total with
  | zero => exact safe_pure
  | succ n ih =>
    refine safe_iovec h (by omega) fun base len => ?_
    refine safe_ite (fun _ => ih (by omega)) fun _ => safe_check fun hb => ?_
    refine safe_count.bind fun turns => ?_
    refine (safe_retry (safe_vfsRead (valid_of_validate hb)) turns).bind fun r => ?_
    exact safe_guard fun _ => safe_guard fun _ => ih (by omega)

end

@[simp] theorem safe_sysReadv {iovcnt : ℕ} : (sysReadv fd iov iovcnt).Safe InUser :=
  safe_guard fun _ => safe_check fun h =>
    safe_ite (fun _ => safe_readvConsole h (by omega)) fun _ => safe_readvLoop h (by omega)

@[simp] theorem safe_sysPread64 : (sysPread64 fd buf n).Safe InUser :=
  safe_guard fun _ => safe_check fun h => safe_value.bind fun _ => safe_guard fun _ =>
    safe_vfsRead (valid_of_validate h)

@[simp] theorem safe_sysPwrite64 : (sysPwrite64 fd buf n).Safe InUser :=
  safe_guard fun _ => safe_check fun h => safe_value.bind fun _ => safe_guard fun _ =>
    safe_vfsWrite (valid_of_validate h)

@[simp] theorem safe_sysSendfile {offset : ℕ} : (sysSendfile offset n).Safe InUser :=
  safe_guard fun _ => safe_checkNonnull fun h =>
    (safe_when fun ho => safe_touch (h ho) le_rfl).bind fun _ => safe_flagValue <|
      safe_count.bind fun _ => (safe_when fun ho => safe_fields (h ho.1) (by decide)).ret

/-! ### Files and sockets -/

theorem safe_sysFstat_of_valid {stat : Buf} (h : stat.Valid 144) :
    (sysFstat fd stat).Safe InUser := by
  refine safe_check fun _ => (h.touch (by decide)).bind fun _ => safe_ite (fun _ => ?_) fun _ => ?_
  · exact (h.touch (by decide)).ret
  · refine safe_flagCheck <| (h.touch (by decide)).bind fun _ => ?_
    refine safe_flag.bind fun _ => safe_ite (fun _ => ?_) fun _ => safe_pure
    exact (h.fields (by decide)).ret

@[simp] theorem safe_sysFstat {stat : ℕ} : (sysFstat fd (.caller stat)).Safe InUser := by
  by_cases h : validateUserBuf stat 144 = true
  · exact safe_sysFstat_of_valid (valid_of_validate h)
  · unfold sysFstat
    rw [if_pos (by simpa [Buf.ptr] using h)]
    exact safe_pure

@[simp] theorem safe_sysPipe2 {pipefd : ℕ} : (sysPipe2 pipefd).Safe InUser := by
  refine safe_check fun h => safe_flagValue ?_
  have h4 : validateUserBuf (wadd pipefd 4) 4 = true := by
    rw [validateUserBuf_iff] at h ⊢
    unfold wadd
    unfold userSpaceEnd at h ⊢
    omega
  exact (safe_touch h (by decide)).bind fun _ => (safe_touch h4 le_rfl).ret

@[simp] theorem safe_sysStatfs : (sysStatfs buf).Safe InUser :=
  safe_check fun h => (safe_fields h (by decide)).ret

@[simp] theorem safe_sysBind {addrlen : ℕ} : (sysBind fd addr addrlen).Safe InUser := by
  refine safe_checkAlso fun h => ?_
  refine safe_check fun _ => safe_guard fun h2 => (safe_load h (by omega)).bind fun family => ?_
  refine safe_ite (fun _ => ?_) fun _ => ?_
  · exact safe_guard fun h8 => (safe_touch h (by omega)).bind fun _ => safe_value
  · exact safe_guard fun h3 => (safe_touch h (by omega)).bind fun _ => safe_value

@[simp] theorem safe_sysConnect {addrlen : ℕ} : (sysConnect fd addr addrlen).Safe InUser := by
  refine safe_checkAlso fun h => ?_
  refine safe_check fun _ => safe_guard fun h2 => (safe_load h (by omega)).bind fun family => ?_
  refine safe_ite (fun _ => ?_) fun _ => ?_
  · refine safe_guard fun h8 => ?_
    have h' : validateUserBuf addr 8 = true := by
      rw [validateUserBuf_iff] at h ⊢
      exact ⟨h.1, by omega⟩
    exact (safe_fields h' (by decide)).bind fun _ => safe_value
  · exact safe_guard fun h3 => (safe_touch h (by omega)).bind fun _ => safe_value

theorem safe_transfer (h : len = 0 ∨ validateUserBuf buf len = true) :
    (Net.transfer fd buf len).Safe InUser := by
  refine safe_check fun _ => safe_flagValue ?_
  refine safe_count.bind fun n => ?_
  rcases h with rfl | h
  · simp [Safe, within_bind, inUser_iff]
  · exact (safe_touch h (by omega)).ret

@[simp] theorem safe_sysSendto : (sysSendto fd buf len).Safe InUser :=
  safe_checkNonnull fun h => safe_transfer (by by_cases hl : len = 0 <;> simp [hl, h])

@[simp] theorem safe_sysRecvfrom : (sysRecvfrom fd buf len).Safe InUser := safe_sysSendto

@[simp] theorem safe_sysSocketpair {domain sv : ℕ} : (sysSocketpair domain sv).Safe InUser :=
  safe_check fun h => safe_guard fun _ => safe_flagValue <| (safe_fields h (by decide)).ret

@[simp] theorem safe_sysSetsockopt {optval optlen : ℕ} : (sysSetsockopt optval optlen).Safe InUser :=
  safe_guard fun _ => safe_pure

@[simp] theorem safe_sysEpollCtl {epfd op event : ℕ} : (sysEpollCtl epfd op event).Safe InUser := by
  refine safe_guard fun _ => safe_flagCheck <| ?_
  have hevent : (if event = 0 ∨ !validateUserBuf event 12 then pure (-14) else do
      fields event [(0, 4), (4, 8)]; value : Sys ℤ).Safe InUser := by
    exact safe_checkAlso fun h => (safe_fields h (by decide)).bind fun _ => safe_value
  split
  · exact hevent
  · exact hevent
  · exact safe_pure
  · exact safe_pure

end Cyanos.Caller
