import Mathlib.Data.List.OfFn
import Cyanos.Kernel.Caller.Checked

/-!
# User pointers and user space

Several handlers validate another length than they touch, or none.  For each of them this module
computes the exact condition on its arguments under which no run leaves user space
(`Call.Covered`), and the main result puts the table together.

## Main results

* `Caller.dispatch_inUser_iff` : every span of the caller's memory that a system call touches,
  in every run, is in user space exactly when the call's arguments are covered.
* `Caller.sigprocmask_leaves_user_space` : `rt_sigprocmask` writes the old mask to a kernel
  address it is given.
-/

namespace Cyanos.Caller

open Lib Effect List

/-! ### Exact rules -/

/-- A path whose first byte passes the check: it may be 255 bytes long, and its NUL. -/
def PathIn (p : ℕ) : Prop := validateUserBuf p 1 = true → p + 256 ≤ userSpaceEnd

/-- Two paths whose first bytes pass the check. -/
def PathsIn (p q : ℕ) : Prop :=
  validateUserBuf p 1 = true → validateUserBuf q 1 = true →
    p + 256 ≤ userSpaceEnd ∧ q + 256 ≤ userSpaceEnd

/-- A path whose first byte passes the check, and a record for its status that does. -/
def StatIn (p stat : ℕ) : Prop :=
  validateUserBuf p 1 = true → validateUserBuf stat 144 = true → p + 256 ≤ userSpaceEnd

/-- The terminal's settings and its size are unchecked. -/
def TtyIn (fd cmd p : ℕ) : Prop :=
  Tty.isTty fd = true → p ≠ 0 →
    (0x5401 ≤ cmd → cmd ≤ 0x5404 → p + 36 ≤ userSpaceEnd) ∧ (cmd = 0x5413 → p + 8 ≤ userSpaceEnd)

/-- An unchecked pointer to `n` bytes, unless null. -/
def NullOrIn (p n : ℕ) : Prop := p ≠ 0 → p + n ≤ userSpaceEnd

section Rules

variable {α : Type}

theorem safe_check_iff {c : Bool} {e : α} {k : Sys α} :
    (if !c then pure e else k).Safe InUser ↔ (c = true → k.Safe InUser) := by
  refine ⟨fun h hc => ?_, safe_check⟩
  simpa [hc] using h

theorem safe_check_congr {c : Bool} {e : α} {k : Sys α} {P : Prop}
    (h : c = true → (k.Safe InUser ↔ P)) :
    (if !c then pure e else k).Safe InUser ↔ (c = true → P) :=
  safe_check_iff.trans (imp_congr_right h)

theorem safe_guard_iff {c : Prop} [Decidable c] {e : α} {k : Sys α} :
    (if c then pure e else k).Safe InUser ↔ (¬c → k.Safe InUser) := by
  refine ⟨fun h hc => ?_, safe_guard⟩
  rwa [if_neg hc] at h

theorem safe_vnode_bind_iff {fd : ℕ} {f : Option Vnode → Sys α} (hnone : (f none).Safe InUser) :
    (vnode fd >>= f).Safe InUser ↔ (fd < 64 → ∀ kind, (f (some kind)).Safe InUser) :=
  (within_bind _).trans (within_vnode.trans (and_iff_right hnone))

end Rules

/-! ### Paths -/

section Paths

variable {p : ℕ} (hp : p < 2 ^ 64)
include hp

theorem safe_pathRequest_iff (h0 : p ≠ 0) :
    (Vfs.pathRequest p).Safe InUser ↔ p + 256 ≤ userSpaceEnd := by
  rw [← safe_readCstrRaw_iff hp h0]
  refine safe_bind_iff fun r => ?_
  cases r with
  | none => exact safe_pure
  | some => exact safe_value

theorem safe_lookup_iff (h0 : p ≠ 0) : (Vfs.lookup p).Safe InUser ↔ p + 256 ≤ userSpaceEnd := by
  rw [← safe_readCstrRaw_iff hp h0]
  refine safe_bind_iff fun r => ?_
  cases r with
  | none => exact safe_pure
  | some => exact safe_flag

/-- A handler that reads a path once its first byte has passed the check. -/
theorem safe_checkPath_iff {e : ℤ} {k : Sys ℤ}
    (hk : k.Safe InUser ↔ (Vfs.pathRequest p).Safe InUser) :
    (if !validateUserBuf p 1 then pure e else k).Safe InUser ↔ PathIn p :=
  safe_check_congr fun h => hk.trans (safe_pathRequest_iff hp (validateUserBuf_iff.1 h).1)

@[simp] theorem safe_sysFaccessat_iff : (sysFaccessat p).Safe InUser ↔ PathIn p := by
  refine safe_check_congr fun h => ?_
  rw [← safe_lookup_iff hp (validateUserBuf_iff.1 h).1]
  refine ⟨Safe.of_bind, fun hl => ?_⟩
  exact hl.bind fun _ => safe_ite (fun _ => safe_pure) fun _ =>
    hl.bind fun _ => safe_ite (fun _ => safe_pure) fun _ => safe_pure

theorem safe_sysNewfstatat_iff {stat : Buf} :
    (sysNewfstatat p stat).Safe InUser ↔ StatIn p stat.ptr := by
  refine safe_check_congr fun h => ?_
  refine safe_check_congr fun hs => ?_
  have h0 := (validateUserBuf_iff.1 h).1
  have hvalid : stat.Valid 144 := by
    cases stat with
    | caller => exact valid_of_validate hs
    | own => trivial
  refine ⟨fun hsafe => (safe_lookup_iff hp h0).1 hsafe.of_bind, fun hin => ?_⟩
  refine ((safe_lookup_iff hp h0).2 hin).bind fun _ => safe_ite (fun _ => ?_) fun _ => ?_
  · exact (hvalid.fields (by decide)).ret
  · exact ((safe_pathRequest_iff hp h0).2 hin).bind fun _ => safe_guard fun _ =>
      safe_sysFstat_of_valid hvalid

@[simp] theorem safe_sysStatAtPath_iff {stat : ℕ} :
    (sysStatAtPath p stat).Safe InUser ↔ StatIn p stat := by
  refine safe_check_congr fun h => ?_
  refine safe_check_congr fun _ => ?_
  exact (safe_bind_iff fun _ => safe_guard fun _ => safe_sysFstat).trans <|
    safe_pathRequest_iff hp (validateUserBuf_iff.1 h).1

@[simp] theorem safe_sysStatx_iff {statxbuf : ℕ} :
    (sysStatx p statxbuf).Safe InUser ↔
      (validateUserBuf statxbuf 256 = true → PathIn p) := by
  refine safe_check_congr fun hx => ?_
  constructor
  · intro h hpath
    -- the kernel's own record may lie at an address that passes the check
    have hrec : (sysNewfstatat p (.own 4096)).Safe InUser :=
      Safe.of_bind (((within_bind _).1 h).2 (4096 : ℕ))
    exact (safe_sysNewfstatat_iff hp).1 hrec hpath (by decide)
  · intro h
    refine (safe_touch hx (by decide)).bind fun _ => safe_count.bind fun q => ?_
    refine ((safe_sysNewfstatat_iff hp).2 fun hpath _ => h hpath).bind fun _ => ?_
    exact safe_guard fun _ => (safe_fields hx (by decide)).ret

@[simp] theorem safe_sysOpen_iff : (sysOpen p).Safe InUser ↔ p + 255 ≤ userSpaceEnd :=
  (safe_bind_iff fun _ => safe_value).trans (safe_readCstrForVfs_iff hp)

@[simp] theorem safe_sysChdir_iff :
    (sysChdir p).Safe InUser ↔ (validateUserBuf p 1 = true → p + 255 ≤ userSpaceEnd) := by
  refine safe_check_congr fun _ => ?_
  refine ⟨fun h => (safe_readCstrForVfs_iff hp).1 h.of_bind, fun h => ?_⟩
  exact ((safe_readCstrForVfs_iff hp).2 h).bind fun _ =>
    ((safe_sysOpen_iff hp).2 h).bind fun _ => safe_guard fun _ => safe_pure

@[simp] theorem safe_sysRenameat_iff {q : ℕ} (hq : q < 2 ^ 64) :
    (sysRenameat p q).Safe InUser ↔ PathsIn p q := by
  refine safe_check_congr fun h => ?_
  refine safe_check_congr fun h' => ?_
  have hp0 := (validateUserBuf_iff.1 h).1
  rw [← safe_readCstrRaw_iff hp hp0, ← safe_readCstrRaw_iff hq (validateUserBuf_iff.1 h').1]
  constructor
  · -- the first path may be empty: then the second is read
    intro hsafe
    have hraw := (within_bind _).1 hsafe
    simp only [readCstrRaw, if_neg hp0, within_bind, within_pure] at hraw
    exact ⟨hsafe.of_bind, Safe.of_bind (within_readBytes_nil (by norm_num) hraw)⟩
  · rintro ⟨h1, h2⟩
    refine h1.bind fun r => ?_
    cases r with
    | none => exact safe_pure
    | some =>
      refine h2.bind fun r => ?_
      cases r with
      | none => exact safe_pure
      | some => exact safe_value

@[simp] theorem safe_sysMemfdCreate_iff : (sysMemfdCreate p).Safe InUser ↔ NullOrIn p 48 := by
  unfold sysMemfdCreate NullOrIn
  by_cases h : p = 0
  · simp [h]
  · rw [if_pos h, safe_bind_iff fun _ => safe_value,
      safe_readBytes_iff hp (by norm_num) (by norm_num)]
    simp [h]

end Paths

/-! ### Pointers that are not checked -/

section Unchecked

variable {p q : ℕ} {fd n : ℕ} {c : Prop}

theorem safe_touch_iff (hp : p < 2 ^ 64) (hn : n ≠ 0) :
    (touch p 0 n).Safe InUser ↔ p + n ≤ userSpaceEnd := by
  rw [← inUser_zero_iff hp hn]
  exact and_iff_left trivial

/-- An optional record is a demand of its own, whatever follows. -/
theorem safe_when_bind_iff {α : Type} [Decidable c] {x : Sys Unit} {k : Sys α} {D : Prop}
    (hx : ∀ R, x.Within InUser R ↔ D ∧ R ()) :
    (do when c x; k).Safe InUser ↔ (c → D) ∧ k.Safe InUser :=
  (within_bind _).trans (within_when_and (hx _))

/-- An optional word or record at `p`: a demand of its own, whatever follows. -/
theorem safe_when_touch_iff {α : Type} (hp : p < 2 ^ 64) [Decidable c] (hn : n ≠ 0) {k : Sys α} :
    (do when c (touch p 0 n); k).Safe InUser ↔ (c → p + n ≤ userSpaceEnd) ∧ k.Safe InUser := by
  rw [safe_when_bind_iff fun _ => within_touch', inUser_zero_iff hp hn]

theorem safe_when_iff [Decidable c] {x : Sys Unit} : (when c x).Safe InUser ↔ (c → x.Safe InUser) :=
  (within_when c x).trans (and_iff_left fun _ => trivial)

/-- A table that may answer either way. -/
theorem safe_flag_check_iff {α : Type} {x k : Sys α} (hx : x.Safe InUser) :
    (do if !(← flag) then x else k : Sys α).Safe InUser ↔ k.Safe InUser :=
  ⟨fun h => h true, fun h => safe_flag.bind fun _ => safe_ite (fun _ => hx) fun _ => h⟩

section

variable (hp : p < 2 ^ 64)
include hp

@[simp] theorem safe_sysRtSigaction_iff {signum : ℕ} (hq : q < 2 ^ 64) :
    (sysRtSigaction signum p q).Safe InUser ↔
      (signum ≠ 0 → signum < 64 →
        (q ≠ 0 → signum ≤ 4 → q + 32 ≤ userSpaceEnd) ∧
        (p ≠ 0 → q = 0 ∨ signum ≤ 4 → p + 32 ≤ userSpaceEnd)) := by
  refine safe_guard_iff.trans ?_
  rw [not_or, not_le, and_imp]
  refine imp_congr_right fun _ => imp_congr_right fun _ => ?_
  refine (safe_flag_check_iff safe_pure).trans ?_
  rw [Safe, within_bind, within_when]
  simp only [within_bind, within_when, within_ite, within_halt, within_touch', within_pure,
    inUser_zero_iff hp (show 32 ≠ 0 by decide), inUser_zero_iff hq (show 32 ≠ 0 by decide)]
  by_cases h4 : 4 < signum <;> by_cases hp0 : p = 0 <;> by_cases hq0 : q = 0 <;>
    simp [h4, hp0, hq0, not_le.2, not_lt.1]

@[simp] theorem safe_sysRtSigprocmask_iff {how : ℕ} (hq : q < 2 ^ 64) :
    (sysRtSigprocmask how p q).Safe InUser ↔ NullOrIn q 8 ∧ NullOrIn p 8 := by
  refine (safe_flag_check_iff safe_pure).trans ?_
  rw [safe_when_touch_iff hq (by decide), safe_when_touch_iff hp (by decide)]
  exact and_congr Iff.rfl (and_iff_left safe_pure)

theorem safe_sysCloneOrFork_iff {flags frame : ℕ} :
    (sysCloneOrFork flags p frame).Safe InUser ↔
      (flags.testBit 8 → frame ≠ 0 → flags.testBit 24 → p ≠ 0 → p + 4 ≤ userSpaceEnd) := by
  unfold sysCloneOrFork
  by_cases h8 : flags.testBit 8 = true
  · rw [if_pos h8]
    refine safe_guard_iff.trans ?_
    simp only [h8, true_imp_iff]
    refine imp_congr_right fun _ => (safe_flag_check_iff safe_value).trans ?_
    rw [safe_bind_iff fun _ => safe_value, ← and_imp, ← safe_touch_iff hp (by decide)]
    -- the address space may translate `ctid`, or not
    have hset : (do if ← mapped p then touch p 0 4 : Sys Unit).Safe InUser ↔
        (touch p 0 4).Safe InUser :=
      ⟨fun h => h true, fun h => safe_mapped.bind fun _ => safe_ite (fun _ => h) fun _ => safe_pure⟩
    rw [← hset]
    exact safe_when_iff
  · rw [if_neg h8]
    exact iff_of_true safe_value fun h => absurd h h8

@[simp] theorem safe_sysTimerCreate_iff : (sysTimerCreate q p).Safe InUser ↔ NullOrIn p 4 := by
  have hrest : (Tty.handleTimerCreate p).Safe InUser ↔ NullOrIn p 4 := by
    refine (safe_flag_check_iff safe_value).trans ?_
    exact (safe_when_touch_iff hp (by decide)).trans (and_iff_left safe_pure)
  rw [← hrest]
  refine (safe_when_bind_iff fun _ => within_touch').trans (and_iff_right fun h => ?_)
  exact inUser_of_validate h.2 le_rfl

@[simp] theorem safe_sysTimerfdGettime_iff :
    (sysTimerfdGettime fd p).Safe InUser ↔ (p ≠ 0 → fd < 64 → p + 32 ≤ userSpaceEnd) := by
  refine safe_guard_iff.trans (imp_congr_right fun _ => ?_)
  have hrec : FieldsIn p [(0, 8), (8, 8), (16, 8), (24, 8)] ↔ p + 32 ≤ userSpaceEnd :=
    fieldsIn_iff hp (by decide)
  rw [← hrec]
  refine (safe_vnode_bind_iff (by exact safe_pure)).trans (imp_congr_right fun _ => ?_)
  constructor
  · intro h
    exact (within_fields.1 (Safe.of_bind (h (.timerFd 0)))).1
  · intro h kind
    cases kind with
    | timerFd => exact (within_bind _).2 (within_fields.2 ⟨h, trivial⟩)
    | _ => exact safe_pure

@[simp] theorem safe_sysAccept_iff :
    (sysAccept fd p).Safe InUser ↔ (Net.isSock fd = true → NullOrIn p 16) := by
  refine safe_check_congr fun _ => ?_
  have hrec : FieldsIn p [(0, 16), (0, 2), (4, 4)] ↔ p + 16 ≤ userSpaceEnd :=
    fieldsIn_iff hp (by decide)
  rw [NullOrIn, ← hrec]
  constructor
  · intro h hp0
    -- an internet connection is pending
    have hinet := (safe_flag_check_iff safe_value).1 (h (some true))
    exact (within_fields.1 (safe_when_iff.1 hinet.of_bind hp0)).1
  · intro h conn
    rcases conn with _ | inet
    · exact safe_value
    · refine (safe_flag_check_iff safe_value).2 ((safe_when fun hp0 => ?_).bind fun _ => safe_value)
      cases inet with
      | true => exact within_fields.2 ⟨h hp0, trivial⟩
      | false => exact ⟨inUser_part (hrec.1 (h hp0)) (by decide), trivial⟩

@[simp] theorem safe_sysGetsockname_iff (hq : q < 2 ^ 64) :
    (sysGetsockname p q).Safe InUser ↔
      (p ≠ 0 → q ≠ 0 → p + 2 ≤ userSpaceEnd ∧ q + 4 ≤ userSpaceEnd) := by
  refine safe_guard_iff.trans ?_
  rw [not_or, and_imp]
  refine imp_congr_right fun _ => imp_congr_right fun _ => ?_
  rw [← inUser_zero_iff hp (by decide), ← inUser_zero_iff hq (by decide)]
  exact and_congr Iff.rfl (and_iff_left trivial)

@[simp] theorem safe_sysGetsockopt_iff {level optname : ℕ} (hq : q < 2 ^ 64) :
    (sysGetsockopt level optname p q).Safe InUser ↔
      (level = 1 → optname = 4 → NullOrIn p 4 ∧ NullOrIn q 4) := by
  refine (safe_bind_iff fun _ => safe_pure).trans (safe_when_iff.trans ?_)
  rw [and_imp]
  refine imp_congr_right fun _ => imp_congr_right fun _ => ?_
  refine (safe_when_touch_iff hp (by decide)).trans (and_congr_right fun _ => ?_)
  exact safe_when_iff.trans (imp_congr_right fun _ => safe_touch_iff hq (by decide))

theorem safe_ttyIoctl_iff {cmd : ℕ} : (Tty.handleIoctl fd cmd p).Safe InUser ↔ TtyIn fd cmd p := by
  refine safe_check_congr fun _ => (safe_flag_check_iff safe_pure).trans ?_
  have htermios : FieldsIn p [(0, 4), (4, 4), (8, 4), (12, 4), (16, 1), (17, 19)] ↔
      p + 36 ≤ userSpaceEnd :=
    fieldsIn_iff hp (by decide)
  have hwinsize : FieldsIn p [(0, 2), (2, 2), (4, 2), (6, 2)] ↔ p + 8 ≤ userSpaceEnd :=
    fieldsIn_iff hp (by decide)
  have hrecord {fs : List (ℕ × ℕ)} {n : ℕ} (hfs : FieldsIn p fs ↔ p + n ≤ userSpaceEnd) :
      (if p = 0 then pure (-14) else do fields p fs; pure 0 : Sys ℤ).Safe InUser ↔
        (p ≠ 0 → p + n ≤ userSpaceEnd) := by
    rw [← hfs]
    exact safe_guard_iff.trans (imp_congr_right fun _ =>
      (within_bind _).trans (within_fields.trans (and_iff_left trivial)))
  split
  case h_5 => exact (hrecord hwinsize).trans (by simp)
  case h_6 h1 h2 h3 h4 h5 =>
    rw [imp_false] at h1 h2 h3 h4 h5
    exact iff_of_true safe_pure fun _ => ⟨by omega, by omega⟩
  all_goals exact (hrecord htermios).trans (by simp)

theorem safe_vfsIoctl_read_iff :
    (Vfs.handleIoctl fd 0x541B p).Safe InUser ↔ (p ≠ 0 → fd < 64 → p + 4 ≤ userSpaceEnd) := by
  refine safe_guard_iff.trans (imp_congr_right fun _ => ?_)
  refine (safe_vnode_bind_iff (by exact safe_pure)).trans (imp_congr_right fun _ => ?_)
  rw [← safe_touch_iff hp (by decide)]
  constructor
  · exact fun h => Safe.of_bind (h (.ramFile 0))
  · intro h kind
    cases kind with
    | pipeRead | ramFile | tmpFile | eventFd | timerFd => exact h.ret
    | _ => exact safe_pure

end

theorem safe_vfsIoctl_fb (h : p + 32 ≤ userSpaceEnd) :
    (Vfs.handleIoctl fd 0x4600 p).Safe InUser := by
  refine safe_vnode.bind fun kind => ?_
  rcases kind with _ | kind
  · exact safe_pure
  · cases kind with
    | devFb => exact Safe.bind ⟨inUser_part h (by decide), trivial⟩ fun _ => safe_pure
    | _ => exact safe_pure

/-- `FIONREAD` of a descriptor of the file server and the terminal's requests are unchecked; the
framebuffer's request is checked. -/
@[simp] theorem safe_sysIoctl_iff {cmd : ℕ} (hp : p < 2 ^ 64) :
    (sysIoctl fd cmd p).Safe InUser ↔
      (cmd = 0x541B → fd ≠ 0 → p ≠ 0 → fd < 64 → p + 4 ≤ userSpaceEnd) ∧ TtyIn fd cmd p := by
  unfold sysIoctl
  by_cases hread : cmd = 0x541B
  · subst hread
    have htty : (Tty.handleIoctl fd 0x541B p).Safe InUser := (safe_ttyIoctl_iff hp).2 (by simp [TtyIn])
    by_cases hfd : fd = 0
    · subst hfd
      rw [if_pos (by simp)]
      refine iff_of_true (safe_guard fun hc => ?_) ⟨by simp, by simp [TtyIn]⟩
      have h : validateUserBuf p 4 = true := by simp at hc; exact hc.2
      exact (safe_touch h (by decide)).ret
    · rw [if_neg (by simp [hfd]), if_pos (by simp), if_neg (by simp),
        safe_bind_iff fun _ => safe_guard fun _ => htty, safe_vfsIoctl_read_iff hp]
      simp [hfd, TtyIn]
  by_cases hfb : cmd = 0x4600
  · subst hfb
    have htty : (Tty.handleIoctl fd 0x4600 p).Safe InUser := (safe_ttyIoctl_iff hp).2 (by simp [TtyIn])
    rw [if_neg (by simp), if_pos (by simp)]
    refine iff_of_true (safe_guard fun hc => ?_) ⟨by simp, by simp [TtyIn]⟩
    -- a null pointer passes the check: the first bytes of user space are touched
    have h : p + 32 ≤ userSpaceEnd := by
      by_cases hp0 : p = 0
      · subst hp0
        decide
      · have : validateUserBuf p 32 = true := by simpa [hp0] using hc
        exact (validateUserBuf_iff.1 this).2
    exact (safe_vfsIoctl_fb h).bind fun _ => safe_guard fun _ => htty
  · rw [if_neg (by simp [hread]), if_neg (by simp [hread, hfb]), safe_ttyIoctl_iff hp]
    exact (and_iff_right fun h => absurd h hread).symm

/-- The address space may translate the whole range. -/
theorem within_userCopy_true {turns va len : ℕ} {R : Bool → Prop}
    (h : (userCopy turns va len).Within InUser R) : R true := by
  induction turns generalizing va len with
  | zero => exact h
  | succ turns ih =>
    unfold userCopy at h
    by_cases h0 : len = 0
    · rwa [if_pos h0] at h
    · rw [if_neg h0] at h
      exact ih (h true).2

/-- The pointers in an argument array may point anywhere. -/
theorem not_within_pushStrings {R : Unit → Prop} (h : validateUserBuf p 8 = true)
    (hp : p < 2 ^ 64) : ¬(pushStrings p (n + 1) 0 0 0).Within InUser R := by
  intro hsafe
  unfold pushStrings at hsafe
  simp only [wadd_zero hp, h, Bool.not_true, Bool.false_eq_true] at hsafe
  have hcopy := within_userCopy_true ((within_bind _).1 hsafe)
  have hstr := hcopy (⟨2 ^ 63, by norm_num⟩ : Fin (2 ^ 64))
  have hlow := (inUser_zero_iff (by norm_num) (by decide)).1 hstr.1
  norm_num [userSpaceEnd] at hlow

theorem within_argv_iff {R : Unit → Prop} (hp : p < 2 ^ 64) :
    (when (p ≠ 0) (pushStrings p 64 0 0 0)).Within InUser R ↔
      validateUserBuf p 8 = false ∧ R () := by
  rw [within_when]
  by_cases h : validateUserBuf p 8 = true
  · have hp0 := (validateUserBuf_iff.1 h).1
    refine iff_of_false (fun hw => not_within_pushStrings h hp (hw.1 hp0)) ?_
    simp [h]
  · rw [Bool.not_eq_true] at h
    have hnone : (pushStrings p 64 0 0 0).Within InUser R ↔ R () := by
      unfold pushStrings
      simp [wadd_zero hp, h]
    rw [h, hnone]
    by_cases hp0 : p = 0 <;> simp [hp0]

@[simp] theorem safe_sysExecve_iff {path : ℕ} (hpath : path < 2 ^ 64) (hp : p < 2 ^ 64)
    (hq : q < 2 ^ 64) :
    (sysExecve path p q).Safe InUser ↔
      (validateUserBuf path 1 = true →
        path + 256 ≤ userSpaceEnd ∧ validateUserBuf p 8 = false ∧
          validateUserBuf q 8 = false) := by
  refine safe_check_congr fun h => ?_
  have hcopy : (userCopy 256 path 256).Safe InUser ↔ path + 256 ≤ userSpaceEnd := by
    rw [safe_userCopy_iff hpath le_rfl]
    omega
  have hstrings : (do
      when (p ≠ 0) (pushStrings p 64 0 0 0)
      when (q ≠ 0) (pushStrings q 64 0 0 0)
      value : Sys ℤ).Safe InUser ↔ validateUserBuf p 8 = false ∧ validateUserBuf q 8 = false := by
    refine (within_bind _).trans ((within_argv_iff hp).trans (and_congr_right fun _ => ?_))
    exact (within_bind _).trans ((within_argv_iff hq).trans (and_iff_left safe_value))
  rw [← hcopy, ← hstrings]
  constructor
  · intro hsafe
    have hfound := within_userCopy_true ((within_bind _).1 hsafe)
    exact ⟨hsafe.of_bind, (safe_flag_check_iff safe_value).1 hfound⟩
  · rintro ⟨h1, h2⟩
    exact h1.bind fun _ => safe_check fun _ => (safe_flag_check_iff safe_value).2 h2

end Unchecked

/-! ### Buffers and arrays checked for another length -/

section Lengths

variable {p q : ℕ} {n ready off fd nfds i : ℕ}

/-- The bytes of a directory's records: whole multiples of eight, as many as fit. -/
theorem within_writeDirent {name : ℕ} {R : Option ℕ → Prop} :
    (Vfs.writeDirent p off n name).Within InUser R ↔
      if off + (name + 27) / 8 * 8 ≤ n then
        FieldsIn p [(off, 8), (off + 8, 8), (off + 16, 2), (off + 18, 1), (off + 19, name),
          (off + 19 + name, 1)] ∧ R (some ((name + 27) / 8 * 8))
      else R none := by
  have hreclen : (8 + 8 + 2 + 1 + name + 1 + 7) / 8 * 8 = (name + 27) / 8 * 8 := by omega
  unfold Vfs.writeDirent
  simp only [hreclen, within_ite, within_bind, within_fields, within_pure]
  by_cases h : off + (name + 27) / 8 * 8 ≤ n
  · simp [h]
  · simp [h, not_le.1 h]

theorem safe_writeDirent_bind {name : ℕ} {f : Option ℕ → Sys ℤ} (h : p + n / 8 * 8 ≤ userSpaceEnd)
    (hoff : off % 8 = 0) (hsome : ∀ r, r % 8 = 0 → (f (some r)).Safe InUser)
    (hnone : (f none).Safe InUser) : (Vfs.writeDirent p off n name >>= f).Safe InUser := by
  rw [Safe, within_bind, within_writeDirent]
  split
  · refine ⟨fieldsIn_of_le h ?_, hsome _ (by omega)⟩
    simp only [forall_mem_cons, not_mem_nil, false_imp_iff, implies_true, and_true]
    omega
  · exact hnone

/-- The bytes of a directory's records: whole multiples of eight, as many as fit. -/
theorem safe_writeDirents (h : p + n / 8 * 8 ≤ userSpaceEnd) (names : List ℕ) {idx pos : ℕ}
    (hoff : off % 8 = 0) : (Vfs.writeDirents p n names idx pos off).Safe InUser := by
  induction names generalizing idx pos off with
  | nil => exact safe_pure
  | cons name names ih =>
    refine safe_ite (fun _ => ?_) fun _ => ih hoff
    exact safe_writeDirent_bind h hoff (fun r hr => ih (by omega)) safe_pure

@[simp] theorem safe_sysGetdents64_iff (hp : p < 2 ^ 64) :
    (sysGetdents64 fd p n).Safe InUser ↔
      (validateUserBuf p (min n 1) = true → 64 ≤ n → fd < 64 →
        p + n / 8 * 8 ≤ userSpaceEnd) := by
  refine safe_check_congr fun _ => safe_guard_iff.trans ?_
  rw [not_lt]
  refine imp_congr_right fun hn => (safe_vnode_bind_iff (by exact safe_pure)).trans ?_
  refine imp_congr_right fun _ => ?_
  constructor
  · intro h
    -- one name as long as the buffer can take
    have hdir := h (.ramFile 0) ((2, [n / 8 * 8 - 20]) : ℕ × List ℕ)
    have hrec : (Vfs.writeDirents p n [n / 8 * 8 - 20] 2 2 0).Safe InUser := hdir
    have hone := Safe.of_bind hrec
    rw [Safe, within_writeDirent, if_pos (by omega)] at hone
    have hfirst := hone.1 (0, 8) (.head _)
    have hname := hone.1 (0 + 19, n / 8 * 8 - 20) (by simp)
    have hnul := hone.1 (0 + 19 + (n / 8 * 8 - 20), 1) (by simp)
    rw [inUser_iff] at hfirst hname hnul
    unfold wadd at hfirst hname hnul
    unfold userSpaceEnd at *
    omega
  · intro h kind
    cases kind with
    | ramFile =>
      rintro ⟨pos, names⟩
      refine safe_ite (fun _ => ?_) fun _ => safe_ite (fun _ => ?_) fun _ => ?_
      · refine safe_writeDirent_bind h rfl (fun r hr => ?_) safe_pure
        exact safe_writeDirent_bind h hr (fun r' hr' => safe_writeDirents h _ (by omega)) safe_pure
      · exact safe_writeDirent_bind h rfl (fun r hr => safe_writeDirents h _ hr) safe_pure
      · exact safe_writeDirents h _ rfl
    | _ => exact safe_pure

@[simp] theorem safe_sysGetcwd_iff (hp : p < 2 ^ 64) :
    (sysGetcwd p n).Safe InUser ↔
      (validateUserBuf p (min n 1) = true → 2 ≤ n → p + min n 128 ≤ userSpaceEnd) := by
  refine safe_check_congr fun _ => ?_
  constructor
  · intro h hn
    -- the longest name that fits
    have hlen := h (⟨min n 128 - 1, by omega⟩ : Fin 128)
    have hfields := (safe_guard_iff.1 hlen (by simp only; omega)).of_bind
    have hlast := (within_fields.1 hfields).1 (min n 128 - 1, 1) (by simp)
    have hfirst := (within_fields.1 hfields).1 (0, min n 128 - 1) (by simp)
    rw [inUser_iff] at hfirst hlast
    unfold wadd at hfirst hlast
    unfold userSpaceEnd at *
    omega
  · intro h (len : Fin 128)
    have hlen := len.isLt
    refine safe_guard fun hc => ?_
    have hle := h (by omega)
    refine (within_bind _).2 (within_fields.2 ⟨fieldsIn_of_le hle ?_, trivial⟩)
    simp only [forall_mem_cons, not_mem_nil, false_imp_iff, implies_true, and_true]
    omega

@[simp] theorem safe_sysReadlinkat_iff {size : ℕ} (hp : p < 2 ^ 64) :
    (sysReadlinkat p q size).Safe InUser ↔
      (validateUserBuf p 1 = true → size ≠ 0 → validateUserBuf q size = true →
        p + 255 ≤ userSpaceEnd) := by
  refine safe_check_congr fun _ => safe_guard_iff.trans ?_
  rw [not_or, and_imp, Bool.not_eq_true', Bool.not_eq_false]
  refine imp_congr_right fun _ => imp_congr_right fun h => ?_
  rw [← safe_readBytes_iff hp (by decide) (by decide)]
  refine safe_bind_iff fun r => ?_
  refine safe_ite (fun _ => ?_) fun _ => safe_guard fun _ => safe_ite (fun _ => ?_) fun _ => ?_
  · exact (safe_touch h (by omega)).ret
  · refine safe_guard fun _ => safe_vnode.bind fun kind => ?_
    rcases kind with _ | kind
    · exact safe_pure
    · refine safe_flagValue <| ?_
      exact safe_count.bind fun _ => (safe_touch h (by omega)).ret
  · exact safe_pure

/-- A message header may point anywhere. -/
theorem safe_eachOfMsg_iff {e : ℤ} {one : ℕ → ℕ → Sys ℤ} :
    (if !validateUserBuf p 48 then pure e else Net.eachOfMsg one p).Safe InUser ↔
      validateUserBuf p 48 = false := by
  refine safe_check_iff.trans ⟨fun h => ?_, fun h hc => absurd hc (by simp [h])⟩
  by_contra hc
  rw [Bool.not_eq_false] at hc
  have hiov := (safe_guard_iff.1 (h hc) (validateUserBuf_iff.1 hc).1).2 (2 ^ 63) (by norm_num)
  have hcnt := hiov.2 1 (by norm_num)
  have hbase := (inUser_zero_iff (wadd_lt ..) (by decide)).1 hcnt.1
  norm_num [wadd, userSpaceEnd] at hbase

theorem safe_ppollLoop (h : validateUserBuf p (satMul nfds 8) = true)
    (hn : i + n ≤ nfds) : (ppollLoop p n i ready).Safe InUser := by
  induction n generalizing i ready with
  | zero => exact safe_pure
  | succ n ih =>
    have hrec := record_le h (show i < nfds by omega)
    refine (safe_load h (by omega)).bind fun fd => (safe_touch h (by omega)).bind fun _ => ?_
    refine safe_ite (fun _ => ?_) fun _ => safe_flag.bind fun event => ?_
    · exact (safe_touch h (by omega)).bind fun _ => ih (by omega)
    · exact (safe_touch h (by omega)).bind fun _ => ih (by omega)

/-- All descriptors may be negative: then none is ready. -/
theorem within_ppollLoop_zero {R : ℕ → Prop}
    (h : (ppollLoop p n i ready).Within InUser R) : R ready := by
  induction n generalizing i with
  | zero => exact h
  | succ n ih =>
    have hneg := (h.2 (2 ^ 31) (by norm_num)).2
    exact ih hneg.2

@[simp] theorem safe_sysPpoll_iff (hq : q < 2 ^ 64) :
    (sysPpoll p nfds q).Safe InUser ↔
      (nfds ≠ 0 → validateUserBuf p (satMul nfds 8) = true → NullOrIn q 16) := by
  refine safe_guard_iff.trans (imp_congr_right fun _ => ?_)
  refine safe_check_congr fun h => ?_
  have hrec : FieldsIn q [(0, 8), (8, 8)] ↔ q + 16 ≤ userSpaceEnd := fieldsIn_iff hq (by decide)
  rw [NullOrIn, ← hrec]
  constructor
  · intro hsafe hq0
    have hzero := within_ppollLoop_zero ((within_bind _).1 hsafe)
    exact (within_fields.1 (safe_when_iff.1 (Safe.of_bind hzero) ⟨rfl, hq0⟩)).1
  · intro hq'
    refine (safe_ppollLoop h (by omega)).bind fun ready => ?_
    exact (safe_when fun hc => within_fields.2 ⟨hq' hc.2, trivial⟩).ret

theorem safe_epollLoop (h : p + min n 32 * 12 ≤ userSpaceEnd) (entries : List (Option Bool))
    (hlen : ready + entries.length ≤ 32) : (epollLoop p n entries ready).Safe InUser := by
  induction entries generalizing ready with
  | nil => exact safe_pure
  | cons entry entries ih =>
    rw [length_cons] at hlen
    rcases entry with _ | event
    · exact safe_pure
    · refine safe_guard fun hready => safe_ite (fun _ => ?_) fun _ => ih (by omega)
      refine (within_bind _).2 (within_fields.2 ⟨fieldsIn_of_le h ?_, ih (by omega)⟩)
      simp only [forall_mem_cons, not_mem_nil, false_imp_iff, implies_true, and_true]
      omega

/-- When every entry is ready, a record is written for each that fits. -/
theorem fieldsIn_of_safe_epollLoop {m : ℕ}
    (h : (epollLoop p n (replicate m (some true)) ready).Safe InUser) (hi : i < m)
    (hn : ready + i < n) : FieldsIn p [((ready + i) * 12, 4), ((ready + i) * 12 + 4, 8)] := by
  induction m generalizing ready i with
  | zero => omega
  | succ m ih =>
    have hrec := (within_bind _).1 (safe_guard_iff.1 h (by omega))
    have hstep := within_fields.1 hrec
    cases i with
    | zero => exact hstep.1
    | succ i =>
      have := ih hstep.2 (i := i) (by omega) (by omega)
      rwa [show ready + 1 + i = ready + (i + 1) by omega] at this

@[simp] theorem safe_sysEpollWait_iff {epfd : ℕ} (hp : p < 2 ^ 64) :
    (sysEpollWait epfd p n).Safe InUser ↔
      (n ≠ 0 → validateUserBuf p (n * 12 % 2 ^ 64) = true → 0x400 ≤ epfd → epfd < 0x410 →
        p + min n 32 * 12 ≤ userSpaceEnd) := by
  refine safe_guard_iff.trans (imp_congr_right fun hn => ?_)
  refine safe_check_congr fun _ => safe_guard_iff.trans ?_
  rw [not_or, not_lt, not_le, and_imp]
  refine imp_congr_right fun _ => imp_congr_right fun _ => (safe_flag_check_iff safe_pure).trans ?_
  constructor
  · intro h
    have hall : (epollLoop p n (ofFn fun _ : Fin 32 => some true) 0).Safe InUser :=
      h fun _ => some true
    rw [ofFn_const] at hall
    have hfirst := fieldsIn_of_safe_epollLoop hall (i := 0) (by omega) (by omega) _ (.head _)
    have hlast := fieldsIn_of_safe_epollLoop hall (i := min n 32 - 1) (by omega) (by omega)
      ((0 + (min n 32 - 1)) * 12 + 4, 8) (by simp)
    rw [inUser_iff] at hfirst hlast
    unfold wadd at hfirst hlast
    unfold userSpaceEnd at *
    omega
  · intro h (entries : Fin 32 → Option Bool)
    exact safe_epollLoop h _ (by simp)

/-- A set of no bytes still gets a last one. -/
theorem within_fillSet {bytes : ℕ} {R : Unit → Prop} (hp : p < 2 ^ 64) :
    (fillSet p bytes).Within InUser R ↔ (bytes = 0 → p ≠ userSpaceEnd) ∧ R () := by
  refine within_when_fields.trans (and_congr_left fun _ => ?_)
  constructor
  · rintro h rfl rfl
    have := h ⟨by decide, by decide⟩ (0, 1) (by simp)
    rw [inUser_iff] at this
    revert this
    norm_num [wadd, userSpaceEnd]
  · rintro h ⟨hp0, hv⟩
    have hle := (validateUserBuf_iff.1 hv).2
    have : p + (bytes - 1 + 1) ≤ userSpaceEnd := by
      rcases Nat.eq_zero_or_pos bytes with rfl | hb
      · have := h rfl
        omega
      · omega
    refine fieldsIn_of_le this ?_
    simp

@[simp] theorem safe_sysSelect_iff (hp : p < 2 ^ 64) (hq : q < 2 ^ 64) :
    (sysSelect nfds p q).Safe InUser ↔
      (wadd nfds 7 / 8 = 0 → p ≠ userSpaceEnd ∧ q ≠ userSpaceEnd) := by
  rw [imp_and]
  refine (within_bind _).trans ((within_fillSet hp).trans (and_congr_right fun _ => ?_))
  exact (within_bind _).trans ((within_fillSet hq).trans (and_iff_left trivial))

end Lengths

/-! ### The table -/

/-- The arguments of a call are covered: what its handler touches at the addresses they give is
in user space, whatever the caller's memory holds and whatever the rest of the kernel answers.
For the calls not listed the handler's own checks see to it. -/
def Call.Covered (a : Args) : Call → Prop
  -- paths, checked for their first byte at most
  | mkdirat | unlinkat | faccessat => PathIn a.a1
  | mkdir | unlink | access | truncate => PathIn a.a0
  | newfstatat => StatIn a.a1 a.a2
  | stat => StatIn a.a0 a.a1
  | statx => validateUserBuf a.a4 256 = true → PathIn a.a1
  | renameat => PathsIn a.a1 a.a2
  | rename => PathsIn a.a0 a.a1
  | openPath => a.a0 + 255 ≤ userSpaceEnd
  | openat => a.a1 + 255 ≤ userSpaceEnd
  | chdir => validateUserBuf a.a0 1 = true → a.a0 + 255 ≤ userSpaceEnd
  | readlink => validateUserBuf a.a0 1 = true → a.a2.val ≠ 0 →
      validateUserBuf a.a1 a.a2 = true → a.a0 + 255 ≤ userSpaceEnd
  | readlinkat => validateUserBuf a.a1 1 = true → a.a3.val ≠ 0 →
      validateUserBuf a.a2 a.a3 = true → a.a1 + 255 ≤ userSpaceEnd
  | memfdCreate => NullOrIn a.a0 48
  | execve => validateUserBuf a.a0 1 = true →
      a.a0 + 256 ≤ userSpaceEnd ∧ validateUserBuf a.a1 8 = false ∧ validateUserBuf a.a2 8 = false
  -- pointers that are not checked
  | rtSigaction => a.a0.val ≠ 0 → a.a0.val < 64 →
      (a.a2.val ≠ 0 → a.a0.val ≤ 4 → a.a2 + 32 ≤ userSpaceEnd) ∧
      (a.a1.val ≠ 0 → a.a2.val = 0 ∨ a.a0.val ≤ 4 → a.a1 + 32 ≤ userSpaceEnd)
  | rtSigprocmask => NullOrIn a.a2 8 ∧ NullOrIn a.a1 8
  | clone => a.a0.val.testBit 8 → a.frame.val ≠ 0 → a.a0.val.testBit 24 → NullOrIn a.a4 4
  | timerCreate => NullOrIn a.a2 4
  | timerfdGettime => a.a1.val ≠ 0 → a.a0.val < 64 → a.a1 + 32 ≤ userSpaceEnd
  | ioctl =>
      (a.a1.val = 0x541B → a.a0.val ≠ 0 → a.a2.val ≠ 0 → a.a0.val < 64 →
        a.a2 + 4 ≤ userSpaceEnd) ∧ TtyIn a.a0 a.a1 a.a2
  | accept => Net.isSock a.a0 = true → NullOrIn a.a1 16
  | getsockname | getpeername => a.a1.val ≠ 0 → a.a2.val ≠ 0 →
      a.a1 + 2 ≤ userSpaceEnd ∧ a.a2 + 4 ≤ userSpaceEnd
  | getsockopt => a.a1.val = 1 → a.a2.val = 4 → NullOrIn a.a3 4 ∧ NullOrIn a.a4 4
  -- buffers and arrays checked for another length, or whose contents point on
  | sendmsg | recvmsg => validateUserBuf a.a1 48 = false
  | getdents64 => validateUserBuf a.a1 (min a.a2 1) = true → 64 ≤ a.a2.val → a.a0.val < 64 →
      a.a1 + a.a2 / 8 * 8 ≤ userSpaceEnd
  | getcwd => validateUserBuf a.a0 (min a.a1 1) = true → 2 ≤ a.a1.val →
      a.a0 + min a.a1.val 128 ≤ userSpaceEnd
  | ppoll => a.a1.val ≠ 0 → validateUserBuf a.a0 (satMul a.a1 8) = true → NullOrIn a.a2 16
  | epollWait => a.a2.val ≠ 0 → validateUserBuf a.a1 (a.a2 * 12 % 2 ^ 64) = true →
      0x400 ≤ a.a0.val → a.a0.val < 0x410 → a.a1 + min a.a2.val 32 * 12 ≤ userSpaceEnd
  | select => wadd a.a0 7 / 8 = 0 → a.a1.val ≠ userSpaceEnd ∧ a.a2.val ≠ userSpaceEnd
  | _ => True

theorem Call.safe_run_iff (arch : Arch) (a : Args) (c : Call) :
    (c.run arch a).Safe InUser ↔ c.Covered a := by
  have h0 := a.a0.isLt
  have h1 := a.a1.isLt
  cases c with
  | mkdirat | unlinkat => exact safe_checkPath_iff h1 Iff.rfl
  | mkdir | unlink => exact safe_checkPath_iff h0 Iff.rfl
  | truncate =>
    exact safe_checkPath_iff h0 (safe_bind_iff fun _ => safe_guard fun _ => safe_value)
  | newfstatat => exact safe_sysNewfstatat_iff h1
  | clone => exact safe_sysCloneOrFork_iff a.a4.isLt
  | getpeername => exact safe_sysGetsockname_iff h1 a.a2.isLt
  | sendmsg | recvmsg => exact safe_eachOfMsg_iff
  | clockGetres | getrlimit | prlimit64 => exact iff_true_intro safe_writePair
  | _ => simp [run, Covered]

/-- **What a system call touches at addresses its caller supplied, in every run, is in user space
exactly when the call's arguments are covered.** -/
theorem dispatch_inUser_iff (arch : Arch) (number : ℕ) (a : Args) :
    (∀ e, ∀ s ∈ spans e 0 (dispatch arch number a), InUser s) ↔ (arch.call number).Covered a :=
  (safe_iff 0).symm.trans (Call.safe_run_iff arch a (arch.call number))

/-- `rt_sigprocmask(0, NULL, 0xffff_8000_0000_0000)`. -/
def sigprocmaskArgs : Args := ⟨0, 0, 0xffff800000000000, 8, 0, 0, 0⟩

/-- **`rt_sigprocmask` writes the old mask to the kernel address it is given.** -/
theorem sigprocmask_leaves_user_space :
    ∃ e, ⟨0xffff800000000000, 8⟩ ∈ spans e 0 (dispatch .aarch64 135 sigprocmaskArgs) ∧
      ¬InUser ⟨0xffff800000000000, 8⟩ := by
  refine ⟨⟨fun _ => 0, fun _ q => match q with | .flag => true | _ => default⟩, ?_, ?_⟩
  · have hcall : Arch.aarch64.call 135 = .rtSigprocmask := rfl
    rw [dispatch, hcall]
    exact .head _
  · rw [inUser_iff]
    norm_num [userSpaceEnd]

end Cyanos.Caller
