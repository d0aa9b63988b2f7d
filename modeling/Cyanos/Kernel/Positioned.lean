import Cyanos.Kernel.Caller.Base
import Cyanos.Servers.Vfs.Effects

/-!
# Transfers at an offset

`sys_pread64` and `sys_pwrite64` of `kernel/src/syscall.rs`: requests to the file server that seek,
transfer and seek back.  `pread64` takes the reply to its seek for the offset to go back to, and
`pwrite64` does not look at that reply.

* `transfers_at_iff` : **when the two calls transfer at the target and keep the offset**.
-/

namespace Cyanos.Positioned

open Lib Vfs State Caller

section

variable (v : State) (env : Env) (pid fd buf count offset : ℕ)

/-- `sys_pread64`. -/
def sysPread64 : Option (State × Reply) :=
  if count = 0 then some (v, valReply 0 [])
  else if !validateUserBuf buf count then some (v, errReply 14)
  else
    let (v, cur) := handleLseek v env pid fd (signed offset) 0
    if cur.value < 0 then some (v, cur)
    else do
      let (v, n) ← handleRead v env pid fd buf count
      let (v, _) := handleLseek v env pid fd cur.value 0
      return (v, n)

/-- `sys_pwrite64`. -/
def sysPwrite64 : Option (State × Reply) :=
  if count = 0 then some (v, valReply 0 [])
  else if !validateUserBuf buf count then some (v, errReply 14)
  else
    let (v, cur) := handleLseek v env pid fd 0 1
    if cur.value < 0 then some (v, if fd ≤ 2 then valReply count [] else cur)
    else do
      let (v, _) := handleLseek v env pid fd (signed offset) 0
      let (v, n) ← handleWrite v env pid fd buf count
      let (v, _) := handleLseek v env pid fd cur.value 0
      return (v, n)

/-- What the calls are to do with a descriptor at the offset `p`: seek to the target, and if that
does not fail, transfer and go back to `p`. -/
def transferAt (p : ℤ) (transfer : State → Option (State × Reply)) : Option (State × Reply) :=
  if count = 0 then some (v, valReply 0 [])
  else if !validateUserBuf buf count then some (v, errReply 14)
  else
    let (v, cur) := handleLseek v env pid fd (signed offset) 0
    if cur.value < 0 then some (v, cur)
    else (transfer v).map fun r => ((handleLseek r.1 env pid fd p 0).1, r.2)

end

/-- The offset of a descriptor that has one. -/
def offsetOf : VnodeKind → Option ℕ
  | .ramFile _ _ pos | .tmpFile _ pos _ | .devFb pos => some pos
  | _ => none

/-- The descriptor `fd` is at the offset `p`. -/
structure IsAt (v : State) (pid fd : ℕ) (t : Fin maxProcs) (i : Fin maxFds) (p : ℕ) : Prop where
  descriptor : v.descriptor pid fd = some (t, i)
  offset : offsetOf (v.fd t i).kind = some p

variable {v v' : State} {env : Env} {pid fd buf count offset p : ℕ} {t : Fin maxProcs}
  {i : Fin maxFds} {kind : VnodeKind} {x : ℤ}

theorem offsetOf_object : offsetOf kind.object = (offsetOf kind).map fun _ => 0 := by
  cases kind <;> rfl

namespace IsAt

theorem of_sameTables (h : IsAt v pid fd t i p) (hs : SameTables v v') :
    ∃ q, IsAt v' pid fd t i q := by
  have hoff := congrArg offsetOf (hs.object t i)
  rw [offsetOf_object, offsetOf_object, h.offset] at hoff
  obtain ⟨q, hq, -⟩ := Option.map_eq_some_iff.1 hoff
  exact ⟨q, hs.descriptor h.descriptor, hq⟩

variable (h : IsAt v pid fd t i p)
include h

theorem target : v.target (maxFds + 1) pid fd = some (some (t, i)) :=
  target_of_descriptor h.descriptor fun m hm => by
    have hoff := h.offset
    rw [hm] at hoff
    cases hoff

theorem handleRead (hc : count ≠ 0) :
    handleRead v env pid fd buf count = some (readEntry v env t i buf count) := by
  simp [Vfs.handleRead, handleReadWithin, hc, h.target]

theorem handleWrite (hc : count ≠ 0) :
    handleWrite v env pid fd buf count = some (writeEntry v env t i buf count) := by
  simp [Vfs.handleWrite, handleWriteWithin, hc, h.target]

theorem seek_neg (hx : x < 0) : handleLseek v env pid fd x 0 = (v, errReply 22) := by
  have hoff := h.offset
  cases hk : (v.fd t i).kind with
  | ramFile | tmpFile | devFb => simp [handleLseek, h.descriptor, hk, seek, hx, seekReply]
  | _ => simp [hk, offsetOf] at hoff

theorem seek_set (env : Env) (hx : 0 ≤ x) : (handleLseek v env pid fd x 0).2 = valReply x.toNat [] ∧
    IsAt (handleLseek v env pid fd x 0).1 pid fd t i x.toNat := by
  have hd := (handleLseek_effect v env pid fd x 0).sameTables.descriptor h.descriptor
  have hoff := h.offset
  cases hk : (v.fd t i).kind with
  | ramFile | tmpFile | devFb =>
    refine ⟨?_, hd, ?_⟩
    all_goals simp [handleLseek, h.descriptor, hk, seek, hx.not_gt, seekReply, setKind, offsetOf]
  | _ => simp [hk, offsetOf] at hoff

theorem seek_inj {y : ℤ} (hx : 0 ≤ x) (hy : 0 ≤ y) :
    (handleLseek v env pid fd x 0).1 = (handleLseek v env pid fd y 0).1 ↔ x = y := by
  refine ⟨fun he => ?_, fun he => by rw [he]⟩
  have hoff := (h.seek_set env hx).2.offset
  rw [he, (h.seek_set env hy).2.offset, Option.some_inj] at hoff
  omega

theorem seek_cur (hp : p < 2 ^ 63) : handleLseek v env pid fd 0 1 = (v, valReply p []) := by
  have hoff := h.offset
  have hseek : ∀ len, seek p len 0 1 = .ok p := by
    intro len
    have hmod : Int.bmod (signed p + 0) (2 ^ 64) = p := by
      rw [signed, if_pos hp, add_zero]
      exact Int.bmod_eq_of_le (by omega) (by omega)
    rw [seek]
    simp only [hmod]
    simp
  have hself : v.setKind t i (v.fd t i).kind = v := setFd_fd
  cases hk : (v.fd t i).kind with
  | ramFile | tmpFile | devFb =>
    rw [hk] at hoff hself
    cases hoff
    simp only [handleLseek, h.descriptor, hk, hseek, seekReply, hself]
  | _ => simp [hk, offsetOf] at hoff

/-- A write at an offset does not fail with `EINVAL`. -/
theorem writeEntry_ne (hc : count < 2 ^ 63) : (writeEntry v env t i buf count).2 ≠ errReply 22 := by
  have hval : ∀ n stored, n ≤ count → valReply n stored ≠ errReply 22 := by
    intro n stored hn he
    have hv := congrArg Reply.value he
    rw [value_valReply (by omega)] at hv
    simp [errReply] at hv
  have hoff := h.offset
  cases hk : (v.fd t i).kind with
  | ramFile => simp [writeEntry, hk, errReply]
  | tmpFile | devFb =>
    simp only [writeEntry, hk]
    split_ifs
    all_goals first
      | exact hval _ _ (Nat.min_le_left ..)
      | exact hval _ _ (Nat.zero_le _)
      | simp [errReply]
  | _ => simp [hk, offsetOf] at hoff

/-- **When the calls transfer at the target and keep the offset**: `pread64` if the descriptor is at
the target, and `pwrite64` if the target is an offset. -/
theorem transfers_at_iff (ho : offset < 2 ^ 64) :
    (sysPread64 v env pid fd buf count offset =
        transferAt v env pid fd buf count offset p (Vfs.handleRead · env pid fd buf count) ↔
      count = 0 ∨ validateUserBuf buf count = false ∨ signed offset = p ∨ signed offset < 0) ∧
    (p < 2 ^ 63 → (sysPwrite64 v env pid fd buf count offset =
        transferAt v env pid fd buf count offset p (Vfs.handleWrite · env pid fd buf count) ↔
      count = 0 ∨ validateUserBuf buf count = false ∨ 0 ≤ signed offset)) := by
  by_cases hc : count = 0
  · simp [sysPread64, sysPwrite64, transferAt, hc]
  cases hb : validateUserBuf buf count with
  | false => simp [sysPread64, sysPwrite64, transferAt, hb, hc]
  | true =>
    have hpos : (0 : ℤ) ≤ p := by omega
    rcases lt_or_ge (signed offset) 0 with hneg | hnn
    · have hle := validateUserBuf_iff.1 hb
      have hne : (writeEntry v env t i buf count).2 ≠ errReply 22 :=
        h.writeEntry_ne (by unfold userSpaceEnd at hle; omega)
      have herr : (errReply 22).value < 0 := by decide
      refine ⟨by simp [sysPread64, transferAt, hc, hb, hneg, h.seek_neg hneg, herr], fun hp => ?_⟩
      simp [sysPwrite64, transferAt, hc, hb, hneg, h.seek_cur hp, h.seek_neg hneg, herr,
        value_valReply hp, h.handleWrite hc, hpos.not_gt, hne]
    · have hlt : (signed offset).toNat < 2 ^ 63 := by
        unfold signed at hnn ⊢
        split_ifs at hnn ⊢ <;> omega
      obtain ⟨hreply, hat⟩ := h.seek_set env hnn
      obtain ⟨q, hq⟩ := hat.of_sameTables (readEntry_effect _ env t i buf count).changesOnly.sameTables
      refine ⟨?_, fun hp => ?_⟩
      · simp [sysPread64, transferAt, hc, hb, hnn, hnn.not_gt, hreply, value_valReply hlt,
          hat.handleRead hc, hq.seek_inj hnn hpos]
      · simp [sysPwrite64, transferAt, hc, hb, hnn, hnn.not_gt, h.seek_cur hp, hreply,
          value_valReply hlt, value_valReply hp, hat.handleWrite hc, hpos.not_gt]

end IsAt

/-- Process 1 has written three bytes to a new file and is at its end. -/
def written : State :=
  ([.ofBytes (bstr "/tmp/a") 1 0x10 4096 0x42 0, .ofBytes [7, 8, 9] 1 0x12 3 4096 3].foldlM step
    boot).getD boot

/-- The caller's memory has the byte 5 at the address 4096. -/
def fiveEnv : Env := (Call.ofBytes [5] 1 0 0 0 0).env

theorem isAt_written : IsAt written 1 3 0 3 3 := ⟨by decide +kernel, by decide +kernel⟩

/-- `pread64` at the end of the file and `pwrite64` at its start. -/
theorem transfers_at_written :
    sysPread64 written fiveEnv 1 3 4096 1 3 =
      transferAt written fiveEnv 1 3 4096 1 3 3 (handleRead · fiveEnv 1 3 4096 1) ∧
    sysPwrite64 written fiveEnv 1 3 4096 1 0 =
      transferAt written fiveEnv 1 3 4096 1 0 3 (handleWrite · fiveEnv 1 3 4096 1) :=
  ⟨(isAt_written.transfers_at_iff (by decide)).1.2 (by decide),
    ((isAt_written.transfers_at_iff (by decide)).2 (by decide)).2 (by decide)⟩

/-- `pread64` of the last two bytes leaves the descriptor before them, and `pwrite64` at -1 writes
where the descriptor is. -/
theorem transfers_move_offset : IsAt written 1 3 0 3 3 ∧
    (sysPread64 written fiveEnv 1 3 4096 2 1).map
        (fun r => (r.2.bytes, offsetOf (r.1.fd 0 3).kind)) = some ([8, 9], some 1) ∧
    (sysPwrite64 written fiveEnv 1 3 4096 1 (2 ^ 64 - 1)).map
        (fun r => (r.2, loadBytes (r.1.tmp 0).data 0 4)) = some (valReply 1 [], [7, 8, 9, 5]) :=
  ⟨isAt_written, by decide +kernel, by decide +kernel⟩

end Cyanos.Positioned
