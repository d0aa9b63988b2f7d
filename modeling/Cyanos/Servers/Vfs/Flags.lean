import Cyanos.Servers.Vfs.Descriptors

/-!
# Descriptor flags and status flags

`fcntl` has one word for both: `F_SETFD` puts its argument there, `F_GETFD` looks for `O_CLOEXEC` in
it, and `F_SETFL` keeps `O_CLOEXEC` and adds its argument.

* `independent_iff` : **when descriptor flags and status flags are independent**.
-/

namespace Cyanos.Vfs

open Lib State

/-- A call of `fcntl` on a descriptor. -/
inductive FlagCall
  | getFd
  | setFd (arg : ℕ)
  | getFl
  | setFl (arg : ℕ)

namespace FlagCall

/-- The request of the call. -/
def run (v : State) (pid n : ℕ) : FlagCall → State × Reply
  | getFd => handleFcntl v pid n 1 0
  | setFd arg => handleFcntl v pid n 2 arg
  | getFl => handleFcntl v pid n 3 0
  | setFl arg => handleFcntl v pid n 4 arg

/-- `FD_CLOEXEC` after the call. -/
def cloexec (b : Bool) : FlagCall → Bool
  | setFd arg => arg.testBit 0
  | _ => b

/-- The word after the call. -/
def word (f : BitVec 32) : FlagCall → BitVec 32
  | setFd arg => .ofNat 32 arg
  | setFl arg => f &&& oCloexec ||| .ofNat 32 arg
  | _ => f

/-- What `F_SETFD` is not to change: what `F_GETFL` returns, and where writes go. -/
def Keeps (v : State) (pid n : ℕ) (c : FlagCall) : Prop :=
  match c with
  | setFd _ => (getFl.run (c.run v pid n).1 pid n).2 = (getFl.run v pid n).2 ∧
    ∀ env buf count, (handleWrite (c.run v pid n).1 env pid n buf count).map (fun r => (r.1.tmp, r.2)) =
      (handleWrite v env pid n buf count).map fun r => (r.1.tmp, r.2)
  | _ => True

end FlagCall

/-- `F_GETFD` returns `b`, and `exec` closes the descriptors for which it returns 1. -/
def ShowsCloexec (v : State) (pid n : ℕ) (b : Bool) : Prop :=
  (FlagCall.getFd.run v pid n).2 = valReply b.toNat [] ∧
    ∀ n' t i, v.descriptor pid n' = some (t, i) →
      (¬ (handleExecCloexec v pid).1.Open t i ↔ (FlagCall.getFd.run v pid n').2 = valReply 1 [])

/-- The two kinds of flags are independent during the calls, of which the first finds `FD_CLOEXEC` to
be `b`. -/
def Independent (pid n : ℕ) : State → Bool → List FlagCall → Prop
  | v, b, [] => ShowsCloexec v pid n b
  | v, b, c :: cs => ShowsCloexec v pid n b ∧ c.Keeps v pid n ∧
    Independent pid n (c.run v pid n).1 (c.cloexec b) cs

/-- Every `F_SETFD` gives the word that is there, with the same `FD_CLOEXEC`, and no `F_SETFL` adds
`O_CLOEXEC`. -/
def Steady : BitVec 32 → List FlagCall → Prop
  | _, [] => True
  | f, .setFd arg :: cs => .ofNat 32 arg = f ∧ arg.testBit 0 = hasFlag f oCloexec ∧ Steady f cs
  | f, .setFl arg :: cs => (hasFlag (.ofNat 32 arg) oCloexec = true → hasFlag f oCloexec = true) ∧
    Steady (f &&& oCloexec ||| .ofNat 32 arg) cs
  | f, .getFd :: cs | f, .getFl :: cs => Steady f cs

theorem hasFlag_setFl (f arg : BitVec 32) : hasFlag (f &&& oCloexec ||| arg) oCloexec =
    (hasFlag f oCloexec || hasFlag arg oCloexec) := by
  have hbit (w : BitVec 32) : hasFlag w oCloexec = w.getLsbD 19 := by
    rw [hasFlag, oCloexec, show (0x80000 : BitVec 32) = BitVec.twoPow 32 19 from rfl,
      BitVec.and_twoPow]
    cases w.getLsbD 19 <;> rfl
  rw [hbit, hbit, hbit, BitVec.getLsbD_or, BitVec.getLsbD_and]
  exact congrArg (· || _) (Bool.and_true _)

theorem steady_cons {f : BitVec 32} {c : FlagCall} {cs : List FlagCall} : Steady f (c :: cs) ↔
    (∀ arg, c = .setFd arg → c.word f = f) ∧
    hasFlag (c.word f) oCloexec = c.cloexec (hasFlag f oCloexec) ∧ Steady (c.word f) cs := by
  cases c with
  | getFd | getFl => simp [Steady, FlagCall.word, FlagCall.cloexec]
  | setFd arg =>
    simp only [Steady, FlagCall.word, FlagCall.cloexec, FlagCall.setFd.injEq, forall_eq']
    refine and_congr_right fun hword => ?_
    rw [hword]
    exact and_congr_left' eq_comm
  | setFl arg =>
    simp only [Steady, FlagCall.word, FlagCall.cloexec, hasFlag_setFl, reduceCtorEq, false_implies,
      implies_true, true_and]
    exact and_congr_left' (by cases hasFlag f oCloexec <;> simp)

variable {v : State} {pid n : ℕ} {t : Fin maxProcs} {i : Fin maxFds} {b : Bool} {cs : List FlagCall}

section

variable (hd : v.descriptor pid n = some (t, i))
include hd

theorem FlagCall.run_eq (c : FlagCall) : (c.run v pid n).1 =
    v.setFd t i { v.fd t i with flags := c.word (v.fd t i).flags } := by
  cases c with
  | getFd | getFl =>
    simp only [run, handleFcntl, hd]
    exact setFd_fd.symm
  | setFd | setFl => simp only [run, handleFcntl, hd, word]

theorem descriptor_run (c : FlagCall) : (c.run v pid n).1.descriptor pid n = some (t, i) := by
  rw [c.run_eq hd]
  exact SameTables.descriptor (.setFd rfl rfl) hd

theorem getFd_eq_iff : (FlagCall.getFd.run v pid n).2 = valReply b.toNat [] ↔
    hasFlag (v.fd t i).flags oCloexec = b := by
  simp only [FlagCall.run, handleFcntl, hd]
  cases hasFlag (v.fd t i).flags oCloexec <;> cases b <;> decide

theorem value_getFl : (FlagCall.getFl.run v pid n).2.value = (v.fd t i).flags.toNat := by
  rw [FlagCall.run, handleFcntl, hd]
  exact value_valReply (by omega)

theorem showsCloexec_iff : ShowsCloexec v pid n b ↔ hasFlag (v.fd t i).flags oCloexec = b := by
  refine (and_iff_left fun n' t' i' hd' => ?_).trans (getFd_eq_iff hd)
  have hexec : Removes v (handleExecCloexec v pid).1 pid (.execCloexec pid) t' i' :=
    execCloexec_open pid rfl
  rw [hexec.1]
  refine .trans ?_ (getFd_eq_iff (b := true) hd').symm
  simp [open_of_descriptor hd', Request.Drops, (descriptor_eq_some.1 hd').1]

theorem keeps_iff (c : FlagCall) : c.Keeps v pid n ↔
    ∀ arg, c = .setFd arg → c.word (v.fd t i).flags = (v.fd t i).flags := by
  cases c with
  | setFd arg =>
    refine ⟨fun h arg' _ => ?_, fun h => ?_⟩
    · have hget := congrArg Reply.value h.1
      rw [value_getFl hd, value_getFl (descriptor_run hd _), FlagCall.run_eq hd, fd_setFd_self] at hget
      exact BitVec.eq_of_toNat_eq (by exact_mod_cast hget)
    · have hsame : (FlagCall.run v pid n (.setFd arg)).1 = v := by
        rw [FlagCall.run_eq hd, h arg rfl]
        exact setFd_fd
      rw [FlagCall.Keeps, hsame]
      exact ⟨rfl, fun _ _ _ => rfl⟩
  | _ => simp [FlagCall.Keeps]

/-- **When descriptor flags and status flags are independent.** -/
theorem independent_iff : Independent pid n v b cs ↔
    hasFlag (v.fd t i).flags oCloexec = b ∧ Steady (v.fd t i).flags cs := by
  induction cs generalizing v b with
  | nil => exact (showsCloexec_iff hd).trans (and_iff_left trivial).symm
  | cons c cs ih =>
    rw [Independent, steady_cons, showsCloexec_iff hd, keeps_iff hd, ih (descriptor_run hd c),
      FlagCall.run_eq hd, fd_setFd_self]
    refine and_congr_right fun hb => ?_
    rw [hb]

end

/-- `F_SETFL` without `O_CREAT` and with `O_APPEND`, each confirmed by an `F_SETFD` with the word that
is there. -/
theorem independent_append : Independent 1 3 written true
    [.setFl 1, .setFd 0x80001, .getFd, .setFl 0x401, .setFd 0x80401, .getFl] :=
  (independent_iff (t := 0) (i := 3) (by decide +kernel)).2
    ⟨by decide +kernel, by decide +kernel, by decide +kernel, by decide +kernel, by decide +kernel,
      by decide +kernel, by decide +kernel, trivial⟩

/-- After `F_SETFD` with `FD_CLOEXEC`, `F_GETFD` returns 0. -/
theorem setfd_loses_cloexec : ¬ Independent 1 0 boot false [.setFd 1] := by
  rintro ⟨-, -, hget, -⟩
  revert hget
  decide +kernel

end Cyanos.Vfs
