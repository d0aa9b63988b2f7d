import Cyanos.Servers.Vfs.Effects
import Mathlib.Data.Fin.Pigeonhole

/-!
# Descriptors that refer to descriptors

A read or write of `/dev/stdin`, `/dev/stdout` or `/dev/stderr` enters the request again with
descriptor 0, 1 or 2, which can be such a device itself.

* `transfer_returns_iff` : a read or write returns unless the entries from its descriptor on refer
  to one another without end; the request is then entered at most once more than there are
  descriptors.
* `read_of_own_stdin` : one process can make such a descriptor with a close and an open.
-/

namespace Cyanos.Vfs

open Lib Nat Function

variable {v : State} {pid n : ℕ} {tbl : ProcFdTable}

/-- The descriptor that descriptor `n` refers to; `n` itself when it does not refer to one. -/
def ProcFdTable.refersTo (tbl : ProcFdTable) (n : ℕ) : ℕ :=
  match tbl.used n with
  | none => n
  | some i =>
    match (tbl.fds i).kind with
    | .devStdio m => m
    | _ => n

/-- Descriptor `n` is in use and refers to `m`. -/
def ProcFdTable.Refers (tbl : ProcFdTable) (n m : ℕ) : Prop :=
  ∃ i, tbl.used n = some i ∧ (tbl.fds i).kind = .devStdio m

/-- The entries from `n` on refer to one another without end. -/
def State.Endless (v : State) (pid n : ℕ) : Prop :=
  ∃ t, v.findTbl pid = some t ∧
    ∃ chain : ℕ → ℕ, chain 0 = n ∧ ∀ k, (v.tables t).Refers (chain k) (chain (k + 1))

namespace ProcFdTable

theorem Refers.lt {m : ℕ} (h : tbl.Refers n m) : n < maxFds := by
  obtain ⟨i, hi, -⟩ := h
  rw [← (used_eq_some.1 hi).1]
  exact i.isLt

theorem Refers.target_succ {m : ℕ} (h : tbl.Refers n m) (depth : ℕ) :
    tbl.target (depth + 1) n = tbl.target depth m := by
  obtain ⟨i, hi, hkind⟩ := h
  simp only [target, hi, hkind]

/-- A walk that has not ended goes on with what the entry refers to. -/
theorem refers_of_target {depth : ℕ} (h : tbl.target (depth + 1) n = none) :
    tbl.Refers n (tbl.refersTo n) := by
  rw [target] at h
  split at h
  · cases h
  · next i hi =>
    split at h
    · next m hkind =>
      have heq : tbl.refersTo n = m := by simp only [refersTo, hi, hkind]
      exact heq ▸ ⟨i, hi, hkind⟩
    · cases h

theorem refers_iterate {depth k : ℕ} (h : tbl.target depth n = none) (hk : k < depth) :
    tbl.Refers (tbl.refersTo^[k] n) (tbl.refersTo^[k + 1] n) := by
  induction k generalizing depth n with
  | zero =>
    obtain ⟨depth, rfl⟩ := Nat.exists_eq_add_of_lt hk
    exact refers_of_target h
  | succ k ih =>
    obtain ⟨depth, rfl⟩ := exists_eq_add_one_of_ne_zero (ne_zero_of_lt hk)
    have hhead := refers_of_target h
    rw [hhead.target_succ] at h
    exact ih h (lt_of_succ_lt_succ hk)

/-- Among more entries than there are descriptors one is met twice; from there on the walk goes
round in a circle. -/
theorem endless_of_target (h : tbl.target (maxFds + 1) n = none) (k : ℕ) :
    tbl.Refers (tbl.refersTo^[k] n) (tbl.refersTo^[k + 1] n) := by
  let walk : Fin (maxFds + 1) → Fin maxFds := fun k =>
    ⟨tbl.refersTo^[k.val] n, (refers_iterate h k.isLt).lt⟩
  obtain ⟨a, b, hab, hlt⟩ : ∃ a b, tbl.refersTo^[a] n = tbl.refersTo^[b] n ∧
      a < b ∧ b < maxFds + 1 := by
    by_contra hne
    have hinj : walk.Injective := by
      intro a b hab
      have hval : tbl.refersTo^[a.val] n = tbl.refersTo^[b.val] n := congrArg Fin.val hab
      rcases lt_trichotomy a.val b.val with hlt | heq | hlt
      · exact absurd ⟨a, b, hval, hlt, b.isLt⟩ hne
      · exact Fin.ext heq
      · exact absurd ⟨b, a, hval.symm, hlt, a.isLt⟩ hne
    exact absurd (Fin.le_of_injective walk hinj) (not_succ_le_self _)
  -- Everything on the walk is on it before step `b`.
  obtain ⟨j, hj, heq⟩ : ∃ j < b, tbl.refersTo^[k] n = tbl.refersTo^[j] n := by
    induction k with
    | zero => exact ⟨0, by omega, rfl⟩
    | succ k ih =>
      obtain ⟨j, hj, heq⟩ := ih
      rw [iterate_succ_apply', heq, ← iterate_succ_apply' tbl.refersTo]
      rcases lt_or_eq_of_le (succ_le_of_lt hj) with hlt | rfl
      · exact ⟨j + 1, hlt, rfl⟩
      · exact ⟨a, hlt.1, hab.symm⟩
  rw [iterate_succ_apply', heq, ← iterate_succ_apply' tbl.refersTo]
  exact refers_iterate h (by omega)

/-- No number of entries is enough for an endless chain. -/
theorem target_of_endless {chain : ℕ → ℕ} (h : ∀ k, tbl.Refers (chain k) (chain (k + 1)))
    (depth : ℕ) : tbl.target depth (chain 0) = none := by
  induction depth generalizing chain with
  | zero => rfl
  | succ depth ih =>
    rw [(h 0).target_succ]
    exact ih fun k => h (k + 1)

end ProcFdTable

theorem State.target_none_of_endless (h : v.Endless pid n) (depth : ℕ) :
    v.target depth pid n = none := by
  obtain ⟨t, ht, chain, rfl, hchain⟩ := h
  rw [target, ht]
  simp only [ProcFdTable.target_of_endless hchain depth, Option.map_none]

theorem State.endless_of_target_none (h : v.target (maxFds + 1) pid n = none) :
    v.Endless pid n := by
  unfold target at h
  split at h
  · cases h
  · next t ht =>
    exact ⟨t, ht, fun k => (v.tables t).refersTo^[k] n, rfl,
      ProcFdTable.endless_of_target (Option.map_eq_none_iff.1 h)⟩

theorem isSome_transfer {depth count : ℕ} {x : State × Reply}
    {f : Option (Fin maxProcs × Fin maxFds) → State × Reply} :
    (if count = 0 then some x else (v.target depth pid n).map f).isSome = true ↔
      count = 0 ∨ v.target depth pid n ≠ none := by
  by_cases hc : count = 0 <;> simp [hc, Option.isSome_iff_ne_none]

/-- **When reads and writes return.**  A request for no bytes returns, and any other one just when
the entries from its descriptor on do not refer to one another without end.  It is then entered at
most once more than there are descriptors. -/
theorem transfer_returns_iff (v : State) (env : Env) (pid n buf count : ℕ) :
    ((∃ depth, (handleReadWithin depth v env pid n buf count).isSome = true) ↔
        count = 0 ∨ ¬ v.Endless pid n) ∧
      ((∃ depth, (handleWriteWithin depth v env pid n buf count).isSome = true) ↔
        count = 0 ∨ ¬ v.Endless pid n) ∧
      ((handleRead v env pid n buf count).isSome = true ↔ count = 0 ∨ ¬ v.Endless pid n) ∧
      ((handleWrite v env pid n buf count).isSome = true ↔ count = 0 ∨ ¬ v.Endless pid n) := by
  have hends : ∀ depth, v.target depth pid n ≠ none → ¬ v.Endless pid n := fun depth hne he =>
    hne (v.target_none_of_endless he depth)
  have hback : ¬ v.Endless pid n → v.target (maxFds + 1) pid n ≠ none := fun he hne =>
    he (State.endless_of_target_none hne)
  simp only [handleRead, handleWrite, handleReadWithin, handleWriteWithin, isSome_transfer]
  have hsome : (∃ depth, count = 0 ∨ v.target depth pid n ≠ none) ↔
      count = 0 ∨ ¬ v.Endless pid n :=
    ⟨fun h => h.elim fun depth => Or.imp_right (hends depth), fun h => ⟨_, h.imp_right hback⟩⟩
  have hfull : count = 0 ∨ v.target (maxFds + 1) pid n ≠ none ↔ count = 0 ∨ ¬ v.Endless pid n :=
    ⟨Or.imp_right (hends _), Or.imp_right hback⟩
  exact ⟨hsome, hsome, hfull, hfull⟩

/-- With descriptor 0 closed, `/dev/stdin` is opened as descriptor 0 and refers to itself. -/
theorem read_of_own_stdin : ∃ v, Reach step boot v ∧
    ∀ depth env buf, handleReadWithin depth v env 1 0 buf 1 = none ∧
      handleWriteWithin depth v env 1 0 buf 1 = none := by
  obtain ⟨v, hrun, t, ht, i, hi, hkind⟩ : ∃ v, Reach step boot v ∧ ∃ t, v.findTbl 1 = some t ∧
      ∃ i, (v.tables t).used 0 = some i ∧ (v.fd t i).kind = .devStdio 0 := Run.exists_of_foldlM
    [.ofBytes [] 1 0x13 0 0 0, .ofBytes (bstr "/dev/stdin") 1 0x10 4096 0 0] (by decide +kernel)
  have hnone := v.target_none_of_endless ⟨t, ht, fun _ => 0, rfl, fun _ => ⟨i, hi, hkind⟩⟩
  refine ⟨v, hrun, fun depth env buf => ?_⟩
  simp [handleReadWithin, handleWriteWithin, hnone depth]

end Cyanos.Vfs
