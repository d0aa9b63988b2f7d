import Cyanos.Sched.Signal

/-!
# The loop of `check_and_deliver_signals`

What the loop does depends on the task alone: it drops the signals that are ignored, and then
comes to rest, enters a handler, ends the task, or indexes the table of actions out of bounds.

## Main results

* `Signal.deliver_eq` : `deliver` acts on the way `signalLoop` ends.
* `Signal.signalLoop_mask` : the mask found at the handler is the one the loop began with exactly
  when every signal dropped on the way has `SA_NODEFER`.
* `Signal.signalLoop_inTable` : with only the first four signals pending, the loop stays in the
  table.
* `Signal.ignore_eq_iff` : when an ignored signal leaves the mask and the actions alone.
-/

namespace Cyanos.Signal

/-- How the loop ends. -/
inductive Outcome where
  /-- No signal is pending and unmasked. -/
  | quiet (t : Task)
  /-- A handler is to be entered for `bit`; the task is as the signal was found. -/
  | enter (bit : Fin 4) (t : Task)
  /-- The default action of signal `bit + 1` ends the task. -/
  | exit (bit : Fin 4)
  /-- `signal_actions[bit]` is out of bounds. -/
  | panic (bit : ℕ)

/-- The signals the loop drops, and how it ends. -/
def signalLoop (t : Task) : List (Fin 4) × Outcome :=
  if h : t.signalPending &&& ~~~t.signalMask = 0 then ([], .quiet t)
  else
    let bit := (t.signalPending &&& ~~~t.signalMask).ctz.toNat
    if hb : bit < 4 then
      let action := t.signalActions[bit]
      if (action.handler = 0 ∧ sigdflIgnore.getLsbD bit) ∨ action.handler = 1 then
        let rest := signalLoop (t.take ⟨bit, hb⟩)
        (⟨bit, hb⟩ :: rest.1, rest.2)
      else if action.handler = 0 then ([], .exit ⟨bit, hb⟩)
      else ([], .enter ⟨bit, hb⟩ t)
    else ([], .panic bit)
termination_by t.signalPending.toNat
decreasing_by exact take_pending_lt (pending_of_unmasked h)

variable {t t' : Task} {bit : Fin 4} {dropped : List (Fin 4)}

/-- One turn of the loop, with a signal of the table. -/
theorem signalLoop_of_lt (h : t.signalPending &&& ~~~t.signalMask ≠ 0) {bit : ℕ}
    (hbit : (t.signalPending &&& ~~~t.signalMask).ctz.toNat = bit) (hb : bit < 4) :
    signalLoop t =
      if (t.signalActions[bit].handler = 0 ∧ sigdflIgnore.getLsbD bit) ∨
          t.signalActions[bit].handler = 1 then
        (⟨bit, hb⟩ :: (signalLoop (t.take ⟨bit, hb⟩)).1, (signalLoop (t.take ⟨bit, hb⟩)).2)
      else if t.signalActions[bit].handler = 0 then ([], .exit ⟨bit, hb⟩)
      else ([], .enter ⟨bit, hb⟩ t) := by
  subst hbit
  rw [signalLoop, dif_neg h]
  rw [dif_pos hb]

/-- Enter the handler of signal `bit + 1` for the task `t`. -/
def Cpu.enter (c : Cpu) (bit : Fin 4) (t : Task) : Option Cpu :=
  let action := t.action bit
  let restorer := if action.flags &&& 0x04000000 ≠ 0 then action.restorer else 0
  prepare { c with task := some (t.take bit) } (bit + 1) action.handler restorer t.signalMask

/-- **`check_and_deliver_signals` acts on the way its loop ends.** -/
theorem deliver_eq (c : Cpu) (t : Task) :
    deliver c t =
      match (signalLoop t).2 with
      | .quiet t' => some { c with task := some t' }
      | .enter bit t' => c.enter bit t'
      | .exit _ => none
      | .panic _ => none := by
  fun_induction deliver c t with
  | case1 t h => rw [signalLoop, dif_pos h]
  | case2 t h bit hb action h0 hign ih =>
    rw [signalLoop_of_lt h rfl hb, if_pos (.inl ⟨h0, hign⟩)]
    exact ih
  | case3 t h bit hb action h0 hign =>
    have h1 : action.handler ≠ 1 := by rw [h0]; decide
    rw [signalLoop_of_lt h rfl hb, if_neg (by rintro (⟨-, h⟩ | h); exacts [hign h, h1 h]), if_pos h0]
  | case4 t h bit hb action h0 h1 ih =>
    rw [signalLoop_of_lt h rfl hb, if_pos (.inr h1)]
    exact ih
  | case5 t h bit hb action h0 h1 =>
    rw [signalLoop_of_lt h rfl hb, if_neg (by rintro (⟨h, -⟩ | h); exacts [h0 h, h1 h]), if_neg h0]
    rfl
  | case6 t h bit hb =>
    rw [signalLoop, dif_neg h]
    simp only [bit] at hb
    rw [dif_neg hb]

/-! ### Masks -/

/-- The signal does not block itself, nor the mask of its action, while its handler runs. -/
def Task.NoDefer (t : Task) (bit : Fin 4) : Prop := (t.action bit).flags &&& 0x40000000 ≠ 0

@[simp] theorem take_flags (t : Task) (bit i : Fin 4) :
    ((t.take bit).action i).flags = (t.action i).flags := by
  simp only [Task.action, Task.take]
  split
  · simp only [Fin.getElem_fin, Vector.getElem_set]
    split
    · next h => simp only [h]
    · rfl
  · rfl

theorem noDefer_take {i : Fin 4} : (t.take bit).NoDefer i ↔ t.NoDefer i := by
  rw [Task.NoDefer, take_flags, Task.NoDefer]

theorem take_mask_of_noDefer (h : t.NoDefer bit) :
    (t.take bit).signalMask = t.signalMask := if_neg h

theorem take_mask (h : ¬t.NoDefer bit) :
    (t.take bit).signalMask = t.signalMask ||| (sigBit bit ||| (t.action bit).mask) :=
  if_pos (not_not.1 h)

theorem take_mask_mono {i : ℕ} (h : t.signalMask.getLsbD i = true) :
    (t.take bit).signalMask.getLsbD i = true := by
  by_cases hn : t.NoDefer bit
  · rwa [take_mask_of_noDefer hn]
  · rw [take_mask hn, BitVec.getLsbD_or, h, Bool.true_or]

theorem sigBit_mem_take_mask (h : ¬t.NoDefer bit) : (t.take bit).signalMask.getLsbD bit = true := by
  have hlt : (bit : ℕ) < 64 := by omega
  rw [take_mask h]
  simp [sigBit, hlt]

theorem not_masked_of_unmasked (h : t.signalPending &&& ~~~t.signalMask ≠ 0) :
    t.signalMask.getLsbD (t.signalPending &&& ~~~t.signalMask).ctz.toNat = false := by
  have hbit := BitVec.getLsbD_true_ctz_of_ne_zero h
  rw [BitVec.getLsbD_and, BitVec.getLsbD_not] at hbit
  simp only [Bool.and_eq_true, Bool.not_eq_true'] at hbit
  exact hbit.2.2

/-- One turn of the loop that drops a signal. -/
theorem signalLoop_drop {b : Fin 4} {o : Outcome} (h : signalLoop t = (b :: dropped, o)) :
    signalLoop (t.take b) = (dropped, o) ∧ t.signalMask.getLsbD b = false := by
  rw [signalLoop] at h
  split at h
  · cases h
  · next hne =>
    simp only at h
    split at h
    · split at h
      · obtain ⟨hcons, rfl⟩ := Prod.mk.inj h
        obtain ⟨rfl, rfl⟩ := List.cons.inj hcons
        exact ⟨rfl, not_masked_of_unmasked hne⟩
      · split at h <;> cases h
    · cases h

/-- A loop that drops nothing hands over the task it began with. -/
theorem signalLoop_enter (h : signalLoop t = ([], .enter bit t')) : t' = t := by
  rw [signalLoop] at h
  split at h
  · cases h
  · simp only at h
    split at h
    · split at h
      · cases h
      · split at h
        · cases h
        · exact (Outcome.enter.inj (Prod.mk.inj h).2).2.symm
    · cases h

theorem signalLoop_mask_mono {i : ℕ} (h : signalLoop t = (dropped, .enter bit t'))
    (hi : t.signalMask.getLsbD i = true) : t'.signalMask.getLsbD i = true := by
  induction dropped generalizing t with
  | nil => rwa [signalLoop_enter h]
  | cons b dropped ih => exact ih (signalLoop_drop h).1 (take_mask_mono hi)

/-- **The mask found at the handler is the one the loop began with exactly when every signal
dropped on the way has `SA_NODEFER`.** -/
theorem signalLoop_mask (h : signalLoop t = (dropped, .enter bit t')) :
    t'.signalMask = t.signalMask ↔ ∀ b ∈ dropped, t.NoDefer b := by
  induction dropped generalizing t with
  | nil => simp [signalLoop_enter h]
  | cons b dropped ih =>
    obtain ⟨hrest, hfree⟩ := signalLoop_drop h
    have ih := ih hrest
    simp only [noDefer_take] at ih
    by_cases hn : t.NoDefer b
    · rw [take_mask_of_noDefer hn] at ih
      rw [ih, List.forall_mem_cons, and_iff_right hn]
    · -- the signal dropped is blocked from here on, and it was not before
      have hset := signalLoop_mask_mono hrest (sigBit_mem_take_mask hn)
      refine iff_of_false (fun heq => ?_) fun hall => hn (hall b (.head _))
      rw [heq, hfree] at hset
      exact absurd hset (by decide)

/-! ### The table of actions -/

/-- Only signals of the table are pending. -/
def Task.InTable (t : Task) : Prop := ∀ i, t.signalPending.getLsbD i = true → i < 4

theorem Task.InTable.take (h : t.InTable) (bit : Fin 4) : (t.take bit).InTable := by
  intro i hi
  rw [Task.take, BitVec.getLsbD_and, Bool.and_eq_true] at hi
  exact h i hi.1

/-- **With only signals of the table pending, the loop never leaves it.** -/
theorem signalLoop_inTable (h : t.InTable) (bit : ℕ) : (signalLoop t).2 ≠ .panic bit := by
  fun_induction signalLoop t with
  | case1 => simp
  | case2 _ _ _ hb _ _ _ ih => exact ih (h.take _)
  | case3 => simp
  | case4 => simp
  | case5 t hne _ hb => exact absurd (h _ (pending_of_unmasked hne)) hb

theorem deliver_inTable {c c' : Cpu} (ht : t.InTable) (h : deliver c t = some c') :
    ∃ t', c'.task = some t' ∧ t'.InTable := by
  fun_induction deliver c t with
  | case1 t => cases h; exact ⟨t, rfl, ht⟩
  | case2 _ _ _ _ _ _ _ ih | case4 _ _ _ _ _ _ _ ih => exact ih (ht.take _) h
  | case3 => cases h
  | case5 => exact ⟨_, (prepare_spec h).2.1, ht.take _⟩
  | case6 => cases h

/-! ### Signals that are ignored -/

/-- Signal `bit + 1` is ignored, by its action or by default. -/
def Task.Ignores (t : Task) (bit : ℕ) : Prop :=
  if hb : bit < 4 then
    (t.signalActions[bit].handler = 0 ∧ sigdflIgnore.getLsbD bit) ∨ t.signalActions[bit].handler = 1
  else sigdflIgnore.getLsbD bit

/-- The task after the loop's turn for the ignored signal `bit + 1`. -/
def Task.ignore (t : Task) (bit : ℕ) : Option Task :=
  if hb : bit < 4 then some (t.take ⟨bit, hb⟩) else none

theorem take_eq_iff (h1 : (t.action bit).handler = 1) (hfree : t.signalMask.getLsbD bit = false) :
    t.take bit = { t with signalPending := t.signalPending &&& ~~~sigBit bit } ↔
      t.NoDefer bit ∧ (t.action bit).flags &&& 0x80000000 = 0 := by
  constructor
  · refine fun heq => ⟨?_, ?_⟩
    · by_contra hn
      have hset := sigBit_mem_take_mask hn
      rw [heq] at hset
      cases hfree.symm.trans hset
    · by_contra hf
      have hset : t.signalActions.set bit { t.action bit with handler := 0 } = t.signalActions :=
        (if_pos hf).symm.trans (congrArg Task.signalActions heq)
      rw [Task.action, ← hset] at h1
      simp at h1
  · rintro ⟨hn, hf⟩
    simp only [Task.take]
    congr 1
    · exact if_neg hn
    · exact if_neg (not_not.2 hf)

/-- **An ignored signal leaves no trace just when it is in the table, has `SA_NODEFER` and does not
have `SA_RESETHAND`.**  The saved frame stays in any case. -/
theorem ignore_eq_iff {bit : ℕ} (h : t.signalPending &&& ~~~t.signalMask ≠ 0)
    (hbit : (t.signalPending &&& ~~~t.signalMask).ctz.toNat = bit) (hign : t.Ignores bit) :
    (∀ c, deliver c t = (t.ignore bit).bind (deliver c)) ∧
      (t.ignore bit = some { t with signalPending := t.signalPending &&& ~~~sigBit bit } ↔
        ∃ hb : bit < 4, t.NoDefer ⟨bit, hb⟩ ∧ (t.action ⟨bit, hb⟩).flags &&& 0x80000000 = 0) := by
  unfold Task.Ignores at hign
  split at hign
  · next hb =>
    simp only [Task.ignore, hb, exists_true_left]
    constructor
    · intro c
      rw [deliver_eq, signalLoop_of_lt h hbit hb, if_pos hign]
      exact (deliver_eq c _).symm
    · -- no signal of the table is ignored by default
      have hdfl : ∀ i : Fin 4, sigdflIgnore.getLsbD i = false := by decide
      have h1 : (t.action ⟨bit, hb⟩).handler = 1 :=
        hign.resolve_left fun h0 => by cases (hdfl ⟨bit, hb⟩).symm.trans h0.2
      exact Option.some_inj.trans (take_eq_iff h1 (hbit ▸ not_masked_of_unmasked h))
  · next hb =>
    refine ⟨fun c => ?_, iff_of_false ?_ fun ⟨hlt, _⟩ => hb hlt⟩
    · subst hbit
      rw [deliver, dif_neg h]
      simp [Task.ignore, hb]
    · simp [Task.ignore, hb]

/-- A task that ignores its signals, with the first of them pending. -/
def deafTask (flags : BitVec 32) : Task := ⟨none, 1, 0, .replicate 4 ⟨1, flags, 0, 0⟩⟩

theorem ignores_deafTask (flags : BitVec 32) : (deafTask flags).Ignores 0 := by
  simp [Task.Ignores, deafTask]

theorem deaf_noDefer : ∃ t', (deafTask 0x40000000).ignore 0 = some t' ∧ t'.signalMask = 0 := by
  have hflag : (deafTask 0x40000000).NoDefer 0 := by rw [Task.NoDefer]; decide
  exact ⟨_, (ignore_eq_iff (by decide) (by decide +kernel) (ignores_deafTask _)).2.2
    ⟨by decide, hflag, by decide⟩, rfl⟩

/-- The signal is blocked from then on. -/
theorem deaf_blocked : (deafTask 0).Ignores 0 ∧ (deafTask 0).signalMask = 0 ∧
    ∀ c, ∃ t', deliver c (deafTask 0) = some { c with task := some t' } ∧ t'.signalMask = 1 := by
  refine ⟨ignores_deafTask 0, rfl, fun c => ⟨(deafTask 0).take 0, ?_, by decide⟩⟩
  rw [deliver_eq, signalLoop_of_lt (by decide) (by decide +kernel) (by decide : 0 < 4),
    if_pos (.inr rfl), signalLoop, dif_pos (by decide)]
  rfl

end Cyanos.Signal
