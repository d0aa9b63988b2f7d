import Cyanos.Lib.Run
import Cyanos.Sched.RunQueue

/-!
# Round-robin fairness

`pick_next` looks for a ready task from the cursor on, around the slots, and leaves the cursor
behind the slot it returns.  So while slot `i` is ready, every slot returned is on the way from the
cursor to `i`, and the cursor comes closer to `i` each time: no other slot is returned twice before
`i`.

## Main results

* `RunQueue.pickNext_spec` : what `pick_next` returns, and that it does not go past a ready slot.
* `RunQueue.picks_of_waits` : how often others are returned before `i`.
* `RunQueue.fair_run` : round-robin fairness in every reachable run queue.
-/

namespace Cyanos

open Lib List Option

/-- The calls on a run queue. -/
inductive QueueCall where
  | enqueue (t : Task)
  | remove (idx : ℕ)
  /-- The task in a slot is changed in place. -/
  | change (idx : ℕ) (f : Task → Task)
  | pickNext

namespace RunQueue

variable {q q' : RunQueue} {i j : ℕ} {call : QueueCall} {calls : List QueueCall}

/-- The run queue after a call. -/
def after (q : RunQueue) : QueueCall → RunQueue
  | .enqueue t => (q.enqueue t).getD q
  | .remove idx => q.remove idx
  | .change idx f => q.modify idx f
  | .pickNext => q.pickNext.2

/-- One call, which is always possible. -/
def step (q : RunQueue) (call : QueueCall) : Option RunQueue := some (q.after call)

/-! ### The counter -/

/-- The counter counts the tasks, and the cursor is at a slot. -/
structure Sound (q : RunQueue) : Prop where
  len_eq : q.len = q.tasks.countP Option.isSome
  cursor_lt : q.cursor < maxTasks

theorem sound_new : new.Sound :=
  ⟨(countP_eq_zero.2 fun slot h => by simp [eq_of_mem_replicate h]).symm, by decide⟩

theorem Sound.enqueue {t : Task} (h : q.Sound) (he : q.enqueue t = some q') : q'.Sound := by
  obtain ⟨idx, hlt, hnone, rfl⟩ := enqueue_spec he
  refine ⟨?_, h.cursor_lt⟩
  obtain ⟨hidx, hslot⟩ := List.getElem?_eq_some_iff.1 hnone
  rw [setSlot]
  rw [countP_set hidx, hslot, h.len_eq]
  rfl

theorem Sound.remove (h : q.Sound) (idx : ℕ) : (q.remove idx).Sound := by
  refine ⟨?_, h.cursor_lt⟩
  simp only [RunQueue.remove, setSlot]
  by_cases hlt : idx < q.tasks.length
  · rw [countP_set hlt, h.len_eq]
    have hget : q.get idx = q.tasks[idx] := by simp [get, hlt]
    rw [hget]
    split <;> rfl
  · have hget : q.get idx = none := get_of_le (by rw [← q.length_tasks]; omega)
    rw [hget, set_eq_of_length_le (by omega)]
    exact h.len_eq

theorem Sound.change (h : q.Sound) (idx : ℕ) (f : Task → Task) : (q.modify idx f).Sound := by
  refine ⟨?_, h.cursor_lt⟩
  -- the same slots are taken
  have hcount : ∀ l : List (Option Task), l.countP isSome = (l.map isSome).countP id :=
    fun l => by rw [countP_map]; rfl
  have hsame : (q.tasks.set idx ((q.get idx).map f)).map isSome =
      q.tasks.map isSome := by
    rw [map_set, isSome_map]
    by_cases hlt : idx < q.tasks.length
    · have hlt' : idx < (q.tasks.map isSome).length := by simpa using hlt
      have hget : (q.get idx).isSome = (q.tasks.map isSome)[idx] := by simp [get, hlt]
      rw [hget, set_getElem_self]
    · rw [set_eq_of_length_le (by simpa using hlt)]
  rw [modify, setSlot]
  rw [hcount, hsame, ← hcount, h.len_eq]

theorem after_cursor (hcall : call ≠ .pickNext) : (q.after call).cursor = q.cursor := by
  cases call with
  | enqueue t =>
    rw [after]
    cases he : q.enqueue t with
    | none => rfl
    | some =>
      obtain ⟨idx, -, -, rfl⟩ := enqueue_spec he
      rfl
  | remove => rfl
  | change => rfl
  | pickNext => exact absurd rfl hcall

/-! ### Picking -/

/-- How far slot `i` is ahead of slot `k`, going around. -/
def ahead (i k : ℕ) : ℕ := (i + maxTasks - k) % maxTasks

theorem lt_of_isReady (h : q.isReady i = true) : i < maxTasks := by
  obtain ⟨t, ht, -⟩ := isReady_iff.1 h
  exact lt_of_get ht

theorem Sound.len_ne_zero (h : q.Sound) (hi : q.isReady i = true) : q.len ≠ 0 := by
  obtain ⟨t, ht, -⟩ := isReady_iff.1 hi
  rw [h.len_eq]
  exact (countP_pos_iff.2 ⟨some t, mem_of_get ht, rfl⟩).ne'

/-- A search around the slots finds a slot before it comes to any ready one. -/
theorem find_around {c : ℕ} (hc : c < maxTasks) {p : ℕ → Bool} (hi : i < maxTasks)
    (hp : p i = true) :
    ∃ j, (range' c (maxTasks - c) ++ range c).find? p = some j ∧ j < maxTasks ∧
      ahead i j ≤ ahead i c := by
  rw [find?_append]
  cases hfirst : (range' c (maxTasks - c)).find? p with
  | some j =>
    obtain ⟨-, hmem, hnone⟩ := find?_range'_eq_some.1 hfirst
    have hrange := mem_range'_1.1 hmem
    refine ⟨j, rfl, by omega, ?_⟩
    -- `i` is not between the cursor and `j`
    have hpast : ¬(c ≤ i ∧ i < j) := fun ⟨hle, hlt⟩ => by simpa [hp] using hnone i hle hlt
    simp only [ahead, maxTasks] at *
    omega
  | none =>
    have hnone := find?_range'_eq_none.1 hfirst
    have hic : i < c := by
      by_contra hle
      simpa [hp] using hnone i (by omega) (by omega)
    cases hsecond : (range c).find? p with
    | none => simpa [hp] using find?_range_eq_none.1 hsecond i hic
    | some j =>
      obtain ⟨-, hmem, hbelow⟩ := find?_range_eq_some.1 hsecond
      have hjc := mem_range.1 hmem
      refine ⟨j, rfl, by omega, ?_⟩
      have hpast : ¬i < j := fun hlt => by simpa [hp] using hbelow i hlt
      simp only [ahead, maxTasks] at *
      omega

/-- **`pick_next` returns a slot when some slot is ready; it is a ready one, it is not past any
ready slot, and the cursor is behind it.** -/
theorem pickNext_spec (h : q.Sound) (hi : q.isReady i = true) :
    ∃ j, q.pickNext = (some j, { q with cursor := (j + 1) % maxTasks }) ∧ j < maxTasks ∧
      ahead i j ≤ ahead i q.cursor := by
  obtain ⟨j, hj, hlt, hahead⟩ := find_around h.cursor_lt (lt_of_isReady hi) hi
  refine ⟨j, ?_, hlt, hahead⟩
  rw [pickNext, if_neg (h.len_ne_zero hi), hj]

theorem pickNext_isSome (h : q.Sound) : q.pickNext.1.isSome = true ↔ ∃ i, q.isReady i = true := by
  constructor
  · intro hsome
    obtain ⟨j, hj⟩ := isSome_iff_exists.1 hsome
    exact ⟨j, isReady_of_pickNext hj⟩
  · rintro ⟨i, hi⟩
    obtain ⟨j, hj, -⟩ := pickNext_spec h hi
    rw [hj]
    rfl

theorem Sound.pickNext (h : q.Sound) : q.pickNext.2.Sound := by
  unfold RunQueue.pickNext
  split
  · exact h
  · split
    · exact ⟨h.len_eq, Nat.mod_lt _ (by decide)⟩
    · exact h

theorem Sound.after (h : q.Sound) (call : QueueCall) : (q.after call).Sound := by
  cases call with
  | enqueue t =>
    rw [RunQueue.after]
    cases he : q.enqueue t with
    | none => exact h
    | some => exact h.enqueue he
  | remove idx => exact h.remove idx
  | change idx f => exact h.change idx f
  | pickNext => exact h.pickNext

/-! ### Waiting -/

/-- What a call of `pick_next` returns. -/
def returns (q : RunQueue) : QueueCall → List (Option ℕ)
  | .pickNext => [q.pickNext.1]
  | _ => []

/-- What the calls of `pick_next` in a sequence return, in order. -/
def picks : RunQueue → List QueueCall → List (Option ℕ)
  | _, [] => []
  | q, call :: calls => q.returns call ++ picks (q.after call) calls

/-- Slot `i` is ready in the sequence until it is returned. -/
def Waits (i : ℕ) : RunQueue → List QueueCall → Prop
  | _, [] => True
  | q, call :: calls =>
    q.isReady i = true ∧ (some i ∉ q.returns call → Waits i (q.after call) calls)

/-- What is returned before `i`. -/
def before (i : ℕ) (picks : List (Option ℕ)) : List (Option ℕ) :=
  picks.takeWhile fun x => x ≠ some i

theorem ahead_next (hi : i < maxTasks) (hj : j < maxTasks) (hne : j ≠ i) :
    ahead i ((j + 1) % maxTasks) + 1 = ahead i j := by
  simp only [ahead, maxTasks] at *
  omega

/-- The slots returned before `i` are ever closer to it. -/
theorem picks_of_waits (h : q.Sound) (hw : Waits i q calls) :
    (before i (picks q calls)).length ≤ ahead i q.cursor ∧
      (before i (picks q calls)).Nodup ∧
      ∀ x ∈ before i (picks q calls), ∃ j, x = some j ∧ ahead i j ≤ ahead i q.cursor := by
  induction calls generalizing q with
  | nil => simp [picks, before]
  | cons call calls ih =>
    obtain ⟨hready, hrest⟩ := hw
    by_cases hcall : call = .pickNext
    · subst hcall
      obtain ⟨j, hpick, hlt, hahead⟩ := pickNext_spec h hready
      have hpicks : picks q (.pickNext :: calls) =
          some j :: picks { q with cursor := (j + 1) % maxTasks } calls := by
        rw [picks, returns, after, hpick]
        rfl
      rw [hpicks, before]
      by_cases hne : j = i
      · simp [hne]
      · -- the cursor is behind `j` now, so the rest is closer to `i` than `j`
        have hnext := ahead_next (lt_of_isReady hready) hlt hne
        have hafter : q.after .pickNext = { q with cursor := (j + 1) % maxTasks } := by
          rw [after, hpick]
        have hwait := hrest (by rw [returns, hpick]; simp [Ne.symm hne])
        rw [hafter] at hwait
        obtain ⟨hlen, hnodup, hall⟩ := ih (hafter ▸ h.pickNext) hwait
        rw [takeWhile_cons_of_pos (by simp [hne])]
        refine ⟨?_, nodup_cons.2 ⟨fun hmem => ?_, hnodup⟩, fun x hx => ?_⟩
        · simp only [before] at hlen
          simp only [length_cons]
          omega
        · obtain ⟨k, hk, hle⟩ := hall _ hmem
          cases hk
          simp only at hle
          omega
        · obtain rfl | hx := mem_cons.1 hx
          · exact ⟨j, rfl, hahead⟩
          · obtain ⟨k, hk, hle⟩ := hall x hx
            simp only at hle
            exact ⟨k, hk, by omega⟩
    · have hreturns : q.returns call = [] := by
        cases call with
        | pickNext => exact absurd rfl hcall
        | _ => rfl
      have hwait := hrest (by rw [hreturns]; exact not_mem_nil)
      have hih := ih (h.after call) hwait
      rw [after_cursor hcall] at hih
      rw [picks, hreturns]
      exact hih

theorem mem_take_of_before {l : List (Option ℕ)} {n : ℕ} (hb : (before i l).length < n)
    (hl : n ≤ l.length) : some i ∈ l.take n := by
  have hsplit : before i l ++ l.dropWhile (fun x => x ≠ some i) = l := takeWhile_append_dropWhile
  cases hdrop : l.dropWhile fun x => x ≠ some i with
  | nil =>
    rw [hdrop, append_nil] at hsplit
    rw [hsplit] at hb
    omega
  | cons x =>
    -- the first slot that is not before `i` is `i`
    have hx : x = some i := by
      have hhead := head?_dropWhile_not (fun x => x ≠ some i) l
      rw [hdrop] at hhead
      simpa using hhead
    rw [← hsplit, hdrop, hx, take_append]
    refine mem_append_right _ ?_
    obtain ⟨m, hm⟩ : ∃ m, n - (before i l).length = m + 1 := ⟨n - (before i l).length - 1, by omega⟩
    rw [hm, take_succ_cons]
    exact .head _

/-- **Round-robin fairness.**  In every reachable run queue, `pick_next` returns a slot exactly when
one is ready, and a ready one; and from there on, whatever calls are made, while slot `i` is ready
no slot is returned twice before `i`, and `i` is among the first `MAX_TASKS` slots returned. -/
theorem fair_run (h : Reach step new q) :
    (q.pickNext.1.isSome = true ↔ ∃ idx, q.isReady idx = true) ∧
      (∀ idx, q.pickNext.1 = some idx → q.isReady idx = true) ∧
      ∀ i calls, Waits i q calls →
        (before i (picks q calls)).Nodup ∧
        (maxTasks ≤ (picks q calls).length → some i ∈ (picks q calls).take maxTasks) := by
  have hsound : q.Sound := h.invariant sound_new fun q call q' hi _ hs => by
    cases hs
    exact hi.after call
  refine ⟨pickNext_isSome hsound, fun idx hidx => isReady_of_pickNext hidx, fun i calls hw => ?_⟩
  obtain ⟨hlen, hnodup, -⟩ := picks_of_waits hsound hw
  exact ⟨hnodup, mem_take_of_before (lt_of_le_of_lt hlen (Nat.mod_lt _ (by decide)))⟩

/-- A run queue with two ready tasks. -/
def twoReady : RunQueue :=
  (new.after (.enqueue (.newKernel 1 0 0))).after (.enqueue (.newKernel 2 0 0))

/-- Slot 1 waits for slot 0. -/
theorem fair_run_twoReady :
    Reach step new twoReady ∧ Waits 1 twoReady [.pickNext, .pickNext] ∧
      picks twoReady [.pickNext, .pickNext] = [some 0, some 1] ∧
      (before 1 (picks twoReady [.pickNext, .pickNext])).Nodup := by
  have hreach : Reach step new twoReady := (Run.refl.tail trivial rfl).tail trivial rfl
  have hwaits : Waits 1 twoReady [.pickNext, .pickNext] :=
    ⟨by decide +kernel, fun _ => ⟨by decide +kernel, fun _ => trivial⟩⟩
  exact ⟨hreach, hwaits, by decide +kernel, ((fair_run hreach).2.2 1 _ hwaits).1⟩

end RunQueue

end Cyanos
