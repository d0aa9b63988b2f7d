import Mathlib.Data.Fintype.Basic
import Cyanos.Lib.Run
import Cyanos.Sched.Reaping

/-!
# Zombies are reaped once: every run

Every orderly step of the CPUs, of the tasks and of the wakers keeps `Smp.Reaping`.

* `reapedOnce_run`: **in a run of orderly steps every state is `ReapedOnce`**;
* `zombie_taken_by_wait`: a `wait_pid` that comes across a zombie leaves its hook uncalled and its
  kernel stack allocated.
-/

namespace Cyanos

open Lib RunQueue Function List Option Nat

namespace Smp

variable {ι : Type}

namespace Reaping

variable {s s' : Smp ι} [DecidableEq ι] {i : ι} {idx : ℕ} {z : ZombieInfo} {t : Task} {r : TaskRef}

theorem awaited_cases {f : ℕ → ℕ → Option ℕ} {a b a' b' c : ℕ} {v : Option ℕ}
    (h : update f a (update (f a) b v) a' b' = some c) :
    a' = a ∧ b' = b ∧ v = some c ∨ f a' b' = some c := by
  by_cases ha : a' = a
  · subst ha
    rw [update_self, update_apply] at h
    split_ifs at h with hb
    · exact .inl ⟨rfl, hb, h⟩
    · exact .inr h
  · exact .inr (by rwa [update_of_ne ha] at h)

section

variable (h : s.Reaping)
include h

omit [DecidableEq ι] in
/-- Tasks are found by their process ids. -/
theorem findPidIdx (ht : s.rq.get idx = some t) :
    s.rq.findPidIdx t.pid = some idx := by
  obtain ⟨j, hj⟩ := exists_findPidIdx ht
  obtain ⟨t', ht', hpid⟩ := findPidIdx_spec hj
  have hok := h.slots idx t ht
  have hok' := h.slots j t' ht'
  have hctx := h.pids _ _ hok'.lt hok.lt (by rw [hok.pid, hok'.pid, hpid])
  rw [hj, h.distinct j idx (by simp [ht']) (by simp [ht]) hctx]

/-- A task exits. -/
theorem exit (hi : s.cpu i = .running r) (code : ℤ) :
    (s.call i r (.exit code)).Reaping := by
  obtain ⟨hc, t, ht, hpid, hz⟩ := h.knows_of hi
  have hok := h.slots r.idx t ht
  have hdeeds : s.history.deeds r.ctx = {} := hc ▸ hok.live hz
  have hfind : s.rq.findPidIdx r.pid = some r.idx := hpid ▸ h.findPidIdx ht
  have hget : ∀ idx, (s.call i r (.exit code)).rq.get idx =
      if idx = r.idx then some { t with state := .zombie, exitCode := code } else s.rq.get idx := by
    intro idx
    have h' : (s.rq.modifyPid r.pid fun t => { t with state := .zombie, exitCode := code }).get idx = _ :=
      get_modifyPid idx
    rw [hfind] at h'
    by_cases he : idx = r.idx
    · subst he
      rw [if_pos rfl, ht] at h'
      rw [if_pos rfl]
      exact h'
    · rw [if_neg fun hs => he (some.inj hs).symm] at h'
      rw [if_neg he]
      exact h'
  have hcpu : (s.call i r (.exit code)).cpu i = .leaving r := goto_self _ i _
  have hd : (s.call i r (.exit code)).history.deeds r.ctx = ⟨some code, 0, 0⟩ := by
    simp [call, Smp.goto, History.exit, hdeeds]
  have d : s.Deals (s.call i r (.exit code)) i r.ctx := by
    refine .of_records (hc ▸ h.sole_of_slot hi rfl rfl ht) (fun idx hidx => ?_)
      (fun idx hidx => ?_) rfl rfl rfl (fun c' hc' => update_of_ne hc' _ _)
      fun code hcode => by simp [hdeeds] at hcode
    · refine (hget idx).trans (if_neg ?_)
      rintro rfl
      exact hidx hc
    · replace hidx := (congrArg Option.isSome (hget idx)).symm.trans hidx
      split at hidx
      · next he => simp [he, ht]
      · exact hidx
  refine d.reaping h hi hcpu (fun _ hidx => hidx) (fun _ hz => by cases hz)
    ⟨hc, _, by rw [hget, if_pos rfl]⟩ (fun idx t' ht' hidx => ?_) ?_ (.inl ⟨rfl, rfl⟩) h.removals
  · obtain ⟨t₀, ht0⟩ := isSome_iff_exists.1 (d.isSome idx (by simp [ht']))
    obtain rfl := h.idx_eq ht ht0 (hidx.trans hc.symm)
    rw [hget, if_pos rfl] at ht'
    cases ht'
    have hctx : (s.call i r (.exit code)).ctx r.idx = r.ctx := hc
    exact ⟨hok.lt, hok.pid, hok.notLogged, fun hne => absurd rfl hne,
      fun _ => .inl ⟨i, by rw [hcpu]; rfl, by rw [hctx, hd]⟩⟩
  · exact .inl ⟨r.idx, box_eq_some.2 ⟨⟨_, by rw [hget, if_pos rfl]⟩, hc⟩⟩

/-- The exit hook is called for a zombie. -/
theorem hook (hi : s.cpu i = .found z) :
    ({ s with history := s.history.hook z.ctx }.goto i (.hooked z)).Reaping := by
  obtain ⟨⟨hc, t, ht, hpid, hz⟩, hd⟩ := h.knows_of hi
  have hok := h.slots z.idx t ht
  have d : s.Deals ({ s with history := s.history.hook z.ctx }.goto i (.hooked z)) i z.ctx :=
    .of_records (hc ▸ h.sole_of_slot hi rfl rfl ht) (fun _ _ => rfl) (fun _ h => h) rfl rfl rfl
      (fun c' hc' => update_of_ne hc' _ _)
      fun code hcode => by simpa [History.hook] using hcode
  refine d.reaping h hi (goto_self _ i _) (fun _ hidx => hidx) (fun _ hz => by cases hz)
    ⟨⟨hc, t, ht, hpid, hz⟩, by simp [Smp.goto, History.hook, hd]⟩ (fun idx t' ht' hidx => ?_) ?_
    (.inl ⟨rfl, rfl⟩) h.removals
  · obtain rfl := h.idx_eq ht ht' (hidx.trans hc.symm)
    obtain rfl := mem_unique ht ht'
    exact ⟨hok.lt, hok.pid, hok.notLogged, fun hne => absurd hz hne, fun _ => .inr ⟨i, z, goto_self _ i _, rfl⟩⟩
  · exact .inl ⟨z.idx, box_eq_some.2 ⟨⟨t, ht⟩, hc⟩⟩

/-- The slot of a zombie is emptied. -/
theorem remove (hi : s.cpu i = .hooked z) :
    ((s.reap z).goto i (.removed z)).Reaping := by
  obtain ⟨⟨hc, t, ht, hpid, hz⟩, hd⟩ := h.knows_of hi
  have hok := h.slots z.idx t ht
  have hget : ∀ idx, ((s.reap z).goto i (.removed z)).rq.get idx =
      if idx = z.idx then none else s.rq.get idx := get_remove
  have hout : ∀ idx t', ((s.reap z).goto i (.removed z)).rq.get idx = some t' → s.ctx idx ≠ z.ctx := by
    intro idx t' ht' hidx
    obtain ⟨hne, ht'⟩ := get_remove_eq_some.1 ht'
    exact hne (h.idx_eq ht ht' (hidx.trans hc.symm))
  have d : s.Deals ((s.reap z).goto i (.removed z)) i z.ctx := by
    refine .of_records (hc ▸ h.sole_of_slot hi rfl rfl ht) (fun idx hidx => ?_)
      (fun idx hidx => ?_) rfl rfl rfl (fun _ _ => rfl) fun _ hcode => hcode
    · refine (hget idx).trans (if_neg ?_)
      rintro rfl
      exact hidx hc
    · replace hidx := (congrArg Option.isSome (hget idx)).symm.trans hidx
      split at hidx
      · cases hidx
      · exact hidx
  refine d.reaping h hi (goto_self _ i _) (fun _ hz => by cases hz) (fun z' hz' => by rw [← some.inj hz']) ?_
    (fun idx t' ht' hidx => absurd hidx (hout idx t' ht')) ?_ (.inl ⟨rfl, rfl⟩) fun e he => ?_
  · refine ⟨⟨d.sole.lt, ?_, d.sole.notLogged, fun idx hidx => ?_⟩, hd⟩
    · rw [← hpid, ← hok.pid, hc]
      rfl
    · obtain ⟨⟨t', ht'⟩, hidx⟩ := box_eq_some.1 hidx
      exact hout idx t' ht' hidx
  · exact .inr (.inl ⟨i, z, by rw [goto_self]; rfl, rfl⟩)
  · rcases mem_cons.1 he with rfl | he
    · exact box_eq_some.2 ⟨⟨t, ht⟩, hc⟩
    · exact h.removals e he

/-- The kernel stack of a zombie is freed. -/
theorem free (hi : s.cpu i = .removed z) :
    ({ s with history := s.history.free z.ctx }.goto i (.freed z)).Reaping := by
  obtain ⟨hg, hd⟩ := h.knows_of hi
  have d : s.Deals ({ s with history := s.history.free z.ctx }.goto i (.freed z)) i z.ctx :=
    .of_records (h.sole_of_reaped hi rfl rfl) (fun _ _ => rfl) (fun _ h => h)
      rfl rfl rfl (fun c' hc' => update_of_ne hc' _ _)
      fun code hcode => by simpa [History.free] using hcode
  refine d.reaping h hi (goto_self _ i _) (fun _ hz => by cases hz) (fun z' hz' => by rw [← some.inj hz'])
    ⟨{ hg with }, by simp [Smp.goto, History.free, hd]⟩
    (fun idx t' ht' hidx => ?_) ?_ (.inl ⟨rfl, rfl⟩) h.removals
  · exact absurd (box_eq_some.2 ⟨⟨t', ht'⟩, hidx⟩) (hg.notIn idx)
  · exact .inr (.inl ⟨i, z, by rw [goto_self]; rfl, rfl⟩)

/-- The exit of a zombie is logged. -/
theorem logExit (hi : s.cpu i = .freed z) :
    ({ s with log := s.log.logExit z.pid z.exitCode, history := s.history.log z.ctx }.goto i
      .idle).Reaping := by
  obtain ⟨hg, hd⟩ := h.knows_of hi
  have d : s.Deals ({ s with
      log := s.log.logExit z.pid z.exitCode
      history := s.history.log z.ctx }.goto i .idle) i z.ctx :=
    .of_records (h.sole_of_reaped hi rfl rfl) (fun _ _ => rfl) (fun _ h => h)
      rfl rfl rfl (fun _ _ => rfl) fun _ hcode => hcode
  refine d.reaping h hi (goto_self _ i _) (fun _ hz => by cases hz) (fun _ hz => by cases hz)
    trivial (fun idx t' ht' hidx => ?_)
    (.inr (.inr (.head _))) (.inr ⟨z.exitCode, hd, rfl, ?_⟩) h.removals
  · exact absurd (box_eq_some.2 ⟨⟨t', ht'⟩, hidx⟩) (hg.notIn idx)
  · rw [hg.pid]
    rfl

/-! ### Tasks that are added and waited for -/

omit [DecidableEq ι] in
theorem enqueue (hpid : ∀ c < s.nextCtx, s.history.pid c ≠ t.pid)
    (hs : s.enqueue t = some s') : s'.Reaping := by
  obtain ⟨idx₀, rq, ctx, hready, heq, hnew, hctx0, hkept, hcases⟩ := enqueue_cases hs
  have hlt : ∀ idx, (s.rq.get idx).isSome → s.ctx idx < s.nextCtx := by
    intro idx hidx
    obtain ⟨u, hu⟩ := isSome_iff_exists.1 hidx
    exact (h.slots idx u hu).lt
  have hdist := enqueue_distinct hs hlt h.distinct
  subst heq
  have hold : ∀ c < s.nextCtx, (s.history.add s.nextCtx t.pid).pid c = s.history.pid c :=
    fun c hc => update_of_ne (by omega) _ _
  have hpid0 : (s.history.add s.nextCtx t.pid).pid s.nextCtx = t.pid := update_self ..
  refine ⟨h.alone, h.aloneReaped, fun i => ?_, fun idx u hu => ?_, hdist, fun c c' hc hc' he => ?_,
    fun c hc => h.unborn c (by exact le_of_succ_le hc), fun c hc => ?_, fun c hc => ?_, ?_,
    fun caller pid c hc => ?_, h.returns, h.removals⟩
  · refine (h.knows i).frame (fun idx hidx => ?_) fun z _ hz => ⟨⟨lt_succ_of_lt hz.lt,
      (hold _ hz.lt).trans hz.pid, hz.notLogged, fun idx hidx => ?_⟩, rfl⟩
    · obtain ⟨u, hu⟩ := h.occupied hidx
      obtain ⟨hget, hctx⟩ := hkept idx (by simp [hu])
      refine ⟨hctx, ?_, rfl⟩
      rw [hget]
      exact RunQueue.SameLife.of_get_eq (fun _ => rfl) idx
    · obtain ⟨⟨u, hu⟩, hc⟩ := box_eq_some.1 hidx
      simp only at hu hc
      rcases hcases idx u hu with ⟨rfl, -⟩ | hu
      · have := hz.lt
        omega
      · rw [(hkept idx (by simp [hu])).2] at hc
        exact hz.notIn idx (box_eq_some.2 ⟨⟨u, hu⟩, hc⟩)
  · rcases hcases idx u hu with ⟨rfl, rfl⟩ | hu
    · have hnot : s.nextCtx ∉ s.history.logged := by
        intro hmem
        have := (h.logged _ hmem).1
        omega
      refine ⟨?_, ?_, ?_, fun _ => ?_, fun hz => by cases hready.symm.trans hz⟩ <;> simp only [hctx0]
      · exact lt_succ_self _
      · exact hpid0
      · exact hnot
      · exact h.unborn _ le_rfl
    · have hok := h.slots idx u hu
      have hctx := (hkept idx (by simp [hu])).2
      refine ⟨?_, ?_, ?_, fun hz => ?_, fun hz => ?_⟩ <;> simp only [hctx]
      · exact lt_succ_of_lt hok.lt
      · exact (hold _ hok.lt).trans hok.pid
      · exact hok.notLogged
      · exact hok.live hz
      · exact hok.zombie hz
  · rcases Nat.lt_succ_iff_lt_or_eq.1 hc with hc | rfl <;>
      rcases Nat.lt_succ_iff_lt_or_eq.1 hc' with hc' | rfl
    · rw [hold c hc, hold c' hc'] at he
      exact h.pids c c' hc hc' he
    · rw [hold c hc, hpid0] at he
      exact absurd he (hpid c hc)
    · rw [hold c' hc', hpid0] at he
      exact absurd he.symm (hpid c' hc')
    · rfl
  · rcases Nat.lt_succ_iff_lt_or_eq.1 hc with hc | rfl
    · refine (h.whereabouts c hc).imp_left ?_
      rintro ⟨idx, hidx⟩
      obtain ⟨⟨u, hu⟩, hc⟩ := box_eq_some.1 hidx
      obtain ⟨hget, hctx⟩ := hkept idx (by simp [hu])
      exact ⟨idx, box_eq_some.2 ⟨⟨u, hget.trans hu⟩, hctx.trans hc⟩⟩
    · exact .inl ⟨idx₀, box_eq_some.2 ⟨⟨t, hnew⟩, hctx0⟩⟩
  · exact ⟨lt_succ_of_lt (h.logged c hc).1, (h.logged c hc).2⟩
  · refine (map_congr_left fun c hc => ?_ : s.history.logged.map _ = _) ▸ h.ring
    rw [record, record, hold c (h.logged c hc).1]
    rfl
  · obtain ⟨hc, hp⟩ := h.awaited caller pid c hc
    exact ⟨lt_succ_of_lt hc, (hold c hc).trans hp⟩

omit [DecidableEq ι] in
/-- The record of a task that has been logged is found while the log has it. -/
theorem getExitCode {c : ℕ} (hc : c ∈ s.history.logged)
    (hlater : s.history.laterRecords c < exitLogLen) :
    s.log.getExitCode (s.history.pid c) = (s.history.deeds c).code := by
  obtain ⟨hlt, code, hd⟩ := h.logged c hc
  have hmem : some (s.record c) ∈ s.log.slots := by
    refine h.ring.mem hlater ?_
    rw [getElem?_map, History.laterRecords, getElem?_idxOf hc]
    rfl
  -- Every record of the process id is that of the task.
  have hsame : ∀ e, some e ∈ s.log.slots → e.pid = s.history.pid c → e = s.record c := by
    intro e he hpid
    obtain ⟨c', hc', rfl⟩ := mem_map.1 (h.ring.mem_of_mem he)
    rw [h.pids c' c (h.logged c' hc').1 hlt hpid]
  have hfind : ∃ e, (s.log.slots.filterMap id).find? (fun e => e.pid = s.history.pid c) = some e := by
    refine isSome_iff_exists.1 (find?_isSome.2 ⟨s.record c, ?_, by simp [record]⟩)
    exact mem_filterMap.2 ⟨_, hmem, rfl⟩
  obtain ⟨e, he⟩ := hfind
  obtain ⟨slot, hslot, hse⟩ := mem_filterMap.1 (mem_of_find?_eq_some he)
  obtain rfl : slot = some e := hse
  have heq := hsame e hslot (by simpa using find?_some he)
  rw [ExitLog.getExitCode, he, heq, record, hd]
  rfl

omit [DecidableEq ι] in
/-- What is noted of the calls of `wait_pid` matters to nothing else. -/
theorem history (awaited : ℕ → ℕ → Option ℕ) (returns : List WaitReturn)
    (ha : ∀ caller pid c, awaited caller pid = some c → c < s.nextCtx ∧ s.history.pid c = pid)
    (hr : ∀ r ∈ returns, r.later < exitLogLen →
      ∃ code, (s.history.deeds r.ctx).code = some code ∧ r.result = some code) :
    Reaping { s with history := { s.history with awaited := awaited, returns := returns } } := by
  refine { h with knows i := ?_, slots idx t ht := ?_, awaited := ha, returns := hr }
  · exact (h.knows i).frame
      (fun idx _ => ⟨rfl, RunQueue.SameLife.of_get_eq (fun _ => rfl) idx, rfl⟩)
      fun _ _ hz => ⟨{ hz with }, rfl⟩
  · exact { h.slots idx t ht with }

omit [DecidableEq ι] in
/-- A turn of `wait_pid` finds the task in the run queue. -/
theorem await (ht : s.rq.get idx = some t) (caller : ℕ) :
    Reaping { s with history := s.history.await caller t.pid (s.ctx idx) } := by
  have hok := h.slots idx t ht
  refine h.history _ _ (fun caller' pid' c hc => ?_) h.returns
  obtain ⟨rfl, rfl, hv⟩ | hc := awaited_cases hc
  · cases ha : s.history.awaited caller' t.pid with
    | none =>
      rw [ha] at hv
      cases hv
      exact ⟨hok.lt, hok.pid⟩
    | some =>
      rw [ha] at hv
      cases hv
      exact h.awaited _ _ _ ha
  · exact h.awaited _ _ _ hc

omit [DecidableEq ι] in
/-- A turn of `wait_pid` finds the task neither in the run queue nor with a CPU that reaps it. -/
theorem answer (caller : ℕ) {pid : ℕ} (hfind : s.rq.findPidIdx pid = none)
    (hreaped : ∀ j, ∀ z ∈ (s.cpu j).reaped, z.pid ≠ pid)
    (hlater : ∀ c < s.nextCtx, s.history.pid c = pid → s.history.laterExits c < exitLogLen →
      s.history.laterRecords c < exitLogLen) :
    Reaping { s with history := s.history.answer caller pid (s.log.getExitCode pid) } := by
  unfold History.answer
  split
  swap
  · exact h
  next c hc =>
  obtain ⟨hlt, rfl⟩ := h.awaited caller pid c hc
  have hlogged : c ∈ s.history.logged := by
    rcases h.whereabouts c hlt with ⟨idx, hidx⟩ | ⟨j, z, hz, rfl⟩ | hlog
    · obtain ⟨⟨t, ht⟩, rfl⟩ := box_eq_some.1 hidx
      rw [(h.slots idx t ht).pid, h.findPidIdx ht] at hfind
      cases hfind
    · exact absurd (h.of_reaped hz).1.pid.symm (hreaped j z hz)
    · exact hlog
  refine h.history _ _ (fun caller' pid' c' hc' => ?_) fun r hr hrl => ?_
  · obtain ⟨-, -, ⟨⟩⟩ | hc' := awaited_cases hc'
    exact h.awaited _ _ _ hc'
  · rcases mem_cons.1 hr with rfl | hr
    · obtain ⟨-, code, hd⟩ := h.logged c hlogged
      have hcode : (s.history.deeds c).code = some code := by rw [hd]
      exact ⟨code, hcode, (h.getExitCode hlogged (hlater c hlt rfl hrl)).trans hcode⟩
    · exact h.returns r hr hrl

omit [DecidableEq ι] in
theorem waitPid (caller pid : ℕ)
    (hzombie : ∀ idx ∈ s.rq.findPidIdx pid, s.zombieInfo idx = none)
    (hreaped : ∀ j, ∀ z ∈ (s.cpu j).reaped, z.pid ≠ pid)
    (hlater : ∀ c < s.nextCtx, s.history.pid c = pid → s.history.laterExits c < exitLogLen →
      s.history.laterRecords c < exitLogLen) : (s.waitPid caller pid).Reaping := by
  unfold Smp.waitPid
  split
  · next idx hidx =>
    rw [hzombie idx hidx]
    obtain ⟨t, ht, rfl⟩ := findPidIdx_spec hidx
    exact h.await ht caller
  · next hfind => exact h.answer caller hfind hreaped hlater

/-! ### Every step -/

/-- A CPU picks a slot that no CPU works on. -/
theorem pick (hi : s.cpu i = .idle)
    (hg : ∀ idx ∈ s.rq.pickNext.1, ∀ j, (s.cpu j).slot ≠ some idx) : (s.pick i).Reaping := by
  have hq : Reaping { s with rq := s.rq.pickNext.2 } := h.queue (.of_get_eq get_pickNext)
  unfold Smp.pick
  split
  · next idx hidx =>
    refine hq.goto hi rfl rfl (fun idx' hidx' j _ => ?_) ?_ fun _ _ he => by cases he
    · cases hidx'
      exact hg _ hidx j
    · obtain ⟨t, ht, hr⟩ := isReady_iff.1 (isReady_of_pickNext hidx)
      exact ⟨t, (get_pickNext idx).trans ht, by simp [hr]⟩
  · exact hq.goto hi rfl rfl (fun _ hidx' => by cases hidx') trivial fun _ _ he => by cases he

omit [DecidableEq ι] in
/-- Changing a task that is not a zombie into one that is not a zombie. -/
theorem modify {f : Task → Task} (hpid : ∀ t, (f t).pid = t.pid)
    (hcode : ∀ t, (f t).exitCode = t.exitCode)
    (hf : ∀ t, s.rq.get idx = some t → ((f t).state = .zombie ↔ t.state = .zombie)) :
    Reaping { s with rq := s.rq.modify idx f } := by
  refine h.queue fun j => ?_
  rw [get_modify]
  split
  · next he =>
    subst he
    cases ht : s.rq.get j with
    | none => exact .none
    | some t => exact .some ⟨hpid t, hcode t, hf t ht⟩
  · exact RunQueue.SameLife.of_get_eq (fun _ => rfl) j

/-- The CPU looks for a zombie in its slot. -/
theorem check (hi : s.cpu i = .settled idx) :
    (s.goto i (match s.zombieInfo idx with
      | some z => .found z
      | none => .idle)).Reaping := by
  obtain ⟨t, ht⟩ := h.knows_of hi
  have hok := h.slots idx t ht
  by_cases hz : t.state = .zombie
  · have hinfo : s.zombieInfo idx = some ⟨idx, s.ctx idx, t.kernelStack, t.pid, t.exitCode⟩ := by
      simp [zombieInfo, ht, hz]
    rw [hinfo]
    refine h.advance hi rfl rfl rfl ⟨⟨rfl, t, ht, rfl, hz⟩, ?_⟩ fun _ he => he
    rcases hok.zombie hz with ⟨-, -, hd⟩ | ⟨j, z, hj, rfl⟩
    · exact hd
    · -- No other CPU has got further with the zombie of this slot.
      have hji := h.alone j i z.idx (by rw [hj]; rfl) (by rw [hi]; rfl)
      rw [hji, hi] at hj
      cases hj
  · have hinfo : s.zombieInfo idx = none := by simp [zombieInfo, ht, hz]
    rw [hinfo]
    refine h.goto hi rfl rfl (fun _ he => by cases he) trivial fun idx' t' he ht' hz' => ?_
    cases he
    obtain rfl := mem_unique ht ht'
    exact absurd hz' hz

theorem sched (hg : s.Orderly (.sched i)) (hs : s.sched i = some s') :
    s'.Reaping := by
  replace hg : s.OrderlyPhase (s.cpu i) := hg
  have hk := h.knows i
  cases sched_cases hs with
  | pick hi =>
    rw [hi] at hg
    exact h.pick hi hg
  | @choose idx t hi ht =>
    rw [hi] at hk
    obtain ⟨t', ht', hz⟩ := hk
    obtain rfl := mem_unique ht ht'
    exact h.advance hi rfl rfl rfl ⟨rfl, t, ht, rfl, hz⟩ fun _ he => by cases he
  | @publish r hi =>
    rw [hi] at hk
    obtain ⟨hc, t, ht, hpid, hz⟩ := hk
    have hq : Reaping { s with rq := s.rq.modify r.idx fun t => { t with state := .running } } := by
      refine h.modify (fun _ => rfl) (fun _ => rfl) fun t' ht' => ?_
      obtain rfl := mem_unique ht ht'
      simp [hz]
    refine hq.advance hi rfl rfl rfl ⟨hc, { t with state := .running }, ?_, hpid, by simp⟩
      fun _ he => by cases he
    rw [get_modify, if_pos rfl, ht]
    rfl
  | run hi =>
    rw [hi] at hk
    exact h.advance hi rfl rfl rfl hk fun _ he => by cases he
  | @settle idx hi =>
    rw [hi] at hk
    obtain ⟨t, ht⟩ := hk
    have hq : Reaping { s with rq := s.rq.modify idx requeue } := by
      refine h.modify (fun t => ?_) (fun t => ?_) fun t' _ => ?_
      all_goals unfold requeue
      · split <;> rfl
      · split <;> rfl
      · split
        · next hr => simp [hr]
        · rfl
    refine hq.advance hi rfl rfl rfl ⟨requeue t, ?_⟩ fun _ he => he
    rw [get_modify, if_pos rfl, ht]
    rfl
  | check hi => exact h.check hi
  | hook hi => exact h.hook hi
  | remove hi => exact h.remove hi
  | free hi => exact h.free hi
  | logExit hi => exact h.logExit hi

/-- A running task marks itself `Blocked`. -/
theorem block (hi : s.cpu i = .running r) {f : Task → Task}
    (hpid : ∀ t, (f t).pid = t.pid) (hcode : ∀ t, (f t).exitCode = t.exitCode)
    (hf : ∀ t, (f t).state = .blocked) :
    ({ s with rq := s.rq.modifyPid r.pid f }.goto i (.leaving r)).Reaping := by
  obtain ⟨hc, t, ht, htpid, hz⟩ := h.knows_of hi
  have hfind : s.rq.findPidIdx r.pid = some r.idx := htpid ▸ h.findPidIdx ht
  have hq : Reaping { s with rq := s.rq.modifyPid r.pid f } := by
    unfold modifyPid
    rw [hfind]
    refine h.modify hpid hcode fun t' ht' => ?_
    obtain rfl := mem_unique ht ht'
    simp [hf, hz]
  refine hq.advance hi rfl rfl rfl ⟨hc, f t, ?_⟩ fun _ he => by cases he
  rw [get_modifyPid, if_pos hfind, ht]
  rfl

/-- A CPU switches back to the scheduler. -/
theorem yieldNow (hi : s.cpu i = .running r ∨ s.cpu i = .leaving r) :
    (s.goto i (.returned r.idx)).Reaping := by
  rcases hi with hi | hi
  · exact h.advance hi rfl rfl rfl (h.occupied (by rw [hi]; rfl)) fun _ he => by cases he
  · exact h.advance hi rfl rfl rfl (h.occupied (by rw [hi]; rfl)) fun _ he => he

theorem task {c : Call} (hg : s.Orderly (.task i c))
    (hs : s.task i c = some s') : s'.Reaping := by
  unfold Smp.task at hs
  split at hs
  · next r hi =>
    cases hs
    cases c with
    | blockOnPort | blockOnFutex =>
      exact h.block hi (fun _ => rfl) (fun _ => rfl) fun _ => rfl
    | exit code => exact h.exit hi code
    | waitPid pid => exact h.waitPid r.ctx pid hg.1 hg.2.1 hg.2.2
    | yieldNow => exact h.yieldNow (.inl hi)
  · next r hi =>
    split at hs
    · next hc =>
      subst hc
      cases hs
      exact h.yieldNow (.inr hi)
    · cases hs
  · cases hs

theorem step {a : Act ι} (hg : s.Orderly a) (hs : s.step a = some s') : s'.Reaping := by
  cases a with
  | sched => exact h.sched hg hs
  | task => exact h.task hg hs
  | wake w =>
    cases hs
    exact h.queue (s.rq.wakeBy_woken w).sameLife
  | enqueue => exact h.enqueue hg hs

end

omit [DecidableEq ι] in
theorem boot : (boot : Smp ι).Reaping := by
  have hempty : ∀ idx, (Smp.boot : Smp ι).rq.get idx = none := by
    intro idx
    simp [Smp.boot, RunQueue.new, RunQueue.get]
  exact
    { alone := fun _ _ _ h => by cases h
      aloneReaped := fun _ _ _ h => by cases h
      knows := fun _ => trivial
      slots := fun idx t ht => by cases (hempty idx).symm.trans ht
      distinct := fun idx idx' hi => by
        rw [hempty] at hi
        cases hi
      pids := fun c _ hc => absurd hc (not_lt_zero c)
      unborn := fun _ _ => rfl
      whereabouts := fun c hc => absurd hc (not_lt_zero c)
      logged := forall_mem_nil _
      ring := RingOf.nil (by decide)
      awaited := fun _ _ _ h => by cases h
      returns := forall_mem_nil _
      removals := forall_mem_nil _ }

end Reaping

variable [DecidableEq ι] {s : Smp ι}

/-- **Every zombie is reaped once.**  In every state of a run of orderly steps, the hook of every
task that exited is called once and its kernel stack freed once when no CPU is about to reap it any
more, no other task has been removed for it, and `wait_pid` has returned its exit code. -/
theorem reapedOnce_run (h : Run step Orderly boot s) : s.ReapedOnce :=
  (h.invariant Reaping.boot fun _ _ _ hi hg hs => hi.step hg hs).reapedOnce

instance [Fintype ι] (s : Smp ι) (p : Phase) : Decidable (s.OrderlyPhase p) := by
  rcases p <;> dsimp only [OrderlyPhase] <;> infer_instance

instance [Fintype ι] (s : Smp ι) (a : Act ι) : Decidable (s.Orderly a) := by
  rcases a with _ | ⟨_, ⟨⟩⟩ | _ <;> dsimp only [Orderly] <;> infer_instance

/-- Two tasks, each of them run by a CPU. -/
def bothRun : List (Act (Fin 2)) :=
  [.enqueue (.newKernel 1 0x1000 0), .enqueue (.newKernel 2 0x2000 0)] ++
    .replicate 4 (.sched 0) ++ .replicate 4 (.sched 1)

/-- Task 1 exits on CPU 0 and is reaped there while task 2 waits for it on CPU 1. -/
theorem reapedOnce_run_waited : ∃ s : Smp (Fin 2), Run step Orderly boot s ∧
    (s.history.deeds 0 = ⟨some 7, 1, 1⟩ ∧ s.history.returns = [⟨0, some 7, 0⟩]) ∧ s.ReapedOnce :=
  Run.exists_guarded_with
    (bothRun ++ [.task 1 (.waitPid 1), .task 0 (.exit 7), .task 0 .yieldNow] ++
      .replicate 6 (.sched 0) ++ [.task 1 (.waitPid 1)]) (by decide +kernel)
    fun _ hrun _ => reapedOnce_run hrun

instance (s : Smp ι) (i : ι) (c : ℕ) : Decidable (s.Handles i c) := by
  unfold Handles
  split <;> infer_instance

/-- **A zombie that is never reaped.**  `wait_pid` on CPU 1 comes across task 1 after it has marked
itself `Zombie` and before CPU 0 is back in its scheduler: the slot is emptied there, and when CPU 0
looks there is no zombie.  The hook is not called and the kernel stack not freed. -/
theorem zombie_taken_by_wait : ∃ s : Smp (Fin 2), Reach step boot s ∧
    (s.history.deeds 0 = ⟨some 7, 0, 0⟩ ∧ s.box 0 = none ∧ s.cpu 0 = .idle ∧
      ∀ i, ¬s.Handles i 0) ∧ ¬s.ReapedOnce := by
  refine Run.exists_guarded_with
    (bothRun ++ [.task 0 (.exit 7), .task 1 (.waitPid 1), .task 0 .yieldNow, .sched 0, .sched 0])
    (by decide +kernel) fun s _ hp h => ?_
  obtain ⟨hd, -, -, hno⟩ := hp
  have := (h.once 0 (by simp [hd]) hno).2.1
  simp [hd] at this

end Smp

end Cyanos
