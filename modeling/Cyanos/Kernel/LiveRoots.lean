import Cyanos.Kernel.Ownership

/-!
# No task on a freed page table

A task runs on the page table whose root is in its own record, `page_table`, but the root belongs to
an address space, and is freed with it.  A thread made by `clone_thread` shares the root and has no
address space.  So a thread goes on with a freed page table when the task it was made by loads
another image, or is reaped.

The blocks of all tasks are apart and held (`Kernel.Sound`), and every root that a task runs on
belongs to an address space, as long as an address space is only dropped when no other task runs on
its root.

## Main results

* `Kernel.rootsKept_run` : **the root of a task that has not exited is never given back**, in all
  runs in which an address space is dropped only by the last task that runs on its root, and no
  `fork` fails after it has obtained a root.
* `Kernel.thread_on_freed_root` : a thread whose creator exits.
-/

namespace Cyanos

open Lib Machine MemMachine RunQueue List Option

/-! ### Roots and their owners -/

namespace RunQueue

/-- Every address space is under the root of its task, and every root that a task runs on belongs to
an address space. -/
structure Rooted (q : RunQueue) : Prop where
  own : ∀ {i t s}, q.get i = some t → t.addressSpace = some s → s.pageTableRoot = t.pageTable
  owner : ∀ {i t}, q.get i = some t → t.state ≠ .zombie → t.pageTable ≠ 0 →
    ∃ j u, q.get j = some u ∧ u.addressSpace.isSome = true ∧ u.pageTable = t.pageTable

/-- If the task in the slot has an address space, no other task runs on its root. -/
def SoleUser (q : RunQueue) (idx : ℕ) : Prop :=
  ∀ t, q.get idx = some t → t.addressSpace.isSome = true → ∀ j < maxTasks, j ≠ idx →
    ∀ u, q.get j = some u → u.state ≠ .zombie → u.pageTable ≠ t.pageTable

instance (q : RunQueue) (idx : ℕ) : Decidable (q.SoleUser idx) :=
  inferInstanceAs (Decidable (∀ _, _ = some _ → _))

namespace Rooted

variable {q q' : RunQueue} {idx : ℕ} {t : Task} {slot : Option Task}

theorem enqueue (h : q.Rooted) (hq : q.enqueue t = some q')
    (hown : ∀ s, t.addressSpace = some s → s.pageTableRoot = t.pageTable)
    (howner : t.pageTable = 0 ∨ t.addressSpace.isSome = true ∨
      ∃ j u, q.get j = some u ∧ u.addressSpace.isSome = true ∧ u.pageTable = t.pageTable) :
    q'.Rooted := by
  obtain ⟨idx, hlt, hnone, rfl⟩ := enqueue_spec hq
  have hself : (q.setSlot idx (some t)).get idx = some t := get_setSlot_self hlt
  have hne : ∀ {j u}, q.get j = some u → j ≠ idx := by
    rintro j u hj rfl
    cases hnone.symm.trans (get_eq_some.1 hj)
  have hkeep : ∀ {j u}, q.get j = some u → (q.setSlot idx (some t)).get j = some u := fun hj =>
    (get_setSlot_of_ne (hne hj)).trans hj
  have hcases : ∀ {i u}, (q.setSlot idx (some t)).get i = some u → q.get i = some u ∨ u = t := by
    intro i u hi
    by_cases he : i = idx
    · subst he
      exact .inr (mem_unique hi hself)
    · exact .inl ((get_setSlot_of_ne he).symm.trans hi)
  refine ⟨fun {i u s} hi hs => ?_, fun {i u} hi hz h0 => ?_⟩
  · rcases hcases hi with hi | rfl
    · exact h.own hi hs
    · exact hown s hs
  · rcases hcases hi with hi | rfl
    · obtain ⟨j, v, hj, hv⟩ := h.owner hi hz h0
      exact ⟨j, v, hkeep hj, hv⟩
    · rcases howner with h0' | hsome | ⟨j, v, hj, hv⟩
      · exact absurd h0' h0
      · exact ⟨idx, u, hself, hsome, rfl⟩
      · exact ⟨j, v, hkeep hj, hv⟩

/-- A task is replaced by one that needs no other's address space, or goes. -/
theorem setSlot (h : q.Rooted) (ht : q.get idx = some t)
    (hown : ∀ u s, slot = some u → u.addressSpace = some s → s.pageTableRoot = u.pageTable)
    (howner : ∀ u, slot = some u → u.state = .zombie ∨ u.addressSpace.isSome = true)
    (hsole : (∃ u, slot = some u ∧ u.addressSpace = t.addressSpace ∧ u.pageTable = t.pageTable) ∨
      q.SoleUser idx) : (q.setSlot idx slot).Rooted := by
  have hself : (q.setSlot idx slot).get idx = slot := get_setSlot_self (lt_of_get ht)
  refine ⟨fun {i u s} hi hs => ?_, fun {i u} hi hz h0 => ?_⟩
  · by_cases he : i = idx
    · subst he
      exact hown u s (hself.symm.trans hi) hs
    · exact h.own ((get_setSlot_of_ne he).symm.trans hi) hs
  · by_cases he : i = idx
    · subst he
      rcases howner u (hself.symm.trans hi) with hz' | hsome
      · exact absurd hz' hz
      · exact ⟨i, u, hi, hsome, rfl⟩
    · have hi' : q.get i = some u := (get_setSlot_of_ne he).symm.trans hi
      obtain ⟨j, v, hj, hv, hroot⟩ := h.owner hi' hz h0
      by_cases hje : j = idx
      · -- the owner is the task that is replaced
        subst hje
        obtain rfl : t = v := mem_unique ht hj
        rcases hsole with ⟨x, rfl, hspace, hpt⟩ | hsole
        · exact ⟨j, x, hself, hspace ▸ hv, hpt.trans hroot⟩
        · have hlt : i < maxTasks := q.length_tasks ▸ lt_of_get hi'
          exact absurd hroot.symm (hsole t ht hv i hlt he u hi' hz)
      · exact ⟨j, v, (get_setSlot_of_ne hje).trans hj, hv, hroot⟩

end Rooted

end RunQueue

namespace Kernel

variable {k k' : Kernel Host} {emTarget : ℕ} {pid : ℕ} {w : Host} {res : ℤ}

/-- The blocks of all tasks are apart and held, and the roots have owners. -/
structure Sound (k : Kernel Host) : Prop where
  held : Held pageSize k.w.log k.rq.blocks
  rooted : k.rq.Rooted

/-- The root of a task that has not exited has not been given back. -/
def RootsKept (k : Kernel Host) : Prop :=
  ∀ i t, k.rq.get i = some t → t.state ≠ .zombie → t.pageTable ≠ 0 →
    pageState pageSize t.pageTable k.w.log ≠ .returned

theorem Sound.rootsKept (h : k.Sound) : k.RootsKept := by
  intro i t ht hz h0
  obtain ⟨j, u, hu, hsome, hroot⟩ := h.rooted.owner ht hz h0
  obtain ⟨s, hs⟩ := isSome_iff_exists.1 hsome
  have hmem : (⟨t.pageTable, 0⟩ : Block) ∈ k.rq.blocks := by
    refine mem_flatMap.2 ⟨some u, mem_of_get hu, mem_cons_of_mem _ ?_⟩
    rw [hs]
    refine mem_append_left _ ?_
    rw [h.rooted.own hu hs, hroot, rootBlocks, if_pos h0]
    exact .head _
  have hb := h.held.block _ hmem
  rw [hb.held _ hb.dvd (Block.has_addr (by decide) _)]
  exact PageState.noConfusion

/-! ### Steps -/

theorem sound_boot (w : Host) : (boot w).Sound := by
  have hget : ∀ i, (boot w).rq.get i = none := by
    intro i
    change (replicate maxTasks none).getD i none = none
    rw [getD_eq_getElem?_getD, getElem?_replicate]
    split <;> rfl
  have hnil : (boot w).rq.blocks = [] := by
    refine flatMap_eq_nil_iff.2 fun slot hslot => ?_
    rw [eq_of_mem_replicate hslot]
    rfl
  refine ⟨hnil.symm ▸ Held.nil _, ?_, ?_⟩
  · intro i t s hi
    cases (hget i).symm.trans hi
  · intro i t hi
    cases (hget i).symm.trans hi

/-- A task is added with the blocks that were obtained for it. -/
theorem Sound.enqueue (h : k.Sound) {t : Task} (hq : k.rq.enqueue t = some k'.rq)
    (hheld : Held pageSize k'.w.log (t.blocks ++ k.rq.blocks))
    (hown : ∀ s, t.addressSpace = some s → s.pageTableRoot = t.pageTable)
    (howner : t.pageTable = 0 ∨ t.addressSpace.isSome = true ∨
      ∃ j u, k.rq.get j = some u ∧ u.addressSpace.isSome = true ∧ u.pageTable = t.pageTable) :
    k'.Sound :=
  ⟨hheld.perm (blocks_enqueue hq).symm, h.rooted.enqueue hq hown howner⟩

theorem sound_spawn (h : k.Sound) {res : Option ℕ} (hs : k.spawn = some (res, k')) : k'.Sound := by
  obtain ⟨w, halloc, rfl⟩ | ⟨stack, w, halloc, ⟨rq, hq, rfl⟩ | ⟨w', hfree, rfl⟩⟩ := spawn_cases hs
  · exact ⟨held_alloc halloc h.held, h.rooted⟩
  · exact h.enqueue hq (held_alloc halloc h.held) (nofun) (.inl rfl)
  · exact ⟨held_free hfree (held_alloc halloc h.held), h.rooted⟩

theorem sound_spawnUser (h : k.Sound) {as : AddressSpace} {res : Option ℕ}
    (has : Held pageSize w.log (as.blocks ++ k.rq.blocks))
    (hs : spawnUserWithAddressSpace { k with w := w } as = some (res, k')) : k'.Sound := by
  obtain ⟨w₁, w₂, halloc, hdrop, rfl⟩ | ⟨stack, w₁, halloc, ⟨rq, hq, rfl⟩ | ⟨w₂, w₃, hdrop, hfree, rfl⟩⟩ :=
    spawnUser_cases hs
  · exact ⟨held_drop hdrop (held_alloc halloc has), h.rooted⟩
  · refine h.enqueue hq (held_alloc halloc has) ?_ (.inr (.inl rfl))
    rintro s ⟨⟩
    rfl
  · have hnew : Held pageSize w₁.log (⟨stack, stackOrder⟩ :: (as.blocks ++ k.rq.blocks)) :=
      held_alloc halloc has
    exact ⟨held_free hfree (held_drop hdrop (hnew.perm perm_middle.symm)), h.rooted⟩

/-- What `fork_current` needs once it has a page for the root: the address space of the parent,
memory for its copy, and a free slot. -/
def CopyFits (k : Kernel Host) (pid root : ℕ) (w : Host) : Prop :=
  (∃ as ∈ (k.rq.findPid pid).bind Task.addressSpace, (cloneAs as root w).any fun x => x.1.isSome) ∧
    k.rq.tasks.any Option.isNone

instance (pid root : ℕ) (w : Host) : Decidable (k.CopyFits pid root w) :=
  inferInstanceAs (Decidable (_ ∧ _))

/-- `fork_current` does not fail once it has a page for the root. -/
def ForkFits (k : Kernel Host) (pid : ℕ) : Prop :=
  ∀ x, buddyAlloc k.w stackOrder = some x → ∀ stack, x.1 = some stack →
    let y := allocPageTableRoot (zeroBytes x.2 stack (pageSize * 2 ^ stackOrder))
    y.1 ≠ 0 → k.CopyFits pid y.1 y.2

instance (pid : ℕ) : Decidable (k.ForkFits pid) := inferInstanceAs (Decidable (∀ _, _ = some _ → _))

theorem ForkFits.copyFits (h : k.ForkFits pid) {stack root : ℕ} (hobt : k.Obtained stack root w)
    (hne : root ≠ 0) : k.CopyFits pid root w := by
  obtain ⟨w₁, halloc, hroot⟩ := hobt
  have hfits := h _ halloc stack rfl
  rw [hroot] at hfits
  exact hfits hne

theorem sound_forkCurrent (h : k.Sound) {framePtr : ℕ}
    (hfits : framePtr ≠ 0 → pid ≠ 0 → k.ForkFits pid)
    (hf : k.forkCurrent k.rq framePtr pid = some (res, k')) : k'.Sound := by
  obtain ⟨-, -, rfl⟩ | ⟨hframe, hpid, hout, -⟩ := forkWith_cases hf
  · exact h
  replace hfits := hfits hframe hpid
  cases hout with
  | noStack halloc => exact ⟨held_alloc halloc h.held, h.rooted⟩
  | noRoot hobt hfree => exact ⟨held_free hfree (held_obtained hobt h.held), h.rooted⟩
  | noSpace hobt hne hnone =>
    obtain ⟨⟨as, has, -⟩, -⟩ := hfits.copyFits hobt hne
    cases hnone.symm.trans has
  | noMemory hc =>
    obtain ⟨w₀, t, as, hobt, hne, ht, has, hclone⟩ := hc
    obtain ⟨⟨as', has', hcopy⟩, -⟩ := hfits.copyFits hobt hne
    rw [ht] at has'
    cases has.symm.trans has'
    rw [hclone] at hcopy
    cases hcopy
  | vanished hc hgone => exact absurd hgone hc.found
  | full hc hfull =>
    obtain ⟨w₀, t, as, hobt, hne, -⟩ := hc
    have hfree := (hfits.copyFits hobt hne).2
    rw [← findIdx?_isSome, ← isSome_map, ← RunQueue.enqueue, hfull] at hfree
    cases hfree
  | forked hc hparent hq =>
    obtain ⟨w₀, t, as, hobt, hne, -, -, hclone⟩ := hc
    have hheld := held_cloneAs hclone (held_obtained hobt h.held)
    refine h.enqueue hq (hheld.perm perm_middle) ?_ (.inr (.inl rfl))
    rintro s ⟨⟩
    exact (cloneAs_some_log hclone).1

theorem held_stored {w' : Host} {bs : List Block} (h : Stored w w') (hbs : Held pageSize w.log bs) :
    Held pageSize w'.log bs := by
  obtain rfl | ⟨phys, bytes, rfl⟩ := h
  · exact hbs
  · exact hbs

theorem sound_cloneThread (h : k.Sound) {framePtr : ℕ} {args : CloneArgs} (hlive : k.Live pid)
    (hc : k.cloneThread framePtr pid args = some (res, k')) : k'.Sound := by
  obtain ⟨-, rfl⟩ | hout := cloneThread_cases hc
  · exact h
  cases hout with
  | noStack halloc => exact ⟨held_alloc halloc h.held, h.rooted⟩
  | noParent halloc hfree => exact ⟨held_free hfree (held_alloc halloc h.held), h.rooted⟩
  | full halloc hstored hfree =>
    exact ⟨held_free hfree (held_stored hstored (held_alloc halloc h.held)), h.rooted⟩
  | @cloned stack t w w₁ rq halloc ht hstored hq =>
    refine h.enqueue hq (held_stored hstored (held_alloc halloc h.held)) (nofun) ?_
    -- the thread runs on the root of the task that made it
    obtain ⟨idx, -, hget⟩ := findPid_eq_some.1 ht
    rw [Live, ht] at hlive
    have hz : t.state ≠ .zombie := of_decide_eq_true hlive
    by_cases h0 : t.pageTable = 0
    · exact .inl h0
    · have howner := h.rooted.owner hget hz h0
      exact .inr (.inr howner)

theorem sound_exit (h : k.Sound) (code : ℤ) : (k.exit pid code).Sound := by
  unfold exit
  cases hidx : k.rq.findPidIdx pid with
  | none =>
    rw [modifyPid, hidx]
    exact h
  | some =>
    obtain ⟨t, ht, -⟩ := findPidIdx_spec hidx
    rw [modifyPid_eq hidx ht]
    obtain ⟨rest, hold, hnew⟩ := blocks_setSlot (get_eq_some.1 ht)
      (some { t with state := .zombie, exitCode := code })
    refine ⟨h.held.perm (hold.trans hnew.symm), h.rooted.setSlot ht ?_ ?_ (.inl ⟨_, rfl, rfl, rfl⟩)⟩
    · rintro u s ⟨⟩ hs
      have hroot := h.rooted.own ht hs
      exact hroot
    · rintro u ⟨⟩
      exact .inl rfl

/-- `execve` gives up the old image when the new one is there. -/
theorem sound_execve (h : k.Sound) {image : List UInt8} {args : ExecArgs} {r : ℤ}
    (hlive : k.Live pid)
    (hsole : (buildImage emTarget image args k.w).any (fun x => x.1.isOk) = true →
      ∀ idx, k.rq.findPidIdx pid = some idx → k.rq.SoleUser idx)
    (he : k.sysExecve emTarget pid image args = some (r, k')) : k'.Sound := by
  obtain ⟨errno, w, hb, rfl⟩ | ⟨as, w₁, w₂, hb, hdrop, rfl⟩ := sysExecve_cases he
  · exact ⟨(heldRule k.rq.blocks).buildImage (fun _ _ => trivial) trivial hb h.held, h.rooted⟩
  have has : Held pageSize w₁.log (as.blocks ++ k.rq.blocks) :=
    (heldRule k.rq.blocks).buildImage (fun _ _ => trivial) trivial hb h.held
  obtain ⟨t, ht, -⟩ := exists_of_any hlive
  obtain ⟨idx, hidx, hget⟩ := findPid_eq_some.1 ht
  rw [ht] at hdrop
  rw [modifyPid_eq hidx hget]
  obtain ⟨rest, hold, hnew⟩ := blocks_setSlot (get_eq_some.1 hget)
    (some { t with
      addressSpace := some as
      pageTable := as.pageTableRoot
      heapStart := as.heapStart
      heapEnd := as.heapStart })
  refine ⟨?_, h.rooted.setSlot hget ?_ ?_ (.inr (hsole (by rw [hb]; rfl) idx hidx))⟩
  · -- the old address space's blocks come first, to be dropped
    have hsplit : Held pageSize w₁.log (t.addressSpace.elim [] AddressSpace.blocks ++
        (⟨t.kernelStack, stackOrder⟩ :: (as.blocks ++ rest))) := by
      refine has.perm ((hold.append_left _).trans ?_)
      refine perm_middle.trans (.trans (.cons _ ?_) perm_middle.symm)
      exact perm_append_comm_assoc _ _ _
    exact (held_dropSpace hdrop hsplit).perm hnew.symm
  · rintro u s ⟨⟩ ⟨⟩
    rfl
  · rintro u ⟨⟩
    exact .inr rfl

/-- A zombie goes, with its address space; what is left of it is its kernel stack. -/
theorem sound_remove (h : k.Sound) {idx : ℕ} {t : Task} (ht : k.rq.get idx = some t)
    (hsole : k.rq.SoleUser idx) (hdrop : dropSpace k.w t.addressSpace = some w) :
    Held pageSize w.log (⟨t.kernelStack, stackOrder⟩ :: (k.rq.remove idx).blocks) ∧
      (k.rq.remove idx).Rooted := by
  obtain ⟨rest, hold, hnew⟩ := blocks_setSlot (get_eq_some.1 ht) none
  have hrooted : (k.rq.setSlot idx none).Rooted := h.rooted.setSlot ht (nofun) (nofun) (.inr hsole)
  refine ⟨?_, fun hi => hrooted.own hi, fun hi => hrooted.owner hi⟩
  have hsplit : Held pageSize k.w.log (t.addressSpace.elim [] AddressSpace.blocks ++
      (⟨t.kernelStack, stackOrder⟩ :: rest)) := by
    refine h.held.perm (hold.trans ?_)
    exact perm_middle.symm
  exact (held_dropSpace hdrop hsplit).perm (hnew.symm.cons _)

/-! ### Runs -/

/-- The actions that make, replace and end tasks. -/
inductive LifeAction
  | spawn
  | spawnElf (image : List UInt8)
  | fork (pid framePtr : ℕ)
  | cloneThread (pid framePtr : ℕ) (args : CloneArgs)
  | exit (pid : ℕ) (code : ℤ)
  | execve (pid : ℕ) (image : List UInt8) (args : ExecArgs)
  | reap (idx : ℕ)
  | waitPid (pid : ℕ)

/-- The kernel after an action. -/
def lifeStep {W : Type} [KernelMachine W] (emTarget : ℕ) (k : Kernel W) : LifeAction → Option (Kernel W)
  | .spawn => k.step emTarget .spawn
  | .spawnElf image => k.step emTarget (.spawnElf image)
  | .fork pid framePtr => k.step emTarget (.fork pid framePtr)
  | .cloneThread pid framePtr args => k.step emTarget (.cloneThread pid framePtr args)
  | .exit pid code => k.step emTarget (.exit pid code)
  | .execve pid image args => k.step emTarget (.execve pid image args)
  | .reap idx => k.step emTarget (.reap idx)
  | .waitPid pid => (k.waitPid pid).map Prod.snd

/-- An address space is dropped only by the last task that runs on its root, by a zombie that is
reaped or by a task whose new image is there; and a `fork` does not fail once it has a page for the
root, which it would free twice. -/
def LastUser (emTarget : ℕ) (k : Kernel Host) : LifeAction → Prop
  | .reap idx => (k.rq.get idx).any (fun t => t.state = .zombie) = true → k.rq.SoleUser idx
  | .waitPid pid => ∀ idx, k.rq.findPidIdx pid = some idx →
    (k.rq.get idx).any (fun t => t.state = .zombie) = true → k.rq.SoleUser idx
  | .execve pid image args => (buildImage emTarget image args k.w).any (fun x => x.1.isOk) = true →
    ∀ idx, k.rq.findPidIdx pid = some idx → k.rq.SoleUser idx
  | .fork pid framePtr => framePtr ≠ 0 → pid ≠ 0 → k.ForkFits pid
  | _ => True

instance (emTarget : ℕ) (k : Kernel Host) (a : LifeAction) : Decidable (LastUser emTarget k a) := by
  rcases a <;> dsimp only [LastUser] <;> infer_instance

theorem sound_lifeStep (h : k.Sound) {a : LifeAction} (hg : LastUser emTarget k a)
    (hst : k.lifeStep emTarget a = some k') : k'.Sound := by
  cases a with
  | spawn =>
    obtain ⟨⟨r, k₁⟩, hs, rfl⟩ := map_eq_some_iff.1 hst
    exact sound_spawn h hs
  | spawnElf =>
    obtain ⟨⟨r, k₁⟩, hs, rfl⟩ := map_eq_some_iff.1 hst
    obtain ⟨⟨res, w₁⟩, hb, hs⟩ := bind_eq_some_iff.1 hs
    have hbuilt := (heldRule k.rq.blocks).buildInit (fun _ _ => trivial) trivial hb h.held
    cases res with
    | error =>
      cases hs
      exact ⟨hbuilt, h.rooted⟩
    | ok => exact sound_spawnUser h hbuilt hs
  | fork =>
    obtain ⟨-, r, hf⟩ := of_live hst
    exact sound_forkCurrent h hg hf
  | cloneThread =>
    obtain ⟨hlive, r, hc⟩ := of_live hst
    exact sound_cloneThread h hlive hc
  | exit pid code =>
    simp only [lifeStep, step] at hst
    split at hst
    · cases hst
      exact sound_exit h code
    · cases hst
  | execve =>
    obtain ⟨hlive, r, he⟩ := of_live hst
    exact sound_execve h hlive hg he
  | reap =>
    obtain rfl | ⟨t, w₁, w₂, ht, hz, hdrop, hfree, rfl⟩ := reap_cases hst
    · exact h
    have hsole := hg (by rw [ht]; exact decide_eq_true hz)
    obtain ⟨hheld, hrooted⟩ := sound_remove h ht hsole hdrop
    exact ⟨held_free hfree hheld, hrooted⟩
  | waitPid =>
    obtain ⟨⟨r, k₁⟩, hw, rfl⟩ := map_eq_some_iff.1 hst
    obtain rfl | ⟨idx, t, w₁, hidx, ht, hz, hdrop, rfl⟩ := waitPid_cases hw
    · exact h
    have hsole := hg idx hidx (by rw [ht]; exact decide_eq_true hz)
    obtain ⟨hheld, hrooted⟩ := sound_remove h ht hsole hdrop
    exact ⟨hheld.sublist (sublist_cons_self _ _), hrooted⟩

/-- **The root of a task that has not exited is never given back**, in all runs in which an address
space is dropped only by the last task that runs on its root, and no `fork` fails after it has
obtained a root. -/
theorem rootsKept_run {w : Host} (h : Run (lifeStep emTarget) (LastUser emTarget) (boot w) k) :
    k.RootsKept :=
  (h.invariant (sound_boot w) fun _ _ _ hk hg hst => sound_lifeStep hk hg hst).rootsKept

/-- A process forks; its child makes a thread, which exits and is reaped, loads another image, exits
and is waited for.  The roots of both images of the child are given back. -/
def familyRun : List LifeAction :=
  [.spawnElf Elf.tinyImage, .fork 1 1, .cloneThread 2 1 ⟨0, 0⟩, .exit 3 0, .reap 2,
    .execve 2 Elf.tinyImage ⟨⟨[], []⟩, ⟨[], []⟩, 0, 0⟩, .exit 2 0, .waitPid 2]

theorem rootsKept_run_family : ∃ k : Kernel Host,
    Run (lifeStep 183) (LastUser 183) (boot Host.roomy) k ∧
      (k.rq.len = 1 ∧ pageState pageSize 0x10700000 k.w.log = .returned ∧
        pageState pageSize 0x20c00000 k.w.log = .returned) ∧ k.RootsKept :=
  Run.exists_guarded_with familyRun (by decide +kernel) fun _ hrun _ => rootsKept_run hrun

/-- A process makes a thread, and exits; the scheduler reaps it. -/
def orphanRun : List LifeAction :=
  [.spawnElf Elf.tinyImage, .cloneThread 1 1 ⟨0, 0⟩, .exit 1 0, .reap 0]

/-- The thread is still there, on a root that was given back. -/
theorem thread_on_freed_root : ∃ k : Kernel Host,
    Reach (lifeStep 183) (boot Host.roomy) k ∧ ¬ k.RootsKept := by
  obtain ⟨k, hreach, hp⟩ : ∃ k, Reach (lifeStep 183) (boot Host.roomy) k ∧
      (k.rq.get 1).any fun t => t.state ≠ .zombie ∧ t.pageTable ≠ 0 ∧
        pageState pageSize t.pageTable k.w.log = .returned :=
    Run.exists_of_foldlM orphanRun (by decide +kernel)
  obtain ⟨t, ht, hz, h0, hret⟩ := exists_of_any hp
  exact ⟨k, hreach, fun hkept => hkept 1 t ht hz h0 hret⟩

end Kernel

end Cyanos
