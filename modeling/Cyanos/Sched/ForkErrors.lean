import Cyanos.Mm.CowTrace
import Cyanos.Sched.Clone

/-!
# What a failed `fork` leaves behind

`fork_current` obtains a kernel stack, a page for the child's root, and through `clone_as` the
child's pages.  Whoever owns the root at the time of an error frees it: the address space that is
being dropped, and then the error path itself.

## Main results

* `forkCurrent_conserves_iff` : **a failed `fork` gives back what it obtained, each block once and
  with its own order, exactly when it fails before the page for the root is obtained**.
* `forkCurrent_frees_root_twice` : a process that forks when memory runs out.
-/

namespace Cyanos

open Lib Machine MemMachine List Host

/-- Each block that was obtained since was given back since as often as it was obtained. -/
def Conserves (log log' : List Event) : Prop :=
  ∃ new, log' = new ++ log ∧ ∀ b ∈ allocs new, (frees new).count b = (allocs new).count b

section Conserves

variable {log log' new : List Event} {b : Block}

theorem not_conserves (hlog : log' = new ++ log) (hb : b ∈ allocs new)
    (hne : (frees new).count b ≠ (allocs new).count b) : ¬ Conserves log log' := by
  rintro ⟨new', hlog', hcount⟩
  obtain rfl := append_cancel_right (hlog.symm.trans hlog')
  exact hne (hcount b hb)

end Conserves

namespace Kernel

variable {k k' : Kernel Host} {later : RunQueue} {framePtr pid stack root order : ℕ} {res errno : ℤ}
  {w w₁ : Host} {as childAs : AddressSpace}

/-- A stack and a page for the root can be had. -/
def GetsRoot (w : Host) : Prop :=
  ∃ stack w₁ root w₂, buddyAlloc w stackOrder = some (some stack, w₁) ∧
    buddyAlloc (zeroBytes w₁ stack (pageSize * 2 ^ stackOrder)) 0 = some (some root, w₂)

theorem undo_log (h : k.undo stack order root errno = some (res, k')) :
    k'.w.log = [.free ⟨root, 0⟩, .free ⟨stack, order⟩] ++ k.w.log := by
  obtain ⟨w₁, h1, h⟩ := Option.bind_eq_some_iff.1 h
  obtain ⟨w₂, h2, h⟩ := Option.bind_eq_some_iff.1 h
  cases h
  rw [buddyFree_log h2, buddyFree_log h1]
  rfl

/-- The page for the root was refused, or it is in the ledger. -/
theorem obtained_cases (h : k.Obtained stack root w) :
    (¬ GetsRoot k.w ∧ root = 0 ∧ w.log = [.alloc ⟨stack, stackOrder⟩] ++ k.w.log) ∨
    (GetsRoot k.w ∧ Held pageSize w.log [⟨root, 0⟩] ∧
      w.log = [.alloc ⟨root, 0⟩, .alloc ⟨stack, stackOrder⟩] ++ k.w.log) := by
  obtain ⟨w₁, halloc, hroot⟩ := h
  obtain ⟨-, -, hlog, -⟩ := Frames.buddyAlloc_some (buddyAlloc_toFrames halloc).1
  obtain ⟨rfl, hlog', w₂, hrefused⟩ | ⟨hfresh, hlog', w₂, hpage⟩ := allocPageTableRoot_page hroot
  · refine .inl ⟨?_, rfl, hlog'.trans hlog⟩
    rintro ⟨stack', w₁', root', w₂', halloc', hpage⟩
    obtain ⟨hs, rfl⟩ := pair_inj (halloc.symm.trans halloc')
    cases hs
    cases hrefused.symm.trans hpage
  · refine .inr ⟨⟨stack, w₁, root, w₂, halloc, hpage⟩, ?_, ?_⟩
    · rw [hlog']
      exact (Held.nil _).alloc hfresh
    · rw [hlog', show (zeroBytes w₁ stack (pageSize * 2 ^ stackOrder)).log = w₁.log from rfl, hlog]
      rfl

/-- The root is freed twice if the address space that owns it was dropped. -/
theorem not_conserves_of_twice {T : List CopyStep} {new log : List Event}
    (hT : ⟨root, 0⟩ ∉ stepBlocks T) (hallocs : allocs new = (stepBlocks T).reverse)
    (hfrees : 2 ≤ (frees new).count ⟨root, 0⟩) :
    ¬ Conserves log (new ++ ([.alloc ⟨root, 0⟩, .alloc ⟨stack, stackOrder⟩] ++ log)) := by
  have hne : (⟨stack, stackOrder⟩ : Block) ≠ ⟨root, 0⟩ := fun h => by
    cases congrArg Block.order h
  have hcount : (allocs (new ++ [.alloc ⟨root, 0⟩, .alloc ⟨stack, stackOrder⟩])).count ⟨root, 0⟩ = 1 := by
    rw [allocs_append, hallocs, count_append, count_reverse, count_eq_zero_of_not_mem hT]
    simp [allocs, hne]
  refine not_conserves (b := ⟨root, 0⟩) (append_assoc _ _ _).symm ?_ ?_
  · exact one_le_count_iff.1 hcount.ge
  · rw [hcount, frees_append, count_append]
    omega

theorem two_le_count {new new' : List Event} {b : Block} (h : b ∈ frees new) (h' : b ∈ frees new') :
    2 ≤ (frees (new ++ new')).count b := by
  have h1 := one_le_count_iff.2 h
  have h2 := one_le_count_iff.2 h'
  rw [frees_append, count_append]
  omega

/-- The same, after a clone that is complete. -/
theorem not_conserves_of_both {T : List CopyStep} {e e' log : List Event}
    (hT : ⟨root, 0⟩ ∉ stepBlocks T) (he : allocs e = [] ∧ ⟨root, 0⟩ ∈ frees e)
    (he' : allocs e' = [] ∧ ⟨root, 0⟩ ∈ frees e') :
    ¬ Conserves log (e ++ (e' ++ (((stepBlocks T).map Event.alloc).reverse ++
      ([.alloc ⟨root, 0⟩, .alloc ⟨stack, stackOrder⟩] ++ log)))) := by
  rw [← append_assoc e', ← append_assoc e]
  refine not_conserves_of_twice hT ?_ (two_le_count he.2 ?_)
  · rw [allocs_append, allocs_append, he.1, he'.1, ← map_reverse, allocs_map_alloc]
    rfl
  · rw [frees_append]
    exact mem_append_left _ he'.2

/-- An address space that goes takes its root along. -/
theorem drop_frees_root (h : childAs.drop w = some w₁) (hne : childAs.pageTableRoot ≠ 0) :
    ∃ new, w₁.log = new ++ w.log ∧ allocs new = [] ∧ ⟨childAs.pageTableRoot, 0⟩ ∈ frees new := by
  have hlog := drop_log h
  rw [if_pos hne, ← append_assoc] at hlog
  refine ⟨_, hlog, ?_, .head _⟩
  rw [allocs_append, ← map_reverse, allocs_map_free, allocs_map_free]
  rfl

/-- No block obtained for the child is the page for the root. -/
theorem cloning_log {dst : Option AddressSpace} (h : k.Cloning pid stack root dst w) :
    root ≠ 0 ∧ GetsRoot k.w ∧ ∃ w₀ src, cloneAs src root w₀ = some (dst, w) ∧
      ⟨root, 0⟩ ∉ stepBlocks (slotSteps root src.regions w₀) ∧
      w₀.log = [.alloc ⟨root, 0⟩, .alloc ⟨stack, stackOrder⟩] ++ k.w.log := by
  obtain ⟨w₀, t, src, hobt, hne, -, -, hclone⟩ := h
  obtain ⟨hget, hheld, hlog⟩ := (obtained_cases hobt).resolve_left fun h => hne h.2.1
  obtain ⟨ok, regions, w₂, hslots, -⟩ := cloneAs_cases hclone
  exact ⟨hne, hget, w₀, src, hclone, (cloneSlots_steps hslots).1.not_mem hheld, hlog⟩

theorem cloned_log (h : k.Cloning pid stack root (some childAs) w) :
    childAs.pageTableRoot = root ∧ root ≠ 0 ∧ GetsRoot k.w ∧ ∃ T, ⟨root, 0⟩ ∉ stepBlocks T ∧
      w.log = ((stepBlocks T).map Event.alloc).reverse ++
        ([.alloc ⟨root, 0⟩, .alloc ⟨stack, stackOrder⟩] ++ k.w.log) := by
  obtain ⟨hne, hget, w₀, src, hclone, hT, hlog⟩ := cloning_log h
  obtain ⟨hroot, hlog1⟩ := cloneAs_some_log hclone
  exact ⟨hroot, hne, hget, _, hT, hlog ▸ hlog1⟩

/-- **A failed `fork` gives back what it obtained exactly when it fails before the page for the root
is obtained.** -/
theorem forkCurrent_conserves_iff (h : k.forkCurrent later framePtr pid = some (res, k'))
    (hres : res < 0) :
    Conserves k.w.log k'.w.log ↔ framePtr = 0 ∨ pid = 0 ∨ ¬ GetsRoot k.w := by
  obtain ⟨hargs, -, rfl⟩ | ⟨hframe, hpid, hout, -⟩ := forkWith_cases h
  · have hnil : Conserves k'.w.log k'.w.log := ⟨[], rfl, nofun⟩
    exact iff_of_true hnil (hargs.imp_right .inl)
  rw [or_iff_right hframe, or_iff_right hpid]
  cases hout with
  | noStack halloc =>
    have hw := Frames.buddyAlloc_none (buddyAlloc_toFrames halloc).1
    refine iff_of_true ⟨[], ?_, nofun⟩ ?_
    · rw [hw]
      rfl
    · rintro ⟨stack, w₁, root, w₂, halloc', -⟩
      cases halloc.symm.trans halloc'
  | @noRoot stack w w' hobt hfree =>
    have hlog := buddyFree_log hfree
    obtain ⟨hget, -, hlog'⟩ | ⟨hget, -, hlog'⟩ := obtained_cases hobt
    · refine iff_of_true ⟨[.free ⟨stack, stackOrder⟩, .alloc ⟨stack, stackOrder⟩], ?_, ?_⟩ hget
      · exact hlog.trans (congrArg _ hlog')
      · exact fun b _ => rfl
    · -- a page at address `0` is taken for none
      have hall : w'.log = [.free ⟨stack, stackOrder⟩, .alloc ⟨0, 0⟩, .alloc ⟨stack, stackOrder⟩] ++
          k.w.log := hlog.trans (congrArg _ hlog')
      have hne : (⟨stack, stackOrder⟩ : Block) ≠ ⟨0, 0⟩ := fun h => by cases congrArg Block.order h
      refine iff_of_false (not_conserves hall (.head _) ?_) (not_not.2 hget)
      simp [frees, allocs, hne]
  | @noSpace stack root w errno res k' hobt hne _ hundo =>
    obtain ⟨-, h0, -⟩ | ⟨hget, -, hlog⟩ := obtained_cases hobt
    · exact absurd h0 hne
    -- the stack is given back with a smaller order
    have hall : k'.w.log = [.free ⟨root, 0⟩, .free ⟨stack, 3⟩, .alloc ⟨root, 0⟩,
        .alloc ⟨stack, stackOrder⟩] ++ k.w.log := (undo_log hundo).trans (congrArg _ hlog)
    refine iff_of_false (not_conserves (b := ⟨stack, stackOrder⟩) hall ?_ ?_) (not_not.2 hget)
    · exact mem_cons_of_mem _ (.head _)
    · simp [frees, allocs, stackOrder]
  | noMemory hc hundo =>
    obtain ⟨hne, hget, w₀, src, hclone, hT, hlog⟩ := cloning_log hc
    refine iff_of_false ?_ (not_not.2 hget)
    obtain ⟨new, hlog1, hallocs, hfrees⟩ := cloneAs_none_log hclone
    rw [undo_log hundo, hlog1, hlog, ← append_assoc]
    refine not_conserves_of_twice hT hallocs (two_le_count ?_ ?_)
    · exact .head _
    · rw [hfrees.mem_iff, rootBlocks, if_pos hne]
      exact .head _
  | vanished hc _ hundo hdrop =>
    obtain ⟨rfl, hne, hget, T, hT, hlog⟩ := cloned_log hc
    obtain ⟨new, hlog1, hallocs, hfrees⟩ := drop_frees_root hdrop hne
    rw [hlog1, undo_log hundo, hlog]
    exact iff_of_false (not_conserves_of_both hT ⟨hallocs, hfrees⟩ ⟨rfl, .head _⟩) (not_not.2 hget)
  | full hc _ hdrop hundo =>
    obtain ⟨rfl, hne, hget, T, hT, hlog⟩ := cloned_log hc
    obtain ⟨new, hlog1, hallocs, hfrees⟩ := drop_frees_root hdrop hne
    rw [undo_log hundo, hlog1, hlog]
    exact iff_of_false (not_conserves_of_both hT ⟨rfl, .head _⟩ ⟨hallocs, hfrees⟩) (not_not.2 hget)
  | forked => omega

/-- A machine with memory for a kernel stack and a page, and no more. -/
def scarceHost (page : Option ℕ) : Host :=
  .init (fun tick _ => if tick = 0 then some 0x600000 else if tick = 1 then page else none)
    (fun _ => true) (fun _ => 0) (fun _ => 0) fun _ _ => 0

/-- A kernel with one process. -/
def twoPageKernel (w : Host) : Kernel Host :=
  { boot w with rq := (RunQueue.new.enqueue
      { Task.newKernel 1 0x700000 0x1000 with addressSpace := some twoPageSpace }).getD .new }

theorem forkCurrent_conserves_noRoot : ∃ k',
    (twoPageKernel (scarceHost none)).forkCurrent .new 1 1 = some (-12, k') ∧
      Conserves (scarceHost none).log k'.w.log := by
  obtain ⟨⟨res, k'⟩, hk', hres⟩ : ∃ x,
      (twoPageKernel (scarceHost none)).forkCurrent .new 1 1 = some x ∧ x.1 = -12 :=
    exists_of_any (by decide +kernel)
  obtain rfl : res = -12 := hres
  refine ⟨k', hk', (forkCurrent_conserves_iff hk' (by decide)).2 (.inr (.inr ?_))⟩
  rintro ⟨stack, w₁, root, w₂, hstack, hroot⟩
  obtain ⟨hs, rfl⟩ := pair_inj hstack
  cases hs
  cases (pair_inj hroot).1

/-- When the child's pages cannot be had, its root is freed by the address space and then again. -/
theorem forkCurrent_frees_root_twice : ∃ k',
    (twoPageKernel (scarceHost (some 0x200000))).forkCurrent .new 1 1 = some (-12, k') ∧
      ¬ Conserves (scarceHost (some 0x200000)).log k'.w.log := by
  obtain ⟨⟨res, k'⟩, hk', hres, hlog⟩ : ∃ x,
      (twoPageKernel (scarceHost (some 0x200000))).forkCurrent .new 1 1 = some x ∧ x.1 = -12 ∧
      x.2.w.log = [.free ⟨0x200000, 0⟩, .free ⟨0x600000, 4⟩, .free ⟨0x200000, 0⟩,
        .alloc ⟨0x200000, 0⟩, .alloc ⟨0x600000, 4⟩] := exists_of_any (by decide +kernel)
  obtain rfl : res = -12 := hres
  have hlog : k'.w.log = _ ++ (scarceHost (some 0x200000)).log := hlog.trans (append_nil _).symm
  exact ⟨k', hk', not_conserves (b := ⟨0x200000, 0⟩) hlog (by decide) (by decide)⟩

end Kernel

end Cyanos
