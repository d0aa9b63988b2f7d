import Cyanos.Lib.Writes
import Cyanos.Mm.CowIsolation

/-!
# What a clone obtains and maps

The blocks `clone_as` obtains for the child and the `map_page` calls it makes for their pages are
listed by `slotSteps`, with what each call returned.  The source does not look at what `map_page`
returns, and takes a block at address `0` for none.

## Main results

* `cloneSlots_steps` : the clone's effect on the ledger and on the page table, and what the child's
  regions hold afterwards, are those of the steps.
* `cloneAs_allOrNothing_iff` : **exactly when a clone is complete or leaves nothing**.
-/

namespace Cyanos

open Lib Machine MemMachine List Option Write Nat Host

/-! ### Steps -/

/-- A block obtained for the child. -/
structure CopyStep where
  /-- The block and the pages mapped to it. -/
  holding : Holding
  /-- The flags they are mapped with. -/
  flags : PageFlags
  /-- Whether the page with an index could be mapped. -/
  ok : ℕ → Bool

/-- The region remembers the block. -/
def CopyStep.Recorded (s : CopyStep) : Prop := s.holding.block.addr ≠ 0

instance : DecidablePred CopyStep.Recorded := fun _ => inferInstanceAs (Decidable (_ ≠ _))

/-- The `map_page` calls for the pages of the block. -/
def CopyStep.writes (s : CopyStep) : List (Write ℕ Leaf) :=
  (List.range s.holding.pages).map fun i =>
    { key := wadd s.holding.virt (i * pageSize)
      value := ⟨wadd s.holding.block.addr (i * pageSize), s.flags⟩
      done := s.ok i
      wanted := decide s.Recorded }

section Steps

variable {W : Type} [MemMachine W]

/-- The steps of the loop over the pages of a lazy region. -/
def lazySteps (root : ℕ) (region : VmaRegion) : ℕ → List ℕ → W → List CopyStep
  | _, [], _ => []
  | i, srcPhys :: pages, w =>
    if srcPhys = 0 then lazySteps root region (i + 1) pages w
    else
      match buddyAlloc w 0 with
      | some (some dstPhys, w) =>
        let va := wadd region.start (i * pageSize)
        let m := mapPage (copyBytes w srcPhys dstPhys pageSize) root va dstPhys region.flags
        ⟨⟨⟨dstPhys, 0⟩, va, 1⟩, region.flags, fun _ => m.1⟩ :: lazySteps root region (i + 1) pages m.2
      | _ => []

/-- The step for an eager region. -/
def eagerSteps (root : ℕ) (region : VmaRegion) (w : W) : List CopyStep :=
  match buddyAlloc w (pagesToOrder region.pages) with
  | some (some dstPhys, w) =>
    let w := copyBytes w region.phys dstPhys (region.pages * pageSize)
    [⟨⟨⟨dstPhys, pagesToOrder region.pages⟩, region.start, region.pages⟩, region.flags, fun i =>
      (mapPage (mapAll root region.start dstPhys region.flags i w) root
        (wadd region.start (i * pageSize)) (wadd dstPhys (i * pageSize)) region.flags).1⟩]
  | _ => []

/-- The steps for a region. -/
def regionSteps (root : ℕ) (region : VmaRegion) (w : W) : List CopyStep :=
  if region.lazy then lazySteps root region 0 region.lazyPages w
  else if region.phys ≠ 0 then eagerSteps root region w
  else []

/-- The steps for all regions, up to the first that cannot be completed. -/
def slotSteps (root : ℕ) : List (Option VmaRegion) → W → List CopyStep
  | [], _ => []
  | none :: slots, w => slotSteps root slots w
  | some region :: slots, w =>
    regionSteps root region w ++
      match cloneRegion root region w with
      | some (true, _, w) => slotSteps root slots w
      | _ => []

end Steps

/-! ### Their effect -/

/-- The blocks of steps. -/
def stepBlocks (T : List CopyStep) : List Block := T.map fun s => s.holding.block

/-- The effect of steps under a root: the blocks are obtained and their pages mapped. -/
structure Performs (root : ℕ) (T : List CopyStep) (w w' : Host) : Prop where
  log : w'.log = ((stepBlocks T).map Event.alloc).reverse ++ w.log
  held : ∀ {bs}, Held pageSize w.log bs → Held pageSize w'.log ((stepBlocks T).reverse ++ bs)
  pt : w'.pt root = (T.flatMap CopyStep.writes).foldl Write.apply (w.pt root)
  honest : Write.Honest (w.pt root) (T.flatMap CopyStep.writes)
  pages_le : ∀ s ∈ T, s.holding.pages ≤ 2 ^ s.holding.block.order

namespace Performs

variable {root : ℕ} {T T' : List CopyStep} {w w₁ w' : Host}

theorem nil (hlog : w'.log = w.log) (hpt : w'.pt = w.pt) : Performs root [] w w' :=
  ⟨hlog, fun h => hlog ▸ h, by rw [hpt]; rfl, trivial, nofun⟩

theorem append (h : Performs root T w w₁) (h' : Performs root T' w₁ w') :
    Performs root (T ++ T') w w' where
  log := by rw [h'.log, h.log]; simp [stepBlocks]
  held hbs := by
    have := h'.held (h.held hbs)
    simpa [stepBlocks] using this
  pt := by rw [h'.pt, h.pt, flatMap_append, foldl_append]
  honest := by
    rw [flatMap_append, honest_append, ← h.pt]
    exact ⟨h.honest, h'.honest⟩
  pages_le s hs := (mem_append.1 hs).elim (h.pages_le s) (h'.pages_le s)

end Performs

section Machine

variable {root va virt phys n order a srcPhys len : ℕ} {flags : PageFlags} {w w₁ w₂ w' : Host}
  {b : Bool} {ok : ℕ → Bool}

/-- `map_page` is a write to the page table. -/
theorem mapPage_write (w : Host) (root va phys : ℕ) (flags : PageFlags) (b : Bool) :
    (mapPage w root va phys flags).2.pt root =
      apply (w.pt root) ⟨va, ⟨phys, flags⟩, (mapPage w root va phys flags).1, b⟩ ∧
    ((mapPage w root va phys flags).1 = false → w.pt root va = none) := by
  have heq : mapPage w root va phys flags = ((mapPage w.toFrames root va phys flags).1,
      { w with toFrames := (mapPage w.toFrames root va phys flags).2 }) := rfl
  simp only [mapPage, apply]
  split
  · next h =>
    refine ⟨?_, fun h => absurd h.symm Bool.false_ne_true⟩
    exact Function.update_self _ _ _
  · next h =>
    refine ⟨(if_neg Bool.false_ne_true).symm ▸ rfl, fun _ => ?_⟩
    rw [not_or, not_isSome_iff_eq_none] at h
    exact h.1

theorem mapAll_succ : mapAll root virt phys flags (n + 1) w =
    (mapPage (mapAll root virt phys flags n w) root (wadd virt (n * pageSize))
      (wadd phys (n * pageSize)) flags).2 := by
  rw [mapAll, range_succ, foldl_concat, mapAll]

theorem mapAll_log : (mapAll root virt phys flags n w).log = w.log := by
  induction n with
  | zero => rfl
  | succ n ih => rw [mapAll_succ, mapPage_toFrames, Frames.mapPage_log, ih]

/-- The calls of the loop over the pages of a block. -/
theorem mapAll_writes (hok : ∀ i < n, ok i = (mapPage (mapAll root virt phys flags i w) root
      (wadd virt (i * pageSize)) (wadd phys (i * pageSize)) flags).1) :
    (mapAll root virt phys flags n w).pt root =
      ((range n).map fun i => Write.mk (wadd virt (i * pageSize))
        (Leaf.mk (wadd phys (i * pageSize)) flags) (ok i) b).foldl apply (w.pt root) ∧
    Honest (w.pt root) ((range n).map fun i => Write.mk (wadd virt (i * pageSize))
      (Leaf.mk (wadd phys (i * pageSize)) flags) (ok i) b) := by
  induction n with
  | zero => exact ⟨rfl, trivial⟩
  | succ n ih =>
    obtain ⟨hpt, hon⟩ := ih fun i hi => hok i (by omega)
    obtain ⟨hpt1, hnone⟩ := mapPage_write ..
    rw [← hok n (lt_succ_self n)] at hpt1 hnone
    rw [range_succ, map_append, foldl_append, honest_append, ← hpt, mapAll_succ]
    exact ⟨hpt1, hon, hnone, trivial⟩

/-- A block is obtained, and its pages are mapped. -/
theorem performs_single (halloc : buddyAlloc w order = some (some a, w₁))
    (hw₂ : w₂.toFrames = w₁.toFrames) (hn : n ≤ 2 ^ order)
    (hok : ∀ i < n, ok i = (mapPage (mapAll root virt a flags i w₂) root
      (wadd virt (i * pageSize)) (wadd a (i * pageSize)) flags).1)
    (hw' : mapAll root virt a flags n w₂ = w') :
    Performs root [⟨⟨⟨a, order⟩, virt, n⟩, flags, ok⟩] w w' := by
  obtain ⟨-, hfresh, hlog, hpt, -⟩ := Frames.buddyAlloc_some (buddyAlloc_toFrames halloc).1
  have hlog' : w'.log = .alloc ⟨a, order⟩ :: w.log := by rw [← hw', mapAll_log, hw₂, hlog]
  obtain ⟨hpt', hon⟩ := mapAll_writes (b := decide (a ≠ 0)) hok
  rw [hw', hw₂, hpt] at hpt'
  rw [hw₂, hpt] at hon
  refine ⟨hlog', fun hbs => hlog' ▸ hbs.alloc hfresh, ?_, ?_, ?_⟩
  · rw [flatMap_singleton]
    exact hpt'
  · rw [flatMap_singleton]
    exact hon
  · intro s hs
    obtain rfl := mem_singleton.1 hs
    exact hn

/-- A page is obtained and mapped. -/
theorem performs_page (halloc : buddyAlloc w 0 = some (some a, w₁))
    (hw' : (mapPage (copyBytes w₁ srcPhys a len) root (wadd virt phys) a flags).2 = w') :
    Performs root [⟨⟨⟨a, 0⟩, wadd virt phys, 1⟩, flags, fun _ =>
      (mapPage (copyBytes w₁ srcPhys a len) root (wadd virt phys) a flags).1⟩] w w' := by
  obtain ⟨-, hfresh, -⟩ := Frames.buddyAlloc_some (buddyAlloc_toFrames halloc).1
  have hva : wadd (wadd virt phys) (0 * pageSize) = wadd virt phys := by
    rw [zero_mul, wadd_zero (wadd_lt _ _)]
  have ha : wadd a (0 * pageSize) = a := by
    rw [zero_mul, wadd_zero (Block.addr_lt (by decide) hfresh.2.1)]
  have hcopy : (copyBytes w₁ srcPhys a len).toFrames = w₁.toFrames := rfl
  refine performs_single halloc hcopy le_rfl (fun i hi => ?_) ?_
  · obtain rfl := lt_one_iff.1 hi
    rw [hva, ha]
    rfl
  · rw [mapAll_succ, hva, ha]
    exact hw'

theorem performs_none {res : Option ℕ} (h : buddyAlloc w order = some (res, w')) (hres : res = none) :
    Performs root [] w w' := by
  subst hres
  have := Frames.buddyAlloc_none (buddyAlloc_toFrames h).1
  exact .nil (by rw [this]; rfl) (by rw [this]; rfl)

end Machine

/-! ### What the regions hold -/

/-- What the regions are going to remember of steps. -/
def recorded (T : List CopyStep) : List (Holding × PageFlags) :=
  (T.filter fun s => decide s.Recorded).map fun s => (s.holding, s.flags)

theorem recorded_append (T T' : List CopyStep) : recorded (T ++ T') = recorded T ++ recorded T' := by
  rw [recorded, filter_append, map_append]
  rfl

theorem recorded_single (s : CopyStep) :
    recorded [s] = if s.holding.block.addr ≠ 0 then [(s.holding, s.flags)] else [] := by
  by_cases h : s.holding.block.addr = 0 <;> simp [recorded, CopyStep.Recorded, h]

/-- What the regions in the slots hold, with the flags their pages are mapped with. -/
def flagged (slots : List (Option VmaRegion)) : List (Holding × PageFlags) :=
  slots.flatMap fun slot => slot.elim [] fun r => r.holdings.map fun h => (h, r.flags)

section Clone

variable {root i : ℕ} {r dst dst' : VmaRegion} {pages : List ℕ} {ok : Bool} {w w' : Host}

theorem cloneLazy_steps (h : cloneLazy root r i pages dst w = some (ok, dst', w'))
    (hlen : dst.lazyPages.length ≤ i) :
    Performs root (lazySteps root r i pages w) w w' ∧ ∃ fs, dst' = { dst with lazyPages := fs } ∧
      ((lazyHoldings r.start 0 fs).map fun h => (h, r.flags)).Perm
        (recorded (lazySteps root r i pages w) ++
          (lazyHoldings r.start 0 dst.lazyPages).map fun h => (h, r.flags)) := by
  induction pages generalizing i dst w with
  | nil =>
    obtain ⟨-, rfl, rfl⟩ := triple_inj h
    exact ⟨.nil rfl rfl, dst.lazyPages, rfl, .refl _⟩
  | cons f pages ih =>
    by_cases hf : f = 0
    · rw [cloneLazy, if_pos hf] at h
      rw [lazySteps, if_pos hf]
      exact ih h (by omega)
    · rw [lazySteps, if_neg hf]
      obtain ⟨-, rfl, halloc⟩ | ⟨a, w₁, w₂, halloc, hw2, hlazy⟩ := cloneLazy_cons h hf
      · rw [halloc]
        exact ⟨performs_none halloc rfl, dst'.lazyPages, rfl, .refl _⟩
      · rw [halloc]
        simp only
        rw [hw2]
        obtain ⟨hperf, fs, hdst, hperm⟩ := ih hlazy (length_padded_set hlen)
        refine ⟨(performs_page halloc hw2).append hperf, fs, hdst, hperm.trans ?_⟩
        rw [← singleton_append, recorded_append, append_assoc]
        -- the page was entered where the list had ended
        have hempty : dst.lazyPages.getD i 0 = 0 := getD_eq_default _ _ hlen
        refine (List.Perm.append_left _ ?_).trans (perm_append_comm_assoc _ _ _)
        by_cases ha : a = 0
        · subst ha
          rw [lazyHoldings_set_zero 0 i dst.lazyPages hempty, recorded_single]
          exact .refl _
        · have hset := (lazyHoldings_set r.start ha 0 i dst.lazyPages hempty).map
            fun h => (h, r.flags)
          rw [zero_add] at hset
          rw [← singleton_append, map_append] at hset
          refine hset.trans (.append_right _ (.of_eq ?_))
          exact ((recorded_single _).trans (if_pos ha)).symm

theorem cloneRegion_steps (h : cloneRegion root r w = some (ok, dst, w')) :
    Performs root (regionSteps root r w) w w' ∧
      (dst.holdings.map fun h => (h, dst.flags)).Perm (recorded (regionSteps root r w)) := by
  unfold regionSteps
  obtain ⟨hl, hlazy⟩ | ⟨hl, hp, -, rfl, rfl⟩ | ⟨hl, hp, -, rfl, halloc⟩ |
    ⟨hl, hp, -, a, w₁, halloc, rfl, hw'⟩ := cloneRegion_cases h
  · rw [if_pos hl]
    obtain ⟨hperf, fs, rfl, hperm⟩ := cloneLazy_steps hlazy (zero_le _)
    refine ⟨hperf, ?_⟩
    rw [VmaRegion.holdings_of_lazy (r := { r with phys := 0, lazyPages := fs }) hl]
    simpa [lazyHoldings] using hperm
  · rw [if_neg (by rw [hl]; decide), if_neg (not_not.2 hp)]
    rw [VmaRegion.holdings_of_phys_zero (r := { r with phys := 0, lazyPages := [] }) hl rfl]
    exact ⟨.nil rfl rfl, .refl _⟩
  · rw [if_neg (by rw [hl]; decide), if_pos hp, eagerSteps, halloc]
    rw [VmaRegion.holdings_of_phys_zero (r := { r with phys := 0, lazyPages := [] }) hl rfl]
    exact ⟨performs_none halloc rfl, .refl _⟩
  · rw [if_neg (by rw [hl]; decide), if_pos hp, eagerSteps, halloc]
    refine ⟨performs_single halloc (copyBytes_toFrames r.phys a)
      (le_two_pow_pagesToOrder r.pages_le) (fun _ _ => rfl) hw', ?_⟩
    by_cases ha : a = 0
    · subst ha
      rw [VmaRegion.holdings_of_phys_zero (r := { r with phys := 0, lazyPages := [] }) hl rfl,
        recorded_single]
      exact .refl _
    · rw [VmaRegion.holdings_of_eager (r := { r with phys := a, lazyPages := [] }) hl ha]
      exact .of_eq ((recorded_single _).trans (if_pos ha)).symm

/-- **The clone does what its steps say**, and the child's regions remember the steps whose block is
not at address `0`. -/
theorem cloneSlots_steps {slots dsts : List (Option VmaRegion)}
    (h : cloneSlots root slots w = some (ok, dsts, w')) :
    Performs root (slotSteps root slots w) w w' ∧
      (flagged dsts).Perm (recorded (slotSteps root slots w)) := by
  induction slots generalizing w dsts with
  | nil =>
    cases h
    exact ⟨.nil rfl rfl, .refl _⟩
  | cons slot slots ih =>
    cases slot with
    | none =>
      obtain ⟨rest, hrest, rfl⟩ := cloneSlots_cons_none h
      obtain ⟨hperf, hperm⟩ := ih hrest
      exact ⟨hperf, hperm⟩
    | some =>
      obtain ⟨d, hregion, -, rfl⟩ | ⟨d, w₁, rest, hregion, hrest, rfl⟩ := cloneSlots_cons_some h
      · obtain ⟨hperf, hperm⟩ := cloneRegion_steps hregion
        have hnil : flagged (replicate slots.length none) = [] := by
          rw [flagged, flatMap_eq_nil_iff]
          intro s hs
          rw [eq_of_mem_replicate hs]
          rfl
        rw [slotSteps, hregion]
        rw [append_nil]
        refine ⟨hperf, ?_⟩
        rw [flagged, flatMap_cons, ← flagged, hnil, append_nil]
        exact hperm
      · obtain ⟨hperf, hperm⟩ := cloneRegion_steps hregion
        obtain ⟨hperf1, hperm1⟩ := ih hrest
        rw [slotSteps, hregion]
        refine ⟨hperf.append hperf1, ?_⟩
        rw [flagged, flatMap_cons, ← flagged, recorded_append]
        exact hperm.append hperm1

end Clone

/-! ### All or nothing -/

section Frames

variable {start i : ℕ} {fs : List ℕ} {r : VmaRegion} {log : List Event} {Q : ℕ → ℕ → Prop}

theorem mem_lazyHoldings {h : Holding} : h ∈ lazyHoldings start i fs ↔
    ∃ j f, fs[j]? = some f ∧ f ≠ 0 ∧ h = ⟨⟨f, 0⟩, wadd start ((i + j) * pageSize), 1⟩ := by
  induction fs generalizing i with
  | nil => exact ⟨nofun, fun ⟨_, _, h, _⟩ => (nomatch h)⟩
  | cons g fs ih =>
    rw [lazyHoldings, ← or_exists_add_one]
    simp only [getElem?_cons_zero, getElem?_cons_succ, some_inj, exists_eq_left', add_zero,
      ← add_assoc, add_right_comm i _ 1, ← ih]
    split
    · next hg => rw [mem_cons, and_iff_right hg]
    · next hg => rw [or_iff_right fun h => hg h.1]

/-- The frames of a region are the pages of the blocks it holds. -/
theorem forall_frame_iff (hb : ∀ h ∈ r.holdings, h.block.addr + h.block.size pageSize ≤ 2 ^ 64) :
    (∀ j f, r.frame j = some f → Q (wadd r.start (j * pageSize)) f) ↔
      ∀ h ∈ r.holdings, ∀ i < h.pages, Q (wadd h.virt (i * pageSize)) (wadd h.block.addr (i * pageSize)) := by
  by_cases hl : r.lazy = true
  · rw [VmaRegion.holdings_of_lazy hl] at hb ⊢
    have hpage : ∀ j f, r.frame j = some f ↔ r.lazyPages[j]? = some f ∧ f ≠ 0 := by
      intro j f
      rw [r.frame_lazy_eq_some hl, getD_eq_getElem?_getD]
      cases hj : r.lazyPages[j]? with
      | none => simpa using fun h h' => h h'.symm
      | some => simp [and_comm]
    constructor
    · intro h hold hmem i hi
      obtain ⟨j, f, hj, hf, rfl⟩ := mem_lazyHoldings.1 hmem
      obtain rfl := lt_one_iff.1 hi
      have hlt : f < 2 ^ 64 := Block.addr_lt (by decide) (hb _ hmem)
      rw [zero_mul, wadd_zero (wadd_lt _ _), wadd_zero hlt, zero_add]
      exact h j f ((hpage j f).2 ⟨hj, hf⟩)
    · intro h j f hf
      obtain ⟨hj, h0⟩ := (hpage j f).1 hf
      have hmem : ⟨⟨f, 0⟩, wadd r.start ((0 + j) * pageSize), 1⟩ ∈ lazyHoldings r.start 0 r.lazyPages :=
        mem_lazyHoldings.2 ⟨j, f, hj, h0, rfl⟩
      have hlt : f < 2 ^ 64 := Block.addr_lt (by decide) (hb _ hmem)
      have := h _ hmem 0 one_pos
      rw [zero_mul, wadd_zero (wadd_lt _ _), wadd_zero hlt, zero_add] at this
      exact this
  · have hl' : r.lazy = false := Bool.eq_false_iff.2 hl
    by_cases hp : r.phys = 0
    · rw [VmaRegion.holdings_of_phys_zero hl' hp]
      refine ⟨nofun, fun _ j f hf => ?_⟩
      exact absurd hp ((r.frame_eager_eq_some hl').1 hf).1
    · rw [VmaRegion.holdings_of_eager hl' hp] at hb ⊢
      have hle := hb _ (.head _)
      have hn : r.pages ≤ 2 ^ pagesToOrder r.pages := le_two_pow_pagesToOrder r.pages_le
      constructor
      · intro h hold hmem i hi
        obtain rfl := mem_singleton.1 hmem
        rw [(wadd_page hle hn hi).1]
        exact h i _ ((r.frame_eager_eq_some hl').2 ⟨hp, hi, rfl⟩)
      · intro h j f hf
        obtain ⟨-, hj, rfl⟩ := (r.frame_eager_eq_some hl').1 hf
        rw [← (wadd_page hle hn hj).1]
        exact h _ (.head _) j hj

end Frames

/-- The blocks the caller made over to the child before the clone. -/
def rootBlocks (root : ℕ) : List Block := if root ≠ 0 then [⟨root, 0⟩] else []

/-- Every page that is backed has a leaf to its frame, with the flags of its region. -/
def AddressSpace.Mapped (s : AddressSpace) (w : Host) (root : ℕ) : Prop :=
  ∀ r, some r ∈ s.regions → ∀ j f, r.frame j = some f →
    w.pt root (wadd r.start (j * pageSize)) = some ⟨f, r.flags⟩

/-- A clone is complete or leaves nothing: the child has a leaf for each of its pages, or what was
obtained for it was given back, each block once. -/
def AllOrNothing (root : ℕ) (w w' : Host) : Option AddressSpace → Prop
  | some dst => dst.Mapped w' root
  | none => ∃ new, w'.log = new ++ w.log ∧ (frees new).Perm (rootBlocks root ++ allocs new)

/-- What has to go well.  In a clone that is complete every page of a block that is remembered is
mapped, and no page is mapped over it; in one that is not, no block is at address `0`. -/
def WentWell (T : List CopyStep) : Option AddressSpace → Prop
  | some _ => (∀ s ∈ T, s.Recorded → ∀ i < s.holding.pages, s.ok i = true) ∧
      (T.flatMap CopyStep.writes).Pairwise fun c d => c.wanted = true → c.key ≠ d.key
  | none => ∀ s ∈ T, s.Recorded

section AllOrNothing

variable {root : ℕ} {T : List CopyStep} {w w' : Host} {slots : List (Option VmaRegion)}

/-- No two calls map the same page. -/
theorem Performs.values_ne (h : Performs root T w w') :
    (T.flatMap CopyStep.writes).Pairwise fun c d => c.value ≠ d.value := by
  have hheld := h.held (Held.nil w.log)
  rw [append_nil] at hheld
  have hblock : ∀ s ∈ T, s.holding.block.addr + s.holding.block.size pageSize ≤ 2 ^ 64 := fun s hs =>
    (hheld.block _ (mem_reverse.2 (mem_map_of_mem hs))).le
  have hphys : ∀ s ∈ T, ∀ c ∈ s.writes, ∃ i < s.holding.pages, c.value.phys =
      s.holding.block.addr + i * pageSize ∧ s.holding.block.Has pageSize c.value.phys := by
    intro s hs c hc
    obtain ⟨i, hi, rfl⟩ := mem_map.1 hc
    obtain ⟨heq, hhas⟩ := wadd_page (hblock s hs) (h.pages_le s hs) (mem_range.1 hi)
    exact ⟨i, mem_range.1 hi, heq, heq.symm ▸ hhas⟩
  rw [pairwise_flatMap]
  constructor
  · intro s hs
    rw [CopyStep.writes, pairwise_map]
    refine List.Pairwise.imp_of_mem ?_ pairwise_lt_range
    intro i j hi hj hij heq
    have hle := h.pages_le s hs
    have heq' := congrArg Leaf.phys heq
    rw [(wadd_page (hblock s hs) hle (mem_range.1 hi)).1,
      (wadd_page (hblock s hs) hle (mem_range.1 hj)).1] at heq'
    have := eq_of_mul_eq_mul_right (show 0 < pageSize by decide) (add_left_cancel heq')
    omega
  · have hapart : T.Pairwise fun s s' => Block.Apart pageSize s.holding.block s'.holding.block := by
      have := pairwise_reverse.1 hheld.apart
      exact (pairwise_map.1 this).imp fun h => Std.Symm.symm _ _ h
    refine hapart.imp_of_mem ?_
    intro s s' hs hs' hap c hc d hd heq
    obtain ⟨-, -, -, hhas⟩ := hphys s hs c hc
    obtain ⟨-, -, -, hhas'⟩ := hphys s' hs' d hd
    exact hap _ ⟨hhas, heq ▸ hhas'⟩

/-- The calls someone is going to rely on are those for the blocks that are remembered. -/
theorem forall_wanted_iff {P : Write ℕ Leaf → Prop} :
    (∀ c ∈ T.flatMap CopyStep.writes, c.wanted = true → P c) ↔
      ∀ s ∈ T, s.Recorded → ∀ i < s.holding.pages, P ⟨wadd s.holding.virt (i * pageSize),
        ⟨wadd s.holding.block.addr (i * pageSize), s.flags⟩, s.ok i, decide s.Recorded⟩ := by
  constructor
  · intro h s hs hrec i hi
    refine h _ (mem_flatMap.2 ⟨s, hs, ?_⟩) (decide_eq_true hrec)
    exact mem_map.2 ⟨i, mem_range.2 hi, rfl⟩
  · intro h c hc hw
    obtain ⟨s, hs, hc⟩ := mem_flatMap.1 hc
    obtain ⟨i, hi, rfl⟩ := mem_map.1 hc
    exact h s hs (of_decide_eq_true hw) i (mem_range.1 hi)

theorem mem_recorded {x : Holding × PageFlags} :
    x ∈ recorded T ↔ ∃ s ∈ T, s.Recorded ∧ x = (s.holding, s.flags) := by
  rw [recorded, List.mem_map]
  constructor
  · rintro ⟨s, hs, rfl⟩
    obtain ⟨hs, hrec⟩ := mem_filter.1 hs
    exact ⟨s, hs, of_decide_eq_true hrec, rfl⟩
  · rintro ⟨s, hs, hrec, rfl⟩
    exact ⟨s, mem_filter.2 ⟨hs, decide_eq_true hrec⟩, rfl⟩

theorem mem_flagged {x : Holding × PageFlags} :
    x ∈ flagged slots ↔ ∃ r, some r ∈ slots ∧ x.1 ∈ r.holdings ∧ x.2 = r.flags := by
  rw [flagged, mem_flatMap]
  constructor
  · rintro ⟨slot, hslot, hx⟩
    cases slot with
    | none => cases hx
    | some r =>
      obtain ⟨h, hh, rfl⟩ := mem_map.1 hx
      exact ⟨r, hslot, hh, rfl⟩
  · rintro ⟨r, hr, hh, hflags⟩
    exact ⟨some r, hr, mem_map.2 ⟨x.1, hh, by rw [← hflags]⟩⟩

/-- The leaves a complete clone ought to have. -/
theorem leaves_iff (hperf : Performs root T w w') (hperm : (flagged slots).Perm (recorded T)) :
    (∀ r, some r ∈ slots → ∀ j f, r.frame j = some f →
      w'.pt root (wadd r.start (j * pageSize)) = some ⟨f, r.flags⟩) ↔
    ∀ c ∈ T.flatMap CopyStep.writes, c.wanted = true → w'.pt root c.key = some c.value := by
  have hheld := hperf.held (Held.nil w.log)
  rw [append_nil] at hheld
  have hblock : ∀ r, some r ∈ slots → ∀ h ∈ r.holdings,
      h.block.addr + h.block.size pageSize ≤ 2 ^ 64 := by
    intro r hr h hh
    obtain ⟨s, hs, -, heq⟩ :=
      mem_recorded.1 (hperm.subset (mem_flagged.2 ⟨r, hr, hh, rfl⟩ : (h, r.flags) ∈ flagged slots))
    obtain rfl := congrArg Prod.fst heq
    exact (hheld.block _ (mem_reverse.2 (mem_map_of_mem hs))).le
  rw [forall_wanted_iff]
  constructor
  · intro h s hs hrec i hi
    obtain ⟨r, hr, hh, hflags⟩ :=
      mem_flagged.1 (hperm.symm.subset (mem_recorded.2 ⟨s, hs, hrec, rfl⟩))
    rw [show s.flags = r.flags from hflags]
    exact (forall_frame_iff (Q := fun va f => w'.pt root va = some ⟨f, r.flags⟩) (hblock r hr)).1
      (h r hr) _ hh i hi
  · intro h r hr
    refine (forall_frame_iff (Q := fun va f => w'.pt root va = some ⟨f, r.flags⟩) (hblock r hr)).2 ?_
    intro hold hh i hi
    obtain ⟨s, hs, hrec, heq⟩ :=
      mem_recorded.1 (hperm.subset (mem_flagged.2 ⟨r, hr, hh, rfl⟩ : (hold, r.flags) ∈ flagged slots))
    obtain ⟨rfl, hflags⟩ := Prod.mk.inj heq
    rw [hflags]
    exact h s hs hrec i hi

theorem holdings_eq_flagged : holdings slots = (flagged slots).map Prod.fst := by
  induction slots with
  | nil => rfl
  | cons slot slots ih =>
    rw [holdings_cons, flagged, flatMap_cons, ← flagged, map_append, ih]
    cases slot with
    | none => rfl
    | some =>
      simp only [Option.elim, List.map_map]
      exact (map_id _).symm ▸ rfl

/-- The blocks of steps that are remembered. -/
def recordedBlocks (T : List CopyStep) : List Block :=
  stepBlocks (T.filter fun s => decide s.Recorded)

theorem recordedBlocks_perm_iff : (recordedBlocks T).Perm (stepBlocks T) ↔ ∀ s ∈ T, s.Recorded := by
  constructor
  · intro h
    have hlen := h.length_eq
    rw [recordedBlocks, stepBlocks, stepBlocks, length_map, length_map,
      length_filter_eq_length_iff] at hlen
    exact fun s hs => of_decide_eq_true (hlen s hs)
  · intro h
    rw [recordedBlocks, filter_eq_self.2 fun s hs => decide_eq_true (h s hs)]

/-- The regions hold the blocks that are remembered. -/
theorem blocksOf_perm (hperm : (flagged slots).Perm (recorded T)) :
    (blocksOf (holdings slots)).Perm (recordedBlocks T) := by
  rw [holdings_eq_flagged]
  refine ((hperm.map Prod.fst).map Holding.block).trans (.of_eq ?_)
  rw [recorded, List.map_map, List.map_map]
  rfl

/-- A clone that fails gives back the root and the blocks that are remembered. -/
theorem cloneAs_none_log {src : AddressSpace} (h : cloneAs src root w = some (none, w')) :
    ∃ new, w'.log = new ++ w.log ∧
      allocs new = (stepBlocks (slotSteps root src.regions w)).reverse ∧
      (frees new).Perm (rootBlocks root ++ recordedBlocks (slotSteps root src.regions w)) := by
  obtain ⟨ok, regions, w₁, hslots, ⟨-, hres, -⟩ | ⟨rfl, -, hdrop⟩⟩ := cloneAs_cases h
  · cases hres
  obtain ⟨hperf, hperm⟩ := cloneSlots_steps hslots
  have hlog := drop_log hdrop
  rw [hperf.log, ← append_assoc, ← append_assoc] at hlog
  refine ⟨_, hlog, ?_, ?_⟩
  · rw [allocs_append, allocs_append, ← map_reverse, ← map_reverse, allocs_map_free,
      allocs_map_free, allocs_map_alloc]
    rfl
  · rw [frees_append, frees_append, ← map_reverse, ← map_reverse, frees_map_free,
      frees_map_free, frees_map_alloc, append_nil]
    exact Perm.append_left _ ((reverse_perm _).trans (blocksOf_perm hperm))

/-- A clone that is complete only obtains blocks. -/
theorem cloneAs_some_log {src dst : AddressSpace} (h : cloneAs src root w = some (some dst, w')) :
    dst.pageTableRoot = root ∧
      w'.log = ((stepBlocks (slotSteps root src.regions w)).map Event.alloc).reverse ++ w.log := by
  obtain ⟨ok, regions, w₁, hslots, ⟨-, hres, rfl⟩ | ⟨-, hres, -⟩⟩ := cloneAs_cases h
  · cases hres
    exact ⟨rfl, (cloneSlots_steps hslots).1.log⟩
  · cases hres

/-- A clone obtains no block that is held. -/
theorem Performs.not_mem (h : Performs root T w w') {b : Block} (hb : Held pageSize w.log [b]) :
    b ∉ stepBlocks T := by
  intro hmem
  have happ := pairwise_append.1 (h.held hb).apart
  have hhas : b.Has pageSize b.addr := Block.has_addr (by decide) b
  exact happ.2.2 b (mem_reverse.2 hmem) b (.head _) b.addr ⟨hhas, hhas⟩

/-- **Exactly when a clone is complete or leaves nothing**: the calls whose outcome the source does
not look at have to go well. -/
theorem cloneAs_allOrNothing_iff {src : AddressSpace} {res : Option AddressSpace}
    (h : cloneAs src root w = some (res, w')) :
    AllOrNothing root w w' res ↔ WentWell (slotSteps root src.regions w) res := by
  cases res with
  | some =>
    obtain ⟨ok, regions, w₁, hslots, ⟨rfl, hdst, rfl⟩ | ⟨-, hdst, -⟩⟩ := cloneAs_cases h
    · cases hdst
      obtain ⟨hperf, hperm⟩ := cloneSlots_steps hslots
      have hthere := Write.allThere_iff hperf.honest hperf.values_ne
      rw [← hperf.pt] at hthere
      exact ((leaves_iff hperf hperm).trans hthere).trans (and_congr_left' forall_wanted_iff)
    · cases hdst
  | none =>
    obtain ⟨new, hlog, hallocs, hfrees⟩ := cloneAs_none_log h
    have hiff : (frees new).Perm (rootBlocks root ++ allocs new) ↔
        ∀ s ∈ slotSteps root src.regions w, s.Recorded := by
      rw [hfrees.congr_left, hallocs, perm_append_left_iff, perm_reverse]
      exact recordedBlocks_perm_iff
    constructor
    · rintro ⟨new', hlog', hp⟩
      obtain rfl := append_cancel_right (hlog'.symm.trans hlog)
      exact hiff.1 hp
    · exact fun hall => ⟨new, hlog, hiff.2 hall⟩

end AllOrNothing

/-- A process with a region of two pages. -/
def twoPageSpace : AddressSpace := ⟨0x1000, [some twoPageRegion], 0, 0⟩

/-- A machine with its page table. -/
def mappedHost : Host :=
  { copyHost with
    pt := fun root va =>
      if root ≠ 0x1000 then none
      else if va = 0x10000 then some ⟨0x800000, .ofUser true false⟩
      else if va = 0x11000 then some ⟨0x801000, .ofUser true false⟩
      else none }

/-- The same machine, with no page left for a node of a page table. -/
def nodelessHost : Host := { mappedHost with mapOk := fun _ => false }

theorem cloneAs_allOrNothing_twoPages : ∃ dst w',
    cloneAs twoPageSpace 0x2000 mappedHost = some (some dst, w') ∧
      AllOrNothing 0x2000 mappedHost w' (some dst) := by
  obtain ⟨⟨res, w'⟩, hclone, hp⟩ : ∃ x, cloneAs twoPageSpace 0x2000 mappedHost = some x ∧
      x.1.isSome := exists_of_any (by decide +kernel)
  obtain ⟨dst, hres⟩ := isSome_iff_exists.1 hp
  obtain rfl : res = some dst := hres
  refine ⟨dst, w', hclone, (cloneAs_allOrNothing_iff hclone).2 ⟨?_, ?_⟩⟩
  · decide +kernel
  · decide +kernel

/-- Without memory for the child's page table the clone is still taken for complete, and the child's
pages have no leaves. -/
theorem cloneAs_without_nodes : ∃ dst w', twoPageSpace.Mapped nodelessHost 0x1000 ∧
    cloneAs twoPageSpace 0x2000 nodelessHost = some (some dst, w') ∧
      ¬ AllOrNothing 0x2000 nodelessHost w' (some dst) := by
  obtain ⟨⟨res, w'⟩, hclone, hp⟩ : ∃ x, cloneAs twoPageSpace 0x2000 nodelessHost = some x ∧
      x.1.any fun dst => dst.regions = [some { twoPageRegion with phys := 0x100000 }] ∧
        x.2.pt 0x2000 0x10000 = none := exists_of_any (by decide +kernel)
  obtain ⟨dst, hres, hregions, hleaf⟩ := exists_of_any hp
  obtain rfl : res = some dst := hres
  refine ⟨dst, w', by unfold AddressSpace.Mapped; decide +kernel, hclone, fun hall => ?_⟩
  have hr : some { twoPageRegion with phys := 0x100000 } ∈ dst.regions := hregions ▸ (.head _)
  have hleaf' := hall _ hr 0 0x100000 (by decide)
  rw [show wadd twoPageRegion.start (0 * pageSize) = 0x10000 by decide, hleaf] at hleaf'
  cases hleaf'

end Cyanos
