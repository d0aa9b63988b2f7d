import Cyanos.Kernel.ImageUpkeep

/-!
# No page is writable and executable

`sys_mmap`, `mprotect` and the ELF loader refuse rights that include both writing and executing.
The one place that maps a page with both is the file-backed `sys_mmap`, which needs to write to the
pages and takes the right to write away afterwards, through `sys_mprotect`.  That last step does
nothing for a block at physical address `0`, and is refused for the virtual address `0`.

## Main results

* `Kernel.noWX_run` : **no region and no leaf is ever writable and executable**, in all runs in
  which no executable file mapping gets a block or an address `0`.
* `Kernel.wx_after_mmap` : a run in which it gets block `0`.
-/

namespace Cyanos

open Lib Machine MemMachine AddressSpace Frames Host List Option Nat

/-! ### Machines -/

namespace Host

variable {w w' : Host} {root virt phys n : ℕ} {flags : PageFlags}

/-- No leaf is writable and executable. -/
def NoWX (w : Host) : Prop := ∀ root va l, w.pt root va = some l → ¬ l.flags.WX

/-- Only the `n` pages from `virt` on, under the root, are writable and executable. -/
def WXWithin (w : Host) (root virt n : ℕ) : Prop :=
  ∀ root' va l, w.pt root' va = some l → l.flags.WX →
    root' = root ∧ ∃ i < n, va = wadd virt (i * pageSize)

/-- The machine's page tables are those of another one. -/
theorem NoWX.of_pt (h : w.NoWX) (hpt : w'.pt = w.pt) : w'.NoWX := by
  intro root va l hl
  rw [hpt] at hl
  exact h root va l hl

theorem pt_of_buddyAlloc {order : ℕ} {res : Option ℕ} (h : buddyAlloc w order = some (res, w')) :
    w'.pt = w.pt := by
  have hf := (buddyAlloc_toFrames h).1
  cases res with
  | none => rw [buddyAlloc_none hf]; rfl
  | some => exact (buddyAlloc_some hf).2.2.2.1

theorem pt_of_buddyFree {addr order : ℕ} (h : buddyFree w addr order = some w') : w'.pt = w.pt := by
  have hf := buddyFree_some (buddyFree_toFrames h).1
  rw [hf]

theorem noWX_allocPageTableRoot {a : ℕ} (h : w.NoWX) (hroot : allocPageTableRoot w = (a, w')) :
    w'.NoWX := by
  intro root va l hl
  simp only [allocPageTableRoot] at hroot
  split at hroot <;> cases hroot
  · replace hl : Function.update w.pt a (fun _ => none) root va = some l := hl
    rw [Function.update_apply] at hl
    split at hl
    · cases hl
    · exact h root va l hl
  · exact h root va l hl

/-- Regions and pages without both rights are kept by everything that maps pages without both. -/
theorem noWX_upkeep :
    ImageUpkeep (fun r => ¬ r.flags.WX) (fun f => ¬ f.WX) NoWX where
  alloc h hJ := hJ.of_pt (pt_of_buddyAlloc h)
  free h hJ := hJ.of_pt (pt_of_buddyFree h)
  zero _ _ hJ := hJ
  mapped _ _ _ hF hJ root va l hl := by
    rcases (mapPage_spec rfl).2 root va l hl with hl | ⟨-, -, -, rfl⟩
    · exact hJ root va l hl
    · exact hF
  unmapped hJ := fun root va l hl => hJ root va l (pt_of_unmapPage hl)
  flags hr := hr
  backed _ _ hr := hr
  front hr _ _ := hr
  back hr _ _ := hr
  protect _ hprot := hprot
  copied hJ := hJ
  written hJ := hJ
  rooted hJ := noWX_allocPageTableRoot hJ rfl

/-- Unmapping asks the allocator nothing. -/
theorem asked_upkeep (w : Host) : CutUpkeep (fun _ => True) fun w' : Host =>
    w'.tick = w.tick ∧ w'.answer = w.answer where
  free h hJ := by
    have hf := buddyFree_some (buddyFree_toFrames h).1
    rw [hf]
    exact hJ
  unmapped hJ := hJ
  front _ _ _ := trivial
  back _ _ _ := trivial

/-! ### Pages that have both rights for a while -/

/-- `mapPages` gives both rights to the pages it maps only. -/
theorem wxWithin_mapPages {res : Option ℕ} (h : w.NoWX)
    (hmap : mapPages root virt phys flags n 0 w = (res, w')) :
    w'.WXWithin root virt (res.getD n) := by
  intro root' va l hl hwx
  have hspec := (mapPages_spec (mapPages_toFrames hmap)).2 root' va l hl
  rw [zero_add] at hspec
  rcases hspec with hl | ⟨hr, j, -, hj, hva, -⟩
  · exact absurd hwx (h root' va l hl)
  · exact ⟨hr, j, hj, hva⟩

theorem WXWithin.unmapPages (h : w.WXWithin root virt n) : (unmapPages w root virt n).NoWX := by
  intro root' va l hl hwx
  rw [unmapPages_toFrames, unmapPages_pt] at hl
  obtain ⟨hr, i, hi, hva⟩ := h root' va l hl.1 hwx
  exact hl.2 hr i hi hva

/-- A page that is mapped again has the new rights. -/
theorem mapPage_pt_same {w : Frames} {va : ℕ} {l : Leaf}
    (h : (mapPage w root va phys flags).2.pt root va = some l) : l.flags = flags := by
  simp only [mapPage] at h
  split at h
  · rw [setLeaf_pt_same] at h
    cases h
    rfl
  · next hnot =>
    have hnone : ¬ (w.pt root va).isSome := fun h => hnot (.inl h)
    exact absurd (isSome_of_eq_some (show w.pt root va = some l from h)) hnone

/-- Mapping the pages again, without both rights. -/
theorem WXWithin.remap (h : w.WXWithin root virt n) (hf : ¬ flags.WX) :
    NoWX ((range n).foldl (fun w i =>
      (mapPage w root (wadd virt (i * pageSize)) (wadd phys (i * pageSize)) flags).2) w) := by
  -- after `m` turns the pages that still have both rights are the later ones
  have hloop : ∀ m ≤ n, ∀ root' va l, ((range m).foldl (fun w i =>
      (mapPage w root (wadd virt (i * pageSize)) (wadd phys (i * pageSize)) flags).2) w).pt root' va =
        some l → l.flags.WX → root' = root ∧ ∃ i, m ≤ i ∧ i < n ∧ va = wadd virt (i * pageSize) := by
    intro m
    induction m with
    | zero =>
      intro _ root' va l hl hwx
      obtain ⟨hr, i, hi, hva⟩ := h root' va l hl hwx
      exact ⟨hr, i, zero_le i, hi, hva⟩
    | succ m ih =>
      intro hm root' va l hl hwx
      rw [range_succ, foldl_append, foldl_cons, foldl_nil] at hl
      rcases (mapPage_spec (w := (foldl _ w (range m)).toFrames) rfl).2 root' va l hl
        with hl' | ⟨-, -, -, rfl⟩
      · obtain ⟨hr, i, hi, hin, hva⟩ := ih (by omega) root' va l hl' hwx
        refine ⟨hr, i, ?_, hin, hva⟩
        rcases lt_or_eq_of_le hi with hi | rfl
        · exact hi
        · subst hr hva
          exact absurd (mapPage_pt_same hl ▸ hwx) hf
      · exact absurd hwx hf
  intro root' va l hl hwx
  obtain ⟨-, i, hi, hin, -⟩ := hloop n le_rfl root' va l hl hwx
  omega

end Host

/-! ### A mapping that is taken back or protected at once -/

namespace AddressSpace

variable {W : Type} [Machine W] {s s' : AddressSpace} {w w' : W} {virt len slot v n phys : ℕ}
  {flags : PageFlags}

theorem slot_lt_of_place (h : s.place virt len = some (slot, v, n)) :
    ∃ hi, s.regions[slot] = none := by
  obtain ⟨-, hslot, -⟩ := place_spec h
  exact List.getElem?_eq_some_iff.1 hslot

/-- Unmapping what `map` has mapped, and nothing else. -/
theorem unmapRange_placed (hplace : s.place virt len = some (slot, v, n)) (hn : 0 < n)
    (h : (s.setRegion slot (eagerRegion v n phys flags)).unmapRange w virt len = some (s', w')) :
    s' = s ∧ (w' = unmapPages w s.pageTableRoot v n ∨
      buddyFree (unmapPages w s.pageTableRoot v n) phys (pagesToOrder n) = some w') := by
  obtain ⟨hne, -, hv, hpages, hlt, hfree⟩ := place_spec hplace
  obtain ⟨hi, hnone⟩ := slot_lt_of_place hplace
  have hbounds : unmapBounds virt len = some (v, v + n * pageSize) := by
    have hup : alignUp len pageSize = n * pageSize := by rw [hpages]; rfl
    rw [unmapBounds, if_neg hne, ← hv, hup, checkedAdd, if_pos hlt]
    rfl
  rcases unmapRange_cases h with ⟨hb, -⟩ | ⟨lo, hi', slots, hb, hloop, rfl⟩
  · rw [hbounds] at hb
    cases hb
  cases hbounds.symm.trans hb
  have hothers : ∀ slot ∈ s.regions, ∀ w : W,
      unmapSlot s.pageTableRoot v (v + n * pageSize) w slot = some (slot, w) := by
    rintro (_ | r) hr w
    · rfl
    · exact unmapSlot_of_not_meets fun hm => hfree r hr ⟨hm.2, hm.1⟩
  rw [setRegion, forSlots_set hi hothers] at hloop
  obtain ⟨⟨x, w₁⟩, hx, hloop⟩ := map_eq_some_iff.1 hloop
  cases hloop
  have hpos : 0 < n * pageSize := mul_pos hn (by decide)
  rcases unmapSlot_eager ⟨by simp [eagerRegion, hpos], by simp [eagerRegion, hpos]⟩ rfl hx with
    ⟨-, -, rfl, hw⟩ | ⟨-, hlt, -⟩ | ⟨hlt, -⟩
  · refine ⟨?_, ?_⟩
    · simp only [← hnone, set_getElem_self]
      rfl
    · rw [pages_eagerRegion hlt] at hw
      split at hw
      · exact .inr hw
      · exact .inl (some.inj hw).symm
  · exact absurd hlt (lt_irrefl _)
  · exact absurd hlt (lt_irrefl _)

/-- Protecting what `map` has mapped, and nothing else. -/
theorem mprotect_placed {prot : ℕ} {ok : Bool} (hplace : s.place virt len = some (slot, v, n))
    (hn : 0 < n) (hp : phys ≠ 0) (hprot : ¬ (prot.testBit 1 = true ∧ prot.testBit 2 = true))
    (h : (s.setRegion slot (eagerRegion v n phys flags)).mprotect w virt len prot =
      some (ok, s', w')) :
    s' = s.setRegion slot (eagerRegion v n phys (protFlags prot)) ∧
      w' = (range n).foldl (fun w i => (mapPage w s.pageTableRoot (wadd v (i * pageSize))
        (wadd phys (i * pageSize)) (protFlags prot)).2) w := by
  obtain ⟨-, -, hv, hpages, hlt, hfree⟩ := place_spec hplace
  obtain ⟨hi, -⟩ := slot_lt_of_place hplace
  have hup : alignUp len pageSize = n * pageSize := by rw [hpages]; rfl
  have hend : checkedAdd v (n * pageSize) = some (v + n * pageSize) := if_pos hlt
  have hothers : ∀ slot ∈ s.regions, ∀ w : W, some
      (protectSlot s.pageTableRoot v (v + n * pageSize) (protFlags prot) w slot) = some (slot, w) := by
    rintro (_ | r) hr w
    · rfl
    · rw [protectSlot, if_neg fun hm => hfree r hr ⟨hm.2, hm.1⟩]
  have hpos : 0 < n * pageSize := mul_pos hn (by decide)
  have hmeets : (eagerRegion v n phys flags).Meets v (v + n * pageSize) :=
    ⟨Nat.lt_add_of_pos_right hpos, Nat.lt_add_of_pos_right hpos⟩
  have hnew : protectSlot s.pageTableRoot v (v + n * pageSize) (protFlags prot) w
      (some (eagerRegion v n phys flags)) = (some (eagerRegion v n phys (protFlags prot)),
        (range n).foldl (fun w i => (mapPage w s.pageTableRoot (wadd v (i * pageSize))
          (wadd phys (i * pageSize)) (protFlags prot)).2) w) := by
    rw [protectSlot, if_pos hmeets, pages_eagerRegion hlt]
    simp only [eagerRegion, Bool.false_eq_true, if_false, ne_eq, hp, not_false_eq_true, if_true]
    refine Prod.ext rfl (foldl_ext _ _ _ fun w i hi => ?_)
    -- all pages are in the range
    have hin : i * pageSize < n * pageSize := mul_lt_mul_of_pos_right (mem_range.1 hi) (by decide)
    have hva : wadd v (i * pageSize) = v + i * pageSize := wadd_of_lt (by omega)
    exact if_pos (show v ≤ wadd v (i * pageSize) ∧ wadd v (i * pageSize) < v + n * pageSize by omega)
  unfold mprotect at h
  rw [if_neg hprot] at h
  simp only [← hv, hup, hend] at h
  obtain ⟨⟨slots, w₁⟩, hloop, h⟩ := bind_eq_some_iff.1 h
  cases h
  rw [setRegion, forSlots_set hi hothers, hnew] at hloop
  cases hloop
  exact ⟨rfl, rfl⟩

end AddressSpace

/-! ### Processes -/

namespace Process

variable {p p' : Process Host} {addr virt len prot flags fd off : ℕ} {pageFlags : PageFlags}
  {fixed : Bool} {res : ℤ}

/-- No region of the process, and no leaf of any page table, is writable and executable. -/
def NoWX (p : Process Host) : Prop := p.as.All (fun r => ¬ r.flags.WX) ∧ p.w.NoWX

open Host (noWX_upkeep)

theorem noWX_mmapSeek (fd off : ℕ) (h : p.NoWX) : NoWX { p with w := (p.mmapSeek fd off).2 } := by
  unfold mmapSeek
  split
  · exact h
  · exact h

/-- The file-backed mapping of pages to be executed: they are writable until the file has been
read, and not afterwards. -/
theorem noWX_mmapFile_text (h : p.NoWX) (hf : ¬ (protToPageFlags prot).WX)
    (hx : (protToPageFlags prot).execute = true) (hd : pageSize ∣ len) (hlen : len ≤ mapMaxBytes)
    (hvirt : virt ≠ 0) (hzero : p.w.NonzeroAt (if off = 0 then p.w.tick else p.w.tick + 1))
    (hm : p.mmapFile virt len prot (protToPageFlags prot) fixed fd off = some (res, p')) :
    p'.NoWX := by
  have h₀ := noWX_mmapSeek fd off h
  rcases mmapFile_cases hm with rfl | ⟨p₁, ok, as, w, hfix, hmap, hcase⟩
  · exact h₀
  have h1 := upheld_unmapFixed noWX_upkeep.toCutUpkeep h₀ hfix
  -- the block is the answer to the next question
  have hasked : p₁.w.tick = (p.mmapSeek fd off).2.tick ∧ p₁.w.answer = (p.mmapSeek fd off).2.answer :=
    (upheld_unmapFixed (asked_upkeep _) ⟨fun _ _ => trivial, rfl, rfl⟩ hfix).2
  have hseek : (p.mmapSeek fd off).2.tick = (if off = 0 then p.w.tick else p.w.tick + 1) ∧
      (p.mmapSeek fd off).2.answer = p.w.answer := by
    by_cases h0 : off = 0
    · simp [mmapSeek, h0]
    · simp only [mmapSeek, ne_eq, h0, not_false_eq_true, if_true, if_false]
      exact ⟨rfl, rfl⟩
  rcases map_cases hmap with
    ⟨rfl, rfl, hw⟩ | ⟨slot, v, n, phys, w₁, hplace, halloc, hmapped⟩
  · -- nothing was mapped
    obtain ⟨-, rfl⟩ := hcase.resolve_right (by rintro ⟨_, h, -⟩; cases h)
    refine ⟨h1.1, ?_⟩
    rcases hw with rfl | ⟨_, halloc⟩
    · exact h1.2
    · exact h1.2.of_pt (pt_of_buddyAlloc halloc)
  have hJ1 : (zeroBytes w₁ phys (n * pageSize)).NoWX :=
    noWX_upkeep.zero _ _ (h1.2.of_pt (pt_of_buddyAlloc halloc))
  rcases hmapped with ⟨hpages, rfl, rfl⟩ | ⟨i, w₂, hpages, hfree, rfl, rfl⟩
  swap
  · -- the pages mapped before the failure are unmapped again
    obtain ⟨-, rfl⟩ := hcase.resolve_right (by rintro ⟨_, h, -⟩; cases h)
    have hwx : w₂.WXWithin p₁.as.pageTableRoot v i := wxWithin_mapPages hJ1 hpages
    exact ⟨h1.1, hwx.unmapPages.of_pt (pt_of_buddyFree hfree)⟩
  have hwx : w.WXWithin p₁.as.pageTableRoot v n := wxWithin_mapPages hJ1 hpages
  have hphys : phys ≠ 0 := by
    rintro rfl
    obtain ⟨ho, -, -, -, hanswer⟩ := buddyAlloc_some (buddyAlloc_toFrames halloc).1
    rw [hasked.1, hasked.2, hseek.1, hseek.2] at hanswer
    exact hzero _ ho hanswer
  obtain ⟨hne, hn⟩ : len ≠ 0 ∧ 0 < n := by
    obtain ⟨hne, -, -, rfl, -⟩ := place_spec hplace
    have hpos := pages_of_dvd hd hlen
    exact ⟨hne, pos_of_ne_zero fun h0 => hne (by rw [← hpos, h0, zero_mul])⟩
  rcases hcase with ⟨hnot | hnot, -⟩ | ⟨vma, -, -, hcase⟩
  · cases hnot
  · cases hnot.symm.trans (find_placed hd hlen hplace)
  have hread : (FileMachine.vfsRead w fd vma.phys len).2.WXWithin p₁.as.pageTableRoot v n := hwx
  rcases hcase with ⟨-, hun⟩ | ⟨hw, -⟩ | ⟨-, m, hpr⟩
  · obtain ⟨as, w₂, hrange, rfl⟩ := unmap_spec hun
    obtain ⟨rfl, rfl | hfree⟩ := unmapRange_placed hplace hn hrange
    · exact ⟨h1.1, hread.unmapPages⟩
    · exact ⟨h1.1, hread.unmapPages.of_pt (pt_of_buddyFree hfree)⟩
  · exact absurd ⟨hw, hx⟩ hf
  · rcases sysMprotect_cases hpr with ⟨-, h0 | h0⟩ | ⟨-, ok, as, w₂, hop, rfl⟩
    · exact absurd h0 hvirt
    · exact absurd h0 hne
    obtain ⟨rfl, rfl⟩ := mprotect_placed hplace hn hphys hf hop
    exact ⟨h1.1.setRegion hf, hread.remap hf⟩

/-- An executable file mapping gets neither an address nor a block `0`: the block is what the
allocator answers after the seek. -/
def TextGuard (bump : ℕ) (w : Host) : MemCall → Prop
  | .mmap addr _ prot flags _ off => mapAnonymous flags = false → prot.testBit 2 = true →
    (addr ≠ 0 ∨ bump ≠ 0) ∧ w.NonzeroAt (if off = 0 then w.tick else w.tick + 1)
  | _ => True

instance (bump : ℕ) (w : Host) (c : MemCall) : Decidable (TextGuard bump w c) := by
  rcases c <;> dsimp only [TextGuard] <;> infer_instance

theorem noWX_sysMmap (h : p.NoWX)
    (hg : TextGuard p.mmapBump p.w (.mmap addr len prot flags fd off))
    (hm : p.sysMmap addr len prot flags fd off = some (res, p')) : p'.NoWX := by
  rcases sysMmap_cases hm with ⟨has, hw, -⟩ | ⟨hlen, hf, -, -, ⟨-, hm⟩ | ⟨hfile, hm⟩⟩
  · rw [NoWX, has, hw]
    exact h
  · exact upheld_mmapAnonymous (p := { p with mmapBump := (p.mmapTarget addr len).2 })
      noWX_upkeep.toRegionUpkeep h (fun _ => hf) (fun _ _ _ _ _ _ _ => hf) hm
  · have h₀ : NoWX { p with mmapBump := (p.mmapTarget addr len).2 } := h
    cases hx : (protToPageFlags prot).execute with
    | false =>
      have hdata : ¬ ({ protToPageFlags prot with writable := true } : PageFlags).WX := fun hwx =>
        Bool.false_ne_true (hx.symm.trans hwx.2)
      exact upheld_mmapFile noWX_upkeep.toRegionUpkeep h₀ (fun hJ => ⟨hJ, hJ⟩) hdata (fun _ => hdata) hm
    | true =>
      obtain ⟨hvirt, hzero⟩ := hg hfile hx
      refine noWX_mmapFile_text h₀ hf hx (dvd_alignUp _ _) hlen ?_ hzero hm
      unfold mmapTarget
      split
      · assumption
      · next h0 => exact hvirt.resolve_left h0

/-- A memory call leaves no page writable and executable. -/
theorem noWX_memCall {c : MemCall} (h : p.NoWX) (hg : TextGuard p.mmapBump p.w c)
    (hc : p.memCall c = some (res, p')) : p'.NoWX := by
  refine upheld_memCall noWX_upkeep.toRegionUpkeep h hg ?_ ?_ ?_ hc
  · -- the new mapping is anonymous
    exact fun _ hanon => absurd hanon (by decide)
  · exact fun hg hm => noWX_sysMmap h hg hm
  · have hrw : ¬ (PageFlags.ofUser true false).WX := by decide
    intro newEnd b as w _ hop
    exact noWX_upkeep.brk (fun _ _ _ _ _ => hrw) (fun r _ hr _ => h.1 r hr) hop h.1 h.2

end Process

/-! ### The kernel -/

namespace Kernel

open Host (noWX_upkeep)

/-- No region of any task, and no leaf of any page table, is writable and executable. -/
def NoWX (k : Kernel Host) : Prop := k.Kept (fun r => ¬ r.flags.WX) Host.NoWX

/-- An executable file mapping gets neither a block nor an address `0`. -/
def TextGuard (k : Kernel Host) : Action → Prop
  | .call _ c => Process.TextGuard k.mmapBump k.w c
  | _ => True

instance (k : Kernel Host) (a : Action) : Decidable (k.TextGuard a) := by
  rcases a <;> dsimp only [TextGuard] <;> infer_instance

/-- The loader never maps a page writable and executable. -/
theorem actionFits_noWX (emTarget : ℕ) (a : Action) :
    ActionFits (fun r => ¬ r.flags.WX) (fun f => ¬ f.WX) emTarget a := by
  have hrw : ¬ (PageFlags.ofUser true false).WX := by decide
  have himage : ∀ image, ImageFits (fun r => ¬ r.flags.WX) (fun f => ¬ f.WX) emTarget image :=
    fun image ph _ => ⟨ph.flags_not_wx, fun _ _ _ _ _ _ => ph.flags_not_wx⟩
  cases a with
  | execve pid image | spawnElf image => exact ⟨himage image, hrw, fun _ _ _ _ _ _ => hrw⟩
  | _ => trivial

theorem noWX_step {emTarget : ℕ} {k k' : Kernel Host} {a : Action} (h : k.NoWX)
    (hg : k.TextGuard a) (hst : k.step emTarget a = some k') : k'.NoWX := by
  refine kept_step noWX_upkeep h (actionFits_noWX ..) ?_ hst
  rintro pid c r k' rfl hc
  refine kept_memCall h (fun h => h) (fun as p r _ hp hP hJ => ?_) hc
  exact Process.noWX_memCall (p := ⟨as, k.mmapBump, k.w⟩) ⟨hP, hJ⟩ hg hp

/-- A machine whose allocator gives out some blocks, and in the end the one at address `0`. -/
def lowHost : Host :=
  .init (fun tick order => if order = 8 then some 0x400000 else if order = 4 then some 0x600000
    else if tick = 0 then some 0x100000 else if tick = 1 then some 0x200000 else some 0)
    (fun _ => true) (fun _ => 0) (fun _ => 0) fun _ _ => 0

/-- A process maps two pages of memory and one of a file, to be read and executed; it touches a
page, takes the right to write away from it, and forks. -/
def guardedTextRun : List Action :=
  [.spawnElf Elf.tinyImage, .call 1 (.mmap 0 0x2000 3 0x22 (2 ^ 64 - 1) 0),
    .call 1 (.mmap 0 0x1000 5 2 3 0x1000), .call 1 (.fault 0x10000000),
    .call 1 (.mprotect 0x10000000 0x1000 1), .fork 1 1]

/-- The first process maps one page of a file, to be read and executed. -/
def textRun : List Action := [.spawnElf Elf.tinyImage, .call 1 (.mmap 0 0x1000 5 2 3 0)]

end Kernel

end Cyanos
