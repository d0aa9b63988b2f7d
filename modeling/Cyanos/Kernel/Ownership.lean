import Cyanos.Kernel.ImageRule
import Cyanos.Kernel.System
import Cyanos.Mm.CowTrace
import Cyanos.Sched.RunQueue

/-!
# Who holds which blocks

The blocks of physical memory an address space, a task and a run queue own, and what happens to them
when images are built, cloned and dropped.  `Held log (own ++ bs)` says that the blocks `own` and
all the others, `bs`, are apart and held; each lemma here says what is held after an operation,
whatever the others are.
-/

namespace Cyanos

open Lib Machine MemMachine AddressSpace Host List Frames

/-! ### Blocks -/

/-- The page of the root, and the blocks of the regions. -/
def AddressSpace.blocks (s : AddressSpace) : List Block :=
  rootBlocks s.pageTableRoot ++ blocksOf (holdings s.regions)

/-- The kernel stack, and the blocks of the address space. -/
def Task.blocks (t : Task) : List Block :=
  ⟨t.kernelStack, stackOrder⟩ :: t.addressSpace.elim [] AddressSpace.blocks

/-- The blocks of all tasks. -/
def RunQueue.blocks (q : RunQueue) : List Block :=
  q.tasks.flatMap fun slot => slot.elim [] Task.blocks

theorem AddressSpace.blocks_new (root : ℕ) : (new root).blocks = rootBlocks root := append_nil _

theorem AddressSpace.blocks_setRegion {s : AddressSpace} {slot : ℕ} (r : VmaRegion)
    (h : s.regions[slot]? = some none) :
    (s.setRegion slot r).blocks.Perm (blocksOf r.holdings ++ s.blocks) := by
  have hperm : (holdings (s.setRegion slot r).regions).Perm (r.holdings ++ holdings s.regions) :=
    (holdings_setRegion r.holdings [] h (.of_eq (append_nil _))).symm
  have hmap := hperm.map Holding.block
  rw [map_append] at hmap
  exact (hmap.append_left _).trans (perm_append_comm_assoc _ _ _)

namespace RunQueue

variable {q q' : RunQueue} {idx : ℕ} {t : Task} {old : Option Task}

theorem blocks_setSlot (h : q.tasks[idx]? = some old) (slot : Option Task) :
    ∃ rest, q.blocks.Perm (old.elim [] Task.blocks ++ rest) ∧
      (q.setSlot idx slot).blocks.Perm (slot.elim [] Task.blocks ++ rest) := flatMap_set h slot

theorem blocks_enqueue (h : q.enqueue t = some q') : q'.blocks.Perm (t.blocks ++ q.blocks) := by
  obtain ⟨idx, -, hnone, rfl⟩ := enqueue_spec h
  obtain ⟨rest, hold, hnew⟩ := blocks_setSlot hnone (some t)
  exact hnew.trans (hold.symm.append_left _)

end RunQueue

/-! ### The machine -/

section Machine

variable {w w' : Host} {bs : List Block} {addr order root : ℕ} {s s' : AddressSpace}

theorem held_alloc {res : Option ℕ} (h : buddyAlloc w order = some (res, w'))
    (hbs : Held pageSize w.log bs) :
    Held pageSize w'.log ((res.elim [] fun a => [⟨a, order⟩]) ++ bs) := by
  have hframes := (buddyAlloc_toFrames h).1
  cases res with
  | none =>
    rw [buddyAlloc_none hframes]
    exact hbs
  | some =>
    obtain ⟨-, hfresh, hlog, -⟩ := buddyAlloc_some hframes
    rw [hlog]
    exact hbs.alloc hfresh

theorem held_free (h : buddyFree w addr order = some w') (hbs : Held pageSize w.log (⟨addr, order⟩ :: bs)) :
    Held pageSize w'.log bs := by
  rw [buddyFree_log h]
  exact hbs.free

/-- A page at address `0` is taken for none. -/
theorem held_root (h : allocPageTableRoot w = (root, w')) (hbs : Held pageSize w.log bs) :
    Held pageSize w'.log (rootBlocks root ++ bs) := by
  obtain ⟨rfl, hlog, -⟩ | ⟨hfresh, hlog, -⟩ := allocPageTableRoot_page h
  · rw [hlog]
    exact hbs
  · rw [hlog]
    have hnew := hbs.alloc hfresh
    unfold rootBlocks
    split
    · exact hnew
    · exact hnew.sublist (sublist_cons_self _ _)

/-! ### Address spaces -/

theorem held_drop (h : s.drop w = some w') (hbs : Held pageSize w.log (s.blocks ++ bs)) :
    Held pageSize w'.log bs := by
  have hroot : ((rootBlocks s.pageTableRoot).map Event.free).reverse =
      (rootBlocks s.pageTableRoot).map Event.free := by
    unfold rootBlocks
    split <;> rfl
  have hswap : Held pageSize w.log
      (blocksOf (holdings s.regions) ++ (rootBlocks s.pageTableRoot ++ bs)) := by
    refine hbs.perm ?_
    rw [blocks, append_assoc]
    exact perm_append_comm_assoc _ _ _
  have hall := hswap.freeAll.freeAll
  rw [hroot] at hall
  rw [drop_log h]
  exact hall

theorem held_dropSpace {as : Option AddressSpace} (h : dropSpace w as = some w')
    (hbs : Held pageSize w.log (as.elim [] blocks ++ bs)) : Held pageSize w'.log bs := by
  cases as with
  | none =>
    cases h
    exact hbs
  | some => exact held_drop h hbs

theorem held_map {virt size : ℕ} {flags : PageFlags} {ok : Bool}
    (h : s.map w virt size flags = some (ok, s', w')) (hbs : Held pageSize w.log (s.blocks ++ bs)) :
    Held pageSize w'.log (s'.blocks ++ bs) := by
  rcases map_cases h with
    ⟨-, rfl, rfl | ⟨order, halloc⟩⟩ | ⟨slot, v, n, phys, w₁, hplace, halloc, h⟩
  · exact hbs
  · exact held_alloc halloc hbs
  obtain ⟨-, hslot, -, -, hend, -⟩ := place_spec hplace
  have hnew := held_alloc halloc hbs
  rcases h with ⟨hmap, -, rfl⟩ | ⟨i, w₂, hmap, hfree, -, rfl⟩
  · rw [(mapPages_spec (mapPages_toFrames hmap)).1]
    have hblocks := (blocks_setRegion (eagerRegion v n phys flags) hslot).append_right bs
    rw [append_assoc] at hblocks
    refine Held.perm (Held.sublist hnew (Sublist.append_right ?_ _)) hblocks.symm
    rw [holdings_eagerRegion hend]
    split
    · exact Sublist.refl _
    · exact nil_sublist _
  · refine held_free hfree ?_
    rw [unmapPages_toFrames, unmapPages_log, (mapPages_spec (mapPages_toFrames hmap)).1]
    exact hnew

/-- Building an image. -/
theorem heldRule (bs : List Block) : ImageRule (fun w : Host => Held pageSize w.log bs)
    (fun _ _ _ => True) fun s w => Held pageSize w.log (s.blocks ++ bs) where
  refused hbs h := held_root h hbs
  start hbs h _ := by
    rw [blocks_new]
    exact held_root h hbs
  map _ hbs h := held_map h hbs
  write _ _ hbs := hbs
  heap highest hbs := by
    rw [blocks, Elf.placeHeap_regions, Elf.placeHeap_root]
    exact hbs
  drop hbs h := held_drop h hbs

/-- Cloning an address space: the root goes to the child, or is freed. -/
theorem held_cloneAs {src : AddressSpace} {res : Option AddressSpace}
    (h : cloneAs src root w = some (res, w')) (hbs : Held pageSize w.log (rootBlocks root ++ bs)) :
    Held pageSize w'.log (res.elim [] blocks ++ bs) := by
  obtain ⟨ok, regions, w₁, hslots, hres⟩ := cloneAs_cases h
  obtain ⟨hperf, hperm⟩ := cloneSlots_steps hslots
  have hdst : Held pageSize w₁.log
      (blocks ⟨root, regions, src.heapStart, src.heapEnd⟩ ++ bs) := by
    have hsub : (recordedBlocks (slotSteps root src.regions w)).Sublist
        (stepBlocks (slotSteps root src.regions w)) := filter_sublist.map _
    have hall := hperf.held hbs
    refine ((hall.perm ((reverse_perm _).append_right _)).sublist (hsub.append_right _)).perm ?_
    rw [blocks, append_assoc]
    exact ((blocksOf_perm hperm).symm.append_right _).trans (perm_append_comm_assoc _ _ _)
  obtain ⟨-, rfl, rfl⟩ | ⟨-, rfl, hdrop⟩ := hres
  · exact hdst
  · exact held_drop hdrop hdst

end Machine

/-! ### Tasks -/

namespace Kernel

variable {k k' : Kernel Host} {bs : List Block} {stack order root : ℕ} {errno res : ℤ} {w : Host}

theorem held_obtained (h : k.Obtained stack root w) (hbs : Held pageSize k.w.log bs) :
    Held pageSize w.log (rootBlocks root ++ ⟨stack, stackOrder⟩ :: bs) := by
  obtain ⟨w₁, halloc, hroot⟩ := h
  exact held_root hroot (held_alloc halloc hbs)

end Kernel

end Cyanos
