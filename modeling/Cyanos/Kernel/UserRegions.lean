import Cyanos.Kernel.ImageUpkeep

/-!
# User regions are below the user limit

Every region of a task should be a non-empty range below `USER_SPACE_END`.  `sys_mmap` checks this
for the address it is given.  It does not check the address it falls back to when the given one is
taken, `brk` checks neither that the heap still has a page nor where it ends, and the ELF loader
takes the addresses of the segments from the file.

## Main results

* `Kernel.userRegions_run` : **every region is a non-empty range of user space** in all runs in
  which those three stay in their bounds.
* `Kernel.empty_heap_after_brk` : a run of `brk` calls after which a region is empty.
-/

namespace Cyanos

open Lib Machine AddressSpace Option

/-- A non-empty range below `USER_SPACE_END`. -/
def VmaRegion.InUser (r : VmaRegion) : Prop := r.start < r.end_ ∧ r.end_ ≤ userSpaceEnd

variable {W : Type} [KernelMachine W]

theorem inUser_upkeep :
    ImageUpkeep (W := W) VmaRegion.InUser (fun _ => True) (fun _ => True) where
  alloc _ _ := trivial
  free _ _ := trivial
  zero _ _ _ := trivial
  mapped _ _ _ _ _ := trivial
  unmapped _ := trivial
  flags _ := trivial
  backed _ _ hr := hr
  front hr _ hhi := ⟨hhi, hr.2⟩
  back hr hlo hlt := ⟨hlo, hlt.le.trans hr.2⟩
  protect hr _ := hr
  copied _ := trivial
  written _ := trivial
  rooted _ := trivial

/-! ### Ranges that are placed -/

/-- A range of whole pages from an address in user space on. -/
theorem inUser_of_place {s : AddressSpace} {virt size slot v n : ℕ} {r : VmaRegion}
    (h : s.place virt size = some (slot, v, n)) (hend : virt + size ≤ userSpaceEnd)
    (hd : pageSize ∣ size) (hs : r.start = v) (he : r.end_ = v + n * pageSize) : r.InUser := by
  obtain ⟨hne, -, rfl, rfl, -⟩ := place_spec h
  unfold VmaRegion.InUser
  rw [hs, he]
  simp only [alignDown, wadd, pageSize, userSpaceEnd] at *
  omega

/-! ### Processes -/

namespace Process

variable {p p' : Process W} {addr virt len prot flags fd off : ℕ} {pageFlags : PageFlags}
  {fixed : Bool} {res : ℤ}

/-- Every region of the process is in user space. -/
def InUser (p : Process W) : Prop := p.as.All VmaRegion.InUser

/-- The address that `sys_mmap` falls back to, if it does, is followed by enough user space. -/
abbrev FallbackOk (as : AddressSpace) (bump addr len : ℕ) : Prop :=
  addr ≠ 0 → as.place addr (alignUp len pageSize) = none →
    bump + alignUp len pageSize ≤ userSpaceEnd

/-- A heap that is there keeps at least one page, and ends in user space. -/
def BreakOk (as : AddressSpace) (newEnd : ℕ) : Prop :=
  newEnd ≠ 0 → as.heapStart ≠ 0 → alignUp newEnd pageSize ≤ userSpaceEnd ∧
    (as.heapSlot.isSome → as.heapStart < alignUp newEnd pageSize)

/-- Fallback addresses and breaks stay in their bounds. -/
def RangeGuard (as : AddressSpace) (bump : ℕ) : MemCall → Prop
  | .mmap addr len _ flags _ _ => mapAnonymous flags = true → mapFixed flags = false →
    FallbackOk as bump addr len
  | .mremap _ _ newSize flags newAddr => FallbackOk as bump (mremapTarget flags newAddr) newSize
  | .brk newEnd => BreakOk as newEnd
  | _ => True

instance (as : AddressSpace) (bump : ℕ) (c : MemCall) : Decidable (RangeGuard as bump c) := by
  rcases c <;> dsimp only [RangeGuard, BreakOk] <;> infer_instance

section

variable (h : p.InUser)
include h

section

variable (hd : pageSize ∣ len) (hend : virt + len ≤ userSpaceEnd)
include hd hend

theorem inUser_mmapAnonymous
    (hbump : fixed = false → addr ≠ 0 → p.as.place virt len = none → p.mmapBump + len ≤ userSpaceEnd)
    (hm : p.mmapAnonymous addr virt len pageFlags fixed = some (res, p')) : p'.InUser := by
  refine (upheld_mmapAnonymous inUser_upkeep.toRegionUpkeep ⟨h, trivial⟩ ?_ ?_ hm).1
  · exact fun hplace => inUser_of_place hplace hend hd rfl rfl
  · exact fun hf haddr hnone _ _ _ hplace =>
      inUser_of_place hplace (hbump hf haddr hnone) hd rfl rfl

theorem inUser_mmapFile
    (hm : p.mmapFile virt len prot pageFlags fixed fd off = some (res, p')) : p'.InUser := by
  refine (upheld_mmapFile inUser_upkeep.toRegionUpkeep ⟨h, trivial⟩ ?_ trivial ?_ hm).1
  · exact fun _ => ⟨trivial, trivial⟩
  · exact fun hplace => inUser_of_place hplace hend hd rfl rfl

end

theorem inUser_sysMmap (hg : RangeGuard p.as p.mmapBump (.mmap addr len prot flags fd off))
    (hm : p.sysMmap addr len prot flags fd off = some (res, p')) : p'.InUser := by
  rcases sysMmap_cases hm with ⟨has, -⟩ | ⟨-, -, -, hend, ⟨hanon, hm⟩ | ⟨-, hm⟩⟩
  · rw [InUser, has]
    exact h
  · have h0 : InUser { p with mmapBump := (p.mmapTarget addr len).2 } := h
    refine inUser_mmapAnonymous h0 (dvd_alignUp _ _) hend (fun hf haddr hnone => ?_) hm
    have htarget : p.mmapTarget addr len = (addr, p.mmapBump) := if_pos haddr
    rw [htarget] at hnone ⊢
    exact hg hanon hf haddr hnone
  · have h0 : InUser { p with mmapBump := (p.mmapTarget addr len).2 } := h
    exact inUser_mmapFile h0 (dvd_alignUp _ _) hend hm

theorem inUser_brk {b newEnd : ℕ} {as : AddressSpace} {w : W} (hg : BreakOk p.as newEnd)
    (hb : p.as.brk p.w newEnd = some (b, as, w)) : as.All VmaRegion.InUser := by
  by_cases h0 : newEnd = 0 ∨ p.as.heapStart = 0
  · -- only the break is asked for
    have hsame : p.as.brk p.w newEnd = some (p.as.currentBreak, p.as, p.w) := by
      rcases h0 with h0 | h0
      · rw [brk, if_pos h0]
      · rw [brk, if_pos h0]
        split <;> rfl
    obtain ⟨-, rfl, -⟩ : _ = b ∧ p.as = as ∧ p.w = w := by simpa using hsame.symm.trans hb
    exact h
  obtain ⟨h0, hs0⟩ := not_or.1 h0
  obtain ⟨hend, hslot⟩ := hg h0 hs0
  refine (inUser_upkeep.brk (fun slot v n hplace hlt => ?_) (fun r fs hr hstart => ?_) hb h trivial).1
  · obtain ⟨-, -, rfl, rfl, -⟩ := place_spec hplace
    have hd : pageSize ∣ alignUp newEnd pageSize := dvd_alignUp _ _
    unfold VmaRegion.InUser lazyRegion
    simp only [alignDown, wadd, pageSize, userSpaceEnd] at *
    omega
  · refine ⟨?_, hend⟩
    have hsome : p.as.heapSlot.isSome := by
      rw [heapSlot, List.findIdx?_isSome, List.any_eq_true]
      exact ⟨some r, hr, by simpa using hstart⟩
    exact hstart ▸ hslot hsome

/-- A memory call that stays in its bounds keeps the regions in user space. -/
theorem inUser_memCall {c : MemCall} (hg : RangeGuard p.as p.mmapBump c)
    (hc : p.memCall c = some (res, p')) : p'.InUser := by
  refine (upheld_memCall inUser_upkeep.toRegionUpkeep ⟨h, trivial⟩ hg ?_ ?_ ?_ hc).1
  · exact fun hg _ _ => hg
  · exact fun hg hm => ⟨inUser_sysMmap h hg hm, trivial⟩
  · exact fun hg hb => ⟨inUser_brk h hg hb, trivial⟩

end

end Process

/-! ### The kernel -/

namespace Kernel

/-- Every region of every task is a non-empty range of user space. -/
def InUser (k : Kernel W) : Prop :=
  ∀ t, some t ∈ k.rq.tasks → ∀ s, t.addressSpace = some s → ∀ r, some r ∈ s.regions →
    r.start < r.end_ ∧ r.end_ ≤ userSpaceEnd

/-- All segments of the image end in user space. -/
def ImageInUser (emTarget : ℕ) (image : List UInt8) : Prop :=
  ∀ ph, Elf.IsSegment emTarget image ph → ph.pVaddr + ph.pMemsz ≤ userSpaceEnd

/-- Segments, fallback addresses and breaks stay in their bounds. -/
def RangeGuard (emTarget : ℕ) (k : Kernel W) : Action → Prop
  | .call pid c => ∀ as, (k.rq.findPid pid).bind Task.addressSpace = some as →
    Process.RangeGuard as k.mmapBump c
  | .execve _ image _ => ImageInUser emTarget image
  | .spawnElf image => ImageInUser emTarget image
  | _ => True

instance (emTarget : ℕ) (image : List UInt8) : Decidable (ImageInUser emTarget image) :=
  decidable_of_iff (∀ ph ∈ Elf.segments emTarget image, ph.pVaddr + ph.pMemsz ≤ userSpaceEnd)
    (by simp only [ImageInUser, Elf.isSegment_iff])

instance (emTarget : ℕ) (k : Kernel W) (a : Action) : Decidable (k.RangeGuard emTarget a) := by
  rcases a <;> dsimp only [RangeGuard] <;> infer_instance

/-- A segment that ends in user space is mapped there. -/
theorem mapFits_segment {ph : Elf.Phdr} (hload : ph.Loads)
    (hend : ph.pVaddr + ph.pMemsz ≤ userSpaceEnd) :
    MapFits VmaRegion.InUser (fun _ => True) ph.pageVaddr ph.mapSize ph.flags := by
  refine ⟨trivial, fun s slot v n phys hplace => ?_⟩
  obtain ⟨-, hmem⟩ := hload
  obtain ⟨-, -, rfl, rfl, -⟩ := place_spec hplace
  unfold VmaRegion.InUser eagerRegion
  simp only [Elf.Phdr.mapSize, Elf.Phdr.pageVaddr, alignDown, wadd, pageSize, userSpaceEnd] at *
  omega

omit [KernelMachine W] in
theorem actionFits_inUser {emTarget : ℕ} {k : Kernel W} {a : Action} (hg : k.RangeGuard emTarget a) :
    ActionFits VmaRegion.InUser (fun _ => True) emTarget a := by
  have himage : ∀ image, ImageInUser emTarget image →
      ImageFits VmaRegion.InUser (fun _ => True) emTarget image := by
    intro image hin ph hseg
    obtain ⟨eh, i, -, -, -, hload⟩ := id hseg
    exact mapFits_segment hload (hin ph hseg)
  cases a with
  | execve pid image | spawnElf image =>
    exact ⟨himage image hg, trivial, fun _ _ _ _ _ hplace =>
      inUser_of_place hplace (by decide) (by decide) rfl rfl⟩
  | _ => trivial

/-- **Every region is a non-empty range of user space**, in every run of the kernel from boot in
which segments, fallback addresses and breaks stay in their bounds. -/
theorem userRegions_run {emTarget : ℕ} {w : W} {k : Kernel W}
    (h : Run (step emTarget) (RangeGuard emTarget) (boot w) k) : k.InUser := by
  suffices hkept : k.Kept VmaRegion.InUser fun _ => True from hkept.spaces
  refine h.invariant ⟨fun t ht => ?_, trivial⟩ fun k a k' hk hg hst => ?_
  · cases List.eq_of_mem_replicate ht
  refine kept_step inUser_upkeep hk (actionFits_inUser hg) ?_ hst
  rintro pid c r k' rfl hc
  refine kept_memCall hk (fun _ => trivial) (fun as p r has hp hP _ => ⟨?_, trivial⟩) hc
  have h0 : Process.InUser (⟨as, k.mmapBump, k.w⟩ : Process W) := hP
  exact Process.inUser_memCall h0 (hg as has) hp

/-- A process maps memory twice at one address, so that the second mapping goes elsewhere; it unmaps
a page, and moves its break up and down. -/
def boundedRun : List Action :=
  [.spawnElf Elf.tinyImage, .call 1 (.mmap 0x20000000 0x3000 3 0x22 (2 ^ 64 - 1) 0),
    .call 1 (.mmap 0x20000000 0x1000 3 0x22 (2 ^ 64 - 1) 0), .call 1 (.munmap 0x20001000 0x1000),
    .call 1 (.brk 0x405000), .call 1 (.fault 0x404000), .call 1 (.brk 0x403000)]

theorem userRegions_run_brk : ∃ k : Kernel Host,
    Run (step 183) (RangeGuard 183) (boot Host.roomy) k ∧
      ((k.rq.get 0).bind Task.addressSpace).any (fun s =>
        (s.regions.filterMap id).map (fun r => (r.start, r.end_)) =
          [(0x400000, 0x401000), (0x40000000, 0x40100000), (0x20000000, 0x20001000),
            (0x10000000, 0x10001000), (0x402000, 0x403000)]) ∧ k.InUser :=
  Run.exists_guarded_with boundedRun (by decide +kernel) fun _ hrun _ => userRegions_run hrun

/-- The first process makes a heap of one page, and then moves the break back to where it began. -/
def breakRun : List Action :=
  [.spawnElf Elf.tinyImage, .call 1 (.brk 0x403000), .call 1 (.brk 0x402000)]

/-- The heap's region is left behind, empty. -/
theorem empty_heap_after_brk : ∃ k : Kernel Host,
    Reach (step 183) (boot Host.roomy) k ∧ ¬ k.InUser := by
  obtain ⟨k, hrun, hk⟩ : ∃ k, Reach (step 183) (boot Host.roomy) k ∧
      k.rq.tasks.any fun slot => slot.any fun t => t.addressSpace.any fun s =>
        s.regions.any fun slot => slot.any fun r => r.end_ ≤ r.start :=
    Run.exists_of_foldlM breakRun (by decide +kernel)
  refine ⟨k, hrun, fun hin => ?_⟩
  obtain ⟨slot, hslot, h1⟩ := List.any_eq_true.1 hk
  obtain ⟨t, rfl, h2⟩ := (any_eq_true _ _).1 h1
  obtain ⟨s, hs, h3⟩ := (any_eq_true _ _).1 h2
  obtain ⟨slot, hr, h4⟩ := List.any_eq_true.1 h3
  obtain ⟨r, rfl, h5⟩ := exists_of_any h4
  exact absurd (hin t hslot s hs r hr).1 (not_lt.2 h5)

end Kernel

end Cyanos
