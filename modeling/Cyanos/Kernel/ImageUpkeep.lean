import Cyanos.Kernel.ImageRule
import Cyanos.Kernel.MemorySpec
import Cyanos.Kernel.System
import Cyanos.Mm.RegionUpkeep
import Cyanos.Sched.RunQueue

/-!
# Invariants of the regions of all tasks

The rules of `RegionUpkeep` carried on to everything that builds an address space: the ELF loader,
`execve`, and the clone that `fork` makes.  `Kernel.kept_step` is the resulting rule for the whole
kernel: an action keeps "every region of every task satisfies `P`, and the machine satisfies `J`" if
the memory calls of single processes do and the images that are loaded fit.
-/

namespace Cyanos

open Lib Machine MemMachine Option List RunQueue

variable {W : Type} [KernelMachine W]

/-- The rules for an invariant of the regions and the machine when whole address spaces are
built. -/
structure ImageUpkeep (P : VmaRegion → Prop) (F : PageFlags → Prop) (J : W → Prop) : Prop extends
    RegionUpkeep P F J where
  copied : ∀ {w : W} {src dst n}, J w → J (copyBytes w src dst n)
  written : ∀ {w : W} {addr bytes}, J w → J (writeBytes w addr bytes)
  rooted : ∀ {w : W}, J w → J (allocPageTableRoot w).2

/-- The region that `map` would create satisfies `P`, and its flags are in `F`. -/
def MapFits (P : VmaRegion → Prop) (F : PageFlags → Prop) (virt size : ℕ) (flags : PageFlags) : Prop :=
  F flags ∧ ∀ (s : AddressSpace) (slot v n phys : ℕ), s.place virt size = some (slot, v, n) →
    P (AddressSpace.eagerRegion v n phys flags)

/-- All segments of the image fit. -/
def ImageFits (P : VmaRegion → Prop) (F : PageFlags → Prop) (emTarget : ℕ) (image : List UInt8) :
    Prop :=
  ∀ ph, Elf.IsSegment emTarget image ph → MapFits P F ph.pageVaddr ph.mapSize ph.flags

namespace ImageUpkeep

variable {P : VmaRegion → Prop} {F : PageFlags → Prop} {J : W → Prop} {s s' : AddressSpace}
  {w w' : W} {root emTarget : ℕ} {image bytes : List UInt8} (U : ImageUpkeep P F J) {ok : Bool}
include U

/-! ### Clones -/

theorem cloneLazy {r dst dst' : VmaRegion} {i : ℕ} {fs : List ℕ}
    (h : cloneLazy root r i fs dst w = some (ok, dst', w')) (hr : P r) (hd : P dst)
    (hJ : J w) : P dst' ∧ J w' := by
  induction fs generalizing i dst w with
  | nil =>
    cases h
    exact ⟨hd, hJ⟩
  | cons f fs ih =>
    by_cases hf : f = 0
    · rw [cloneLazy, if_pos hf] at h
      exact ih h hd hJ
    obtain ⟨-, rfl, halloc⟩ | ⟨a, w₁, w₂, halloc, rfl, hrest⟩ := cloneLazy_cons h hf
    · exact ⟨hd, U.alloc halloc hJ⟩
    · exact ih hrest (U.backed dst.phys _ hd)
        (U.mapped _ _ _ (U.flags hr) (U.copied (U.alloc halloc hJ)))

theorem mapAll {virt phys n : ℕ} {flags : PageFlags} (hF : F flags)
    (hJ : J w) : J (mapAll root virt phys flags n w) := by
  unfold Cyanos.mapAll
  induction n with
  | zero => exact hJ
  | succ n ih =>
    rw [range_succ, foldl_append, foldl_cons, foldl_nil]
    exact U.mapped _ _ _ hF ih

theorem cloneRegion {r dst : VmaRegion} (h : cloneRegion root r w = some (ok, dst, w'))
    (hr : P r) (hJ : J w) : P dst ∧ J w' := by
  have hd : P { r with phys := 0, lazyPages := [] } := U.backed _ _ hr
  obtain ⟨-, hlazy⟩ | ⟨-, -, -, rfl, rfl⟩ | ⟨-, -, -, rfl, halloc⟩ |
    ⟨-, -, -, a, w₁, halloc, rfl, rfl⟩ := cloneRegion_cases h
  · exact U.cloneLazy hlazy hr hd hJ
  · exact ⟨hd, hJ⟩
  · exact ⟨hd, U.alloc halloc hJ⟩
  · exact ⟨U.backed _ _ hr, U.mapAll (U.flags hr) (U.copied (U.alloc halloc hJ))⟩

theorem cloneSlots {slots slots' : List (Option VmaRegion)}
    (h : cloneSlots root slots w = some (ok, slots', w')) (hP : ∀ r, some r ∈ slots → P r)
    (hJ : J w) : (∀ r, some r ∈ slots' → P r) ∧ J w' := by
  induction slots generalizing ok slots' w with
  | nil =>
    cases h
    exact ⟨hP, hJ⟩
  | cons slot slots ih =>
    have hrest : ∀ r, some r ∈ slots → P r := fun r hr => hP r (.tail _ hr)
    cases slot with
    | none =>
      obtain ⟨rest, h1, rfl⟩ := cloneSlots_cons_none h
      obtain ⟨hP1, hJ1⟩ := ih h1 hrest hJ
      exact ⟨fun r hr => hP1 r (by simpa using hr), hJ1⟩
    | some r =>
      obtain ⟨d, hregion, -, rfl⟩ | ⟨d, w₁, rest, hregion, h1, rfl⟩ := cloneSlots_cons_some h
      · obtain ⟨hd, hJ1⟩ := U.cloneRegion hregion (hP r (.head _)) hJ
        refine ⟨fun r' hr' => ?_, hJ1⟩
        rcases mem_cons.1 hr' with hr' | hr'
        · exact some.inj hr' ▸ hd
        · cases eq_of_mem_replicate hr'
      · obtain ⟨hd, hJ1⟩ := U.cloneRegion hregion (hP r (.head _)) hJ
        obtain ⟨hP2, hJ2⟩ := ih h1 hrest hJ1
        refine ⟨fun r' hr' => ?_, hJ2⟩
        rcases mem_cons.1 hr' with hr' | hr'
        · exact some.inj hr' ▸ hd
        · exact hP2 r' hr'

theorem cloneAs {res : Option AddressSpace}
    (h : cloneAs s root w = some (res, w')) (hP : s.All P) (hJ : J w) :
    (∀ dst, res = some dst → dst.All P) ∧ J w' := by
  obtain ⟨ok, regions, w₁, hslots, hres⟩ := cloneAs_cases h
  obtain ⟨hP1, hJ1⟩ := U.cloneSlots hslots hP hJ
  obtain ⟨-, rfl, rfl⟩ | ⟨-, rfl, hdrop⟩ := hres
  · refine ⟨?_, hJ1⟩
    rintro _ ⟨⟩
    exact hP1
  · exact ⟨nofun, U.drop hdrop hJ1⟩

/-! ### Images -/

theorem map {virt size : ℕ} {flags : PageFlags} (hfit : MapFits P F virt size flags)
    (h : s.map w virt size flags = some (ok, s', w')) (hP : s.All P) (hJ : J w) : s'.All P ∧ J w' :=
  U.toRegionUpkeep.map hfit.1 (fun slot v n phys hplace => hfit.2 s slot v n phys hplace) h hP hJ

/-- The invariant as a property of an address space under construction. -/
theorem imageRule :
    ImageRule J (MapFits P F) fun s w => s.All P ∧ J w where
  refused hJ h := by
    have := U.rooted hJ
    rwa [h] at this
  start hJ h _ := by
    have := U.rooted hJ
    rw [h] at this
    exact ⟨AddressSpace.all_new _, this⟩
  map hfit hs h := U.map hfit h hs.1 hs.2
  write _ _ hs := ⟨hs.1, U.written hs.2⟩
  heap highest hs := ⟨fun r hr => hs.1 r (by simpa using hr), hs.2⟩
  drop hs h := U.drop h hs.2

omit U [KernelMachine W] in
/-- The outcome of building an image. -/
theorem of_built {α : Type} {res : Except α AddressSpace}
    (h : Built J (fun s w => s.All P ∧ J w) w res) : (∀ as, res = .ok as → as.All P) ∧ J w := by
  cases res with
  | error => exact ⟨nofun, h⟩
  | ok =>
    refine ⟨?_, h.2⟩
    rintro _ ⟨⟩
    exact h.1

end ImageUpkeep

/-! ### Memory calls -/

namespace Process

open FileMachine AddressSpace

variable {p p' : Process W} {addr virt len prot fd off : ℕ} {pageFlags : PageFlags} {fixed : Bool}
  {res : ℤ} {P : VmaRegion → Prop} {F : PageFlags → Prop} {J : W → Prop}

/-- Every region satisfies `P`, and the machine `J`. -/
def Upheld (P : VmaRegion → Prop) (J : W → Prop) (p : Process W) : Prop := p.as.All P ∧ J p.w

theorem upheld_unmapFixed (U : CutUpkeep P J) (h : p.Upheld P J)
    (hu : p.unmapFixed fixed virt len = some p') : p'.Upheld P J := by
  unfold unmapFixed at hu
  split at hu
  · obtain ⟨⟨as, w⟩, hop, rfl⟩ := map_eq_some_iff.1 hu
    exact U.unmapRange hop h.1 h.2
  · cases hu
    exact h

variable (U : RegionUpkeep P F J) (h : p.Upheld P J)
include U h

theorem upheld_sysMprotect (hm : p.sysMprotect addr len prot = some (res, p')) : p'.Upheld P J := by
  rcases sysMprotect_cases hm with ⟨rfl, -⟩ | ⟨-, ok, as, w, hop, rfl⟩
  · exact h
  · exact U.mprotect hop h.1 h.2

theorem upheld_mmapAnonymous
    (hnew : ∀ {s : AddressSpace} {slot v n}, s.place virt len = some (slot, v, n) →
      P (lazyRegion v n pageFlags))
    (hbump : fixed = false → addr ≠ 0 → p.as.place virt len = none →
      ∀ {slot v n}, p.as.place p.mmapBump len = some (slot, v, n) → P (lazyRegion v n pageFlags))
    (hm : p.mmapAnonymous addr virt len pageFlags fixed = some (res, p')) : p'.Upheld P J := by
  obtain ⟨p₁, ok, as, hfix, hcase⟩ := mmapAnonymous_cases hm
  have h1 := upheld_unmapFixed U.toCutUpkeep h hfix
  rcases hcase with ⟨hmap, rfl⟩ | ⟨rfl, haddr, hnone, hmap, rfl⟩
  · exact ⟨h1.1.mapLazy (fun _ _ _ => hnew) hmap, h1.2⟩
  · cases hfix
    exact ⟨h1.1.mapLazy (fun _ _ _ => hbump rfl haddr hnone) hmap, h1.2⟩

theorem upheld_mmapFile
    (hfile : ∀ {w : W} {x y}, J w → J (vfsLseek w fd x).2 ∧ J (vfsRead w fd x y).2)
    (hF : F { pageFlags with writable := true })
    (hnew : ∀ {s : AddressSpace} {slot v n phys}, s.place virt len = some (slot, v, n) →
      P (eagerRegion v n phys { pageFlags with writable := true }))
    (hm : p.mmapFile virt len prot pageFlags fixed fd off = some (res, p')) : p'.Upheld P J := by
  have h0 : Upheld P J { p with w := (p.mmapSeek fd off).2 } := by
    refine ⟨h.1, ?_⟩
    unfold mmapSeek
    split
    · exact (hfile (y := 0) h.2).1
    · exact h.2
  rcases mmapFile_cases hm with rfl | ⟨p₁, ok, as, w, hfix, hmap, hcase⟩
  · exact h0
  have h1 := upheld_unmapFixed U.toCutUpkeep h0 hfix
  have h2 := U.map hF (fun _ _ _ _ => hnew) hmap h1.1 h1.2
  rcases hcase with ⟨-, rfl⟩ | ⟨vma, -, -, hcase⟩
  · exact h2
  have h3 : Upheld P J { p₁ with as := as, w := (vfsRead w fd vma.phys len).2 } :=
    ⟨h2.1, (hfile h2.2).2⟩
  rcases hcase with ⟨-, hun⟩ | ⟨-, rfl⟩ | ⟨-, m, hpr⟩
  · exact upheld_unmapFixed U.toCutUpkeep h3 hun
  · exact h3
  · exact upheld_sysMprotect U h3 hpr

/-- A memory call keeps the invariant if `sys_mmap` and `brk` do under a guard. -/
theorem upheld_memCall {c : MemCall} {G : MemCall → Prop} (hg : G c)
    (hremap : ∀ {x y newSize flags newAddr}, G (.mremap x y newSize flags newAddr) →
      G (.mmap (mremapTarget flags newAddr) newSize 3 0x22 (2 ^ 64 - 1) 0))
    (hmmap : ∀ {addr len prot flags fd off r p₁}, G (.mmap addr len prot flags fd off) →
      p.sysMmap addr len prot flags fd off = some (r, p₁) → p₁.Upheld P J)
    (hbrk : ∀ {newEnd b as w}, G (.brk newEnd) → p.as.brk p.w newEnd = some (b, as, w) →
      as.All P ∧ J w)
    (hc : p.memCall c = some (res, p')) : p'.Upheld P J := by
  cases c with
  | mmap => exact hmmap hg hc
  | munmap =>
    rcases sysUnmapMem_cases hc with rfl | ⟨-, -, hu⟩
    · exact h
    · exact upheld_unmapFixed U.toCutUpkeep h hu
  | mremap =>
    rcases sysMremap_cases hc with rfl | ⟨-, hu⟩ | ⟨-, r, p₁, hm, hu⟩
    · exact h
    · exact upheld_unmapFixed U.toCutUpkeep h hu
    · have h1 := hmmap (hremap hg) hm
      rcases hu with rfl | ⟨-, hu⟩
      · exact h1
      · exact upheld_unmapFixed U.toCutUpkeep h1 hu
  | mprotect => exact upheld_sysMprotect U h hc
  | brk =>
    obtain ⟨⟨b, as, w⟩, hop, hc⟩ := bind_eq_some_iff.1 hc
    cases hc
    exact hbrk hg hop
  | fault =>
    obtain ⟨⟨ok, p₁⟩, hfault, hc⟩ := map_eq_some_iff.1 hc
    cases hc
    obtain ⟨⟨ok, as, w⟩, hop, hfault⟩ := bind_eq_some_iff.1 hfault
    cases hfault
    exact U.handleUserPageFault hop h.1 h.2

end Process

/-! ### The kernel -/

namespace Kernel

variable {P : VmaRegion → Prop} {F : PageFlags → Prop} {J : W → Prop} {k k' : Kernel W}
  {emTarget : ℕ} {r : ℤ} {pid : ℕ}

/-- Every region of every task satisfies `P`, and the machine satisfies `J`. -/
structure Kept (P : VmaRegion → Prop) (J : W → Prop) (k : Kernel W) : Prop where
  spaces : ∀ t, some t ∈ k.rq.tasks → ∀ s, t.addressSpace = some s → s.All P
  machine : J k.w

/-- The task's address space satisfies `P`. -/
def SpaceOk (P : VmaRegion → Prop) (t : Task) : Prop := ∀ s, t.addressSpace = some s → s.All P

omit [KernelMachine W] in
theorem Kept.findPid (h : k.Kept P J) {t : Task} (ht : k.rq.findPid pid = some t) :
    SpaceOk P t := by
  obtain ⟨idx, -, hget⟩ := findPid_eq_some.1 ht
  exact h.spaces t (mem_of_get hget)

omit [KernelMachine W] in
theorem Kept.modifyPid (h : k.Kept P J) {f : Task → Task} (hq : k'.rq = k.rq.modifyPid pid f)
    (hf : ∀ t, k.rq.findPid pid = some t → SpaceOk P (f t)) (hJ : J k'.w) : k'.Kept P J := by
  refine ⟨fun t ht => ?_, hJ⟩
  rw [hq] at ht
  rcases mem_modifyPid ht with ht | ⟨u, hu, rfl⟩
  · exact h.spaces t ht
  · exact hf u hu

omit [KernelMachine W] in
theorem Kept.enqueue (h : k.Kept P J) {task : Task} (hq : k.rq.enqueue task = some k'.rq)
    (ht : SpaceOk P task) (hJ : J k'.w) : k'.Kept P J := by
  refine ⟨fun t htm => ?_, hJ⟩
  rcases mem_enqueue hq htm with htm | rfl
  · exact h.spaces t htm
  · exact ht

section

variable (U : ImageUpkeep P F J) {res : ℤ} {w : W}
include U

theorem kept_undo (h : k.Kept P J) {stack order root : ℕ} {errno : ℤ}
    (hu : k.undo stack order root errno = some (res, k')) : k'.Kept P J := by
  obtain ⟨w₁, h1, hu⟩ := bind_eq_some_iff.1 hu
  obtain ⟨w₂, h2, hu⟩ := bind_eq_some_iff.1 hu
  cases hu
  exact ⟨h.spaces, U.free h2 (U.free h1 h.machine)⟩

theorem kept_obtained (h : k.Kept P J) {stack root : ℕ} (ho : k.Obtained stack root w) : J w := by
  obtain ⟨w₁, halloc, hroot⟩ := ho
  have := U.rooted (U.zero stack (pageSize * 2 ^ stackOrder) (U.alloc halloc h.machine))
  rwa [hroot] at this

theorem kept_cloning (h : k.Kept P J) {pid stack root : ℕ} {dst : Option AddressSpace}
    (hc : k.Cloning pid stack root dst w) : (∀ s, dst = some s → s.All P) ∧ J w := by
  obtain ⟨w₀, t, as, ho, -, ht, has, hclone⟩ := hc
  exact U.cloneAs hclone (h.findPid ht _ has) (kept_obtained U h ho)

theorem kept_forkCurrent (h : k.Kept P J) {framePtr pid : ℕ}
    (hf : k.forkCurrent k.rq framePtr pid = some (res, k')) : k'.Kept P J := by
  obtain ⟨-, -, rfl⟩ | ⟨-, -, hout, -⟩ := forkWith_cases hf
  · exact h
  cases hout with
  | noStack halloc => exact ⟨h.spaces, U.alloc halloc h.machine⟩
  | noRoot ho hfree => exact ⟨h.spaces, U.free hfree (kept_obtained U h ho)⟩
  | noSpace ho _ _ hundo =>
    refine kept_undo U ?_ hundo
    exact ⟨h.spaces, kept_obtained U h ho⟩
  | noMemory hc hundo =>
    refine kept_undo U ?_ hundo
    exact ⟨h.spaces, (kept_cloning U h hc).2⟩
  | vanished hc hgone => exact absurd hgone hc.found
  | full hc _ hdrop hundo =>
    refine kept_undo U ?_ hundo
    exact ⟨h.spaces, U.drop hdrop (kept_cloning U h hc).2⟩
  | forked hc hparent hq =>
    obtain ⟨hdst, hJ⟩ := kept_cloning U h hc
    refine h.enqueue hq ?_ hJ
    rintro s ⟨⟩
    exact hdst _ rfl

theorem kept_stored {w' : W} (h : Stored w w') (hJ : J w) : J w' := by
  obtain rfl | ⟨phys, bytes, rfl⟩ := h
  · exact hJ
  · exact U.written hJ

theorem kept_cloneThread (h : k.Kept P J) {framePtr pid : ℕ} {args : CloneArgs}
    (hc : k.cloneThread framePtr pid args = some (res, k')) : k'.Kept P J := by
  obtain ⟨-, rfl⟩ | hout := cloneThread_cases hc
  · exact h
  cases hout with
  | noStack halloc => exact ⟨h.spaces, U.alloc halloc h.machine⟩
  | noParent halloc hfree =>
    exact ⟨h.spaces, U.free hfree (U.zero _ _ (U.alloc halloc h.machine))⟩
  | full halloc hstored hfree =>
    have hJ := kept_stored U hstored (U.zero _ _ (U.alloc halloc h.machine))
    exact ⟨h.spaces, U.free hfree hJ⟩
  | cloned halloc ht hstored hq =>
    refine h.enqueue hq ?_ (kept_stored U hstored (U.zero _ _ (U.alloc halloc h.machine)))
    rintro s ⟨⟩

theorem kept_spawn (h : k.Kept P J) {res : Option ℕ}
    (hs : k.spawn = some (res, k')) : k'.Kept P J := by
  obtain ⟨w, halloc, rfl⟩ | ⟨stack, w, halloc, ⟨rq, hq, rfl⟩ | ⟨w', hfree, rfl⟩⟩ := spawn_cases hs
  · exact ⟨h.spaces, U.alloc halloc h.machine⟩
  · refine h.enqueue hq ?_ (U.alloc halloc h.machine)
    rintro s ⟨⟩
  · exact ⟨h.spaces, U.free hfree (U.alloc halloc h.machine)⟩

theorem kept_spawnUser (h : k.Kept P J) {as : AddressSpace} {res : Option ℕ}
    (has : as.All P) (hs : k.spawnUserWithAddressSpace as = some (res, k')) : k'.Kept P J := by
  obtain ⟨w, w', halloc, hdrop, rfl⟩ | ⟨stack, w, halloc, ⟨rq, hq, rfl⟩ | ⟨w₁, w', hdrop, hfree, rfl⟩⟩ :=
    spawnUser_cases hs
  · exact ⟨h.spaces, U.drop hdrop (U.alloc halloc h.machine)⟩
  · refine h.enqueue hq ?_ (U.alloc halloc h.machine)
    rintro s ⟨⟩
    exact has
  · exact ⟨h.spaces, U.free hfree (U.drop hdrop (U.alloc halloc h.machine))⟩

theorem kept_dropSpace {w' : W} {s : Option AddressSpace} (h : dropSpace w s = some w')
    (hJ : J w) : J w' := by
  cases s with
  | none => cases h; exact hJ
  | some => exact U.drop h hJ

/-- The images an action loads fit, and so do the stacks. -/
def ActionFits (P : VmaRegion → Prop) (F : PageFlags → Prop) (emTarget : ℕ) : Action → Prop
  | .execve _ image _ => ImageFits P F emTarget image ∧
    MapFits P F (userStackTop - userStackSize) userStackSize (.ofUser true false)
  | .spawnElf image => ImageFits P F emTarget image ∧ MapFits P F 0x40000000 0x100000 (.ofUser true false)
  | _ => True

/-- **An invariant of regions is kept by every action** whose images fit, if the memory calls keep
it. -/
theorem kept_step {a : Action} (h : k.Kept P J)
    (hfit : ActionFits P F emTarget a)
    (hcall : ∀ pid c r k', a = .call pid c → k.memCall pid c = some (r, k') → k'.Kept P J)
    (hst : k.step emTarget a = some k') : k'.Kept P J := by
  cases a with
  | call pid c =>
    obtain ⟨-, r, hc⟩ := of_live hst
    exact hcall pid c r k' rfl hc
  | execve =>
    obtain ⟨-, r, hc⟩ := of_live hst
    obtain ⟨errno, w, hb, rfl⟩ | ⟨as, w₁, w₂, hb, hdrop, rfl⟩ := sysExecve_cases hc
    · exact ⟨h.spaces, U.imageRule.buildImage hfit.1 hfit.2 hb h.machine⟩
    · obtain ⟨hP, hJ⟩ := ImageUpkeep.of_built (U.imageRule.buildImage hfit.1 hfit.2 hb h.machine)
      refine h.modifyPid rfl (fun t _ => ?_) (kept_dropSpace U hdrop hJ)
      rintro s ⟨⟩
      exact hP as rfl
  | fork =>
    obtain ⟨-, r, hc⟩ := of_live hst
    exact kept_forkCurrent U h hc
  | cloneThread =>
    obtain ⟨-, r, hc⟩ := of_live hst
    exact kept_cloneThread U h hc
  | exit =>
    simp only [step] at hst
    split at hst
    · cases hst
      refine h.modifyPid rfl (fun t ht => ?_) h.machine
      exact fun s hs => h.findPid ht s hs
    · cases hst
  | spawn =>
    obtain ⟨⟨r, k₁⟩, hc, rfl⟩ := map_eq_some_iff.1 hst
    exact kept_spawn U h hc
  | spawnElf =>
    obtain ⟨⟨r, k₁⟩, hc, rfl⟩ := map_eq_some_iff.1 hst
    obtain ⟨⟨res, w₁⟩, hb, hc⟩ := bind_eq_some_iff.1 hc
    obtain ⟨hP, hJ⟩ := ImageUpkeep.of_built (U.imageRule.buildInit hfit.1 hfit.2 hb h.machine)
    cases res with
    | error =>
      cases hc
      exact ⟨h.spaces, hJ⟩
    | ok as =>
      have hk1 : Kept P J ({ k with w := w₁ } : Kernel W) := ⟨h.spaces, hJ⟩
      exact kept_spawnUser U hk1 (hP as rfl) hc
  | reap =>
    obtain rfl | ⟨t, w₁, w₂, -, -, hdrop, hfree, rfl⟩ := reap_cases hst
    · exact h
    · exact ⟨fun t ht => h.spaces t (mem_remove ht),
        U.free hfree (kept_dropSpace U hdrop h.machine)⟩

end

omit [KernelMachine W] in
theorem spec_of_same {e : ℤ} (hJ : J k.w) (h : (e, k) = (r, k')) : k'.rq = k.rq ∧ J k'.w := by
  cases h
  exact ⟨rfl, hJ⟩

section

variable (hseek : ∀ {w : W} {fd off}, J w → J (FileMachine.vfsLseek w fd off).2) (hJ : J k.w)
include hseek hJ

theorem mapWithoutSpace_spec {virt len flags fd off : ℕ}
    (h : k.mapWithoutSpace virt len flags fd off = (r, k')) : k'.rq = k.rq ∧ J k'.w := by
  unfold mapWithoutSpace at h
  split at h
  · exact spec_of_same hJ h
  split at h
  · exact spec_of_same hJ h
  split at h
  · exact spec_of_same hJ h
  have hseek1 : J (if off ≠ 0 then FileMachine.vfsLseek k.w fd off else (0, k.w)).2 := by
    split
    · exact hseek hJ
    · exact hJ
  obtain ⟨-, hk⟩ := Prod.mk.inj h
  rw [← hk]
  exact ⟨rfl, hseek1⟩

theorem mmapWithoutSpace_spec {addr len prot flags fd off : ℕ}
    (h : k.mmapWithoutSpace addr len prot flags fd off = (r, k')) : k'.rq = k.rq ∧ J k'.w := by
  unfold mmapWithoutSpace at h
  split at h
  · exact spec_of_same hJ h
  split at h
  · exact spec_of_same hJ h
  split at h
  · exact spec_of_same hJ h
  split at h
  · exact spec_of_same hJ h
  split at h
  · exact mapWithoutSpace_spec hseek hJ h
  · exact mapWithoutSpace_spec (k := { k with mmapBump := wadd k.mmapBump (alignUp len pageSize) })
      hseek hJ h

theorem withoutSpace_spec {c : MemCall}
    (h : k.withoutSpace c = (r, k')) : k'.rq = k.rq ∧ J k'.w := by
  cases c with
  | mmap => exact mmapWithoutSpace_spec hseek hJ h
  | munmap =>
    simp only [withoutSpace] at h
    split at h
    · exact spec_of_same hJ h
    · split at h <;> exact spec_of_same hJ h
  | mremap =>
    simp only [withoutSpace] at h
    split at h
    · exact spec_of_same hJ h
    · exact mmapWithoutSpace_spec hseek hJ h
  | mprotect =>
    simp only [withoutSpace] at h
    split at h <;> exact spec_of_same hJ h
  | brk | fault => exact spec_of_same hJ h

end

/-- A memory call keeps the invariant if it does so for the process that makes it. -/
theorem kept_memCall {c : MemCall} (h : k.Kept P J)
    (hseek : ∀ {w : W} {fd off}, J w → J (FileMachine.vfsLseek w fd off).2)
    (hproc : ∀ as p r, (k.rq.findPid pid).bind Task.addressSpace = some as →
      Process.memCall ⟨as, k.mmapBump, k.w⟩ c = some (r, p) → as.All P → J k.w → p.as.All P ∧ J p.w)
    (hc : k.memCall pid c = some (r, k')) : k'.Kept P J := by
  unfold memCall at hc
  split at hc
  · next hnone =>
    obtain ⟨hrq, hJ⟩ := withoutSpace_spec hseek h.machine (some.inj hc)
    exact ⟨fun t ht => h.spaces t (hrq ▸ ht), hJ⟩
  · next as has =>
    obtain ⟨⟨r, p⟩, hp, hc⟩ := bind_eq_some_iff.1 hc
    cases hc
    obtain ⟨t, ht, hts⟩ := bind_eq_some_iff.1 has
    obtain ⟨hP, hJ⟩ := hproc as p r has hp (h.findPid ht as hts) h.machine
    refine h.modifyPid rfl (fun t _ => ?_) hJ
    rintro s ⟨⟩
    exact hP

end Kernel

end Cyanos
