import Cyanos.Kernel.Memory
import Cyanos.Mm.Upkeep

/-!
# What the memory system calls do

The outcomes of `sys_mmap` and the other calls in terms of the operations of the memory manager,
and from them the rule for invariants of what a process holds.

## Main results

* `Process.sysMmap_cases`, `Process.sysMremap_cases` : the outcomes of the two calls.
* `Process.kept_memStep` : a call that stays in `Q` and cuts eager regions as `C` allows keeps
  every invariant that has its upkeep.
-/

namespace Cyanos

open Lib Machine FileMachine AddressSpace Option

namespace Process

variable {W : Type} [FileMachine W] {p p' : Process W} {addr virt len prot flags fd off : ℕ}
  {pageFlags : PageFlags} {fixed : Bool} {res : ℤ}

/-! ### Outcomes -/

/-- Where `sys_mmap` maps: the address and the bump counter afterwards. -/
def mmapTarget (p : Process W) (addr len : ℕ) : ℕ × ℕ :=
  if addr ≠ 0 then (addr, p.mmapBump) else (p.mmapBump, wadd p.mmapBump (alignUp len pageSize))

/-- The outcomes of `sys_mmap`: it fails its checks, or it maps a range of user space. -/
theorem sysMmap_cases (h : p.sysMmap addr len prot flags fd off = some (res, p')) :
    (p'.as = p.as ∧ p'.w = p.w ∧ res = -22) ∨
    alignUp len pageSize ≤ mapMaxBytes ∧ ¬ (protToPageFlags prot).WX ∧
      ¬ (mapFixed flags = true ∧ addr = 0) ∧
      (p.mmapTarget addr len).1 + alignUp len pageSize ≤ userSpaceEnd ∧
      ((mapAnonymous flags = true ∧
        mmapAnonymous { p with mmapBump := (p.mmapTarget addr len).2 } addr
          (p.mmapTarget addr len).1 (alignUp len pageSize) (protToPageFlags prot) (mapFixed flags) =
            some (res, p')) ∨
      (mapAnonymous flags = false ∧
        mmapFile { p with mmapBump := (p.mmapTarget addr len).2 }
          (p.mmapTarget addr len).1 (alignUp len pageSize) prot (protToPageFlags prot)
            (mapFixed flags) fd off = some (res, p'))) := by
  have hfail : some (-22, p) = some (res, p') → p'.as = p.as ∧ p'.w = p.w ∧ res = -22 := by
    rintro ⟨⟩
    exact ⟨rfl, rfl, rfl⟩
  unfold sysMmap at h
  split at h
  · exact .inl (hfail h)
  simp only at h
  split at h
  · exact .inl (hfail h)
  next hmax =>
  split at h
  · exact .inl (hfail h)
  next hwx =>
  split at h
  · exact .inl (hfail h)
  next hfix =>
  have htarget : (if addr ≠ 0 then (addr, p) else
      (p.mmapBump, { p with mmapBump := wadd p.mmapBump (alignUp len pageSize) })) =
        ((p.mmapTarget addr len).1, { p with mmapBump := (p.mmapTarget addr len).2 }) := by
    unfold mmapTarget
    split <;> rfl
  rw [htarget] at h
  split at h
  · cases h
    exact .inl ⟨rfl, rfl, rfl⟩
  next e he =>
  obtain ⟨-, rfl⟩ := checkedAdd_eq_some.1 he
  split at h
  · cases h
    exact .inl ⟨rfl, rfl, rfl⟩
  next hend =>
  refine .inr ⟨by omega, hwx, hfix, by omega, ?_⟩
  split at h
  · next ha => exact .inl ⟨ha, h⟩
  · next ha => exact .inr ⟨by simpa using ha, h⟩

/-- The outcomes of the anonymous branch: a lazy region at the address asked for, or at the bump
address. -/
theorem mmapAnonymous_cases
    (h : p.mmapAnonymous addr virt len pageFlags fixed = some (res, p')) :
    ∃ p₁ ok as, p.unmapFixed fixed virt len = some p₁ ∧
      ((p₁.as.mapLazy virt len pageFlags = (ok, as) ∧ p' = { p₁ with as := as }) ∨
      (fixed = false ∧ addr ≠ 0 ∧ p₁.as.place virt len = none ∧
        p₁.as.mapLazy p₁.mmapBump len pageFlags = (ok, as) ∧
        p' = { p₁ with as := as, mmapBump := wadd p₁.mmapBump len })) := by
  obtain ⟨p₁, hfix, h⟩ := bind_eq_some_iff.1 h
  simp only at h
  split at h
  · next as hmap =>
    cases h
    exact ⟨p₁, true, as, hfix, .inl ⟨hmap, rfl⟩⟩
  · next as hmap =>
    split at h
    · next hhint =>
      -- a mapping that failed has left the regions alone
      obtain ⟨rfl, hnone⟩ := mapLazy_false hmap
      split at h
      all_goals
        next as hmap =>
        cases h
        exact ⟨p₁, _, as, hfix, .inr ⟨by simpa using hhint.1, hhint.2, hnone, hmap, rfl⟩⟩
    · cases h
      exact ⟨p₁, false, as, hfix, .inl ⟨hmap, rfl⟩⟩

/-- The machine after the seek of the file-backed branch. -/
def mmapSeek (p : Process W) (fd off : ℕ) : ℤ × W :=
  if off ≠ 0 then vfsLseek p.w fd off else (0, p.w)

/-- The outcomes of the file-backed branch. -/
theorem mmapFile_cases (h : p.mmapFile virt len prot pageFlags fixed fd off = some (res, p')) :
    p' = { p with w := (p.mmapSeek fd off).2 } ∨
    ∃ p₁ ok as w, unmapFixed { p with w := (p.mmapSeek fd off).2 } fixed virt len = some p₁ ∧
      p₁.as.map p₁.w virt len { pageFlags with writable := true } = some (ok, as, w) ∧
      (((ok = false ∨ as.find virt = none) ∧ p' = { p₁ with as := as, w := w }) ∨
      ∃ vma, ok = true ∧ as.find virt = some vma ∧
        (((vfsRead w fd vma.phys len).1 < 0 ∧
          unmap { p₁ with as := as, w := (vfsRead w fd vma.phys len).2 } virt len = some p') ∨
        (pageFlags.writable = true ∧ p' = { p₁ with as := as, w := (vfsRead w fd vma.phys len).2 }) ∨
        (pageFlags.writable = false ∧ ∃ n,
          sysMprotect { p₁ with as := as, w := (vfsRead w fd vma.phys len).2 } virt len prot =
            some (n, p')))) := by
  unfold mmapFile at h
  have hseek : (if off ≠ 0 then vfsLseek p.w fd off else (0, p.w)) =
      ((p.mmapSeek fd off).1, (p.mmapSeek fd off).2) := rfl
  rw [hseek] at h
  simp only at h
  split at h
  · cases h
    exact .inl rfl
  obtain ⟨p₁, hfix, h⟩ := bind_eq_some_iff.1 h
  obtain ⟨⟨ok, as, w⟩, hmap, h⟩ := bind_eq_some_iff.1 h
  refine .inr ⟨p₁, ok, as, w, hfix, hmap, ?_⟩
  split at h
  · next hnone =>
    cases h
    refine .inl ⟨?_, rfl⟩
    cases ok with
    | false => exact .inl rfl
    | true => exact .inr (by simpa using hnone)
  next phys hphys =>
  obtain ⟨hok, vma, hfind, rfl⟩ : ok = true ∧ ∃ vma, as.find virt = some vma ∧ vma.phys = phys := by
    cases ok with
    | false => cases hphys
    | true => exact ⟨rfl, map_eq_some_iff.1 hphys⟩
  refine .inr ⟨vma, hok, hfind, ?_⟩
  split at h
  · next hneg =>
    obtain ⟨⟨as', w'⟩, hun, h⟩ := bind_eq_some_iff.1 h
    cases h
    refine .inl ⟨hneg, ?_⟩
    simp only [unmap, unmapFixed, if_true, hun, map_some]
  · split at h
    · next hw =>
      cases h
      exact .inr (.inl ⟨hw, rfl⟩)
    · next hw =>
      obtain ⟨⟨n, p₂⟩, hprot, h⟩ := bind_eq_some_iff.1 h
      cases h
      exact .inr (.inr ⟨by simpa using hw, n, hprot⟩)

/-- The outcomes of `sys_mprotect`. -/
theorem sysMprotect_cases (h : p.sysMprotect addr len prot = some (res, p')) :
    (p' = p ∧ (addr = 0 ∨ len = 0)) ∨ addr ≠ 0 ∧ ∃ ok as w,
      p.as.mprotect p.w addr len prot = some (ok, as, w) ∧ p' = { p with as := as, w := w } := by
  unfold sysMprotect at h
  split at h
  · next h0 =>
    cases h
    exact .inl ⟨rfl, h0⟩
  · next h0 =>
    obtain ⟨⟨ok, as, w⟩, hop, h⟩ := bind_eq_some_iff.1 h
    cases h
    exact .inr ⟨fun h => h0 (.inl h), ok, as, w, hop, rfl⟩

theorem unmap_spec (h : p.unmap virt len = some p') :
    ∃ as w, p.as.unmapRange p.w virt len = some (as, w) ∧ p' = { p with as := as, w := w } := by
  obtain ⟨⟨as, w⟩, hop, rfl⟩ := map_eq_some_iff.1 h
  exact ⟨as, w, hop, rfl⟩

/-- The outcomes of `sys_unmap_mem`. -/
theorem sysUnmapMem_cases (h : p.sysUnmapMem virt len = some (res, p')) :
    p' = p ∨ virt ≠ 0 ∧ virt < userSpaceEnd ∧ p.unmap virt len = some p' := by
  unfold sysUnmapMem at h
  split at h
  · cases h
    exact .inl rfl
  next h0 =>
  split at h
  · cases h
    exact .inl rfl
  next hlt =>
  obtain ⟨p₁, hop, h⟩ := map_eq_some_iff.1 h
  cases h
  exact .inr ⟨fun h => h0 (.inl h), by omega, hop⟩

/-- The pages `sys_mremap` unmaps when it shrinks. -/
def mremapTail (oldAddr oldSize newSize : ℕ) : ℕ × ℕ :=
  (wadd oldAddr (pagesOf newSize * pageSize),
    (pagesOf oldSize - pagesOf newSize) * pageSize % 2 ^ 64)

/-- The address `sys_mremap` asks for when it grows. -/
def mremapTarget (flags newAddr : ℕ) : ℕ := if flags.testBit 1 then newAddr else 0

/-- The outcomes of `sys_mremap`. -/
theorem sysMremap_cases {oldAddr oldSize newSize newAddr : ℕ}
    (h : p.sysMremap oldAddr oldSize newSize flags newAddr = some (res, p')) :
    p' = p ∨
    (pagesOf newSize < pagesOf oldSize ∧ p.unmap (mremapTail oldAddr oldSize newSize).1
      (mremapTail oldAddr oldSize newSize).2 = some p') ∨
    (pagesOf oldSize < pagesOf newSize ∧ ∃ r p₁,
      p.sysMmap (mremapTarget flags newAddr) newSize 3 0x22 (2 ^ 64 - 1) 0 = some (r, p₁) ∧
        (p' = p₁ ∨ 0 ≤ r ∧ p₁.unmap oldAddr oldSize = some p')) := by
  unfold sysMremap at h
  simp only at h
  split at h
  · cases h
    exact .inl rfl
  next hne =>
  split at h
  · next hlt =>
    obtain ⟨p₁, hop, h⟩ := map_eq_some_iff.1 h
    cases h
    exact .inr (.inl ⟨hlt, hop⟩)
  next hge =>
  obtain ⟨⟨r, p₁⟩, hmmap, h⟩ := bind_eq_some_iff.1 h
  refine .inr (.inr ⟨by omega, r, p₁, hmmap, ?_⟩)
  split at h
  · cases h
    exact .inl rfl
  · next hr =>
    obtain ⟨p₂, hop, h⟩ := map_eq_some_iff.1 h
    cases h
    exact .inr ⟨by omega, hop⟩

/-! ### Invariants of what a process holds -/

/-- The pages of the range are in `Q`. -/
def StaysIn (Q : ℕ → Prop) (virt len : ℕ) : Prop :=
  ∀ va, pageSize ∣ va → alignDown virt pageSize ≤ va → va < alignDown virt pageSize + len → Q va

/-- Unmapping the range cuts eager regions only as `C` allows. -/
def CutsIn (C : ℕ → ℕ → VmaRegion → Prop) (s : AddressSpace) (virt len : ℕ) : Prop :=
  ∀ lo hi, AddressSpace.unmapBounds virt len = some (lo, hi) →
    ∀ r, some r ∈ s.regions → r.CutsBy C lo hi

/-- `mmap` unmaps as `C` allows, and maps in `Q` wherever it may map. -/
def MmapIn (Q : ℕ → Prop) (C : ℕ → ℕ → VmaRegion → Prop) (p : Process W) (addr len flags : ℕ) :
    Prop :=
  (mapFixed flags = true → CutsIn C p.as addr (alignUp len pageSize)) ∧
  StaysIn Q (p.mmapTarget addr len).1 (alignUp len pageSize) ∧
  (addr ≠ 0 → mapFixed flags = false → mapAnonymous flags = true →
    StaysIn Q p.mmapBump (alignUp len pageSize))

/-- A call that maps in `Q`, cuts eager regions only as `C` allows and moves the break only of a
lazy heap. -/
def Keeps (Q : ℕ → Prop) (C : ℕ → ℕ → VmaRegion → Prop) (p : Process W) : MemCall → Prop
  | .mmap addr len _ flags _ _ => p.MmapIn Q C addr len flags
  | .munmap virt size => CutsIn C p.as virt size
  | .mremap oldAddr oldSize newSize flags newAddr =>
    (pagesOf newSize < pagesOf oldSize → CutsIn C p.as (mremapTail oldAddr oldSize newSize).1
      (mremapTail oldAddr oldSize newSize).2) ∧
    (pagesOf oldSize < pagesOf newSize →
      p.MmapIn Q C (mremapTarget flags newAddr) newSize 0x22 ∧ CutsIn C p.as oldAddr oldSize)
  | .mprotect .. => True
  | .brk newEnd => (∀ r, some r ∈ p.as.regions → r.start = p.as.heapStart → r.lazy = true) ∧
      Upkeep.BreakIn Q p.as newEnd
  | .fault _ => True

end Process

/-- The rules for an invariant of a process, which may also read files. -/
structure FileUpkeep {W : Type} [FileMachine W] (root : ℕ) (Q : ℕ → Prop)
    (C : ℕ → ℕ → VmaRegion → Prop) (I : List Holding → W → Prop) : Prop
    extends Upkeep root Q C I where
  /-- A file is positioned. -/
  seek : ∀ {hs w fd off}, I hs w → I hs (vfsLseek w fd off).2
  /-- A file is read into a block that is held. -/
  read : ∀ {h hs w n fd}, h ∈ hs → n ≤ 2 ^ h.block.order → I hs w →
    I hs (vfsRead w fd h.block.addr (n * pageSize)).2

namespace Process

variable {W : Type} [FileMachine W] {p p' : Process W} {addr virt len prot flags fd off : ℕ}
  {pageFlags : PageFlags} {fixed : Bool} {res : ℤ} {root : ℕ} {Q : ℕ → Prop}
  {C : ℕ → ℕ → VmaRegion → Prop} {I : List Holding → W → Prop} {s : AddressSpace}
  {slot v n phys : ℕ}

section

variable (hd : pageSize ∣ len) (hlen : len ≤ mapMaxBytes)
include hd hlen

theorem pages_of_dvd : wadd len (pageSize - 1) / pageSize * pageSize = len := by
  obtain ⟨k, rfl⟩ := hd
  simp only [wadd, pageSize, mapMaxBytes] at *
  omega

theorem placedIn (h : StaysIn Q virt len) (s : AddressSpace) : Upkeep.PlacedIn Q s virt len := by
  intro slot v n hplace va hva hge hlt
  obtain ⟨-, -, rfl, rfl, -⟩ := place_spec hplace
  rw [pages_of_dvd hd hlen] at hlt
  exact h va hva hge hlt

/-- Regions other than the new one do not meet the range that was placed. -/
theorem cutsIn_placed (U : Upkeep root Q C I) (hplace : s.place virt len = some (slot, v, n)) :
    CutsIn C (s.setRegion slot (eagerRegion v n phys pageFlags)) virt len := by
  obtain ⟨hne, -, rfl, rfl, hlt, hfree⟩ := place_spec hplace
  intro lo hi hb r hr hl hp hm
  have hpages := pages_of_dvd hd hlen
  obtain ⟨rfl, rfl⟩ : lo = alignDown virt pageSize ∧ hi = alignDown virt pageSize + len := by
    have hup : alignUp len pageSize = len := hpages
    rw [hpages] at hlt
    rw [unmapBounds, if_neg hne, hup, checkedAdd, if_pos hlt] at hb
    cases hb
    exact ⟨rfl, rfl⟩
  rcases List.mem_or_eq_of_mem_set hr with hr | hr
  · rw [hpages] at hfree
    exact absurd ⟨hm.2, hm.1⟩ (hfree r hr)
  · cases hr
    exact U.whole le_rfl (by simp only [eagerRegion, hpages, le_refl])

/-- The region found where `map` has mapped is the new one. -/
theorem find_placed (hplace : s.place virt len = some (slot, v, n)) :
    (s.setRegion slot (eagerRegion v n phys pageFlags)).find virt =
      some (eagerRegion v n phys pageFlags) := by
  obtain ⟨hne, -, hv, hn, -⟩ := place_spec hplace
  have hle : pageSize ≤ len := Nat.le_of_dvd (Nat.pos_of_ne_zero hne) hd
  have hlt := lt_alignDown_add virt (show 0 < pageSize by decide)
  refine find_setRegion hplace rfl rfl (hv ▸ alignDown_le _ _) ?_
  rw [hv, hn, pages_of_dvd hd hlen]
  omega

end

variable (p) in
/-- The invariant for the address space of a process. -/
abbrev Kept (root : ℕ) (Q : ℕ → Prop) (I : List Holding → W → Prop) : Prop := p.as.Kept root Q I p.w

section

variable (U : Upkeep root Q C I) (hk : p.Kept root Q I)
include U hk

theorem kept_unmap (hcut : CutsIn C p.as virt len)
    (h : p.unmap virt len = some p') : p'.Kept root Q I := by
  obtain ⟨as, w, hop, rfl⟩ := unmap_spec h
  exact U.unmapRange hk hcut hop

theorem kept_unmapFixed (hcut : fixed = true → CutsIn C p.as virt len)
    (h : p.unmapFixed fixed virt len = some p') : p'.Kept root Q I ∧ p'.mmapBump = p.mmapBump := by
  cases fixed with
  | true =>
    refine ⟨kept_unmap U hk (hcut rfl) h, ?_⟩
    obtain ⟨as, w, -, rfl⟩ := unmap_spec h
    rfl
  | false =>
    cases h
    exact ⟨hk, rfl⟩

theorem kept_sysMprotect (h : p.sysMprotect addr len prot = some (res, p')) : p'.Kept root Q I := by
  rcases sysMprotect_cases h with ⟨rfl, -⟩ | ⟨-, ok, as, w, hop, rfl⟩
  · exact hk
  · exact U.mprotect hk hop

theorem kept_mmapAnonymous (hd : pageSize ∣ len) (hlen : len ≤ mapMaxBytes)
    (hcut : fixed = true → CutsIn C p.as virt len) (hin : StaysIn Q virt len)
    (hbump : addr ≠ 0 → fixed = false → StaysIn Q p.mmapBump len)
    (h : p.mmapAnonymous addr virt len pageFlags fixed = some (res, p')) : p'.Kept root Q I := by
  obtain ⟨p₁, ok, as, hfix, h⟩ := mmapAnonymous_cases h
  obtain ⟨hk1, hb1⟩ := kept_unmapFixed U hk hcut hfix
  rcases h with ⟨hmap, rfl⟩ | ⟨hf, ha, -, hmap, rfl⟩
  · exact U.mapLazy hk1 (placedIn hd hlen hin _) hmap
  · exact U.mapLazy hk1 (placedIn hd hlen (hb1 ▸ hbump ha hf) _) hmap

end

theorem kept_mmapFile (U : FileUpkeep root Q C I) (hk : p.Kept root Q I) (hd : pageSize ∣ len)
    (hlen : len ≤ mapMaxBytes) (hcut : fixed = true → CutsIn C p.as virt len)
    (hin : StaysIn Q virt len)
    (h : p.mmapFile virt len prot pageFlags fixed fd off = some (res, p')) : p'.Kept root Q I := by
  have hk0 : ({ p with w := (p.mmapSeek fd off).2 } : Process W).Kept root Q I := by
    refine ⟨hk.root_eq, hk.shaped, hk.within, ?_⟩
    unfold mmapSeek
    split
    · exact U.seek hk.holds
    · exact hk.holds
  rcases mmapFile_cases h with rfl | ⟨p₁, ok, as, w, hfix, hmap, h⟩
  · exact hk0
  obtain ⟨hk1, -⟩ := kept_unmapFixed U.toUpkeep hk0 hcut hfix
  have hplaced := placedIn hd hlen hin p₁.as
  rcases h with ⟨-, rfl⟩ | ⟨vma, rfl, hfind, h⟩
  · exact U.map hk1 hplaced hmap
  obtain ⟨slot, v, n, phys, hplace, hn, has, hI, hkept⟩ := U.map_block hk1 hplaced hmap
  obtain rfl := some.inj ((has ▸ hfind).symm.trans (find_placed hd hlen hplace))
  -- the file is read into the block that was just mapped
  have hread : I (⟨⟨phys, pagesToOrder n⟩, v, n⟩ :: holdings p₁.as.regions)
      (vfsRead w fd phys (n * pageSize)).2 := U.read (.head _) hn hI
  have hlen' : n * pageSize = len := by
    obtain ⟨-, -, -, rfl, -⟩ := place_spec hplace
    exact pages_of_dvd hd hlen
  rw [hlen'] at hread
  have hk2 := hkept _ hread
  rcases h with ⟨-, hun⟩ | ⟨-, rfl⟩ | ⟨-, _, hprot⟩
  · exact kept_unmap U.toUpkeep hk2 (has ▸ cutsIn_placed hd hlen U.toUpkeep hplace) hun
  · exact hk2
  · exact kept_sysMprotect U.toUpkeep hk2 hprot

theorem kept_sysMmap (U : FileUpkeep root Q C I) (hk : p.Kept root Q I)
    (hin : p.MmapIn Q C addr len flags)
    (h : p.sysMmap addr len prot flags fd off = some (res, p')) : p'.Kept root Q I := by
  rcases sysMmap_cases h with ⟨has, hw, -⟩ | ⟨hlen, -, hfix, -, h⟩
  · rw [Kept, has, hw]
    exact hk
  obtain ⟨hcut, htarget, hbump⟩ := hin
  have hcut' : mapFixed flags = true →
      CutsIn C p.as (p.mmapTarget addr len).1 (alignUp len pageSize) := by
    intro hf
    have ha : addr ≠ 0 := fun h => hfix ⟨hf, h⟩
    rw [mmapTarget, if_pos ha]
    exact hcut hf
  have hd := dvd_alignUp len pageSize
  rcases h with ⟨hanon, h⟩ | ⟨-, h⟩
  · refine kept_mmapAnonymous U.toUpkeep
      (p := { p with mmapBump := (p.mmapTarget addr len).2 }) hk hd hlen hcut' htarget ?_ h
    intro ha hf
    rw [mmapTarget, if_pos ha]
    exact hbump ha hf hanon
  · exact kept_mmapFile (p := { p with mmapBump := (p.mmapTarget addr len).2 })
      U hk hd hlen hcut' htarget h

/-- Mapping anonymous memory without `MAP_FIXED` only adds a lazy region. -/
theorem mem_regions_of_sysMmap_anonymous (hfix : mapFixed flags = false)
    (hanon : mapAnonymous flags = true)
    (h : p.sysMmap addr len prot flags fd off = some (res, p')) {r : VmaRegion}
    (hr : some r ∈ p'.as.regions) : some r ∈ p.as.regions ∨ r.lazy = true := by
  rcases sysMmap_cases h with ⟨has, -⟩ | ⟨-, -, -, -, ⟨-, h⟩ | ⟨hfile, -⟩⟩
  · exact .inl (has ▸ hr)
  · obtain ⟨p₁, ok, as, hun, h⟩ := mmapAnonymous_cases h
    rw [hfix] at hun
    cases hun
    have hlazy : ∀ {virt' : ℕ}, p.as.mapLazy virt' (alignUp len pageSize) (protToPageFlags prot) =
        (ok, as) → some r ∈ as.regions → some r ∈ p.as.regions ∨ r.lazy = true := by
      intro virt' hmap hr
      rcases mapLazy_cases hmap with ⟨-, rfl⟩ | ⟨slot, v, n, -, -, rfl⟩
      · exact .inl hr
      · rcases List.mem_or_eq_of_mem_set hr with hr | hr
        · exact .inl hr
        · cases hr
          exact .inr rfl
    rcases h with ⟨hmap, rfl⟩ | ⟨-, -, -, hmap, rfl⟩
    · exact hlazy hmap hr
    · exact hlazy hmap hr
  · rw [hanon] at hfile
    cases hfile

/-- **What a call keeps.**  A call that maps in `Q` and cuts eager regions only as `C` allows keeps
every invariant that has its upkeep. -/
theorem kept_memStep (U : FileUpkeep root Q C I) {c : MemCall} (hk : p.Kept root Q I)
    (hc : p.Keeps Q C c) (h : p.memStep c = some p') : p'.Kept root Q I := by
  cases c with
  | mmap =>
    obtain ⟨⟨res, p₁⟩, hop, rfl⟩ := map_eq_some_iff.1 h
    exact kept_sysMmap U hk hc hop
  | munmap =>
    obtain ⟨⟨res, p₁⟩, hop, rfl⟩ := map_eq_some_iff.1 h
    rcases sysUnmapMem_cases hop with rfl | ⟨-, -, hun⟩
    · exact hk
    · exact kept_unmap U.toUpkeep hk hc hun
  | mremap =>
    obtain ⟨⟨res, p₁⟩, hop, rfl⟩ := map_eq_some_iff.1 h
    rcases sysMremap_cases hop with rfl | ⟨hlt, hun⟩ | ⟨hlt, r, p₂, hmmap, h⟩
    · exact hk
    · exact kept_unmap U.toUpkeep hk (hc.1 hlt) hun
    · obtain ⟨hin, hcut⟩ := hc.2 hlt
      have hk2 := kept_sysMmap U hk hin hmmap
      rcases h with rfl | ⟨-, hun⟩
      · exact hk2
      · -- the region that was mapped first is lazy, and not subject to the condition on cuts
        refine kept_unmap U.toUpkeep hk2 (fun lo hi hb r hr hl => ?_) hun
        rcases mem_regions_of_sysMmap_anonymous rfl rfl hmmap hr with hr | hlazy
        · exact hcut lo hi hb r hr hl
        · rw [hl] at hlazy
          cases hlazy
  | mprotect =>
    obtain ⟨⟨res, p₁⟩, hop, rfl⟩ := map_eq_some_iff.1 h
    exact kept_sysMprotect U.toUpkeep hk hop
  | brk =>
    obtain ⟨⟨res, p₁⟩, hop, rfl⟩ := map_eq_some_iff.1 h
    obtain ⟨⟨b, as, w⟩, hbrk, hop⟩ := bind_eq_some_iff.1 hop
    cases hop
    exact U.brk hk hc.1 hc.2 hbrk
  | fault =>
    obtain ⟨⟨res, p₁⟩, hop, rfl⟩ := map_eq_some_iff.1 h
    obtain ⟨⟨ok, as, w⟩, hfault, hop⟩ := bind_eq_some_iff.1 hop
    cases hop
    exact U.handleUserPageFault hk hfault

end Process

end Cyanos
