import Cyanos.Elf.Faithful
import Cyanos.Kernel.ImageUpkeep
import Cyanos.Mm.Orders
import Cyanos.Mm.Watched

/-!
# Images that are not to be trusted

Everything in the headers of an image is up to whoever made it.  `load` checks that the table of
program headers and the bytes of each segment are inside the image, and `map` refuses ranges that
overlap or overflow.  Two things are not checked.  `p_filesz` may be larger than `p_memsz`: then the
copy goes on behind the block that was allocated for the segment.  And a segment may be larger than
the largest block: then the allocator stops the kernel.

`Harmless` is the condition that neither happens.  Where the bytes of a segment go is a matter of
its header and the ones before it, so the condition only looks at the headers.

## Main results

* `load_contained_iff` : **an image can do no harm exactly if it is `Harmless`**.
-/

namespace Cyanos

open Lib Machine MemMachine AddressSpace Elf List Option Nat

/-! ### Regions without their blocks -/

/-- The region without the block behind it. -/
def VmaRegion.bare (r : VmaRegion) : VmaRegion := { r with phys := 0 }

namespace AddressSpace

/-- The regions without the blocks behind them. -/
def bare (s : AddressSpace) : AddressSpace := ⟨0, s.regions.map (Option.map VmaRegion.bare), 0, 0⟩

variable {s : AddressSpace}

theorem place_bare (virt size : ℕ) : s.bare.place virt size = s.place virt size := by
  simp only [place, bare, findIdx?_map, List.any_map, Function.comp_def, isNone_map, Option.any_map]
  rfl

theorem find_bare (va : ℕ) : s.bare.find va = (s.find va).map VmaRegion.bare := by
  rw [find_eq, find_eq, bare, findSome?_map, map_findSome?]
  congr 1
  funext slot
  cases slot with
  | none => rfl
  | some r =>
    have hcov : r.bare.Covers va ↔ r.Covers va := Iff.rfl
    by_cases hc : r.Covers va <;> simp [Option.filter, hcov]

/-- The region that is found after `map`: the new one, or if that is empty one that begins at the
same page. -/
theorem find_mapped {virt size slot v n phys : ℕ} {flags : PageFlags} {r : VmaRegion}
    (hplace : s.place virt size = some (slot, v, n))
    (hfind : (s.setRegion slot (eagerRegion v n phys flags)).find v = some r) :
    r.start = v ∧ (r = eagerRegion v n phys flags ∨ n = 0 ∧ some r ∈ s.regions) := by
  rcases Nat.eq_zero_or_pos n with rfl | hn
  · obtain ⟨hmem, hcov⟩ := find_spec hfind
    rcases mem_or_eq_of_mem_set hmem with hold | hnew
    · have hfree := (place_spec hplace).2.2.2.2.2 r hold
      have hle : r.start ≤ v := hcov.1
      have hlt : v < r.end_ := hcov.2
      have hstart : r.start = v := by omega
      exact ⟨hstart, .inr ⟨rfl, hold⟩⟩
    · cases hnew
      exact absurd hcov.2 (by simp [eagerRegion])
  · have hpos : 0 < n * pageSize := mul_pos hn (by decide)
    have hnew : r = eagerRegion v n phys flags :=
      some.inj (hfind.symm.trans (find_setRegion hplace rfl rfl le_rfl (by omega)))
    exact ⟨hnew ▸ rfl, .inl hnew⟩

end AddressSpace

namespace Elf

/-! ### The condition -/

namespace Phdr

/-- The bytes of the segment are inside the image. -/
def InFile (bytes : List UInt8) (ph : Phdr) : Prop :=
  ph.pOffset + ph.pFilesz < 2 ^ 64 ∧ ph.pOffset + ph.pFilesz ≤ bytes.length

instance (bytes : List UInt8) (ph : Phdr) : Decidable (ph.InFile bytes) :=
  inferInstanceAs (Decidable (_ ∧ _))

/-- The region that the bytes of the segment go to, and all regions after it is mapped; `none` if it
is refused. -/
def lay (bytes : List UInt8) (ph : Phdr) (s : AddressSpace) : Option (VmaRegion × AddressSpace) :=
  if ph.InFile bytes then
    (s.place ph.pageVaddr ph.mapSize).bind fun (slot, v, n) =>
      let s := s.setRegion slot (AddressSpace.eagerRegion v n 0 ph.flags)
      (s.find ph.pageVaddr).map fun r => (r, s)
  else none

/-- There are blocks as large as the region, and the bytes of the segment fit in one. -/
def Fits (ph : Phdr) (r : VmaRegion) : Prop :=
  r.pages * pageSize ≤ maxBlock ∧
    ph.pVaddr - ph.pageVaddr + ph.pFilesz ≤ pageSize * 2 ^ pagesToOrder r.pages

end Phdr

/-- Every segment that `load` gets to, from header `i` on, fits the region its bytes go to. -/
def Harmless (bytes : List UInt8) (eh : Ehdr) : ℕ → ℕ → AddressSpace → Prop
  | 0, _, _ => True
  | n + 1, i, s =>
    match parsePhdr bytes (eh.ePhoff + i * eh.ePhentsize) with
    | some (.ok ph) =>
      if ph.Loads then
        match ph.lay bytes s with
        | none => True
        | some (r, s) =>
          ph.Fits r ∧ (ph.pVaddr + ph.pMemsz < 2 ^ 64 → Harmless bytes eh n (i + 1) s)
      else Harmless bytes eh n (i + 1) s
    | _ => True

/-- The image has no table of program headers, or its segments fit. -/
def ImageHarmless (emTarget : ℕ) (bytes : List UInt8) : Prop :=
  ∀ eh, parseEhdr emTarget bytes = some (.ok eh) →
    eh.ePhoff + eh.ePhentsize * eh.ePhnum < 2 ^ 64 →
    eh.ePhoff + eh.ePhentsize * eh.ePhnum ≤ bytes.length →
    Harmless bytes eh eh.ePhnum 0 (.new 0)

/-! ### A harmless image -/

instance : AssertsOrder Watched where
  alloc w order h := by
    simp only [buddyAlloc, if_pos h, Option.isSome_map]
    split <;> rfl
  free w addr order h := by
    simp only [buddyFree, if_pos h, Option.isSome_map]
    rfl

variable {bytes : List UInt8} {ph : Phdr} {s : AddressSpace} {w₀ w : Watched} {bs : List Block}
  {n v slot emTarget order : ℕ} {eh : Ehdr} {b : List UInt8}

theorem lay_bare (phys : ℕ) (hfile : ph.InFile bytes)
    (hplace : s.place ph.pageVaddr ph.mapSize = some (slot, v, n)) :
    ph.lay bytes s.bare =
      ((s.setRegion slot (eagerRegion v n phys ph.flags)).find ph.pageVaddr).map
        fun r =>
          (r.bare, (s.setRegion slot (eagerRegion v n phys ph.flags)).bare) := by
  have hbare : s.bare.setRegion slot (eagerRegion v n 0 ph.flags) =
      (s.setRegion slot (eagerRegion v n phys ph.flags)).bare := by
    simp only [bare, setRegion, map_set]
    rfl
  rw [Phdr.lay, if_pos hfile, place_bare, hplace, bind_some]
  simp only [hbare, find_bare, Option.map_map]
  rfl

theorem place_pageVaddr
    (hplace : s.place ph.pageVaddr ph.mapSize = some (slot, v, n)) : v = ph.pageVaddr := by
  obtain ⟨-, -, rfl, -⟩ := place_spec hplace
  exact alignDown_of_dvd (dvd_alignDown _ _)

/-- The range that is copied to is in the block. -/
theorem copy_in_block {r : VmaRegion} (hv : ph.pVaddr < 2 ^ 64) (hstart : r.start = ph.pageVaddr)
    (hback : r.BackedBy bs) (hfits : ph.Fits r) {x : ℕ}
    (hx : wadd r.phys (wsub ph.pVaddr r.start) ≤ x)
    (hx' : x < wadd r.phys (wsub ph.pVaddr r.start) + ph.pFilesz) :
    ∃ b ∈ bs, b.Has pageSize x := by
  obtain ⟨hmem, hle⟩ := hback
  have hcap : ph.pVaddr - ph.pageVaddr + ph.pFilesz ≤ r.block.size pageSize := hfits.2
  have hlo := ph.pageVaddr_le
  have hhi := ph.lt_pageVaddr_add
  have hpage : pageSize ≤ r.block.size pageSize := Nat.le_mul_of_pos_right _ (Nat.two_pow_pos _)
  rw [hstart, wsub_of_le hv hlo, wadd_of_lt (by omega)] at hx hx'
  refine ⟨r.block, hmem, ?_, ?_⟩
  · exact le_trans (le_add_right _ _) hx
  · change x < r.phys + r.block.size pageSize
    omega

/-- What holds after a segment of a harmless image was loaded, or refused. -/
def Placed (bytes : List UInt8) (ph : Phdr) (s : AddressSpace) (w₀ : Watched)
    (r : Except ElfError ℕ × AddressSpace × Watched) : Prop :=
  ∃ bs, w₀.Since bs r.2.2 ∧ r.2.1.All (VmaRegion.BackedBy bs) ∧
    ∀ e, r.1 = .ok e → ph.pVaddr + ph.pMemsz < 2 ^ 64 ∧
      ∃ reg, ph.lay bytes s.bare = some (reg, r.2.1.bare)

/-- **Loading a segment that fits.** -/
theorem ends_loadSegment (hw : w₀.Since bs w) (hs : s.All (VmaRegion.BackedBy bs))
    (hv : ph.pVaddr < 2 ^ 64) (hfits : ∀ r t, ph.lay bytes s.bare = some (r, t) → ph.Fits r) :
    Ends (loadSegment bytes ph s w) (Placed bytes ph s w₀) := by
  have hstop : ∀ {e : ElfError} {bs : List Block} {s' : AddressSpace} {w : Watched},
      w₀.Since bs w → s'.All (VmaRegion.BackedBy bs) →
      Ends (some ((.error e : Except ElfError ℕ), s', w)) (Placed bytes ph s w₀) :=
    fun hw hs => ends_some ⟨_, hw, hs, by rintro _ ⟨⟩⟩
  unfold loadSegment
  split
  · exact hstop hw hs
  next fend hend =>
  obtain ⟨hlt, rfl⟩ := checkedAdd_eq_some.1 hend
  split
  · exact hstop hw hs
  next hlen =>
  have hfile : ph.InFile bytes := ⟨hlt, not_lt.1 hlen⟩
  -- a region of at least one page is found again, so its size is known
  have hsmall : ∀ slot v n, s.place ph.pageVaddr ph.mapSize = some (slot, v, n) →
      n * pageSize ≤ maxBlock := by
    intro slot v n hplace
    obtain rfl := place_pageVaddr hplace
    rcases Nat.eq_zero_or_pos n with rfl | hn
    · rw [zero_mul]
      exact zero_le _
    · have hpos : 0 < n * pageSize := mul_pos hn (by decide)
      have hlay := lay_bare 0 hfile hplace
      rw [find_setRegion hplace rfl rfl le_rfl (by omega)] at hlay
      have hpages : (eagerRegion ph.pageVaddr n 0 ph.flags).bare.pages = n :=
        pages_eagerRegion (place_spec hplace).2.2.2.2.1
      have hfit := (hfits _ _ hlay).1
      rwa [hpages] at hfit
  refine ((ends_map_of_place hsmall).of_eq fun _ h => h).bind ?_
  rintro ⟨ok, s₁, w₁⟩ hmap
  obtain ⟨bs₁, hw1, hs1, hok⟩ := hw.map hs hmap
  cases ok with
  | false => exact hstop hw1 hs1
  | true =>
    obtain ⟨slot, v, n, phys, hplace, rfl⟩ := hok rfl
    obtain rfl := place_pageVaddr hplace
    have hlay := lay_bare phys hfile hplace
    simp only [Bool.not_true, Bool.false_eq_true, if_false]
    split
    · exact hstop hw1 hs1
    next r hfind =>
    rw [hfind] at hlay
    have hmem := (find_spec hfind).1
    have hfit : ph.Fits r := hfits r.bare _ hlay
    have hcopy := hw1.write (wadd r.phys (wsub ph.pVaddr r.start))
      ((bytes.drop ph.pOffset).take ph.pFilesz) fun x hx hx' => by
        rw [length_take] at hx'
        exact copy_in_block hv (find_mapped hplace hfind).1 (hs1 r hmem) hfit hx
          (lt_of_lt_of_le hx' (Nat.add_le_add_left (Nat.min_le_left _ _) _))
    rw [slice_of_le hfile.2]
    split
    · exact hstop hcopy hs1
    next segEnd hsegEnd =>
    exact ends_some ⟨bs₁, hcopy, hs1, fun _ _ => ⟨(checkedAdd_eq_some.1 hsegEnd).1, _, hlay⟩⟩

theorem ends_loadSegments {i : ℕ} (highest : ℕ) (hw : w₀.Since bs w)
    (hs : s.All (VmaRegion.BackedBy bs)) (h : Harmless bytes eh n i s.bare) :
    Ends (loadSegments bytes eh n i highest s w) fun r => w₀.Contained r.2.2 := by
  induction n generalizing i highest s w bs with
  | zero => exact ends_some ⟨bs, hw⟩
  | succ n ih =>
    refine (ends_phdr _).bind ?_
    rintro (_ | ph) hparse
    · exact ends_some ⟨bs, hw⟩
    simp only [Harmless, hparse] at h ⊢
    split
    swap
    · next hload =>
      rw [if_neg hload] at h
      exact ih highest hw hs h
    next hload =>
    rw [if_pos hload] at h
    have hfits : ∀ r t, ph.lay bytes s.bare = some (r, t) → ph.Fits r ∧
        (ph.pVaddr + ph.pMemsz < 2 ^ 64 → Harmless bytes eh n (i + 1) t) := by
      intro r t hlay
      rw [hlay] at h
      exact h
    refine (ends_loadSegment hw hs ((parses_phdr _).ok hparse) fun r t hlay => (hfits r t hlay).1).bind ?_
    rintro ⟨res, s₁, w₁⟩ ⟨bs₁, hw1, hs1, hok⟩
    cases res with
    | error => exact ends_some ⟨bs₁, hw1⟩
    | ok segEnd =>
      obtain ⟨hlt, r, hlay⟩ := hok segEnd rfl
      exact ih _ hw1 hs1 ((hfits r _ hlay).2 hlt)

/-! ### An image that is not harmless -/

/-- An address of its own for every question and every order, 8 MiB apart. -/
def spot (tick order : ℕ) : ℕ := (16 * tick + order + 1) * 0x800000

/-- A machine with plenty of memory, whose blocks are far apart. -/
def vast : Watched :=
  ⟨Host.init (fun tick order => some (spot tick order)) (fun _ => true) (fun _ => 0) (fun _ => 0)
    fun _ _ => 0, []⟩

/-- The blocks of the machine are far apart. -/
structure Spread (w : Frames) : Prop where
  answer : ∀ tick order, w.answer tick order = some (spot tick order)
  mapOk : ∀ tick, w.mapOk tick = true
  blocks : ∀ b ∈ allocs w.log, b.order < maxOrder ∧ ∃ t < w.tick, b.addr = spot t b.order

theorem size_le_maxBlock {b : Block} (h : b.order < maxOrder) : b.size pageSize ≤ 0x400000 := by
  have hpow : 2 ^ b.order ≤ 2 ^ 10 := Nat.pow_le_pow_right (by norm_num) (Nat.le_of_lt_succ h)
  unfold Block.size pageSize
  omega

/-- A block does not have an address that another block, or it itself, ends at. -/
theorem not_has_end {b c : Block} {t t' : ℕ} (hb : b.order < maxOrder) (hc : c.order < maxOrder)
    (hbt : b.addr = spot t b.order) (hct : c.addr = spot t' c.order) :
    ¬ b.Has pageSize (c.addr + c.size pageSize) := by
  rintro ⟨hle, hlt⟩
  have hbsize := size_le_maxBlock hb
  have hcsize := size_le_maxBlock hc
  have horder : b.order = c.order := by
    unfold spot maxOrder at *
    omega
  have hsize : b.size pageSize = c.size pageSize := by rw [Block.size, Block.size, horder]
  unfold spot maxOrder at *
  omega

theorem Spread.asked {w : Frames} (h : Spread w) : Spread w.asked :=
  ⟨h.answer, h.mapOk, fun b hb => ⟨(h.blocks b hb).1, by
    obtain ⟨t, ht, haddr⟩ := (h.blocks b hb).2
    exact ⟨t, lt_succ_of_lt ht, haddr⟩⟩⟩

/-- The next block is far from those before it. -/
theorem Spread.alloc {w : Frames} (h : Spread w) (ho : order < maxOrder) :
    Spread { w.asked with log := .alloc ⟨spot w.tick order, order⟩ :: w.log } := by
  refine ⟨h.answer, h.mapOk, fun b hb => ?_⟩
  rcases mem_cons.1 hb with rfl | hb
  · exact ⟨ho, w.tick, lt_succ_self _, rfl⟩
  · exact h.asked.blocks b hb

theorem Spread.buddyAlloc {w w' : Frames} (h : Spread w) {res : Option ℕ}
    (ha : buddyAlloc w order = some (res, w')) : Spread w' := by
  obtain ⟨ho, ⟨a, -, hans, -, rfl⟩ | ⟨-, rfl⟩⟩ := Frames.buddyAlloc_cases ha
  · cases (h.answer _ _).symm.trans hans
    exact h.alloc ho
  · exact h.asked

/-- There is always a block. -/
theorem Spread.fresh {w : Frames} (h : Spread w) (ho : order < maxOrder)
    (htick : w.tick ≤ 2 ^ 32) : Fresh pageSize w.log ⟨spot w.tick order, order⟩ := by
  have hsize := size_le_maxBlock (b := ⟨spot w.tick order, order⟩) ho
  refine ⟨?_, ?_, fun i hi hheld => ?_⟩
  · exact Dvd.dvd.mul_left (by decide) _
  · unfold spot maxOrder at *
    simp only at *
    omega
  · obtain ⟨b, hb, hlo, hhi⟩ := exists_mem_allocs hheld
    obtain ⟨hbo, t, ht, hbt⟩ := h.blocks b hb
    have hbsize := size_le_maxBlock hbo
    unfold spot maxOrder at *
    simp only at *
    omega

/-- Blocks stay far apart, and what was written stays on record. -/
theorem spread_upkeep (es : List Extent) :
    ImageUpkeep (W := Watched) (fun _ => True) (fun _ => True)
      fun w => Spread w.toFrames ∧ es ⊆ w.writes where
  alloc h hJ := by
    obtain ⟨hhost, hwrites⟩ := Watched.buddyAlloc_toHost h
    exact ⟨hJ.1.buddyAlloc (Host.buddyAlloc_toFrames hhost).1, hwrites ▸ hJ.2⟩
  free h hJ := by
    obtain ⟨hhost, hwrites⟩ := Watched.buddyFree_toHost h
    have hf := Frames.buddyFree_some (Host.buddyFree_toFrames hhost).1
    refine ⟨?_, hwrites ▸ hJ.2⟩
    rw [hf]
    exact ⟨hJ.1.answer, hJ.1.mapOk, hJ.1.blocks⟩
  zero _ _ hJ := ⟨hJ.1, subset_cons_of_subset _ hJ.2⟩
  mapped {w _} root va phys _ hJ := by
    refine ⟨?_, hJ.2⟩
    simp only [mapPage]
    split
    · exact ⟨hJ.1.asked.answer, hJ.1.asked.mapOk, hJ.1.asked.blocks⟩
    · exact hJ.1.asked
  unmapped hJ := ⟨⟨hJ.1.answer, hJ.1.mapOk, hJ.1.blocks⟩, hJ.2⟩
  flags _ := trivial
  backed _ _ _ := trivial
  front _ _ _ := trivial
  back _ _ _ := trivial
  protect _ _ := trivial
  copied hJ := ⟨hJ.1, subset_cons_of_subset _ hJ.2⟩
  written hJ := ⟨hJ.1, subset_cons_of_subset _ hJ.2⟩
  rooted {w} hJ := by
    have hhost : Spread (allocPageTableRoot w.toHost).2.toFrames := by
      simp only [allocPageTableRoot]
      split
      · next a ha =>
        have hans := (filter_eq_some_iff.1 ha).1
        cases (hJ.1.answer _ _).symm.trans hans
        obtain ⟨hans, hok, hblocks⟩ := hJ.1.alloc (show 0 < maxOrder by decide)
        exact ⟨hans, hok, hblocks⟩
      · exact hJ.1.asked
    have hroot : (allocPageTableRoot w).2 = if (allocPageTableRoot w.toHost).1 = 0
        then { w with toHost := (allocPageTableRoot w.toHost).2 }
        else w.wrote (allocPageTableRoot w.toHost).1 pageSize (allocPageTableRoot w.toHost).2 := rfl
    rw [hroot]
    split
    · exact ⟨hhost, hJ.2⟩
    · exact ⟨hhost, subset_cons_of_subset _ hJ.2⟩

/-- Any image may be mapped. -/
theorem mapFits_trivial (virt size : ℕ) (flags : PageFlags) :
    MapFits (fun _ => True) (fun _ => True) virt size flags :=
  ⟨trivial, fun _ _ _ _ _ _ => trivial⟩

/-- `map` succeeds. -/
theorem map_spread {virt size : ℕ} {flags : PageFlags} (h : Spread w.toFrames)
    (htick : w.tick ≤ 2 ^ 32) (hplace : s.place virt size = some (slot, v, n))
    (hn : n * pageSize ≤ maxBlock) :
    ∃ phys w', s.map w virt size flags =
        some (true, s.setRegion slot (eagerRegion v n phys flags), w') ∧
      w'.tick = w.tick + 1 + n := by
  have ho := pagesToOrder_lt hn
  obtain ⟨a, w₁, halloc⟩ : ∃ a w₁, buddyAlloc w (pagesToOrder n) = some (some a, w₁) := by
    have hchoice : w.choice (pagesToOrder n) = some (spot w.tick (pagesToOrder n)) :=
      filter_eq_some_iff.2 ⟨h.answer _ _, decide_eq_true (h.fresh ho htick)⟩
    simp only [buddyAlloc]
    rw [if_pos ho, hchoice]
    exact ⟨_, _, rfl⟩
  have hframes := (Host.buddyAlloc_toFrames (Watched.buddyAlloc_toHost halloc).1).1
  have htick1 : w₁.tick = w.tick + 1 := by
    obtain ⟨-, ⟨_, -, -, -, hw1⟩ | ⟨hnone, -⟩⟩ := Frames.buddyAlloc_cases hframes
    · rw [hw1]
      rfl
    · cases hnone
  cases hpages : mapPages s.pageTableRoot v a flags n 0 (zeroBytes w₁ a (n * pageSize)) with
  | mk res w₂ =>
    obtain ⟨h2, hok, -, -, htick2⟩ := Host.mapPages_ok s.pageTableRoot v a flags n 0
      (w := (zeroBytes w₁ a (n * pageSize)).toHost) (h.buddyAlloc hframes).mapOk
    cases hok.symm.trans (Watched.mapPages_toHost hpages).1
    refine ⟨a, w₂, ?_, htick2.trans (congrArg (· + n) htick1)⟩
    simp only [AddressSpace.map, hplace, halloc, bind_eq_bind, bind_some, hpages]
    rfl

/-- `map` stops the kernel. -/
theorem map_eq_none {virt size : ℕ} {flags : PageFlags}
    (hplace : s.place virt size = some (slot, v, n)) (hn : maxBlock < n * pageSize) :
    s.map w virt size flags = none := by
  have hle := le_two_pow_pagesToOrder (place_pages_le hplace)
  have ho : ¬ pagesToOrder n < maxOrder := by
    intro ho
    have hsize : pageSize * 2 ^ pagesToOrder n ≤ 0x400000 :=
      size_le_maxBlock (b := ⟨0, pagesToOrder n⟩) ho
    have hmax : maxBlock = 0x400000 := by decide
    have hmul := mul_le_mul_right pageSize hle
    rw [mul_comm] at hsize
    omega
  have halloc : buddyAlloc w (pagesToOrder n) = none := by
    simp only [buddyAlloc]
    rw [if_neg ho]
    rfl
  simp only [AddressSpace.map, hplace, halloc, bind_eq_bind, bind_none]

/-- **A copy that ends behind its block is not contained.** -/
theorem fits_of_contained {r : VmaRegion} {w' : Watched} (hv : ph.pVaddr < 2 ^ 64)
    (hstart : r.start = ph.pageVaddr) (hback : r.BackedBy (allocs w.log))
    (hspread : Spread w.toFrames) (hspread' : Spread w'.toFrames)
    (hmem : (⟨wadd r.phys (wsub ph.pVaddr r.start), ph.pFilesz⟩ : Extent) ∈ w'.writes)
    (hcontained : vast.Contained w') :
    ph.pVaddr - ph.pageVaddr + ph.pFilesz ≤ r.block.size pageSize := by
  obtain ⟨hblock, hle⟩ := hback
  have hlo := ph.pageVaddr_le
  have hhi := ph.lt_pageVaddr_add
  have hpage : pageSize ≤ r.block.size pageSize := Nat.le_mul_of_pos_right _ (Nat.two_pow_pos _)
  by_contra hover
  obtain ⟨bs, hbs, ws, hws, hin⟩ := hcontained
  rw [hstart, wsub_of_le hv hlo, wadd_of_lt (by omega), hws] at hmem
  -- the first byte behind the block is written
  have hfirst := hin _ ((mem_append.1 hmem).resolve_right not_mem_nil)
    (r.phys + r.block.size pageSize)
  simp only at hfirst
  obtain ⟨b, hb, hhas⟩ := hfirst (by omega) (by omega)
  have hb' : b ∈ allocs w'.log := hbs ▸ mem_append_left _ hb
  obtain ⟨hbo, t, -, hbt⟩ := hspread'.blocks b hb'
  obtain ⟨hro, t', -, hrt⟩ := hspread.blocks _ hblock
  exact not_has_end hbo hro hbt hrt hhas

theorem lay_eq_some {reg : VmaRegion} {t : AddressSpace} (h : ph.lay bytes s.bare = some (reg, t)) :
    ph.InFile bytes ∧ ∃ slot n, s.place ph.pageVaddr ph.mapSize = some (slot, ph.pageVaddr, n) := by
  unfold Phdr.lay at h
  split at h
  · next hfile =>
    obtain ⟨⟨slot, v, n⟩, hplace, -⟩ := bind_eq_some_iff.1 h
    rw [place_bare] at hplace
    obtain rfl := place_pageVaddr hplace
    exact ⟨hfile, slot, n, hplace⟩
  · cases h

/-- The state of a run on the vast machine: where everything is, and how long it may go on. -/
structure Running (n : ℕ) (s : AddressSpace) (w : Watched) : Prop where
  since : vast.Since (allocs w.log) w
  backed : s.All (VmaRegion.BackedBy (allocs w.log))
  small : s.All fun r => r.pages * pageSize ≤ maxBlock
  spread : Spread w.toFrames
  tick : w.tick + 1025 * n ≤ 2 ^ 32

/-- **On the vast machine a segment that is not refused is loaded**, unless it is too large. -/
theorem running_loadSegment {reg : VmaRegion} {t : AddressSpace} (h : Running (n + 1) s w)
    (hv : ph.pVaddr < 2 ^ 64) (hlay : ph.lay bytes s.bare = some (reg, t))
    (hends : (loadSegment bytes ph s w).isSome) :
    ∃ r s₁ w₁, reg = r.bare ∧ t = s₁.bare ∧
      loadSegment bytes ph s w =
        some (okOr .segmentOverflow (checkedAdd ph.pVaddr ph.pMemsz), s₁, w₁) ∧
      r.start = ph.pageVaddr ∧ r.pages * pageSize ≤ maxBlock ∧ r.BackedBy (allocs w₁.log) ∧
      Spread w₁.toFrames ∧
      (⟨wadd r.phys (wsub ph.pVaddr r.start), ph.pFilesz⟩ : Extent) ∈ w₁.writes ∧
      (ph.Fits r → Running n s₁ w₁) := by
  obtain ⟨hfile, slot, n', hplace⟩ := lay_eq_some hlay
  have hlt := (place_spec hplace).2.2.2.2.1
  have htick := h.tick
  have hsmall : n' * pageSize ≤ maxBlock := by
    by_contra hbig
    have hnone : loadSegment bytes ph s w = none := by
      simp only [loadSegment, checkedAdd_eq_some.2 ⟨hfile.1, rfl⟩, if_neg (not_lt.2 hfile.2),
        map_eq_none hplace (not_le.1 hbig), bind_eq_bind, bind_none]
    rw [hnone] at hends
    cases hends
  obtain ⟨phys, w₁, hmap, htick1⟩ := map_spread h.spread (by omega) hplace hsmall
  rw [lay_bare phys hfile hplace] at hlay
  obtain ⟨r, hfind, heq⟩ := map_eq_some_iff.1 hlay
  cases heq
  obtain ⟨hstart, hnew⟩ := find_mapped hplace hfind
  obtain ⟨bs₁, hsince, hbacked, -⟩ := h.since.map h.backed hmap
  obtain rfl : allocs w₁.log = bs₁ := hsince.allocs.trans (append_nil _)
  have hspread : Spread w₁.toFrames :=
    ((spread_upkeep []).map (mapFits_trivial _ _ _) hmap (fun _ _ => trivial)
      ⟨h.spread, nil_subset _⟩).2.1
  have hnewPages : (eagerRegion ph.pageVaddr n' phys ph.flags).pages = n' := pages_eagerRegion hlt
  have hsmall1 : (s.setRegion slot (eagerRegion ph.pageVaddr n' phys ph.flags)).All
      fun r => r.pages * pageSize ≤ maxBlock := h.small.setRegion (by rw [hnewPages]; exact hsmall)
  have hmem := (find_spec hfind).1
  have hlen : ((bytes.drop ph.pOffset).take ph.pFilesz).length = ph.pFilesz := by
    have := hfile.2
    rw [length_take, length_drop]
    omega
  refine ⟨r, _, _, rfl, rfl, loadSegment_of_map hfile.1 hfile.2 hmap hfind, hstart, hsmall1 r hmem,
    hbacked r hmem, hspread, ?_, fun hfits => ⟨?_, hbacked, hsmall1, hspread, ?_⟩⟩
  · have hrecord : (⟨wadd r.phys (wsub ph.pVaddr r.start),
        ((bytes.drop ph.pOffset).take ph.pFilesz).length⟩ : Extent) ∈
        (writeBytes w₁ (wadd r.phys (wsub ph.pVaddr r.start))
          ((bytes.drop ph.pOffset).take ph.pFilesz)).writes := .head _
    rwa [hlen] at hrecord
  · refine hsince.write _ _ fun x hx hx' => ?_
    rw [hlen] at hx'
    exact copy_in_block hv hstart (hbacked r hmem) hfits hx hx'
  · change w₁.tick + 1025 * n ≤ 2 ^ 32
    have hmax : maxBlock = 1024 * pageSize := by decide
    have hn' : n' ≤ 1024 := le_of_mul_le_mul_right (hmax ▸ hsmall) (by decide)
    omega

theorem harmless_of_contained {i : ℕ} (highest : ℕ) (h : Running n s w)
    (hends : Ends (loadSegments bytes eh n i highest s w) fun r => vast.Contained r.2.2) :
    Harmless bytes eh n i s.bare := by
  induction n generalizing i highest s w with
  | zero => trivial
  | succ n ih =>
    rw [loadSegments] at hends
    rw [Harmless]
    split
    swap
    · trivial
    next ph hparse =>
    rw [hparse, bind_eq_bind, bind_some] at hends
    simp only at hends
    split at hends
    swap
    · next hload =>
      rw [if_neg hload]
      exact ih highest { h with tick := by have := h.tick; omega } hends
    next hload =>
    rw [if_pos hload]
    split
    · trivial
    next reg t hlay =>
    obtain ⟨⟨res, s', w'⟩, hres, hcontained⟩ := hends
    obtain ⟨⟨res₁, s₁', w₁'⟩, hseg, hrest⟩ := bind_eq_some_iff.1 hres
    obtain ⟨r, s₁, w₁, rfl, rfl, hseg', hstart, hpages, hback, hspread, hmem, hrun⟩ :=
      running_loadSegment h ((parses_phdr _).ok hparse) hlay (by rw [hseg]; rfl)
    obtain ⟨rfl, rfl, rfl⟩ := triple_inj (hseg.symm.trans hseg')
    have hfits {w' : Watched} (hw' : Spread w'.toFrames) hm hc : ph.Fits r :=
      ⟨hpages, fits_of_contained ((parses_phdr _).ok hparse) hstart hback hspread hw' hm hc⟩
    cases hend : checkedAdd ph.pVaddr ph.pMemsz with
    | none =>
      rw [hend] at hrest
      cases hrest
      refine ⟨hfits hspread hmem hcontained, fun hlt => ?_⟩
      rw [checkedAdd_eq_some.2 ⟨hlt, rfl⟩] at hend
      cases hend
    | some =>
      rw [hend] at hrest
      -- the copy is still on record when the load is over
      obtain ⟨-, hspread', hmem'⟩ := (spread_upkeep [_]).imageRule.loadSegments
        (fun _ _ _ _ _ _ => mapFits_trivial _ _ _) hrest
        ⟨fun _ _ => trivial, hspread, cons_subset.2 ⟨hmem, nil_subset _⟩⟩
      have hfit := hfits hspread' (hmem' (.head _)) hcontained
      exact ⟨hfit, fun _ => ih _ (hrun hfit) ⟨_, hrest, hcontained⟩⟩

/-! ### The loader -/

/-- The machine after the loader has looked at all program headers. -/
theorem loadSegments_of_load {Q : Watched → Prop} (heh : parseEhdr emTarget bytes = some (.ok eh))
    (hlt : eh.ePhoff + eh.ePhentsize * eh.ePhnum < 2 ^ 64)
    (hle : eh.ePhoff + eh.ePhentsize * eh.ePhnum ≤ bytes.length)
    (h : Ends (load emTarget bytes s w) fun r => Q r.2.2) :
    Ends (loadSegments bytes eh eh.ePhnum 0 0 s w) fun r => Q r.2.2 := by
  simp only [load, heh, bind_eq_bind, bind_some, checkedAdd_eq_some.2 ⟨hlt, rfl⟩, if_neg (not_lt.2 hle)] at h
  obtain ⟨⟨res, s', w'⟩, hres, hQ⟩ := h
  obtain ⟨⟨res₁, s₁, w₁⟩, hsegs, hrest⟩ := bind_eq_some_iff.1 hres
  refine ⟨_, hsegs, ?_⟩
  cases res₁ with
  | error | ok =>
    cases hrest
    exact hQ

theorem ends_load_harmless {root : ℕ} (h : ImageHarmless emTarget bytes) :
    Ends (load emTarget bytes (.new root) w) fun r => w.Contained r.2.2 := by
  have hrefl : w.Contained w := ⟨[], .refl w⟩
  refine (ends_ehdr emTarget).bind ?_
  rintro (_ | eh) heh
  · exact ends_some hrefl
  simp only
  split
  · exact ends_some hrefl
  next fend hend =>
  obtain ⟨hlt, rfl⟩ := checkedAdd_eq_some.1 hend
  split
  · exact ends_some hrefl
  next hle =>
  refine (ends_loadSegments 0 (.refl w) (all_new root) (h eh heh hlt (not_lt.1 hle))).bind ?_
  rintro ⟨_ | highest, s₁, w₁⟩ hw1
  · exact ends_some hw1
  · exact ends_some hw1

theorem running_vast (hn : n < 2 ^ 16) : Running n (.new 0) vast where
  since := .refl vast
  backed := all_new 0
  small := all_new 0
  spread := ⟨fun _ _ => rfl, fun _ => rfl, nofun⟩
  tick := by
    change 0 + 1025 * n ≤ 2 ^ 32
    omega

/-- **An image can do no harm exactly if it is harmless.**  Whatever memory there is, the load does
not stop the kernel, reads nothing outside of the image and writes nothing outside of the blocks
that it allocates, if and only if every segment that it gets to fits. -/
theorem load_contained_iff (emTarget : ℕ) (bytes : List UInt8) :
    (∀ (root : ℕ) (w : Watched), Ends (load emTarget bytes (.new root) w) fun r =>
      w.Contained r.2.2) ↔ ImageHarmless emTarget bytes := by
  constructor
  · intro h eh heh hlt hle
    exact harmless_of_contained 0 (running_vast ((parses_ehdr emTarget).ok heh))
      (loadSegments_of_load heh hlt hle (h 0 vast))
  · exact fun h root w => ends_load_harmless h

/-- An image of 120 bytes, one segment of which is one byte long in memory and has all of the image
in the file; it begins 16 bytes before the end of its page. -/
def spillImage : List UInt8 :=
  tinyImage.take 72 ++ leBytes 8 0 ++ leBytes 8 0x400ff0 ++ leBytes 8 0 ++ leBytes 8 120 ++
    leBytes 8 1 ++ leBytes 8 0x1000

/-- An image with a segment of 8 MiB. -/
def hugeImage : List UInt8 := tinyImage.take 104 ++ leBytes 8 0x800000 ++ leBytes 8 0x1000

/-- **The first image writes 104 bytes behind the page it was given, the second stops the
kernel.** -/
theorem spill_and_panic :
    (¬ Ends (load 183 spillImage (.new 0x1000) vast) fun r => vast.Contained r.2.2) ∧
      load 183 hugeImage (.new 0x1000) vast = none := by
  have hrun : (load 183 spillImage (.new 0x1000) vast).map
      (fun r => (allocs r.2.2.log, r.2.2.writes)) =
      some ([⟨0x800000, 0⟩], [⟨0x800ff0, 120⟩, ⟨0x800000, 0x1000⟩]) := by decide +kernel
  have hpanic : (load 183 hugeImage (.new 0x1000) vast).isNone = true := by decide +kernel
  refine ⟨?_, isNone_iff_eq_none.1 hpanic⟩
  rintro ⟨r, hr, bs, hbs, ws, hws, hin⟩
  rw [hr, map_some] at hrun
  obtain ⟨hallocs, hwrites⟩ := pair_inj hrun
  have hmem : (⟨0x800ff0, 120⟩ : Extent) ∈ ws ++ vast.writes := hws ▸ hwrites ▸ (.head _)
  -- the first byte of the next page
  obtain ⟨b, hb, hhas⟩ := hin _ ((mem_append.1 hmem).resolve_right not_mem_nil) 0x801000
    (by decide) (by decide)
  have hb' : b ∈ [(⟨0x800000, 0⟩ : Block)] := hallocs ▸ hbs ▸ mem_append_left _ hb
  obtain rfl := mem_singleton.1 hb'
  exact absurd hhas (by decide)

end Elf

end Cyanos
