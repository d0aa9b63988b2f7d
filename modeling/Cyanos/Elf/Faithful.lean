import Cyanos.Lib.Run
import Cyanos.Elf.Load
import Cyanos.Mm.UserView
import Mathlib.Data.List.Pairwise

/-!
# The ELF loader is faithful

After `load` a program finds its segments in memory: the bytes of the file, then zeros, with the
rights the program header asks for, and a heap behind them.

The loop over the program headers keeps `Loaded bytes l s w`: the segments `l` loaded so far, each
with its block, are in the first slots, mapped, and filled.  A new block is apart from those before
it, so loading a segment leaves the earlier ones as they are (`Loaded.loadSegment`).

A segment without any bytes in memory is skipped: it gets no region, and the heap may be below it
(`empty_segment_above_heap`).

## Main results

* `load_faithful` : **the loader is faithful**, for segments that are not empty.
-/

namespace Cyanos

open Lib Machine MemMachine AddressSpace List Option Nat Host

/-! ### Enough memory -/

namespace Host

/-- What may happen between two calls of the allocator: up to 1024 pages are mapped. -/
structure Meanwhile (w w' : Host) : Prop where
  log : w'.log = w.log
  answer : w'.answer = w.answer
  le_tick : w.tick ≤ w'.tick
  tick_le : w'.tick ≤ w.tick + 1024

/-- The allocator has blocks of these orders, one after the other. -/
def Enough : List ℕ → Host → Prop
  | [], _ => True
  | order :: orders, w => ∀ w₁, w.Meanwhile w₁ →
    ∃ a w₂, buddyAlloc w₁ order = some (some a, w₂) ∧ Enough orders w₂

theorem Meanwhile.refl (w : Host) : w.Meanwhile w := ⟨rfl, rfl, le_rfl, Nat.le_add_right _ _⟩

variable {w : Host}

theorem mapPage_ok (root va phys : ℕ) (flags : PageFlags) (hok : ∀ t, w.mapOk t = true) :
    ∃ w', mapPage w root va phys flags = (true, w') ∧ w'.answer = w.answer ∧ w'.mapOk = w.mapOk ∧
      w'.tick = w.tick + 1 := by
  refine ⟨{ w with toFrames := w.asked.setLeaf root va (some ⟨phys, flags⟩) }, ?_, rfl, rfl, rfl⟩
  simp only [mapPage, if_pos (Or.inr (hok w.tick))]

/-- With page-table nodes to be had, mapping succeeds. -/
theorem mapPages_ok (root virt phys : ℕ) (flags : PageFlags) (n i : ℕ)
    (hok : ∀ t, w.mapOk t = true) :
    ∃ w', mapPages root virt phys flags n i w = (none, w') ∧ w'.answer = w.answer ∧
      w'.mapOk = w.mapOk ∧ w'.tick = w.tick + n := by
  induction n generalizing i w with
  | zero => exact ⟨w, rfl, rfl, rfl, rfl⟩
  | succ n ih =>
    obtain ⟨w₁, hpage, hans1, hmap1, htick1⟩ :=
      mapPage_ok root (wadd virt (i * pageSize)) (wadd phys (i * pageSize)) flags hok
    obtain ⟨w', hrest, hans, hmap, htick⟩ := ih (i + 1) (hmap1 ▸ hok)
    refine ⟨w', ?_, hans.trans hans1, hmap.trans hmap1, by omega⟩
    rw [mapPages, hpage]
    exact hrest

theorem buddyAlloc_oracles {w' : Host} {order : ℕ} {res : Option ℕ}
    (h : buddyAlloc w order = some (res, w')) : w'.answer = w.answer ∧ w'.mapOk = w.mapOk :=
  Frames.oracles_of_buddyAlloc (buddyAlloc_toFrames h).1

/-- `map` succeeds when there is a place and a block. -/
theorem map_of_place {s : AddressSpace} {w₁ : Host} {virt size slot v n a : ℕ} (flags : PageFlags)
    (hplace : s.place virt size = some (slot, v, n))
    (halloc : buddyAlloc w (pagesToOrder n) = some (some a, w₁)) (hok : ∀ t, w.mapOk t = true) :
    ∃ w', s.map w virt size flags =
        some (true, s.setRegion slot (eagerRegion v n a flags), w') ∧
      w'.answer = w₁.answer ∧ w'.mapOk = w.mapOk ∧ w'.tick = w₁.tick + n := by
  have hok1 : ∀ t, (zeroBytes w₁ a (n * pageSize)).mapOk t = true := by
    intro t
    have hmap : (zeroBytes w₁ a (n * pageSize)).mapOk = w.mapOk := (buddyAlloc_oracles halloc).2
    rw [hmap, hok]
  obtain ⟨w', hpages, hans, hmap, htick⟩ := mapPages_ok s.pageTableRoot v a flags n 0 hok1
  refine ⟨w', ?_, hans, hmap.trans (buddyAlloc_oracles halloc).2, htick⟩
  simp only [AddressSpace.map, hplace, halloc, bind_eq_bind, bind_some, hpages]
  rfl

end Host

/-- A place for a range that no region overlaps, if there is a free slot. -/
theorem AddressSpace.place_eq {s : AddressSpace} {virt size slot v n : ℕ} (hsize : size ≠ 0)
    (hslot : s.regions.findIdx? isNone = some slot) (hv : alignDown virt pageSize = v)
    (hn : wadd size (pageSize - 1) / pageSize = n) (hend : v + n * pageSize < 2 ^ 64)
    (hfree : ∀ r, some r ∈ s.regions → ¬ (v < r.end_ ∧ r.start < v + n * pageSize)) :
    s.place virt size = some (slot, v, n) := by
  have hany : ¬ (s.regions.any fun slot => slot.any fun r =>
      v < r.end_ ∧ v + n * pageSize > r.start) = true := by
    intro h
    obtain ⟨slot, hmem, hr⟩ := any_eq_true.1 h
    obtain ⟨r, rfl, hover⟩ := exists_of_any hr
    exact hfree r hmem hover
  simp only [place, if_neg hsize, hslot, bind_some, hv, hn,
    checkedAdd_eq_some.2 ⟨hend, rfl⟩, if_neg hany]

namespace Elf

/-! ### Segments -/

namespace Phdr

/-- The end of the pages of the segment. -/
def spanEnd (ph : Phdr) : ℕ := (ph.pVaddr + ph.pMemsz + (pageSize - 1)) / pageSize * pageSize

/-- The number of pages that are mapped. -/
def pages (ph : Phdr) : ℕ := wadd ph.mapSize (pageSize - 1) / pageSize

/-- The file has the bytes of the segment, which fit it, and its pages are below `2 ^ 47` and no
more than 4 MiB. -/
@[mk_iff] structure Fine (bytes : List UInt8) (ph : Phdr) : Prop where
  filesz_le : ph.pFilesz ≤ ph.pMemsz
  file_le : ph.pOffset + ph.pFilesz ≤ bytes.length
  below : ph.spanEnd ≤ 2 ^ 47
  small : ph.spanEnd ≤ ph.pageVaddr + 1024 * pageSize

/-- The pages of two segments are disjoint. -/
def SpanApart (ph ph' : Phdr) : Prop := ph.spanEnd ≤ ph'.pageVaddr ∨ ph'.spanEnd ≤ ph.pageVaddr

/-- The region of the segment, with the block at `a` behind it. -/
def region (ph : Phdr) (a : ℕ) : VmaRegion :=
  AddressSpace.eagerRegion ph.pageVaddr ph.pages a ph.flags

/-- The block behind the segment. -/
def block (ph : Phdr) (a : ℕ) : Block := ⟨a, pagesToOrder ph.pages⟩

/-- The block at `a` is filled with the segment. -/
def Filled (bytes : List UInt8) (ph : Phdr) (a : ℕ) (mem : ℕ → UInt8) : Prop :=
  ∀ i < ph.pMemsz, mem (a + (ph.pVaddr - ph.pageVaddr) + i) =
    if i < ph.pFilesz then bytes.getD (ph.pOffset + i) 0 else 0

variable {bytes : List UInt8} {ph : Phdr}

/-- The arithmetic of a segment does not wrap. -/
theorem Fine.spec (h : ph.Fine bytes) :
    ph.mapSize = ph.pMemsz + (ph.pVaddr - ph.pageVaddr) ∧ ph.pageVaddr ≤ ph.pVaddr ∧
      ph.pVaddr < ph.pageVaddr + pageSize ∧
      ph.pageVaddr + ph.pages * pageSize = ph.spanEnd ∧ ph.pages ≤ 1024 ∧
      ph.pVaddr + ph.pMemsz ≤ ph.spanEnd := by
  have hbelow := h.below
  have hsmall := h.small
  have hlo := ph.pageVaddr_le
  have hhi := ph.lt_pageVaddr_add
  have hend : ph.pVaddr + ph.pMemsz ≤ ph.spanEnd := by
    unfold spanEnd pageSize
    omega
  have hsize : ph.mapSize = ph.pMemsz + (ph.pVaddr - ph.pageVaddr) := wadd_of_lt (by omega)
  have hdvd : pageSize ∣ ph.pageVaddr := dvd_alignDown _ _
  have hspan : ph.pageVaddr + ph.pages * pageSize = ph.spanEnd := by
    rw [pages, hsize, wadd_of_lt (by unfold pageSize at *; omega)]
    unfold spanEnd pageSize at *
    omega
  refine ⟨hsize, hlo, hhi, hspan, ?_, hend⟩
  unfold pageSize at *
  omega

end Phdr

/-! ### One segment after the other -/

variable {bytes : List UInt8} {l : List (Phdr × ℕ)} {s : AddressSpace} {w : Host} {ph : Phdr}
  {a : ℕ}

/-- The segments of the list are loaded, each to the block it is listed with. -/
structure Loaded (bytes : List UInt8) (l : List (Phdr × ℕ)) (s : AddressSpace) (w : Host) :
    Prop where
  regions : s.regions = l.map (fun x => some (x.1.region x.2)) ++ List.replicate (8 - l.length) none
  fine : ∀ x ∈ l, x.1.Fine bytes
  held : Held pageSize w.log (l.map fun x => x.1.block x.2)
  maps : ∀ x ∈ l, w.Maps s.pageTableRoot x.1.pageVaddr x.2 x.1.pages x.1.flags
  filled : ∀ x ∈ l, x.1.Filled bytes x.2 w.mem
  heap : s.heapStart = s.heapEnd ∧ pageSize ∣ s.heapStart

theorem loaded_nil (bytes : List UInt8) (root : ℕ) (w : Host) : Loaded bytes [] (.new root) w :=
  ⟨rfl, nofun, Held.nil _, nofun, nofun, rfl, dvd_zero _⟩

/-- The bytes of a segment are in its block. -/
theorem Phdr.Fine.has (h : ph.Fine bytes) {i : ℕ} (hi : i < ph.pMemsz) :
    (ph.block a).Has pageSize (a + (ph.pVaddr - ph.pageVaddr) + i) := by
  obtain ⟨-, hlo, -, hspan, hpages, hend⟩ := h.spec
  have hcover : ph.pages * pageSize ≤ (ph.block a).size pageSize :=
    mul_le_size (hpages.trans (by norm_num))
  constructor
  · simp only [block]
    omega
  · simp only [block] at hcover ⊢
    omega

theorem Loaded.regions_eq (h : Loaded bytes l s w) (hlen : l.length < 8) : s.regions =
    l.map (fun x => some (x.1.region x.2)) ++ none :: replicate (7 - l.length) none := by
  rw [h.regions, ← replicate_succ, show 7 - l.length + 1 = 8 - l.length by omega]

section

variable (h : Loaded bytes l s w) (hph : ph.Fine bytes) (hlen : l.length < 8)
  (hapart : ∀ x ∈ l, x.1.SpanApart ph)
include h hph hlen hapart

/-- There is a place for a segment that is apart from those loaded. -/
theorem Loaded.place (hne : ph.pMemsz ≠ 0) :
    s.place ph.pageVaddr ph.mapSize = some (l.length, ph.pageVaddr, ph.pages) := by
  obtain ⟨hsize, -, -, hspan, -, -⟩ := hph.spec
  have hbelow := hph.below
  have hvirt : alignDown ph.pageVaddr pageSize = ph.pageVaddr :=
    alignDown_of_dvd (dvd_alignDown _ _)
  have hslot : s.regions.findIdx? isNone = some l.length := by
    have hnone : (l.map fun x => some (x.1.region x.2)).findIdx? isNone = none := by
      rw [findIdx?_eq_none_iff]
      intro r hr
      obtain ⟨x, -, rfl⟩ := mem_map.1 hr
      rfl
    rw [h.regions_eq hlen, findIdx?_append, hnone, findIdx?_cons]
    simp
  refine place_eq (by omega) hslot hvirt rfl (by omega) fun r hr hmeets => ?_
  -- the region is that of a segment before it
  rw [h.regions] at hr
  rcases mem_append.1 hr with hr | hr
  · obtain ⟨x, hx, hr⟩ := mem_map.1 hr
    cases hr
    obtain ⟨-, -, -, hxspan, -, -⟩ := (h.fine x hx).spec
    have hlap : ph.pageVaddr < x.1.spanEnd ∧ x.1.pageVaddr < ph.spanEnd := by
      rw [← hspan, ← hxspan]
      exact hmeets
    rcases hapart x hx with hap | hap <;> omega
  · cases (mem_replicate.1 hr).2

/-- One more segment is loaded, to a block that is apart from those before it. -/
theorem Loaded.append {w' : Host} (hfresh : Fresh pageSize w.log (ph.block a))
    (hlog : w'.log = .alloc (ph.block a) :: w.log)
    (hmaps : w'.Maps s.pageTableRoot ph.pageVaddr a ph.pages ph.flags)
    (hpt : ∀ va, va < ph.pageVaddr ∨ ph.spanEnd ≤ va → w'.pt s.pageTableRoot va = w.pt s.pageTableRoot va)
    (hfilled : ph.Filled bytes a w'.mem)
    (hmem : ∀ x, ¬ (ph.block a).Has pageSize x → w'.mem x = w.mem x) :
    Loaded bytes (l ++ [(ph, a)]) (s.setRegion l.length (ph.region a)) w' := by
  refine ⟨?_, forall_mem_append.2 ⟨h.fine, forall_mem_singleton.2 hph⟩, ?_,
    forall_mem_append.2 ⟨fun x hx i hi => ?_, forall_mem_singleton.2 hmaps⟩,
    forall_mem_append.2 ⟨fun x hx i hi => ?_, forall_mem_singleton.2 hfilled⟩, h.heap⟩
  · rw [setRegion, h.regions_eq hlen, set_append_right _ _ (by simp), length_map, Nat.sub_self,
      set_cons_zero]
    simp
  · rw [hlog, map_append]
    exact (h.held.alloc hfresh).perm (perm_append_singleton _ _).symm
  · obtain ⟨-, -, -, hxspan, -, -⟩ := (h.fine x hx).spec
    have hi' : (i + 1) * pageSize ≤ x.1.pages * pageSize := mul_le_mul_right _ hi
    rw [add_mul] at hi'
    have hout : x.1.pageVaddr + i * pageSize < ph.pageVaddr ∨
        ph.spanEnd ≤ x.1.pageVaddr + i * pageSize := by
      have hpos : 0 < pageSize := by decide
      rcases hapart x hx with hap | hap <;> omega
    exact (hpt _ hout).trans (h.maps x hx i hi)
  · have hap := h.held.apart_of_fresh hfresh (mem_map.2 ⟨x, hx, rfl⟩)
    rw [hmem _ fun hin => hap _ ⟨hin, (h.fine x hx).has hi⟩]
    exact h.filled x hx i hi

/-- **Loading one more segment.**  Its block is apart from those of the segments before it. -/
theorem Loaded.loadSegment (hbytes : bytes.length < 2 ^ 64) (hne : ph.pMemsz ≠ 0)
    (hok : ∀ t, w.mapOk t = true) {w₁ : Host}
    (halloc : buddyAlloc w (pagesToOrder ph.pages) = some (some a, w₁)) :
    ∃ s' w', Elf.loadSegment bytes ph s w = some (.ok (ph.pVaddr + ph.pMemsz), s', w') ∧
      Loaded bytes (l ++ [(ph, a)]) s' w' ∧ w₁.Meanwhile w' ∧ w'.mapOk = w.mapOk ∧
      s'.heapStart = s.heapStart := by
  obtain ⟨-, hlo, hhi, hspan, hpages, hend⟩ := hph.spec
  have hbelow := hph.below
  have hfilesz := hph.filesz_le
  have hfile := hph.file_le
  have hplace := h.place hph hlen hapart hne
  obtain ⟨w₂, hmap, hans, hmapOk, htick⟩ := map_of_place ph.flags hplace halloc hok
  obtain ⟨slot, v, n, a', w₁', hplace', halloc', -, hfresh, hlog, hmaps, hpt, hmem⟩ := map_spec hmap
  obtain ⟨rfl, rfl, rfl⟩ : l.length = slot ∧ ph.pageVaddr = v ∧ ph.pages = n := by
    simpa using hplace.symm.trans hplace'
  obtain ⟨rfl, rfl⟩ : a = a' ∧ w₁ = w₁' := by simpa using halloc.symm.trans halloc'
  -- the kernel finds the block through the region
  have hfind : (s.setRegion l.length (ph.region a)).find ph.pageVaddr = some (ph.region a) :=
    find_setRegion hplace rfl rfl le_rfl (by omega)
  have hle : a + (ph.block a).size pageSize ≤ 2 ^ 64 := hfresh.2.1
  have hcover : ph.pages * pageSize ≤ (ph.block a).size pageSize :=
    mul_le_size (hpages.trans (by norm_num))
  have hphys : wadd (ph.region a).phys (wsub ph.pVaddr (ph.region a).start) =
      a + (ph.pVaddr - ph.pageVaddr) := by
    simp only [Phdr.region, eagerRegion]
    rw [wsub_of_le (by omega) hlo, wadd_of_lt (by omega)]
  let w' : Host := writeBytes w₂ (a + (ph.pVaddr - ph.pageVaddr))
    ((bytes.drop ph.pOffset).take ph.pFilesz)
  have hload : Elf.loadSegment bytes ph s w =
      some (.ok (ph.pVaddr + ph.pMemsz), s.setRegion l.length (ph.region a), w') := by
    have hsegEnd : checkedAdd ph.pVaddr ph.pMemsz = some (ph.pVaddr + ph.pMemsz) :=
      checkedAdd_eq_some.2 ⟨by omega, rfl⟩
    rw [loadSegment_of_map (lt_of_le_of_lt hfile hbytes) hfile hmap hfind, hsegEnd, hphys]
    rfl
  have htake : ((bytes.drop ph.pOffset).take ph.pFilesz).length = ph.pFilesz := by
    rw [length_take, length_drop]
    omega
  have hmem' : ∀ x, w'.mem x = if a + (ph.pVaddr - ph.pageVaddr) ≤ x ∧
      x < a + (ph.pVaddr - ph.pageVaddr) + ph.pFilesz then
      ((bytes.drop ph.pOffset).take ph.pFilesz).getD (x - (a + (ph.pVaddr - ph.pageVaddr))) 0
      else w₂.mem x := by
    intro x
    rw [writeBytes_mem, htake]
  refine ⟨_, w', hload, h.append hph hlen hapart hfresh hlog hmaps (fun va hva => ?_)
    (fun i hi => ?_) fun x hx => ?_, ⟨?_, ?_, ?_, ?_⟩, hmapOk, rfl⟩
  · exact hpt _ va (.inr (hspan ▸ hva))
  · rw [hmem']
    by_cases hi' : i < ph.pFilesz
    · rw [if_pos ⟨by omega, by omega⟩, if_pos hi', Nat.add_sub_cancel_left,
        getD_eq_getElem?_getD, getD_eq_getElem?_getD, getElem?_take_of_lt hi',
        getElem?_drop]
    · rw [if_neg (by omega), if_neg hi', hmem, if_pos ⟨by omega, by omega⟩]
  · -- both the zeros and the bytes are in the block
    have hout : x < a ∨ a + (ph.block a).size pageSize ≤ x := by
      have hx' : ¬ (a ≤ x ∧ x < a + (ph.block a).size pageSize) := hx
      omega
    rw [hmem', if_neg (by omega), hmem, if_neg (by omega)]
  · have hlog1 := (Frames.buddyAlloc_some (buddyAlloc_toFrames halloc).1).2.2.1
    exact hlog.trans hlog1.symm
  · exact hans
  · change w₁.tick ≤ w₂.tick
    omega
  · change w₂.tick ≤ w₁.tick + 1024
    omega

end

/-! ### All segments -/

theorem parsePhdr_ok {off : ℕ} (h : off + 48 ≤ bytes.length) :
    ∃ ph, parsePhdr bytes off = some (.ok ph) := by
  have hread : ∀ n k, k + n ≤ 48 →
      readLe n bytes (off + k) = some (some (ofLeBytes ((bytes.drop (off + k)).take n))) := by
    intro n k hk
    rw [readLe, if_neg (by omega), slice_of_le (by omega)]
    rfl
  have htype := hread 4 0 (by norm_num)
  rw [add_zero] at htype
  rw [parsePhdr, r32, r64, htype, hread 4 4 (by norm_num), hread 8 8 (by norm_num),
    hread 8 16 (by norm_num), hread 8 32 (by norm_num), hread 8 40 (by norm_num)]
  exact ⟨_, rfl⟩

/-- The highest end of the segments, and of what came before them. -/
def highestEnd (highest : ℕ) (phs : List Phdr) : ℕ :=
  phs.foldl (fun h ph => max h (ph.pVaddr + ph.pMemsz)) highest

/-- **The loop loads all segments.**  The allocator has enough blocks left since the state `w₀`. -/
theorem Loaded.loadSegments {eh : Ehdr} {n i : ℕ} (highest : ℕ) {phs : List Phdr} {w₀ : Host}
    (h : Loaded bytes l s w) (hbytes : bytes.length < 2 ^ 64) (hok : ∀ t, w.mapOk t = true)
    (hparse : ∀ j < i + n, ∃ ph, parsePhdr bytes (eh.ePhoff + j * eh.ePhentsize) = some (.ok ph))
    (hphs : (range' i n).filterMap (segmentAt bytes eh) = phs)
    (hfine : ∀ ph ∈ phs, ph.Fine bytes) (hlen : l.length + phs.length ≤ 8)
    (hapart : (l.map Prod.fst ++ phs).Pairwise Phdr.SpanApart)
    (henough : w₀.Enough (phs.map fun ph => pagesToOrder ph.pages)) (hw : w₀.Meanwhile w) :
    ∃ l' highest' s' w', Elf.loadSegments bytes eh n i highest s w = some (.ok highest', s', w') ∧
      Loaded bytes l' s' w' ∧ l'.map Prod.fst = l.map Prod.fst ++ phs ∧ highest ≤ highest' ∧
      highest' ≤ max highest (2 ^ 47) ∧ (∀ ph ∈ phs, ph.pVaddr + ph.pMemsz ≤ highest') ∧
      highest' = highestEnd highest phs ∧ s'.heapStart = s.heapStart := by
  induction n generalizing i highest phs l s w w₀ with
  | zero =>
    subst hphs
    exact ⟨l, highest, s, w, rfl, h, (append_nil _).symm, le_rfl, le_max_left _ _, nofun, rfl, rfl⟩
  | succ n ih =>
    have hrest : ∀ j < i + 1 + n, ∃ ph, parsePhdr bytes (eh.ePhoff + j * eh.ePhentsize) = some (.ok ph) :=
      fun j hj => hparse j (by omega)
    obtain ⟨ph, hph⟩ := hparse i (by omega)
    rw [Elf.loadSegments, hph, bind_eq_bind, bind_some]
    simp only
    rw [range'_succ, filterMap_cons] at hphs
    by_cases hloads : ph.Loads
    · rw [segmentAt_eq_some.2 ⟨hph, hloads⟩] at hphs
      generalize hphs' : (range' (i + 1) n).filterMap (segmentAt bytes eh) = phs' at hphs
      subst hphs
      rw [length_cons] at hlen
      have hnew : ∀ x ∈ l, x.1.SpanApart ph := fun x hx =>
        (pairwise_append.1 hapart).2.2 x.1 (mem_map_of_mem hx) ph (.head _)
      have hph' := hfine ph (.head _)
      obtain ⟨a, w₁, halloc, henough'⟩ := henough w hw
      obtain ⟨s', w', hseg, h', hw', hok', hstart⟩ :=
        h.loadSegment hph' (by omega) hnew hbytes hloads.2 hok halloc
      have hlist : (l ++ [(ph, a)]).map Prod.fst ++ phs' = l.map Prod.fst ++ ph :: phs' := by simp
      obtain ⟨l', highest', s'', w'', hloop, hl', hfst, hle, hmax, hends, htop, hstart'⟩ :=
        ih (max highest (ph.pVaddr + ph.pMemsz)) h' (hok' ▸ hok) hrest hphs'
          (fun q hq => hfine q (.tail _ hq))
          (by rw [length_append, length_singleton]; omega) (hlist ▸ hapart) henough' hw'
      have hend : ph.pVaddr + ph.pMemsz ≤ 2 ^ 47 := hph'.spec.2.2.2.2.2.trans hph'.below
      rw [if_pos hloads, hseg]
      refine ⟨l', highest', s'', w'', hloop, hl', hfst.trans hlist, by omega, by omega,
        forall_mem_cons.2 ⟨by omega, hends⟩, htop, hstart'.trans hstart⟩
    · have hnone : segmentAt bytes eh i = none := by
        rw [eq_none_iff_forall_ne_some]
        intro q hq
        obtain ⟨hq, hq'⟩ := segmentAt_eq_some.1 hq
        exact hloads (Except.ok.inj (some.inj (hph.symm.trans hq)) ▸ hq')
      rw [hnone] at hphs
      rw [if_neg hloads]
      exact ih highest h hok hrest hphs hfine hlen hapart henough hw

/-! ### The image -/

/-- All `PT_LOAD` headers. -/
def ptLoads (bytes : List UInt8) (eh : Ehdr) : List Phdr :=
  (List.range eh.ePhnum).filterMap fun i =>
    ((parsePhdr bytes (eh.ePhoff + i * eh.ePhentsize)).bind Except.toOption).filter fun ph =>
      ph.pType = 1

/-- An image with a header for the machine, a table of program headers, and the segments `phs`,
which are few, fine, and apart. -/
@[mk_iff] structure ValidImage (emTarget : ℕ) (bytes : List UInt8) (eh : Ehdr)
    (phs : List Phdr) : Prop where
  length_lt : bytes.length < 2 ^ 64
  header : parseEhdr emTarget bytes = some (.ok eh)
  entsize : 56 ≤ eh.ePhentsize
  table : eh.ePhoff + eh.ePhentsize * eh.ePhnum ≤ bytes.length
  count : phs.length ≤ 8
  fine : ∀ ph ∈ phs, ph.Fine bytes
  apart : phs.Pairwise Phdr.SpanApart

/-- The segments that are not empty. -/
def nonempty (phs : List Phdr) : List Phdr := phs.filter fun ph => ph.pMemsz ≠ 0

theorem segments_eq (bytes : List UInt8) (eh : Ehdr) :
    (range eh.ePhnum).filterMap (segmentAt bytes eh) = nonempty (ptLoads bytes eh) := by
  rw [nonempty, ptLoads, filter_filterMap]
  refine filterMap_congr fun i _ => ?_
  rw [segmentAt, Option.filter_filter]
  refine congrArg (fun p => Option.filter p _) (funext fun ph => ?_)
  by_cases htype : ph.pType = 1 <;> by_cases hsize : ph.pMemsz = 0 <;>
    simp [Phdr.Loads, hsize]

/-- What a program finds of a segment. -/
structure Faithful (bytes : List UInt8) (ph : Phdr) (s : AddressSpace) (w : Host) : Prop where
  /-- The bytes of the file. -/
  file : ∀ i < ph.pFilesz,
    w.userByte s.pageTableRoot (ph.pVaddr + i) = bytes[ph.pOffset + i]?
  /-- Zeros behind them. -/
  zero : ∀ i, ph.pFilesz ≤ i → i < ph.pMemsz → w.userByte s.pageTableRoot (ph.pVaddr + i) = some 0
  /-- Its rights, in the region and in the page table. -/
  rights : ∃ r, s.find ph.pVaddr = some r ∧
    (r.flags.execute = true ↔ ph.pfX = true) ∧
    (r.flags.writable = true ↔ ph.pfW = true ∧ ph.pfX = false) ∧
    ∀ i < ph.pMemsz, r.Covers (ph.pVaddr + i) ∧
      (w.pt s.pageTableRoot (alignDown (ph.pVaddr + i) pageSize)).map Leaf.flags = some r.flags
  /-- The heap is at least a page away. -/
  heap : ph.pVaddr + ph.pMemsz + pageSize ≤ s.heapStart

/-- The regions are those of the segments. -/
theorem Loaded.regions_spans (h : Loaded bytes l s w) :
    s.regions.filterMap (Option.map fun r => (r.start, r.end_)) =
      l.map fun x => (x.1.pageVaddr, x.1.spanEnd) := by
  rw [h.regions, filterMap_append, filterMap_replicate_of_none rfl, append_nil, filterMap_map,
    filterMap_eq_map_iff_forall_eq_some.2]
  intro x hx
  have hspan := (h.fine x hx).spec.2.2.2.1
  simp [Phdr.region, eagerRegion, hspan]

theorem Loaded.placeHeap (h : Loaded bytes l s w) (highest : ℕ) :
    Loaded bytes l (placeHeap s highest) w := by
  refine ⟨by rw [placeHeap_regions, h.regions], h.fine, h.held,
    by rw [placeHeap_root]; exact h.maps, h.filled, ?_⟩
  unfold Elf.placeHeap
  split
  · refine ⟨rfl, ?_⟩
    change pageSize ∣ wadd (alignUp highest pageSize) pageSize
    unfold alignUp alignDown wadd pageSize
    omega
  · exact h.heap

/-- The heap is at least a page behind everything. -/
theorem add_le_heapStart {highest : ℕ} (hpos : 0 < highest) (hle : highest ≤ 2 ^ 47) :
    highest + pageSize ≤ (placeHeap s highest).heapStart := by
  rw [placeHeap, if_pos hpos]
  simp only
  unfold alignUp alignDown wadd pageSize
  omega

/-- Only the segment's own region covers its first byte. -/
theorem Loaded.find (h : Loaded bytes l s w) (hapart : (l.map Prod.fst).Pairwise Phdr.SpanApart)
    {x : Phdr × ℕ} (hx : x ∈ l) (hne : x.1.pMemsz ≠ 0) :
    s.find x.1.pVaddr = some (x.1.region x.2) := by
  have hcovers : ∀ y ∈ l, (y.1.region y.2).Covers x.1.pVaddr ↔
      y.1.pageVaddr ≤ x.1.pVaddr ∧ x.1.pVaddr < y.1.spanEnd := by
    intro y hy
    rw [← (h.fine y hy).spec.2.2.2.1]
    exact Iff.rfl
  obtain ⟨-, hlo, -, -, -, hend⟩ := (h.fine x hx).spec
  cases hfind : s.find x.1.pVaddr with
  | none =>
    have hmem : some (x.1.region x.2) ∈ s.regions := by
      rw [h.regions]
      exact mem_append_left _ (mem_map.2 ⟨x, hx, rfl⟩)
    exact absurd ((hcovers x hx).2 ⟨hlo, by omega⟩) (find_eq_none hfind _ hmem)
  | some =>
    obtain ⟨hr, hcov⟩ := find_spec hfind
    rw [h.regions] at hr
    rcases mem_append.1 hr with hr | hr
    · obtain ⟨y, hy, hyr⟩ := mem_map.1 hr
      cases hyr
      by_cases hxy : y = x
      · rw [hxy]
      · have : Std.Symm fun x y : Phdr × ℕ => x.1.SpanApart y.1 := ⟨fun _ _ h => Or.symm h⟩
        have hap := (pairwise_map.1 hapart).forall hy hx hxy
        have hycov := (hcovers y hy).1 hcov
        rcases hap with hap | hap <;> omega
    · cases (mem_replicate.1 hr).2

theorem Loaded.faithful (h : Loaded bytes l s w) (hapart : (l.map Prod.fst).Pairwise Phdr.SpanApart)
    {x : Phdr × ℕ} (hx : x ∈ l) (hne : x.1.pMemsz ≠ 0)
    (hheap : x.1.pVaddr + x.1.pMemsz + pageSize ≤ s.heapStart) : Faithful bytes x.1 s w := by
  obtain ⟨-, hlo, -, hspan, -, hend⟩ := (h.fine x hx).spec
  have hfile := (h.fine x hx).file_le
  have hfilesz := (h.fine x hx).filesz_le
  have hdvd : pageSize ∣ x.1.pageVaddr := dvd_alignDown _ _
  have hbyte : ∀ i < x.1.pMemsz, w.userByte s.pageTableRoot (x.1.pVaddr + i) =
      some (if i < x.1.pFilesz then bytes.getD (x.1.pOffset + i) 0 else 0) := by
    intro i hi
    rw [(h.maps x hx).userByte hdvd (by omega) (by omega), ← h.filled x hx i hi]
    congr 2
    omega
  refine ⟨fun i hi => ?_, fun i hi hi' => ?_, ⟨x.1.region x.2, h.find hapart hx hne, Iff.rfl, ?_,
    fun i hi => ⟨⟨?_, ?_⟩, ?_⟩⟩, hheap⟩
  · have hlt : x.1.pOffset + i < bytes.length := by omega
    rw [hbyte i (by omega), if_pos hi, getD_eq_getElem?_getD, getElem?_eq_getElem hlt, getD_some]
  · rw [hbyte i hi', if_neg (not_lt.2 hi)]
  · simp [Phdr.region, eagerRegion, Phdr.flags, PageFlags.ofUser]
  · exact hlo.trans (le_add_right _ _)
  · change x.1.pVaddr + i < x.1.pageVaddr + x.1.pages * pageSize
    omega
  · obtain ⟨p, hleaf, -⟩ := (h.maps x hx).leaf hdvd (hlo.trans (le_add_right _ i)) (by omega)
    rw [hleaf]
    rfl

/-- **The loader is faithful.**  With enough memory it loads every valid image, and the program
finds each of its segments that is not empty, and the heap behind them.  An empty segment gets no
region, and does not count for the heap. -/
theorem load_faithful {emTarget root : ℕ} {bytes : List UInt8} {eh : Ehdr} {w : Host}
    (himage : ValidImage emTarget bytes eh (nonempty (ptLoads bytes eh)))
    (hok : ∀ t, w.mapOk t = true)
    (henough : w.Enough ((nonempty (ptLoads bytes eh)).map fun ph => pagesToOrder ph.pages)) :
    ∃ s w', load emTarget bytes (.new root) w = some (.ok eh.eEntry, s, w') ∧
      s.heapStart = s.heapEnd ∧ pageSize ∣ s.heapStart ∧
      (∀ ph ∈ nonempty (ptLoads bytes eh), Faithful bytes ph s w') ∧
      s.regions.filterMap (Option.map fun r => (r.start, r.end_)) =
        (nonempty (ptLoads bytes eh)).map (fun ph => (ph.pageVaddr, ph.spanEnd)) ∧
      s.heapStart = (placeHeap (.new root) (highestEnd 0 (nonempty (ptLoads bytes eh)))).heapStart := by
  have htable := himage.table
  have hlt := himage.length_lt
  have hparse : ∀ j < 0 + eh.ePhnum, ∃ ph,
      parsePhdr bytes (eh.ePhoff + j * eh.ePhentsize) = some (.ok ph) := by
    intro j hj
    have hj' : (j + 1) * eh.ePhentsize ≤ eh.ePhnum * eh.ePhentsize := mul_le_mul_right _ (by omega)
    have hsize := himage.entsize
    rw [add_mul, mul_comm eh.ePhnum] at hj'
    exact parsePhdr_ok (by omega)
  have hsegments := segments_eq bytes eh
  rw [range_eq_range'] at hsegments
  obtain ⟨l, highest, s, w', hloop, hl, hfst, -, hmax, hends, htop, hstart⟩ :=
    (loaded_nil bytes root w).loadSegments 0 hlt hok hparse hsegments himage.fine
      (by simpa using himage.count) himage.apart henough (.refl w)
  rw [map_nil, nil_append] at hfst
  rw [max_eq_right (zero_le _)] at hmax
  have hl' := hl.placeHeap highest
  refine ⟨placeHeap s highest, w', ?_, hl'.heap.1, hl'.heap.2, fun ph hph => ?_, ?_, ?_⟩
  · simp only [load, himage.header, checkedAdd_eq_some.2 ⟨lt_of_le_of_lt htable hlt, rfl⟩,
      if_neg (not_lt.2 htable), hloop, bind_eq_bind, bind_some]
  · obtain ⟨x, hx, rfl⟩ := mem_map.1 (hfst.symm ▸ hph)
    have hne : x.1.pMemsz ≠ 0 := of_decide_eq_true (mem_filter.1 hph).2
    have hend := hends x.1 hph
    have hheap := add_le_heapStart (s := s) (lt_of_lt_of_le (by omega) hend) hmax
    exact hl'.faithful (hfst.symm ▸ himage.apart) hx hne (by omega)
  · rw [← hfst, hl'.regions_spans, List.map_map]
    rfl
  · rw [← htop, placeHeap, placeHeap]
    split
    · rfl
    · exact hstart

instance (bytes : List UInt8) : DecidablePred (Phdr.Fine bytes) :=
  fun ph => decidable_of_iff' _ (Phdr.fine_iff bytes ph)

instance : DecidableRel Phdr.SpanApart := fun _ _ => inferInstanceAs (Decidable (_ ∨ _))

instance (emTarget : ℕ) (bytes : List UInt8) (eh : Ehdr) (phs : List Phdr) :
    Decidable (ValidImage emTarget bytes eh phs) :=
  decidable_of_iff' _ (validImage_iff ..)

/-- The header of the tiny image. -/
def tinyHeader : Ehdr := ⟨2, 183, 0x400000, 64, 56, 1⟩

/-- The bytes of a program header of a segment. -/
def phdrBytes (ph : Phdr) : List UInt8 :=
  leBytes 4 ph.pType ++ leBytes 4 ph.pFlags ++ leBytes 8 ph.pOffset ++ leBytes 8 ph.pVaddr ++
    leBytes 8 0 ++ leBytes 8 ph.pFilesz ++ leBytes 8 ph.pMemsz ++ leBytes 8 0x1000

/-- Code, and data which is followed by zeros into the next page. -/
def twoSegments : List Phdr := [⟨1, 5, 232, 0x400000, 8, 8⟩, ⟨1, 6, 240, 0x402010, 4, 0x1010⟩]

/-- An image with these segments, an empty one above them, and twelve bytes. -/
def twoImage : List UInt8 :=
  tinyImage.take 56 ++ leBytes 2 3 ++ leBytes 6 0 ++ twoSegments.flatMap phdrBytes ++
    phdrBytes ⟨1, 6, 0, 0x500000, 0, 0⟩ ++ [1, 2, 3, 4, 5, 6, 7, 8, 9, 10, 11, 12]

/-- The allocator answers an order with a block that is free. -/
theorem enough_cons {w : Host} {a order : ℕ} {orders : List ℕ}
    (hans : ∀ t, w.answer t order = some a) (ho : order < maxOrder)
    (hfresh : Fresh pageSize w.log ⟨a, order⟩)
    (hrest : ∀ w₂ : Host, w₂.answer = w.answer → w₂.log = .alloc ⟨a, order⟩ :: w.log →
      w₂.Enough orders) : w.Enough (order :: orders) := by
  intro w₁ hw
  have hchoice : w₁.choice order = some a := by
    refine filter_eq_some_iff.2 ⟨by rw [hw.answer, hans], decide_eq_true ?_⟩
    rw [hw.log]
    exact hfresh
  have halloc : ∃ w₂, buddyAlloc w₁ order = some (some a, w₂) := by
    simp only [buddyAlloc]
    rw [if_pos ho, hchoice]
    exact ⟨_, rfl⟩
  obtain ⟨w₂, halloc⟩ := halloc
  have hlog := (Frames.buddyAlloc_some (buddyAlloc_toFrames halloc).1).2.2.1
  refine ⟨a, w₂, halloc, hrest w₂ ?_ (hlog.trans (by rw [hw.log]))⟩
  exact (buddyAlloc_oracles halloc).1.trans hw.answer

/-- A machine with a block of each order. -/
def orderHost : Host :=
  .init Frames.byOrder.answer (fun _ => true) (fun _ => 0) (fun _ => 0) fun _ _ => 0

/-- The two segments are found, and nothing of the third. -/
theorem twoImage_faithful :
    ∃ s w', load 183 twoImage (.new 0x1000) orderHost = some (.ok 0x400000, s, w') ∧
      s.heapStart = s.heapEnd ∧ pageSize ∣ s.heapStart ∧
      (∀ ph ∈ twoSegments, Faithful twoImage ph s w') ∧
      s.regions.filterMap (Option.map fun r => (r.start, r.end_)) =
        [(0x400000, 0x401000), (0x402000, 0x404000)] ∧ s.heapStart = 0x405000 := by
  have hloads : nonempty (ptLoads twoImage ⟨2, 183, 0x400000, 64, 56, 3⟩) = twoSegments := by
    decide +kernel
  have horders : twoSegments.map (fun ph => pagesToOrder ph.pages) = [0, 1] := by decide +kernel
  have henough : orderHost.Enough [0, 1] :=
    enough_cons (fun _ => rfl) (by decide) (by decide) fun w hans hlog =>
      enough_cons (fun t => by rw [hans]; rfl) (by decide) (by rw [hlog]; decide) fun _ _ _ => trivial
  have h := @load_faithful 183 0x1000 twoImage ⟨2, 183, 0x400000, 64, 56, 3⟩ orderHost
    (by decide +kernel) (fun _ => rfl) (by rw [hloads, horders]; exact henough)
  rw [hloads] at h
  exact h

/-- An image whose only segment is empty. -/
def emptyImage : List UInt8 := tinyImage.take 104 ++ List.replicate 16 0

/-- The segment of that image. -/
def emptySegment : Phdr := ⟨1, 5, 0, 0x400000, 0, 0⟩

/-- **An empty segment is skipped**: it has no region, and is not below the heap. -/
theorem empty_segment_above_heap :
    ∃ eh ph s w', ValidImage 183 emptyImage eh (ptLoads emptyImage eh) ∧
      ph ∈ ptLoads emptyImage eh ∧
      load 183 emptyImage (.new 0x1000) Host.roomy = some (.ok eh.eEntry, s, w') ∧
      s.find ph.pVaddr = none ∧ s.heapStart < ph.pVaddr + ph.pMemsz + pageSize := by
  obtain ⟨⟨res, s, w'⟩, hload, rfl, hs⟩ : ∃ x,
      load 183 emptyImage (.new 0x1000) roomy = some x ∧ x.1 = .ok 0x400000 ∧
      x.2.1.find 0x400000 = none ∧ x.2.1.heapStart < 0x400000 + 0 + pageSize :=
    exists_of_any (by decide +kernel)
  exact ⟨tinyHeader, emptySegment, s, w', by decide +kernel, by decide +kernel, hload, hs⟩

end Elf

end Cyanos
