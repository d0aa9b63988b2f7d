import Cyanos.Mm.Frames
import Cyanos.Mm.Upkeep
import Mathlib.Data.List.Pairwise

/-!
# No mapping of a freed frame

The invariant `Safe`: the blocks an address space holds are apart and held according to the ledger,
every leaf of its page table points to a page that is held, and a leaf that points into a holding is
at one of the holding's own addresses.  Retiring a holding then leaves no leaf that points into it.

## Main results

* `Space.safe_of_run` : the invariant holds in every run that cuts eager regions only at their end
  and moves the break only of lazy heaps.
* `Space.no_leaf_to_returned` : in these runs no leaf points to a page that was given back.
-/

namespace Cyanos

open Lib Machine Block Frames List

/-- Holdings are apart and held; leaves point to held pages, and into a holding only from its own
addresses. -/
structure Safe (root : ℕ) (hs : List Holding) (w : Frames) : Prop where
  held : Held pageSize w.log (blocksOf hs)
  leaf : ∀ va l, w.pt root va = some l →
    pageSize ∣ l.phys ∧ pageState pageSize l.phys w.log = .held ∧
      ∀ h ∈ hs, h.block.Has pageSize l.phys → h.At va

/-- The pages of a block are at multiples of the page size, without wrapping. -/
theorem page_of_block {a o j : ℕ} (hd : pageSize ∣ a)
    (hle : a + size pageSize ⟨a, o⟩ ≤ 2 ^ 64) (hj : j < 2 ^ o) :
    pageSize ∣ wadd a (j * pageSize) ∧ Has pageSize ⟨a, o⟩ (wadd a (j * pageSize)) := by
  obtain ⟨heq, hhas⟩ := wadd_page (b := ⟨a, o⟩) hle le_rfl hj
  rw [heq]
  exact ⟨Nat.dvd_add hd (Nat.dvd_mul_left _ _), hhas⟩

namespace Safe

variable {root : ℕ} {hs hs' : List Holding} {h h' : Holding} {w w' : Frames} {b : Block}

theorem held_of_mem (hsafe : Safe root hs w) (hh : h ∈ hs) : HeldBlock pageSize w.log h.block :=
  hsafe.held.block _ (mem_map_of_mem hh)

/-- The blocks of two holdings are apart. -/
theorem apart (hsafe : Safe root hs w) : hs.Pairwise fun h h' => Apart pageSize h.block h'.block :=
  pairwise_map.1 hsafe.held.apart

/-- Fewer leaves. -/
theorem mono (hsafe : Safe root hs w) (hlog : w'.log = w.log)
    (hpt : ∀ va l, w'.pt root va = some l → w.pt root va = some l) : Safe root hs w' where
  held := hlog ▸ hsafe.held
  leaf va l hl := hlog ▸ hsafe.leaf va l (hpt va l hl)

theorem sublist (hsafe : Safe root hs w) (hsub : hs'.Sublist hs) : Safe root hs' w where
  held := hsafe.held.sublist (hsub.map _)
  leaf va l hl := by
    obtain ⟨hd, hheld, hat⟩ := hsafe.leaf va l hl
    exact ⟨hd, hheld, fun h hh => hat h (hsub.subset hh)⟩

theorem perm (hsafe : Safe root hs w) (hp : hs.Perm hs') : Safe root hs' w where
  held := hsafe.held.perm (hp.map _)
  leaf va l hl := by
    obtain ⟨hd, hheld, hat⟩ := hsafe.leaf va l hl
    exact ⟨hd, hheld, fun h hh => hat h (hp.symm.subset hh)⟩

/-- A fresh block becomes a holding, with leaves at its own addresses. -/
theorem adopt (hsafe : Safe root hs w) (hfresh : Fresh pageSize w.log h.block)
    (hlog : w'.log = .alloc h.block :: w.log)
    (hpt : ∀ va l, w'.pt root va = some l → w.pt root va = some l ∨
      pageSize ∣ l.phys ∧ h.block.Has pageSize l.phys ∧ h.At va) :
    Safe root (h :: hs) w' := by
  have hheld : Held pageSize w'.log (blocksOf (h :: hs)) := hlog ▸ hsafe.held.alloc hfresh
  refine ⟨hheld, fun va l hl => ?_⟩
  rcases hpt va l hl with hl | ⟨hd, hbl, hva⟩
  · -- what was held before is outside the new block, and still held
    obtain ⟨hd, hl, hat⟩ := hsafe.leaf va l hl
    have hnot := hfresh.not_has hd hl
    refine ⟨hd, by rw [hlog, pageState_alloc_of_not_has hnot, hl], fun h' hh' hx => ?_⟩
    rcases mem_cons.1 hh' with rfl | hh'
    · exact absurd hx hnot
    · exact hat h' hh' hx
  · refine ⟨hd, by rw [hlog, pageState_alloc_of_has hbl], fun h' hh' hx => ?_⟩
    rcases mem_cons.1 hh' with rfl | hh'
    · exact hva
    · have hap := hsafe.held.apart_of_fresh hfresh (mem_map_of_mem hh')
      exact absurd ⟨hbl, hx⟩ (hap l.phys)

/-- Retiring a holding leaves no leaf that points into it. -/
theorem retire (hsafe : Safe root (h :: hs) w) (hret : retire root w h = some w') :
    Safe root hs w' := by
  obtain rfl := buddyFree_some hret
  refine ⟨?_, fun va l hl => ?_⟩
  · rw [unmapPages_log]
    exact hsafe.held.free
  · obtain ⟨hl, hgone⟩ := unmapPages_pt.1 hl
    obtain ⟨hd, hheld, hat⟩ := hsafe.leaf va l hl
    have hnot : ¬ h.block.Has pageSize l.phys := by
      intro hx
      obtain ⟨i, hi, hva⟩ := hat h (.head _) hx
      exact hgone rfl i hi hva
    refine ⟨hd, ?_, fun h' hh' => hat h' (.tail _ hh')⟩
    rw [pageState_free_of_not_has hnot, unmapPages_log]
    exact hheld

/-- Mapping a page of a holding at its own address. -/
theorem mapPage (hsafe : Safe root hs w) (hh : h ∈ hs) {va phys : ℕ} (hva : h.At va)
    (hd : pageSize ∣ phys) (hx : h.block.Has pageSize phys) (flags : PageFlags) :
    Safe root hs (mapPage w root va phys flags).2 := by
  obtain ⟨hlog, hpt⟩ := mapPage_spec
    (Prod.mk.eta (p := Machine.mapPage w root va phys flags)).symm
  refine ⟨hlog ▸ hsafe.held, fun va' l hl => ?_⟩
  rcases hpt root va' l hl with hl | ⟨-, -, rfl, rfl⟩
  · exact hlog ▸ hsafe.leaf va' l hl
  · refine ⟨hd, hlog ▸ (hsafe.held_of_mem hh).held _ hd hx, fun h' hh' hx' => ?_⟩
    by_cases he : h' = h
    · exact he ▸ hva
    · exact absurd ⟨hx', hx⟩ (hsafe.apart.forall hh' hh he phys)

/-- A holding that gives up the end of its range: the leaves into what is left are at what is left
of its addresses. -/
theorem shrink (hsafe : Safe root (h :: hs) w) (hlog : w'.log = w.log)
    (haddr : h'.block.addr = h.block.addr) (horder : h'.block.order ≤ h.block.order)
    (hpt : ∀ va l, w'.pt root va = some l → w.pt root va = some l ∧ (h.At va → h'.At va)) :
    Safe root (h' :: hs) w' := by
  have hheld : Held pageSize w'.log (blocksOf (h' :: hs)) := hlog ▸ hsafe.held.shrink haddr horder
  refine ⟨hheld, fun va l hl => ?_⟩
  obtain ⟨hl, hat'⟩ := hpt va l hl
  obtain ⟨hd, hl, hat⟩ := hsafe.leaf va l hl
  refine ⟨hd, hlog ▸ hl, fun k hk hx => ?_⟩
  rcases mem_cons.1 hk with rfl | hk
  · exact hat' (hat h (.head _) (Held.has_of_shorter haddr horder hx))
  · exact hat k (.tail _ hk) hx

/-- Cutting an eager region at its back unmaps the addresses it gives up, if the cut reaches the
end of the region. -/
theorem trim {virt end_ : ℕ} {r : VmaRegion} (hend : r.end_ ≤ end_) (hr : r.Shaped)
    (hl : r.lazy = false) (hvirt : pageSize ∣ virt) (hgt : r.start < virt) (hlt : virt < r.end_)
    (hsafe : Safe root (⟨⟨r.phys, pagesToOrder r.pages⟩, r.start, r.pages⟩ :: hs) w) :
    Safe root (⟨⟨r.phys, pagesToOrder ({ r with end_ := virt } : VmaRegion).pages⟩, r.start,
      ({ r with end_ := virt } : VmaRegion).pages⟩ :: hs)
      (unmapPages w root virt (wsub (min end_ r.end_) virt / pageSize)) := by
  have hend_lt := hr.end_lt
  have hpages : r.pages = (r.end_ - r.start) / pageSize := by
    rw [VmaRegion.pages, wsub_of_le hend_lt (hr.le hl)]
  have hpages' : ({ r with end_ := virt } : VmaRegion).pages = (virt - r.start) / pageSize := by
    rw [VmaRegion.pages, wsub_of_le (by omega) hgt.le]
  have hn : wsub (min end_ r.end_) virt = r.end_ - virt := by
    rw [min_eq_right hend, wsub_of_le hend_lt hlt.le]
  refine hsafe.shrink unmapPages_log rfl ?_ fun va l hl => ?_
  · refine pagesToOrder_mono ?_ (VmaRegion.pages_le r)
    rw [hpages', hpages]
    exact Nat.div_le_div_right (by omega)
  · obtain ⟨hl, hgone⟩ := unmapPages_pt.1 hl
    refine ⟨hl, ?_⟩
    rintro ⟨i, hi, hva⟩
    refine ⟨i, ?_, hva⟩
    by_contra hge
    obtain ⟨a, ha⟩ := hr.dvd_start
    obtain ⟨b, hb⟩ := hvirt
    obtain ⟨c, hc⟩ := hr.dvd_end
    simp only [hpages', hpages, pageSize] at hi hge ha hb hc
    refine hgone rfl (i - (virt - r.start) / 4096) ?_ ?_
    · rw [hn, pageSize]; omega
    · rw [hva]
      simp only [wadd, pageSize]
      congr 1
      omega

/-- The rules for the invariant: cuts of eager regions reach the end of the region. -/
theorem upkeep (root : ℕ) :
    Upkeep root (fun _ => True) (fun _ end_ r => r.end_ ≤ end_) (Safe root) where
  perm hp hsafe := hsafe.perm hp
  sublist hsub hsafe := hsafe.sublist hsub
  addr_lt hh hsafe := addr_lt (by decide) (hsafe.held_of_mem hh).le
  word halloc := by
    obtain ⟨-, hfresh, -⟩ := buddyAlloc_some halloc
    exact addr_lt (by decide) hfresh.2.1
  fail halloc hsafe := by
    rw [buddyAlloc_none halloc]
    exact hsafe.mono rfl fun _ _ hl => hl
  adopt halloc hn _ hmap hsafe := by
    obtain ⟨-, hfresh, hlog, hpt, -⟩ := buddyAlloc_some halloc
    obtain ⟨hlog2, hpt2⟩ := mapPages_spec hmap
    refine hsafe.adopt hfresh (hlog2.trans hlog) fun va l hl => ?_
    rcases hpt2 _ va l hl with hl | ⟨-, j, -, hj, hva, rfl⟩
    · exact .inl (hpt ▸ hl)
    · rw [Nat.zero_add] at hj
      have hle := mapPages_getD_le hmap
      obtain ⟨hd, hx⟩ := page_of_block (j := j) hfresh.1 hfresh.2.1 (by omega)
      exact .inr ⟨hd, hx, j, hj, hva⟩
  retire _ hret hsafe := hsafe.retire hret
  unmap _ hsafe := hsafe.mono rfl fun _ _ hl => pt_of_unmapPage hl
  remap hh hi hi' _ hsafe := by
    obtain ⟨hd, hx⟩ := page_of_block (hsafe.held_of_mem hh).dvd (hsafe.held_of_mem hh).le hi'
    exact hsafe.mapPage hh ⟨_, hi, rfl⟩ hd hx _
  whole _ hend := hend
  front hC _ := hC
  trim hC hr hl hvirt hgt hlt _ hsafe := hsafe.trim hC hr hl hvirt hgt hlt

end Safe

/-! ### Runs -/

namespace Space

/-- `unmap_range` cuts eager regions only at their end, and `brk` finds a lazy heap. -/
def KeepsBlocks (s : Space Frames) : Call → Prop
  | .unmapRange virt len => ∀ lo hi, AddressSpace.unmapBounds virt len = some (lo, hi) →
      ∀ r, some r ∈ s.as.regions → r.CutAtEnd lo hi
  | .brk _ => s.HeapLazy
  | _ => True

instance (s : Space Frames) (c : Call) : Decidable (s.KeepsBlocks c) := by
  rcases c <;> dsimp only [KeepsBlocks] <;> infer_instance

/-- What every state of a run satisfies. -/
abbrev SafeState (s : Space Frames) : Prop :=
  s.as.Kept s.as.pageTableRoot (fun _ => True) (Safe s.as.pageTableRoot) s.w

theorem safe_step {s s' : Space Frames} {c : Call} (hs : s.SafeState) (hc : s.KeepsBlocks c)
    (h : s.step c = some s') : s'.SafeState := by
  have U := Safe.upkeep s.as.pageTableRoot
  suffices hk : s'.as.Kept s.as.pageTableRoot (fun _ => True) (Safe s.as.pageTableRoot) s'.w by
    rw [SafeState, hk.root_eq]
    exact hk
  refine U.step hs ?_ ?_ h
  · rintro virt len rfl
    exact hc
  · rintro newEnd rfl
    exact hc

variable {root heapStart heapEnd : ℕ} {answer : ℕ → ℕ → Option ℕ} {mapOk : ℕ → Bool}
  {s : Space Frames}

/-- The invariant holds in every run. -/
theorem safe_of_run
    (h : Run step KeepsBlocks (new root heapStart heapEnd (Frames.init answer mapOk)) s) :
    s.SafeState := by
  refine h.invariant ⟨rfl, AddressSpace.shaped_new _ _ _, fun r hr => ?_, ?_⟩
    fun s c s' hs hc hst => safe_step hs hc hst
  · cases eq_of_mem_replicate hr
  · exact ⟨.nil _, nofun⟩

/-- **No mapping of a freed frame.**  In every run that cuts eager regions only at their end and
moves the break only of lazy heaps, no leaf of the page table points to a page that was given
back. -/
theorem no_leaf_to_returned
    (h : Run step KeepsBlocks (new root heapStart heapEnd (Frames.init answer mapOk)) s) :
    ∀ va l, s.w.pt s.as.pageTableRoot va = some l →
      pageState pageSize l.phys s.w.log ≠ .returned := by
  intro va l hl hret
  have hheld := ((safe_of_run h).holds.leaf va l hl).2.1
  rw [hret] at hheld
  cases hheld

/-- Eight eager pages are mapped, cut at their end and then unmapped, which gives back their block;
four others are mapped, and a fault maps a page of the heap. -/
def mapCutFree : List Call :=
  [.map 0x10000 0x8000 (.ofUser true false), .unmapRange 0x16000 0x2000, .unmapRange 0x10000 0x6000,
    .map 0x30000 0x4000 (.ofUser true false), .brk 0x402000, .fault 0x401000]

theorem mapCutFree_no_leaf_to_returned :
    ∃ s, Run step KeepsBlocks (new 0x2000 0x400000 0x400000 Frames.byOrder) s ∧
      (pageState pageSize 0x400000 s.w.log = .returned ∧
        s.w.pt 0x2000 0x30000 = some ⟨0x300000, .ofUser true false⟩ ∧
        s.w.pt 0x2000 0x401000 = some ⟨0x100000, .ofUser true false⟩) ∧
      ∀ va l, s.w.pt s.as.pageTableRoot va = some l →
        pageState pageSize l.phys s.w.log ≠ .returned :=
  Run.exists_guarded_with mapCutFree (by decide +kernel) fun _ hrun _ => no_leaf_to_returned hrun

/-- Eight eager pages are mapped; the sixth is unmapped, which cuts the region after the fifth and
leaves the last two mapped; unmapping the first five then frees the block of eight. -/
theorem middle_cut_leaves_leaf_to_returned :
    ∃ s, Reach step (new 0x200000 0 0 Frames.oneBlock) s ∧ ∃ l, s.w.pt s.as.pageTableRoot 0x16000 = some l ∧
      pageState pageSize l.phys s.w.log = .returned := by
  obtain ⟨s, hs, hl, hret⟩ : ∃ s, Reach step (new 0x200000 0 0 Frames.oneBlock) s ∧
      s.w.pt s.as.pageTableRoot 0x16000 = some ⟨0x106000, .ofUser true false⟩ ∧
      pageState pageSize 0x106000 s.w.log = .returned := Run.exists_of_foldlM
    [.map 0x10000 0x8000 (.ofUser true false), .unmapRange 0x15000 0x1000,
      .unmapRange 0x10000 0x5000] (by decide)
  exact ⟨s, hs, _, hl, hret⟩

end Space

end Cyanos
