import Cyanos.Mm.Frames
import Cyanos.Mm.RegionUpkeep
import Cyanos.Mm.Space

/-!
# Regions in good order

Each region has a counter `lazy_count` of its backed pages.  It is written and never read, and
stands beside the address space here: `Counted` is an address space, the counters of its slots and
the machine, and its calls do what those of `Space` do, and count.

A page that is not backed is an entry `0` of `lazy_pages`.  The allocator may give out the page at
address `0`, since it takes an available region from its base on; such a page is counted, and its
entry says that there is none.

## Main results

* `Counted.formed_run` : **all regions are non-empty ranges of whole pages, no two overlap, and the
  counters tell how many pages are backed**, in runs in which the allocator does not give out the
  page at address `0`.
* `Counted.count_of_page_zero` : what happens when it does.
-/

namespace Cyanos

open Lib Machine AddressSpace List Option Function Buddy Nat

/-- The number of pages that are backed. -/
def backed (fs : List ℕ) : ℕ := fs.countP (· ≠ 0)

/-- What the loop of `unmap_range` does to `lazy_count`, from index `i` on. -/
def lowerCount (first last : ℕ) : ℕ → List ℕ → ℕ → ℕ
  | _, [], n => n
  | i, f :: fs, n =>
    lowerCount first last (i + 1) fs (if first ≤ i ∧ i < last ∧ f ≠ 0 then n - 1 else n)

/-! ### Counting -/

theorem backed_cons (f : ℕ) (fs : List ℕ) :
    backed (f :: fs) = backed fs + if f ≠ 0 then 1 else 0 := by
  simp [backed, countP_cons]

theorem length_lazyHoldings (start i : ℕ) (fs : List ℕ) :
    (lazyHoldings start i fs).length = backed fs := by
  induction fs generalizing i with
  | nil => rfl
  | cons f fs ih =>
    rw [lazyHoldings, backed_cons]
    split
    · rw [length_cons, ih]
    · rw [ih, add_zero]

/-- The counter goes down by the number of pages that are freed. -/
theorem lowerCount_eq (first last i n : ℕ) (fs : List ℕ) :
    lowerCount first last i fs (n + backed fs) = n + backed (clearPages first last i fs) := by
  induction fs generalizing i n with
  | nil => rfl
  | cons f fs ih =>
    rw [lowerCount, clearPages, backed_cons, backed_cons]
    by_cases hf : f = 0
    · subst hf
      have h0 : (if first ≤ i ∧ i < last then 0 else 0) = 0 := ite_self 0
      simp only [h0, ne_eq, not_true_eq_false, and_false, if_false]
      exact ih ..
    · by_cases hin : first ≤ i ∧ i < last
      · simp only [hin, hf, ne_eq, not_false_eq_true, and_self, if_true, not_true_eq_false,
          if_false, ← add_assoc]
        exact ih ..
      · rw [if_neg fun h => hin ⟨h.1, h.2.1⟩, if_neg hin, if_pos hf, ← add_assoc,
          ← add_assoc, add_right_comm, ih .., add_right_comm]

/-- What is cut off at the front has been cleared. -/
theorem backed_drop {last k : ℕ} (fs : List ℕ) (hk : k ≤ last) :
    backed ((clearPages 0 last 0 fs).drop k) = backed (clearPages 0 last 0 fs) := by
  have hzero : ((clearPages 0 last 0 fs).take k).countP (· ≠ 0) = 0 := by
    rw [countP_eq_zero]
    intro f hf
    obtain ⟨j, hj⟩ := getElem?_of_mem hf
    rw [getElem?_take] at hj
    split at hj <;> [skip; cases hj]
    rw [getElem?_clearPages] at hj
    obtain ⟨g, -, rfl⟩ := map_eq_some_iff.1 hj
    rw [if_pos ⟨zero_le _, by omega⟩]
    decide
  conv_rhs => rw [backed, ← take_append_drop k (clearPages 0 last 0 fs), countP_append,
    hzero, zero_add]
  rfl

/-! ### The machine -/

/-- An address space with the counters of its regions, on a machine. -/
structure Counted (W : Type) where
  /-- The address space. -/
  as : AddressSpace
  /-- `lazy_count` of the region in each slot. -/
  lazyCount : ℕ → ℕ
  /-- The machine. -/
  w : W

namespace Counted

variable {W : Type} [Machine W]

/-- The calls. -/
inductive Call
  | map (virt size : ℕ) (flags : PageFlags)
  | mapLazy (virt size : ℕ) (flags : PageFlags)
  | fault (va : ℕ)
  | unmapRange (virt len : ℕ)
  | mprotect (addr len prot : ℕ)

/-- `AddressSpace::new`. -/
def new (root : ℕ) (w : W) : Counted W := ⟨.new root, fun _ => 0, w⟩

/-- The counter of a region that `map` or `map_lazy` has put into its slot begins at `0`. -/
def countNew (c : Counted W) (virt size : ℕ) (ok : Bool) : ℕ → ℕ :=
  match c.as.place virt size with
  | some (slot, _) => if ok then Function.update c.lazyCount slot 0 else c.lazyCount
  | none => c.lazyCount

/-- A fault that was handled is counted. -/
def countFault (c : Counted W) (va : ℕ) (ok : Bool) : ℕ → ℕ :=
  match c.as.lookup va with
  | some (slot, _) =>
    if ok then Function.update c.lazyCount slot (c.lazyCount slot + 1) else c.lazyCount
  | none => c.lazyCount

/-- The counter of a slot after its turn of the loop of `unmap_range`. -/
def countUnmap (lo hi : ℕ) (slot : Option VmaRegion) (n : ℕ) : ℕ :=
  match slot with
  | some r =>
    if r.Meets lo hi ∧ r.lazy then
      lowerCount (wsub (max lo r.start) r.start / pageSize)
        (wadd (wsub (min hi r.end_) r.start) (pageSize - 1) / pageSize) 0 r.lazyPages n
    else n
  | none => n

/-- The counters after `unmap_range(virt, len)`. -/
def countUnmapRange (c : Counted W) (virt len : ℕ) : ℕ → ℕ :=
  match AddressSpace.unmapBounds virt len with
  | some (lo, hi) => fun i => countUnmap lo hi (c.as.regions.getD i none) (c.lazyCount i)
  | none => c.lazyCount

/-- The address space after a call. -/
def step (c : Counted W) : Call → Option (Counted W)
  | .map virt size flags => (c.as.map c.w virt size flags).map fun (ok, as, w) =>
    ⟨as, c.countNew virt size ok, w⟩
  | .mapLazy virt size flags =>
    let (ok, as) := c.as.mapLazy virt size flags
    some ⟨as, c.countNew virt size ok, c.w⟩
  | .fault va => (c.as.handleUserPageFault c.w va).map fun (ok, as, w) =>
    ⟨as, c.countFault va ok, w⟩
  | .unmapRange virt len => (c.as.unmapRange c.w virt len).map fun (as, w) =>
    ⟨as, c.countUnmapRange virt len, w⟩
  | .mprotect addr len prot => (c.as.mprotect c.w addr len prot).map fun (_, as, w) =>
    ⟨as, c.lazyCount, w⟩

/-- The call of the memory manager. -/
def Call.toSpace : Call → Space.Call
  | .map virt size flags => .map virt size flags
  | .mapLazy virt size flags => .mapLazy virt size flags
  | .fault va => .fault va
  | .unmapRange virt len => .unmapRange virt len
  | .mprotect addr len prot => .mprotect addr len prot

/-- Counting changes nothing else. -/
theorem step_toSpace {c c' : Counted W} {call : Call} (h : c.step call = some c') :
    Space.step ⟨c.as, c.w⟩ call.toSpace = some ⟨c'.as, c'.w⟩ := by
  cases call with
  | mapLazy =>
    cases h
    rfl
  | _ =>
    obtain ⟨a, hop, rfl⟩ := map_eq_some_iff.1 h
    exact map_eq_some_iff.2 ⟨a, hop, rfl⟩

/-- The regions are non-empty ranges of whole pages that do not overlap, and are counted right. -/
structure Formed (c : Counted W) : Prop where
  bounds : ∀ r, some r ∈ c.as.regions → pageSize ∣ r.start ∧ pageSize ∣ r.end_ ∧ r.start < r.end_
  apart : ∀ (i j : ℕ) (r r' : VmaRegion), i ≠ j → c.as.regions[i]? = some (some r) →
    c.as.regions[j]? = some (some r') → r.end_ ≤ r'.start ∨ r'.end_ ≤ r.start
  count : ∀ (i : ℕ) (r : VmaRegion), c.as.regions[i]? = some (some r) → r.lazy = true →
    c.lazyCount i = backed r.lazyPages

/-- The sizes mapped can be rounded up to whole pages. -/
def Call.SizeFits : Call → Prop
  | .map _ size _ => size + (pageSize - 1) < 2 ^ 64
  | .mapLazy _ size _ => size + (pageSize - 1) < 2 ^ 64
  | _ => True

/-- Sizes can be rounded up, and the allocator does not answer a fault with the page at `0`. -/
def Guard (c : Counted W) (call : Call) : Prop :=
  call.SizeFits ∧ ∀ va, call = .fault va → ∀ w, buddyAlloc c.w 0 ≠ some (some 0, w)

end Counted

/-! ### Changes of the regions -/

/-- A non-empty part of a region. -/
structure VmaRegion.PartOf (r' r : VmaRegion) : Prop where
  start_le : r.start ≤ r'.start
  le_end : r'.end_ ≤ r.end_
  lt : r'.start < r'.end_
  lazy : r'.lazy = r.lazy

namespace Counted

variable {W : Type} {c c' : Counted W} {r r' : VmaRegion} {w w' : W} {root lo hi : ℕ}
  {virt size slot n : ℕ} {as : AddressSpace} {ok : Bool} {flags : PageFlags}

theorem formed_new (root : ℕ) (w : W) : (new root w).Formed := by
  have hnone : ∀ i r, (new root w).as.regions[i]? ≠ some (some r) :=
    fun i r h => all_new (P := fun _ => False) root r (mem_of_getElem? h)
  exact ⟨fun r hr => (all_new (P := fun _ => False) root r hr).elim,
    fun i _ r _ _ h => (hnone i r h).elim, fun i r h => (hnone i r h).elim⟩

/-- Regions that become parts of themselves, with their counters kept. -/
theorem Formed.of_partOf (h : c.Formed) (hs : c'.as.Shaped)
    (hpart : ∀ (i : ℕ) (r' : VmaRegion), c'.as.regions[i]? = some (some r') →
      ∃ r, c.as.regions[i]? = some (some r) ∧ r'.PartOf r ∧
        (r.lazy = true → c.lazyCount i = backed r.lazyPages →
          c'.lazyCount i = backed r'.lazyPages)) : c'.Formed := by
  refine ⟨fun r' hr' => ?_, fun i j r' q' hij hi hj => ?_, fun i r' hi hl => ?_⟩
  · obtain ⟨i, hi⟩ := getElem?_of_mem hr'
    obtain ⟨r, -, hw, -⟩ := hpart i r' hi
    exact ⟨(hs r' hr').dvd_start, (hs r' hr').dvd_end, hw.lt⟩
  · obtain ⟨r, hr, hw, -⟩ := hpart i r' hi
    obtain ⟨q, hq, hw', -⟩ := hpart j q' hj
    rcases h.apart i j r q hij hr hq with hle | hle
    · exact .inl (hw.le_end.trans (hle.trans hw'.start_le))
    · exact .inr (hw'.le_end.trans (hle.trans hw.start_le))
  · obtain ⟨r, hr, hw, hcount⟩ := hpart i r' hi
    have hlr : r.lazy = true := hw.lazy ▸ hl
    exact hcount hlr (h.count i r hr hlr)

/-- A region put into a slot, with its counter. -/
theorem Formed.setRegion (h : c.Formed) (hs : r.Shaped) (hlt : r.start < r.end_)
    (hapart : ∀ (j : ℕ) (r' : VmaRegion), j ≠ slot → c.as.regions[j]? = some (some r') →
      r.end_ ≤ r'.start ∨ r'.end_ ≤ r.start)
    (hn : r.lazy = true → n = backed r.lazyPages) :
    Formed ⟨c.as.setRegion slot r, update c.lazyCount slot n, w⟩ := by
  -- what is in a slot afterwards is the new region or was there before
  have hget : ∀ (i : ℕ) (q : VmaRegion), (c.as.regions.set slot (some r))[i]? = some (some q) →
      (i = slot ∧ q = r) ∨ (i ≠ slot ∧ c.as.regions[i]? = some (some q)) := by
    intro i q hq
    rw [getElem?_set] at hq
    split at hq
    · next hi =>
      split at hq
      · exact .inl ⟨hi.symm, (some.inj (some.inj hq)).symm⟩
      · cases hq
    · next hi => exact .inr ⟨Ne.symm hi, hq⟩
  refine ⟨fun q hq => ?_, fun i j q q' hij hi hj => ?_, fun i q hi hl => ?_⟩
  · rcases mem_or_eq_of_mem_set hq with hq | hq
    · exact h.bounds q hq
    · cases hq
      exact ⟨hs.dvd_start, hs.dvd_end, hlt⟩
  · rcases hget i q hi with ⟨rfl, rfl⟩ | ⟨hi', hiq⟩
    · rcases hget j q' hj with ⟨rfl, -⟩ | ⟨hj', hjq⟩
      · exact (hij rfl).elim
      · exact hapart j q' hj' hjq
    · rcases hget j q' hj with ⟨rfl, rfl⟩ | ⟨-, hjq⟩
      · exact (hapart i q hi' hiq).symm
      · exact h.apart i j q q' hij hiq hjq
  · rcases hget i q hi with ⟨rfl, rfl⟩ | ⟨hi', hi⟩
    · exact (update_self ..).trans (hn hl)
    · exact (update_of_ne hi' ..).trans (h.count i q hi hl)

/-- A new region is not empty and overlaps no other. -/
theorem Formed.place {v phys : ℕ} {lazy : Bool} (h : c.Formed)
    (hsize : size + (pageSize - 1) < 2 ^ 64) (hplace : c.as.place virt size = some (slot, v, n)) :
    Formed ⟨c.as.setRegion slot ⟨v, v + n * pageSize, phys, flags, lazy, []⟩,
      update c.lazyCount slot 0, w⟩ := by
  obtain ⟨h0, -, -, hn, -, hover⟩ := place_spec hplace
  have hpos : 0 < n * pageSize := by
    rw [hn, wadd_of_lt hsize]
    unfold pageSize
    omega
  refine h.setRegion (shaped_range hplace) (Nat.lt_add_of_pos_right hpos)
    (fun j r' _ hj => ?_) fun _ => rfl
  have := hover r' (mem_of_getElem? hj)
  simp only
  omega

theorem countNew_false (virt size : ℕ) : c.countNew virt size false = c.lazyCount := by
  unfold countNew
  split <;> rfl

theorem countNew_true {v : ℕ} (h : c.as.place virt size = some (slot, v, n)) :
    c.countNew virt size true = update c.lazyCount slot 0 := by
  rw [countNew, h]
  rfl

theorem Formed.setMachine (h : c.Formed) : Formed ⟨c.as, c.lazyCount, w⟩ :=
  ⟨h.bounds, h.apart, h.count⟩

theorem countFault_false (va : ℕ) : c.countFault va false = c.lazyCount := by
  unfold countFault
  split <;> rfl

/-! ### One region -/

variable [Machine W]

/-- The counter follows what `unmap_range` does to `lazy_pages`. -/
theorem countUnmap_eq (hr : r.Shaped) (hhi : pageSize ∣ hi) (hl : r.lazy = true)
    (h : unmapSlot root lo hi w (some r) = some (some r', w')) :
    countUnmap lo hi (some r) (backed r.lazyPages) = backed r'.lazyPages := by
  by_cases hm : r.Meets lo hi
  swap
  · rw [unmapSlot_of_not_meets hm] at h
    cases h
    exact if_neg fun h => hm h.1
  obtain ⟨fs, hfree, hslot⟩ := unmapSlot_lazy hm hl h
  obtain ⟨rfl, -⟩ := freeLazy_spec hfree
  have hlower := lowerCount_eq (wsub (max lo r.start) r.start / pageSize)
    (wadd (wsub (min hi r.end_) r.start) (pageSize - 1) / pageSize) 0 0 r.lazyPages
  rw [zero_add, zero_add] at hlower
  rw [countUnmap, if_pos ⟨hm, hl⟩, hlower]
  rcases hslot with ⟨-, -, hslot⟩ | ⟨hle, hlt, hslot⟩ | ⟨-, hslot⟩
  · cases hslot
  · -- the entries cut off are those of the pages up to the new start
    cases hslot
    have hfirst : wsub (max lo r.start) r.start / pageSize = 0 := by
      rw [max_eq_right hle, wsub_of_le hr.start_lt le_rfl, Nat.sub_self, Nat.zero_div]
    rw [hfirst]
    refine (backed_drop r.lazyPages ?_).symm
    have hend := hr.end_lt
    rw [min_eq_left hlt.le, wsub_of_le (hlt.trans hend) hm.1.le,
      wadd_of_lt (by unfold pageSize at *; omega)]
    exact Nat.div_le_div_right (Nat.le_add_right _ _)
  · cases hslot
    rfl

/-! ### Calls -/

section

variable (h : c.Formed)
include h

theorem formed_map (hsize : size + (pageSize - 1) < 2 ^ 64)
    (hop : c.as.map c.w virt size flags = some (ok, as, w)) :
    Formed ⟨as, c.countNew virt size ok, w⟩ := by
  rcases map_cases hop with ⟨rfl, rfl, -⟩ | ⟨slot, v, n, phys, w₁, hplace, -, hop⟩
  · rw [countNew_false]
    exact h.setMachine
  · rcases hop with ⟨-, rfl, rfl⟩ | ⟨_, _, -, -, rfl, rfl⟩
    · rw [countNew_true hplace]
      exact h.place hsize hplace
    · rw [countNew_false]
      exact h.setMachine

omit [Machine W] in
theorem formed_mapLazy (hsize : size + (pageSize - 1) < 2 ^ 64)
    (hop : c.as.mapLazy virt size flags = (ok, as)) : Formed ⟨as, c.countNew virt size ok, w⟩ := by
  rcases mapLazy_cases hop with ⟨rfl, rfl⟩ | ⟨slot, v, n, hplace, rfl, rfl⟩
  · rw [countNew_false]
    exact h.setMachine
  · rw [countNew_true hplace]
    exact h.place hsize hplace

theorem formed_fault {va : ℕ} (hs : c.as.Shaped) (hzero : ∀ w, buddyAlloc c.w 0 ≠ some (some 0, w))
    (hop : c.as.handleUserPageFault c.w va = some (ok, as, w)) :
    Formed ⟨as, c.countFault va ok, w⟩ := by
  rcases handleUserPageFault_cases hop with
    ⟨rfl, rfl, -⟩ | ⟨slot, r, phys, w₁, hlook, hl, hnone, halloc, hop⟩
  · rw [countFault_false]
    exact h.setMachine
  rcases hop with ⟨-, rfl, rfl⟩ | ⟨_, -, -, rfl, rfl⟩
  swap
  · rw [countFault_false]
    exact h.setMachine
  have hget := (lookup_spec hlook).1
  have hmem := mem_of_getElem? hget
  have hphys : phys ≠ 0 := by
    rintro rfl
    exact hzero _ halloc
  have hcount : c.countFault va true =
      update c.lazyCount slot (c.lazyCount slot + 1) := by
    rw [countFault, hlook]
    rfl
  obtain ⟨h1, h2, h3, h4, h5⟩ := hs r hmem
  rw [hcount]
  refine h.setRegion ⟨h1, h2, h3, h4, h5⟩ (h.bounds r hmem).2.2 (fun j r' hj hr' => ?_) fun _ => ?_
  · exact h.apart slot j r r' hj.symm hget hr'
  · have hlen := (lazyHoldings_set 0 hphys 0 _ r.lazyPages hnone).length_eq
    rw [length_cons, length_lazyHoldings, length_lazyHoldings] at hlen
    rw [h.count slot r hget hl, ← hlen]
    rfl

theorem formed_unmapRange {len : ℕ} (hs : c.as.Shaped)
    (hop : c.as.unmapRange c.w virt len = some (as, w)) :
    Formed ⟨as, c.countUnmapRange virt len, w⟩ := by
  have hs' := shaped_unmapRange hs hop
  rcases unmapRange_cases hop with ⟨hb, rfl, -⟩ | ⟨lo, hi, slots, hb, hloop, rfl⟩
  · rw [countUnmapRange, hb]
    exact h.setMachine
  rw [countUnmapRange, hb]
  refine h.of_partOf hs' fun i r' hr' => ?_
  obtain ⟨slot, w₁, w₂, hslot, hturn⟩ := forSlots_getElem? hloop hr'
  cases slot with
  | none => cases (pair_inj hturn).1
  | some r =>
    have hmem := mem_of_getElem? hslot
    have hpart : r'.PartOf r := by
      rcases unmapSlot_left hturn with ⟨-, rfl⟩ | ⟨hm, ⟨hlt, phys, fs, rfl⟩ | ⟨hlt, fs, rfl⟩⟩
      · exact ⟨le_rfl, le_rfl, (h.bounds _ hmem).2.2, rfl⟩
      · exact ⟨hm.1.le, le_rfl, hlt, rfl⟩
      · exact ⟨le_rfl, hm.2.le, hlt, rfl⟩
    refine ⟨r, hslot, hpart, fun hl hn => ?_⟩
    have hgetD : c.as.regions.getD i none = some r := by
      rw [getD_eq_getElem?_getD, hslot, getD_some]
    simp only [hgetD, hn]
    exact countUnmap_eq (hs r hmem) (unmapBounds_spec hb).2.1 hl hturn

theorem formed_mprotect {addr len prot : ℕ} (hs : c.as.Shaped)
    (hop : c.as.mprotect c.w addr len prot = some (ok, as, w)) : Formed ⟨as, c.lazyCount, w⟩ := by
  have hs' := shaped_mprotect hs hop
  rcases mprotect_cases hop with ⟨-, rfl, -⟩ | ⟨end_, slots, -, -, hloop, rfl⟩
  · exact h.setMachine
  refine h.of_partOf hs' fun i r' hr' => ?_
  obtain ⟨slot, w₁, w₂, hslot, hturn⟩ := forSlots_getElem? hloop hr'
  obtain ⟨r, rfl, hsame⟩ := protectSlot_some (pair_inj hturn).1
  have hlt := (h.bounds r (mem_of_getElem? hslot)).2.2
  -- only the flags change
  refine ⟨r, hslot, ?_, fun _ hn => ?_⟩
  · rcases hsame with rfl | rfl <;> exact ⟨le_rfl, le_rfl, hlt, rfl⟩
  · rcases hsame with rfl | rfl <;> exact hn

/-! ### Runs -/

theorem formed_step {call : Call} (hs : c.as.Shaped) (hg : c.Guard call)
    (hstep : c.step call = some c') : c'.Formed := by
  cases call with
  | map =>
    obtain ⟨⟨ok, as, w⟩, hop, rfl⟩ := map_eq_some_iff.1 hstep
    exact formed_map h hg.1 hop
  | mapLazy =>
    cases hstep
    exact formed_mapLazy h hg.1 rfl
  | fault va =>
    obtain ⟨⟨ok, as, w⟩, hop, rfl⟩ := map_eq_some_iff.1 hstep
    exact formed_fault h hs (hg.2 va rfl) hop
  | unmapRange =>
    obtain ⟨⟨as, w⟩, hop, rfl⟩ := map_eq_some_iff.1 hstep
    exact formed_unmapRange h hs hop
  | mprotect =>
    obtain ⟨⟨ok, as, w⟩, hop, rfl⟩ := map_eq_some_iff.1 hstep
    exact formed_mprotect h hs hop

end

theorem shaped_step {call : Call} (hs : c.as.Shaped) (hstep : c.step call = some c') :
    c'.as.Shaped := by
  refine Space.shaped_step hs (fun newEnd h => ?_) (step_toSpace hstep)
  cases call <;> cases h

/-- **The regions of an address space are non-empty ranges of whole pages, no two of them overlap,
and `lazy_count` is the number of backed pages**, after any calls, as long as the allocator does
not answer a fault with the page at address `0`. -/
theorem formed_run {root : ℕ} (h : Run step Guard (new root w) c) : c.Formed := by
  refine (h.invariant (I := fun c => c.as.Shaped ∧ c.Formed)
    ⟨AddressSpace.all_new root, formed_new root w⟩ ?_).2
  rintro s call s' ⟨hs, hf⟩ hg hstep
  exact ⟨shaped_step hs hstep, formed_step hf hs hg hstep⟩

instance (call : Call) : Decidable call.SizeFits := by
  rcases call <;> dsimp only [Call.SizeFits] <;> infer_instance

theorem formed_oneBlock :
    ∃ c, Run step Guard (new 0x200000 Frames.oneBlock) c ∧ c.lazyCount 0 = 1 ∧ c.Formed := by
  obtain ⟨c₁, hmap, hc1⟩ : ∃ c₁,
      (new 0x200000 Frames.oneBlock).step (.mapLazy 0x10000 0x2000 (.ofUser true false)) = some c₁ ∧
      (c₁.step (.fault 0x11000)).any fun c => c.lazyCount 0 = 1 := exists_of_any (by decide)
  obtain ⟨c, hfault, hone⟩ := exists_of_any hc1
  have hnonzero : ∀ w, buddyAlloc c₁.w 0 ≠ some (some 0, w) := by
    cases hmap
    intro w halloc
    obtain ⟨-, -, -, -, hanswer⟩ := Frames.buddyAlloc_some halloc
    exact absurd hanswer (by decide)
  have hrun : Run step Guard (new 0x200000 Frames.oneBlock) c :=
    .tail (l := .fault 0x11000) (.single ⟨by decide, fun _ h => by cases h⟩ hmap)
      ⟨trivial, fun _ _ => hnonzero⟩ hfault
  exact ⟨c, hrun, hone, formed_run hrun⟩

/-- An allocator that gives out the page at address `0` first. -/
def pageZero : Frames := .init (fun t _ => if t = 0 then some 0 else none) fun _ => true

/-- The memory below `n` is available. -/
def lowMemory (n : ℕ) (h : n < 2 ^ 64) : MemoryRegion := ⟨0, n, .available, Nat.zero_lt_of_lt h, h⟩

/-- The allocator may give out the page at address `0`, and does so first when memory is available
from there on.  The fault is then handled and counted, and no page is recorded. -/
theorem count_of_page_zero :
    ((Buddy.empty.initFromMap [lowMemory 0x80000 (by decide)]).alloc 0).map Prod.fst = some (some 0) ∧
      ∃ c, Run step (fun _ call => call.SizeFits) (new 0x200000 pageZero) c ∧ ¬ c.Formed := by
  refine ⟨by decide +kernel, ?_⟩
  obtain ⟨c, hrun, hbad⟩ : ∃ c, Run step (fun _ call => call.SizeFits) (new 0x200000 pageZero) c ∧
      (c.as.regions[0]?.join).any fun r => r.lazy ∧ c.lazyCount 0 ≠ backed r.lazyPages :=
    Run.exists_of_guarded [.mapLazy 0x10000 0x1000 (.ofUser true false), .fault 0x10000] (by decide)
  obtain ⟨r, hr, hl, hne⟩ := exists_of_any hbad
  exact ⟨c, hrun, fun h => hne (h.count 0 r (join_eq_some_iff.1 hr) hl)⟩

end Counted

end Cyanos
