import Cyanos.Mm.Holdings
import Cyanos.Mm.Slab

/-!
# The slab allocator is sound

`Slab.Inv lists pages s` is the invariant: the free lists of `s` are `lists`, the pages that were
sliced are `pages`, and all free slots and live objects are apart from each other, each inside one
of the pages or, for a large object, in a block of its own.  Since they are apart, a store into one
of them leaves the links in the others alone.

Pushing a slot that is apart from everything keeps the invariant (`Inv.push`).  This is all there is
to freeing a small object, and to each turn of the loop that slices a page.

## Main results

* `Slab.sound_run` : **live objects are apart from each other and from the free slots, large enough
  and aligned**, after any calls whose sizes can be rounded up to pages.
* `Slab.one_page_for_all` : a request for `2 ^ 64 - 1` bytes is answered with a page.
-/

namespace Cyanos

open Lib SlabHeap Function List Option SlabObject Extent Nat

/-! ### Blocks and windows -/

namespace Hhdm

variable {hhdm : Hhdm} {b c : Block}

theorem size_pos (b : Block) : 0 < b.size pageSize := mul_pos (by decide) (Nat.two_pow_pos _)

theorem physToVirt_eq (h : hhdm.Sees b) : hhdm.physToVirt b.addr = b.addr + hhdm.offset := by
  have hpos := size_pos b
  unfold Sees at h
  exact wadd_of_lt (by omega)

theorem virtToPhys_physToVirt (h : hhdm.Sees b) :
    hhdm.virtToPhys (hhdm.physToVirt b.addr) = b.addr := by
  have hpos := size_pos b
  have hle := h
  unfold Sees at hle
  rw [physToVirt_eq h, virtToPhys, wsub_of_le (by omega) (le_add_left _ _), Nat.add_sub_cancel]

theorem window_le (h : hhdm.Sees b) : (hhdm.window b).addr + (hhdm.window b).size ≤ 2 ^ 64 := by
  simp only [window, physToVirt_eq h]
  unfold Sees at h
  omega

/-- Blocks that are apart are seen at ranges that are. -/
theorem window_apart (hb : hhdm.Sees b) (hc : hhdm.Sees c) (h : Block.Apart pageSize b c) :
    (hhdm.window b).Apart (hhdm.window c) := by
  have hb0 := size_pos b
  have hc0 := size_pos c
  have hpoint := h (max b.addr c.addr)
  simp only [Block.Has] at hpoint
  simp only [Apart, window, physToVirt_eq hb, physToVirt_eq hc]
  omega

end Hhdm

namespace Slab

/-! ### Sizes -/

theorem objSize_spec : ∀ idx < numClasses, 8 ≤ objSize idx ∧ objSize idx ∣ pageSize := by decide

variable {order size : ℕ}

theorem sizeClassIdx_spec {idx : ℕ} (h : sizeClassIdx size = some idx) :
    idx < numClasses ∧ size ≤ objSize idx := by
  obtain ⟨hi, hle, -⟩ := findIdx?_eq_some_iff_getElem.1 h
  refine ⟨hi, ?_⟩
  rw [objSize, getD_eq_getElem?_getD, getElem?_eq_getElem hi]
  exact of_decide_eq_true hle

theorem room_small {idx : ℕ} (h : sizeClassIdx size = some idx) : room size = objSize idx := by
  rw [room, h]

theorem room_large (h : sizeClassIdx size = none)
    (ho : largeOrder size = some order) : room size = pageSize * 2 ^ order := by
  rw [room, h, ho]
  rfl

/-- The loop is the one of the memory manager. -/
theorem coverOrder_eq {pages turns cap : ℕ} :
    coverOrder pages turns cap order = growOrder pages turns cap order := by
  induction turns generalizing cap order with
  | zero => rfl
  | succ turns ih => rw [coverOrder, growOrder, ih]

theorem pagesToOrder_spec {pages : ℕ} (h : pagesToOrder pages = some order) :
    pages ≤ 2 ^ order ∧ order < maxOrder := by
  unfold pagesToOrder at h
  split at h
  · cases h
  · next hgt =>
    cases h
    have hle : pages ≤ 2 ^ 10 := not_lt.1 hgt
    have heq : coverOrder pages 64 1 0 = clog 2 pages :=
      coverOrder_eq.trans (pagesToOrder_eq (hle.trans (by norm_num)))
    rw [heq]
    exact ⟨le_pow_clog (by norm_num) pages, lt_succ_of_le (clog_le_of_le_pow hle)⟩

/-- A size that can be rounded up fits the block. -/
theorem largeOrder_spec (hsize : size + (pageSize - 1) < 2 ^ 64)
    (h : largeOrder size = some order) : size ≤ pageSize * 2 ^ order := by
  obtain ⟨hle, -⟩ := pagesToOrder_spec h
  rw [wadd_of_lt hsize] at hle
  unfold pageSize at *
  omega

/-! ### The invariant -/

variable {hhdm : Hhdm} {lists : ℕ → List ℕ} {pages : List ℕ} {s : Slab} {idx a : ℕ}

/-- The free slots. -/
def slotExtents (lists : ℕ → List ℕ) : List Extent :=
  (List.range numClasses).flatMap fun i => (lists i).map (⟨·, objSize i⟩)

/-- The live objects that have bytes. -/
def objects (live : List SlabObject) : List Extent :=
  (live.filter fun o => 1 ≤ o.size).map SlabObject.extent

/-- The block of a large object. -/
def largeBlock (hhdm : Hhdm) (o : SlabObject) : Option Block :=
  if sizeClassIdx o.size = none then (largeOrder o.size).map (⟨hhdm.virtToPhys o.ptr, ·⟩) else none

/-- The blocks that are out. -/
def blocks (hhdm : Hhdm) (pages : List ℕ) (live : List SlabObject) : List Block :=
  pages.map (⟨·, 0⟩) ++ live.filterMap (largeBlock hhdm)

/-- An aligned slot in one of the pages. -/
def InPage (hhdm : Hhdm) (pages : List ℕ) (a size : ℕ) : Prop :=
  size ∣ a ∧ ∃ p ∈ pages, Extent.Inside ⟨a, size⟩ (hhdm.window ⟨p, 0⟩)

/-- The free lists, the pages and the live objects. -/
structure Inv (hhdm : Hhdm) (lists : ℕ → List ℕ) (pages : List ℕ) (s : Slab) : Prop where
  chain : ∀ i < numClasses, Chain (loadWord s.heap.mem) (s.heap.freeHead i) (lists i)
  apart : (slotExtents lists ++ objects s.live).Pairwise Extent.Apart
  slot : ∀ i < numClasses, ∀ a ∈ lists i, InPage hhdm pages a (objSize i)
  small : ∀ o ∈ s.live, 1 ≤ o.size → ∀ i, sizeClassIdx o.size = some i →
    InPage hhdm pages o.ptr (objSize i)
  large : ∀ o ∈ s.live, sizeClassIdx o.size = none → ∃ order, largeOrder o.size = some order ∧
    o.ptr = hhdm.physToVirt (hhdm.virtToPhys o.ptr)
  enough : ∀ o ∈ s.live, o.size ≤ room o.size
  held : Held pageSize s.heap.log (blocks hhdm pages s.live)
  sees : ∀ b ∈ blocks hhdm pages s.live, hhdm.Sees b

theorem mem_slotExtents {e : Extent} :
    e ∈ slotExtents lists ↔ ∃ i < numClasses, ∃ a ∈ lists i, e = ⟨a, objSize i⟩ := by
  simp only [slotExtents, mem_flatMap, mem_range, List.mem_map, eq_comm]

theorem mem_objects {live : List SlabObject} {e : Extent} :
    e ∈ objects live ↔ ∃ o ∈ live, 1 ≤ o.size ∧ o.extent = e := by
  simp only [objects, List.mem_map, mem_filter, decide_eq_true_eq, and_assoc]

theorem objects_cons {o : SlabObject} (h : 1 ≤ o.size) (live : List SlabObject) :
    objects (o :: live) = o.extent :: objects live := by
  rw [objects, filter_cons_of_pos (by simpa using h), map_cons, objects]

/-- All the slots, before and after one of the lists changes. -/
theorem slotExtents_update (h : idx < numClasses) (lists : ℕ → List ℕ) :
    ∃ rest, (slotExtents lists).Perm ((lists idx).map (⟨·, objSize idx⟩) ++ rest) ∧
      ∀ l, (slotExtents (update lists idx l)).Perm (l.map (⟨·, objSize idx⟩) ++ rest) := by
  have hperm := perm_cons_erase (mem_range.2 h)
  refine ⟨((range numClasses).erase idx).flatMap fun i => (lists i).map (⟨·, objSize i⟩),
    hperm.flatMap_right _, fun l => (hperm.flatMap_right _).trans (.of_eq ?_)⟩
  rw [flatMap_cons, update_self]
  refine congrArg _ (flatMap_congr fun i hi => ?_)
  have hne : i ≠ idx := (nodup_range.mem_erase_iff.1 hi).1
  rw [update_of_ne hne]

theorem slotExtents_push (h : idx < numClasses) (lists : ℕ → List ℕ) (a : ℕ) :
    (slotExtents (update lists idx (a :: lists idx))).Perm
      (⟨a, objSize idx⟩ :: slotExtents lists) := by
  obtain ⟨rest, hold, hnew⟩ := slotExtents_update h lists
  exact (hnew _).trans (hold.symm.cons _)

/-- Only large objects have blocks of their own. -/
theorem blocks_cons_small (h : sizeClassIdx size = some idx) (ptr : ℕ) (live : List SlabObject) :
    blocks hhdm pages (⟨ptr, size⟩ :: live) = blocks hhdm pages live := by
  have hnone : largeBlock hhdm ⟨ptr, size⟩ = none := by
    rw [largeBlock, if_neg]
    rw [h]
    exact some_ne_none idx
  rw [blocks, filterMap_cons_none hnone]
  rfl

theorem largeBlock_eq {ptr : ℕ} (h : sizeClassIdx size = none) (ho : largeOrder size = some order) :
    largeBlock hhdm ⟨ptr, size⟩ = some ⟨hhdm.virtToPhys ptr, order⟩ := by
  rw [largeBlock, if_pos h, ho]
  rfl

section

variable (hI : Inv hhdm lists pages s)
include hI

/-- Slots and objects are inside blocks that are out. -/
theorem Inv.inside {e : Extent}
    (he : e ∈ slotExtents lists ++ objects s.live) :
    ∃ b ∈ blocks hhdm pages s.live, e.Inside (hhdm.window b) := by
  have hpage : ∀ {a size}, InPage hhdm pages a size →
      ∃ b ∈ blocks hhdm pages s.live, Inside ⟨a, size⟩ (hhdm.window b) := by
    rintro a size ⟨-, p, hp, hin⟩
    exact ⟨⟨p, 0⟩, mem_append_left _ (mem_map.2 ⟨p, hp, rfl⟩), hin⟩
  rcases mem_append.1 he with he | he
  · obtain ⟨i, hi, a, ha, rfl⟩ := mem_slotExtents.1 he
    exact hpage (hI.slot i hi a ha)
  · obtain ⟨o, ho, hsize, rfl⟩ := mem_objects.1 he
    rw [extent]
    cases hidx : sizeClassIdx o.size with
    | some i =>
      rw [room_small hidx]
      exact hpage (hI.small o ho hsize i hidx)
    | none =>
      obtain ⟨order, horder, hptr⟩ := hI.large o ho hidx
      refine ⟨⟨hhdm.virtToPhys o.ptr, order⟩, mem_append_right _ ?_, ?_⟩
      · exact mem_filterMap.2 ⟨o, ho, largeBlock_eq hidx horder⟩
      · rw [room_large hidx horder]
        exact ⟨hptr.ge, by rw [Hhdm.window, ← hptr]; exact le_rfl⟩

/-- A fresh block is apart from all slots and objects. -/
theorem Inv.apart_fresh {b : Block}
    (hfresh : Fresh pageSize s.heap.log b) (hb : hhdm.Sees b) {e : Extent}
    (he : e ∈ slotExtents lists ++ objects s.live) : (hhdm.window b).Apart e := by
  obtain ⟨c, hc, hin⟩ := hI.inside he
  have hap := hI.held.apart_of_fresh hfresh hc
  exact ((Hhdm.window_apart hb (hI.sees c hc) hap).symm.mono hin).symm

theorem Inv.sees_page {p : ℕ} (hp : p ∈ pages) : hhdm.Sees ⟨p, 0⟩ :=
  hI.sees ⟨p, 0⟩ (mem_append_left _ (mem_map.2 ⟨p, hp, rfl⟩))

theorem InPage.lt (h : InPage hhdm pages a (objSize idx))
    (hidx : idx < numClasses) : a < 2 ^ 64 := by
  obtain ⟨-, p, hp, -, hle⟩ := h
  have hend := Hhdm.window_le (hI.sees_page hp)
  have h8 := (objSize_spec idx hidx).1
  simp only at hle
  omega

/-! ### Objects go, slots come and go -/

/-- Objects may be forgotten. -/
theorem Inv.forget {live : List SlabObject}
    (hsub : live.Sublist s.live) : Inv hhdm lists pages { s with live := live } where
  chain := hI.chain
  apart := hI.apart.sublist (Sublist.append_left ((hsub.filter _).map _) _)
  slot := hI.slot
  small o ho := hI.small o (hsub.subset ho)
  large o ho := hI.large o (hsub.subset ho)
  enough o ho := hI.enough o (hsub.subset ho)
  held := hI.held.sublist (Sublist.append_left (hsub.filterMap _) _)
  sees b hb := hI.sees b ((Sublist.append_left (hsub.filterMap _) _).subset hb)

theorem Inv.slot_update {l : List ℕ} (h : ∀ a ∈ l, InPage hhdm pages a (objSize idx)) :
    ∀ i < numClasses, ∀ a ∈ update lists idx l i, InPage hhdm pages a (objSize i) :=
  (forall_update_iff lists fun i l => i < numClasses → ∀ a ∈ l, InPage hhdm pages a (objSize i)).2
    ⟨fun _ => h, fun i _ => hI.slot i⟩

/-- **A slot that is apart from everything is put in front of a list.** -/
theorem Inv.push (hidx : idx < numClasses) (ha : a ≠ 0)
    (hpage : InPage hhdm pages a (objSize idx))
    (hapart : ∀ e ∈ slotExtents lists ++ objects s.live, Extent.Apart ⟨a, objSize idx⟩ e) :
    Inv hhdm (update lists idx (a :: lists idx)) pages
      { s with heap := s.heap.push idx a } := by
  have h8 := (objSize_spec idx hidx).1
  -- the links in the other slots are not touched
  have hnext : ∀ i < numClasses, ∀ b ∈ lists i,
      loadWord (s.heap.push idx a).mem b = loadWord s.heap.mem b := by
    intro i hi b hb
    have hb8 := (objSize_spec i hi).1
    have hab := hapart ⟨b, objSize i⟩
      (mem_append_left _ (mem_slotExtents.2 ⟨i, hi, b, hb, rfl⟩))
    refine loadWord_storeWord_of_apart ?_
    simp only [Extent.Apart] at hab
    omega
  refine ⟨fun i hi => ?_, ?_, hI.slot_update (forall_mem_cons.2 ⟨hpage, hI.slot idx hidx⟩), hI.small,
    hI.large, hI.enough, hI.held, hI.sees⟩
  · by_cases hne : i = idx
    · subst hne
      have hhead : s.heap.freeHead i < 2 ^ 64 := by
        rcases (hI.chain i hi).head_mem with h | h
        · rw [h]
          norm_num
        · exact InPage.lt hI (hI.slot i hi _ h) hi
      have hlink : loadWord (s.heap.push i a).mem a = s.heap.freeHead i := loadWord_storeWord hhead
      simp only [SlabHeap.push, update_self] at hlink ⊢
      refine ⟨rfl, ha, ?_⟩
      rw [hlink]
      exact (hI.chain i hi).congr (hnext i hi)
    · simp only [SlabHeap.push, update_of_ne hne]
      exact (hI.chain i hi).congr (hnext i hi)
  · have hpair := pairwise_cons.2 ⟨hapart, hI.apart⟩
    exact (((slotExtents_push hidx lists a).append_right _).pairwise_iff fun h => h.symm).2 hpair

/-- The first slot of a list becomes an object. -/
theorem Inv.pop {size : ℕ} (hidx : sizeClassIdx size = some idx)
    (hsize : 1 ≤ size) (hne : s.heap.freeHead idx ≠ 0) :
    ∃ lists', Inv hhdm lists' pages
      ⟨(s.heap.pop idx).2, ⟨(s.heap.pop idx).1, size⟩ :: s.live⟩ := by
  obtain ⟨hlt, hle⟩ := sizeClassIdx_spec hidx
  obtain ⟨l, hl, hchain⟩ := (hI.chain idx hlt).of_ne_zero hne
  obtain ⟨hfirst, hrest⟩ := forall_mem_cons.1 (hl ▸ hI.slot idx hlt)
  refine ⟨update lists idx l, fun i hi => ?_, ?_, hI.slot_update hrest,
    forall_mem_cons.2 ⟨fun _ i hi => ?_, hI.small⟩, forall_mem_cons.2 ⟨fun hi => ?_, hI.large⟩,
    forall_mem_cons.2 ⟨?_, hI.enough⟩, ?_, ?_⟩
  · by_cases hi' : i = idx
    · subst hi'
      simp only [SlabHeap.pop, update_self]
      exact hchain
    · simp only [SlabHeap.pop, update_of_ne hi']
      exact hI.chain i hi
  · -- the slot moves from the lists to the objects
    obtain ⟨rest, hold, hnew⟩ := slotExtents_update hlt lists
    have hobj : objects (⟨s.heap.freeHead idx, size⟩ :: s.live) =
        ⟨s.heap.freeHead idx, objSize idx⟩ :: objects s.live := by
      rw [objects_cons hsize, SlabObject.extent, room_small hidx]
    rw [hl, map_cons, cons_append] at hold
    have hold' := hold.trans ((hnew l).symm.cons _)
    simp only [SlabHeap.pop]
    rw [hobj]
    refine ((perm_middle.trans (hold'.symm.append_right _)).pairwise_iff fun h => h.symm).2 ?_
    exact hI.apart
  · obtain rfl := mem_unique hidx hi
    exact hfirst
  · exact absurd (hi.symm.trans hidx) (some_ne_none idx).symm
  · rw [room_small hidx]
    exact hle
  · simp only [SlabHeap.pop]
    rw [blocks_cons_small hidx]
    exact hI.held
  · simp only [SlabHeap.pop]
    rw [blocks_cons_small hidx]
    exact hI.sees

end

/-! ### Blocks come and go -/

theorem buddyAlloc_cases {heap heap' : SlabHeap} {r : Option ℕ}
    (h : heap.buddyAlloc hhdm order = some (r, heap')) :
    (r = none ∧ heap' = { heap with tick := heap.tick + 1 }) ∨
      ∃ phys, r = some phys ∧ phys ≠ 0 ∧ Fresh pageSize heap.log ⟨phys, order⟩ ∧
        hhdm.Sees ⟨phys, order⟩ ∧
        heap' = { heap with log := .alloc ⟨phys, order⟩ :: heap.log, tick := heap.tick + 1 } := by
  unfold buddyAlloc at h
  split at h
  · split at h
    · next phys hphys =>
      cases h
      obtain ⟨-, hok⟩ := filter_eq_some_iff.1 hphys
      obtain ⟨h0, hfresh, hsees⟩ := of_decide_eq_true hok
      exact .inr ⟨phys, rfl, h0, hfresh, hsees, rfl⟩
    · cases h
      exact .inl ⟨rfl, rfl⟩
  · cases h

section

variable (hI : Inv hhdm lists pages s) {size : ℕ} {heap : SlabHeap}
include hI

/-- A turn of the buddy allocator without an answer. -/
theorem Inv.setTick (t : ℕ) : Inv hhdm lists pages { s with heap := { s.heap with tick := t } } :=
  { hI with }

/-- A page is taken to be sliced. -/
theorem Inv.addPage {p : ℕ}
    (hfresh : Fresh pageSize s.heap.log ⟨p, 0⟩) (hsees : hhdm.Sees ⟨p, 0⟩) (t : ℕ) :
    Inv hhdm lists (p :: pages)
      { s with heap := { s.heap with log := .alloc ⟨p, 0⟩ :: s.heap.log, tick := t } } := by
  have hcons : ∀ {a size}, InPage hhdm pages a size → InPage hhdm (p :: pages) a size := by
    rintro a size ⟨hdvd, q, hq, hin⟩
    exact ⟨hdvd, q, mem_cons_of_mem _ hq, hin⟩
  exact ⟨hI.chain, hI.apart, fun i hi a ha => hcons (hI.slot i hi a ha),
    fun o ho h1 i hi => hcons (hI.small o ho h1 i hi), hI.large, hI.enough, hI.held.alloc hfresh,
    forall_mem_cons.2 ⟨hsees, hI.sees⟩⟩

/-- What is left of a page that is being sliced: room for `n` slots, apart from everything. -/
structure Slice (hhdm : Hhdm) (es : List Extent) (p size n addr : ℕ) : Prop where
  ne_zero : addr ≠ 0
  dvd : size ∣ addr
  inside : Extent.Inside ⟨addr, n * size⟩ (hhdm.window ⟨p, 0⟩)
  apart : ∀ e ∈ es, Extent.Apart ⟨addr, n * size⟩ e

/-- **The loop of `refill` keeps the invariant**, and leaves a slot on the list. -/
theorem Inv.pushSlots (hidx : idx < numClasses) {p n addr : ℕ}
    (hp : p ∈ pages)
    (hslice : 0 < n → Slice hhdm (slotExtents lists ++ objects s.live) p (objSize idx) n addr) :
    (∃ lists', Inv hhdm lists' pages { s with heap := s.heap.pushSlots idx n addr }) ∧
      (0 < n ∨ s.heap.freeHead idx ≠ 0 → (s.heap.pushSlots idx n addr).freeHead idx ≠ 0) := by
  induction n generalizing s lists addr with
  | zero =>
    refine ⟨⟨lists, hI⟩, fun h => ?_⟩
    rcases h with h | h
    · exact absurd h (lt_irrefl 0)
    · exact h
  | succ n ih =>
    obtain ⟨hne, hdvd, ⟨hlo, hhi⟩, hapart⟩ := hslice (Nat.succ_pos n)
    have hpos := (objSize_spec idx hidx).1
    have hend := Hhdm.window_le (hI.sees_page hp)
    have hsplit : (n + 1) * objSize idx = objSize idx + n * objSize idx := by ring
    simp only [hsplit] at hlo hhi hapart
    have hfront : ∀ e ∈ slotExtents lists ++ objects s.live,
        Extent.Apart ⟨addr, objSize idx⟩ e := fun e he =>
      (hapart e he).mono ⟨le_rfl, Nat.add_le_add_left (Nat.le_add_right _ _) _⟩
    have hpush := hI.push hidx hne ⟨hdvd, p, hp, hlo, by simp only; omega⟩ hfront
    -- the rest of the page is apart from the slot as well
    have hrest : 0 < n → Slice hhdm
        (slotExtents (update lists idx (addr :: lists idx)) ++ objects s.live) p
        (objSize idx) n (wadd addr (objSize idx)) := by
      intro hn
      have hslots : objSize idx ≤ n * objSize idx := Nat.le_mul_of_pos_left _ hn
      rw [wadd_of_lt (by omega)]
      refine ⟨by omega, Nat.dvd_add hdvd dvd_rfl, ⟨by simp only; omega, by simp only; omega⟩,
        fun e he => ?_⟩
      have hmem := ((slotExtents_push hidx lists addr).append_right _).subset he
      rcases mem_cons.1 hmem with rfl | hmem
      · exact .inr le_rfl
      · exact (hapart e hmem).mono ⟨Nat.le_add_right _ _, by simp only; omega⟩
    obtain ⟨hkeep, hhead⟩ := ih hpush hrest
    refine ⟨hkeep, fun _ => hhead (.inr ?_)⟩
    simp only [SlabHeap.push, update_self]
    exact hne

/-- **A refilled list has a slot.** -/
theorem Inv.refill (hidx : idx < numClasses) {ok : Bool}
    (h : s.heap.refill hhdm idx = some (ok, heap)) :
    (∃ lists' pages', Inv hhdm lists' pages' { s with heap := heap }) ∧
      (ok = true → heap.freeHead idx ≠ 0) := by
  obtain ⟨⟨r, heap'⟩, hbuddy, h⟩ := bind_eq_some_iff.1 h
  obtain ⟨rfl, rfl⟩ | ⟨phys, rfl, h0, hfresh, hsees, rfl⟩ := buddyAlloc_cases hbuddy
  · cases h
    exact ⟨⟨lists, pages, hI.setTick _⟩, fun hok => absurd hok Bool.false_ne_true⟩
  · cases h
    obtain ⟨hpos, hdvd⟩ := objSize_spec idx hidx
    have hfit : pageSize / objSize idx * objSize idx = pageSize := Nat.div_mul_cancel hdvd
    have haddr : hhdm.physToVirt phys = phys + hhdm.offset := Hhdm.physToVirt_eq hsees
    have hslice : Slice hhdm (slotExtents lists ++ objects s.live) phys (objSize idx)
        (pageSize / objSize idx) (hhdm.physToVirt phys) := by
      have hwindow : (⟨hhdm.physToVirt phys, pageSize / objSize idx * objSize idx⟩ : Extent) =
          hhdm.window ⟨phys, 0⟩ := by
        rw [hfit]
        rfl
      refine ⟨by omega, ?_, ?_, fun e he => ?_⟩
      · rw [haddr]
        exact hdvd.trans (Nat.dvd_add hfresh.1 hhdm.dvd)
      · rw [hwindow]
        exact ⟨le_rfl, le_rfl⟩
      · rw [hwindow]
        exact hI.apart_fresh hfresh hsees he
    obtain ⟨⟨lists', hkeep⟩, hhead⟩ := (hI.addPage hfresh hsees _).pushSlots hidx (.head _)
      fun _ => hslice
    exact ⟨⟨lists', _, hkeep⟩, fun _ => hhead (.inl (Nat.div_pos (Nat.le_of_dvd (by decide) hdvd)
      (by omega)))⟩

/-! ### The calls -/

/-- An object of no bytes. -/
theorem Inv.addEmpty (ptr : ℕ) : Inv hhdm lists pages { s with live := ⟨ptr, 0⟩ :: s.live } := by
  have hclass : sizeClassIdx 0 = some 0 := by decide
  refine ⟨hI.chain, hI.apart, hI.slot, forall_mem_cons.2 ⟨fun h1 => ?_, hI.small⟩,
    forall_mem_cons.2 ⟨fun hi => ?_, hI.large⟩, forall_mem_cons.2 ⟨zero_le _, hI.enough⟩,
    ?_, ?_⟩
  · exact absurd h1 (not_succ_le_zero 0)
  · exact absurd (hi.symm.trans hclass) (some_ne_none 0).symm
  · exact hI.held
  · exact hI.sees

theorem Inv.cacheAlloc (hidx : sizeClassIdx size = some idx) (hsize : 1 ≤ size) {ptr : Option ℕ}
    (h : s.heap.cacheAlloc hhdm idx = some (ptr, heap)) :
    ∃ lists' pages', Inv hhdm lists' pages' ⟨heap, (ptr.map (⟨·, size⟩)).toList ++ s.live⟩ := by
  unfold SlabHeap.cacheAlloc at h
  split at h
  · obtain ⟨⟨ok, heap'⟩, hrefill, h⟩ := bind_eq_some_iff.1 h
    obtain ⟨⟨lists', pages', hI'⟩, hhead⟩ := hI.refill (sizeClassIdx_spec hidx).1 hrefill
    cases ok with
    | true =>
      cases h
      obtain ⟨lists'', hpop⟩ := hI'.pop hidx hsize (hhead rfl)
      exact ⟨lists'', pages', hpop⟩
    | false =>
      cases h
      exact ⟨lists', pages', hI'⟩
  · next hne =>
    cases h
    obtain ⟨lists', hpop⟩ := hI.pop hidx hsize hne
    exact ⟨lists', pages, hpop⟩

/-- An object with a block of its own. -/
theorem Inv.addLarge {order phys : ℕ} (hidx : sizeClassIdx size = none)
    (horder : largeOrder size = some order) (hsize : size ≤ pageSize * 2 ^ order)
    (hfresh : Fresh pageSize s.heap.log ⟨phys, order⟩) (hsees : hhdm.Sees ⟨phys, order⟩) (t : ℕ) :
    Inv hhdm lists pages
      ⟨{ s.heap with log := .alloc ⟨phys, order⟩ :: s.heap.log, tick := t },
        ⟨hhdm.physToVirt phys, size⟩ :: s.live⟩ := by
  have hphys : hhdm.virtToPhys (hhdm.physToVirt phys) = phys := Hhdm.virtToPhys_physToVirt hsees
  have hroom := room_large hidx horder
  have hpos : 1 ≤ size := by
    rcases Nat.eq_zero_or_pos size with rfl | hpos
    · exact absurd hidx (by decide)
    · exact hpos
  have hobj : objects (⟨hhdm.physToVirt phys, size⟩ :: s.live) =
      hhdm.window ⟨phys, order⟩ :: objects s.live := by
    rw [objects_cons hpos, SlabObject.extent, hroom]
    rfl
  have hblocks : (blocks hhdm pages (⟨hhdm.physToVirt phys, size⟩ :: s.live)).Perm
      (⟨phys, order⟩ :: blocks hhdm pages s.live) := by
    rw [blocks, filterMap_cons_some (largeBlock_eq hidx horder), hphys]
    exact perm_middle
  refine ⟨hI.chain, ?_, hI.slot, forall_mem_cons.2 ⟨fun _ i hi => ?_, hI.small⟩,
    forall_mem_cons.2 ⟨fun _ => ⟨order, horder, by rw [hphys]⟩, hI.large⟩,
    forall_mem_cons.2 ⟨?_, hI.enough⟩, (hI.held.alloc hfresh).perm hblocks.symm, fun b hb =>
    forall_mem_cons.2 ⟨hsees, hI.sees⟩ b (hblocks.subset hb)⟩
  · rw [hobj]
    exact (perm_middle.pairwise_iff fun h => h.symm).2
      (pairwise_cons.2 ⟨fun e he => hI.apart_fresh hfresh hsees he, hI.apart⟩)
  · exact absurd (hi.symm.trans hidx) (some_ne_none i)
  · rw [hroom]
    exact hsize

/-- `alloc` keeps the invariant. -/
theorem Inv.alloc (hsize : size + (pageSize - 1) < 2 ^ 64) {ptr : Option ℕ}
    (h : s.heap.alloc hhdm size = some (ptr, heap)) :
    ∃ lists' pages', Inv hhdm lists' pages' ⟨heap, (ptr.map (⟨·, size⟩)).toList ++ s.live⟩ := by
  unfold SlabHeap.alloc at h
  split at h
  · next h0 =>
    cases h
    subst h0
    exact ⟨lists, pages, hI.addEmpty 1⟩
  · next hne =>
    split at h
    · next hidx => exact hI.cacheAlloc hidx (by omega) h
    · next hidx =>
      split at h
      · cases h
        exact ⟨lists, pages, hI⟩
      · next order horder =>
        obtain ⟨⟨r, heap'⟩, hbuddy, h⟩ := map_eq_some_iff.1 h
        cases h
        obtain ⟨rfl, rfl⟩ | ⟨phys, rfl, -, hfresh, hsees, rfl⟩ := buddyAlloc_cases hbuddy
        · exact ⟨lists, pages, hI.setTick _⟩
        · exact ⟨lists, pages,
            hI.addLarge hidx horder (largeOrder_spec hsize horder) hfresh hsees _⟩

/-- A live object is apart from the slots and the other objects. -/
theorem Inv.apart_erase {o : SlabObject} (ho : o ∈ s.live)
    (hsize : 1 ≤ o.size) :
    ∀ e ∈ slotExtents lists ++ objects (s.live.erase o), o.extent.Apart e := by
  have hperm : (objects s.live).Perm (o.extent :: objects (s.live.erase o)) := by
    rw [← objects_cons hsize]
    exact ((perm_cons_erase ho).filter _).map _
  have hall := ((hperm.append_left (slotExtents lists)).trans perm_middle).pairwise_iff
    (R := Apart) fun h => h.symm
  exact (pairwise_cons.1 (hall.1 hI.apart)).1

/-- A block is given back. -/
theorem Inv.freeLarge {ptr order : ℕ} (ho : ⟨ptr, size⟩ ∈ s.live) (hidx : sizeClassIdx size = none)
    (horder : largeOrder size = some order) :
    Inv hhdm lists pages
      ⟨{ s.heap with log := .free ⟨hhdm.virtToPhys ptr, order⟩ :: s.heap.log },
        s.live.erase ⟨ptr, size⟩⟩ := by
  have hI' := hI.forget (erase_sublist (a := ⟨ptr, size⟩))
  have hblocks : (blocks hhdm pages s.live).Perm
      (⟨hhdm.virtToPhys ptr, order⟩ :: blocks hhdm pages (s.live.erase ⟨ptr, size⟩)) := by
    have hperm := ((perm_cons_erase ho).filterMap (largeBlock hhdm)).append_left
      (pages.map (⟨·, 0⟩))
    rw [filterMap_cons_some (largeBlock_eq hidx horder)] at hperm
    exact hperm.trans perm_middle
  exact { hI' with held := (hI.held.perm hblocks).free }

/-- `free` keeps the invariant. -/
theorem Inv.free {ptr : ℕ} (ho : ⟨ptr, size⟩ ∈ s.live) (h : s.heap.free hhdm ptr size = some heap) :
    ∃ lists', Inv hhdm lists' pages ⟨heap, s.live.erase ⟨ptr, size⟩⟩ := by
  have hI' := hI.forget (erase_sublist (a := ⟨ptr, size⟩))
  unfold SlabHeap.free at h
  split at h
  · cases h
    exact ⟨lists, hI'⟩
  · next hne =>
    obtain ⟨hsize, hptr⟩ := not_or.1 hne
    split at h
    · next idx hidx =>
      cases h
      have hapart := hI.apart_erase ho (pos_of_ne_zero hsize)
      rw [extent, room_small hidx] at hapart
      exact ⟨_, hI'.push (sizeClassIdx_spec hidx).1 hptr
        (hI.small _ ho (pos_of_ne_zero hsize) idx hidx) hapart⟩
    · next hidx =>
      obtain ⟨order, horder, -⟩ := hI.large _ ho hidx
      rw [horder] at h
      simp only [buddyFree] at h
      split at h
      · cases h
        exact ⟨lists, hI.freeLarge ho hidx horder⟩
      · cases h

/-- A store into a live object keeps the invariant. -/
theorem Inv.store {o : SlabObject} (ho : o ∈ s.live) {addr : ℕ}
    (hlo : o.ptr ≤ addr) (hhi : addr < o.ptr + o.size) (v : UInt8) :
    Inv hhdm lists pages
      { s with heap := { s.heap with mem := update s.heap.mem addr v } } := by
  refine { hI with
    chain i hi := (hI.chain i hi).congr fun b hb => loadWord_congr fun k hk => ?_ }
  -- the link is in a free slot, and the byte in a live object
  have hroom := hI.enough o ho
  have h8 := (objSize_spec i hi).1
  have hapart := (pairwise_append.1 hI.apart).2.2 ⟨b, objSize i⟩
    (mem_slotExtents.2 ⟨i, hi, b, hb, rfl⟩) o.extent (mem_objects.2 ⟨o, ho, by omega, rfl⟩)
  simp only [Apart, extent] at hapart
  have hne : b + k ≠ addr := by omega
  exact update_of_ne hne _ _

end

/-! ### Every run is sound -/

/-- What the clients keep to: they free live objects, with their size, and store inside them. -/
def Proper (s : Slab) : Action → Prop
  | .alloc _ => True
  | .free ptr size => ⟨ptr, size⟩ ∈ s.live
  | .store addr _ => ∃ o ∈ s.live, o.ptr ≤ addr ∧ addr < o.ptr + o.size

/-- The size can be rounded up to pages. -/
def Action.SizeFits : Action → Prop
  | .alloc size => size + (pageSize - 1) < 2 ^ 64
  | .free _ _ => True
  | .store _ _ => True

instance (s : Slab) (a : Action) : Decidable (s.Proper a) := by
  rcases a <;> dsimp only [Proper] <;> infer_instance

instance (a : Action) : Decidable a.SizeFits := by
  rcases a <;> dsimp only [Action.SizeFits] <;> infer_instance

/-- What clients may rely on. -/
structure Sound (hhdm : Hhdm) (s : Slab) : Prop where
  /-- Objects with bytes are apart, with all the bytes of their slots or blocks. -/
  disjoint : (s.live.filter fun o => 1 ≤ o.size).Pairwise fun o o' => o.extent.Apart o'.extent
  /-- An object has the bytes that were asked for. -/
  enough : ∀ o ∈ s.live, 1 ≤ o.size → o.size ≤ room o.size
  /-- A small object is aligned to its size class. -/
  aligned : ∀ o ∈ s.live, 1 ≤ o.size → ∀ idx, sizeClassIdx o.size = some idx → objSize idx ∣ o.ptr
  /-- A large object is where a block of its own is seen. -/
  block : ∀ o ∈ s.live, sizeClassIdx o.size = none → ∃ phys order, largeOrder o.size = some order ∧
    HeldBlock pageSize s.heap.log ⟨phys, order⟩ ∧ o.ptr = hhdm.physToVirt phys ∧ pageSize ∣ o.ptr
  /-- The free lists are finite, and no live object overlaps a slot on one. -/
  offLists : ∀ idx < numClasses, ∃ l, Chain (loadWord s.heap.mem) (s.heap.freeHead idx) l ∧
    ∀ a ∈ l, ∀ o ∈ s.live, 1 ≤ o.size → Extent.Apart ⟨a, objSize idx⟩ o.extent

theorem Inv.sound (hI : Inv hhdm lists pages s) : Sound hhdm s where
  disjoint := pairwise_map.1 (pairwise_append.1 hI.apart).2.1
  enough o ho _ := hI.enough o ho
  aligned o ho h1 idx hidx := (hI.small o ho h1 idx hidx).1
  block o ho hidx := by
    obtain ⟨order, horder, hptr⟩ := hI.large o ho hidx
    have hmem : ⟨hhdm.virtToPhys o.ptr, order⟩ ∈ blocks hhdm pages s.live :=
      mem_append_right _ (mem_filterMap.2 ⟨o, ho, largeBlock_eq hidx horder⟩)
    have hheld := hI.held.block _ hmem
    refine ⟨hhdm.virtToPhys o.ptr, order, horder, hheld, hptr, ?_⟩
    have haddr : hhdm.physToVirt (hhdm.virtToPhys o.ptr) = hhdm.virtToPhys o.ptr + hhdm.offset :=
      Hhdm.physToVirt_eq (hI.sees _ hmem)
    rw [hptr, haddr]
    exact Nat.dvd_add hheld.dvd hhdm.dvd
  offLists idx hidx := ⟨lists idx, hI.chain idx hidx, fun a ha o ho h1 =>
    (pairwise_append.1 hI.apart).2.2 _ (mem_slotExtents.2 ⟨idx, hidx, a, ha, rfl⟩) _
      (mem_objects.2 ⟨o, ho, h1, rfl⟩)⟩

theorem inv_boot (mem : ℕ → UInt8) (answer : ℕ → ℕ → Option ℕ) :
    Inv hhdm (fun _ => []) [] (boot mem answer) := by
  refine ⟨fun _ _ => rfl, ?_, nofun, nofun, nofun, nofun, Held.nil _, nofun⟩
  exact Pairwise.nil

theorem inv_step (hI : Inv hhdm lists pages s) {act : Action} {s' : Slab} (hproper : s.Proper act)
    (hfits : act.SizeFits) (h : step hhdm s act = some s') :
    ∃ lists' pages', Inv hhdm lists' pages' s' := by
  cases act with
  | alloc =>
    obtain ⟨⟨ptr, heap⟩, halloc, rfl⟩ := map_eq_some_iff.1 h
    exact hI.alloc hfits halloc
  | free =>
    obtain ⟨heap, hfree, rfl⟩ := map_eq_some_iff.1 h
    obtain ⟨lists', hI'⟩ := hI.free hproper hfree
    exact ⟨lists', pages, hI'⟩
  | store addr v =>
    cases h
    obtain ⟨o, ho, hlo, hhi⟩ := hproper
    exact ⟨lists, pages, hI.store ho hlo hhi v⟩

/-- **The slab allocator is sound** in every run in which clients are proper and sizes can be
rounded up to pages, whatever memory holds and the buddy allocator answers. -/
theorem sound_run (mem : ℕ → UInt8) (answer : ℕ → ℕ → Option ℕ)
    (h : Run (step hhdm) (fun s a => s.Proper a ∧ a.SizeFits) (boot mem answer) s) :
    Sound hhdm s := by
  have hinv : ∃ lists pages, Inv hhdm lists pages s := by
    refine h.invariant (I := fun s => ∃ lists pages, Inv hhdm lists pages s)
      ⟨_, _, inv_boot mem answer⟩ ?_
    rintro s act s' ⟨lists, pages, hI⟩ ⟨hproper, hfits⟩ hst
    exact inv_step hI hproper hfits hst
  obtain ⟨lists, pages, hI⟩ := hinv
  exact hI.sound

/-- Physical memory seen where it is. -/
def identity : Hhdm := ⟨0, by decide, by decide⟩

/-- A buddy allocator that gives out blocks of up to four pages, one every four pages. -/
def everyFour (tick order : ℕ) : Option ℕ := if order ≤ 2 then some (0x4000 * (tick + 1)) else none

/-- A small and a large object, of which the small one is freed and allocated again. -/
theorem sound_small_large :
    ∃ s, Run (step identity) (fun s a => s.Proper a ∧ a.SizeFits) (boot (fun _ => 0) everyFour) s ∧
      s.live = [⟨0x4000, 2500⟩, ⟨0x8000, 10000⟩] ∧ Sound identity s :=
  Run.exists_guarded_with
    [.alloc 3000, .alloc 10000, .store 0x4000 1, .free 0x4000 3000, .alloc 2500]
    (by decide +kernel) fun _ hrun _ => sound_run _ _ hrun

/-- **A request for all of memory gets a page**: rounding its size up wraps. -/
theorem one_page_for_all :
    ∃ s, Run (step identity) Proper (boot (fun _ => 0) everyFour) s ∧
      (s.live = [⟨0x4000, 2 ^ 64 - 1⟩] ∧ s.heap.log = [.alloc ⟨0x4000, 0⟩]) ∧ ¬ Sound identity s := by
  refine Run.exists_guarded_with [.alloc (2 ^ 64 - 1)] (by decide +kernel) fun s _ hp hsound => ?_
  have hmem : (⟨0x4000, 2 ^ 64 - 1⟩ : SlabObject) ∈ s.live := hp.1 ▸ (.head _)
  exact absurd (hsound.enough _ hmem (by decide)) (by decide +kernel)

end Slab

end Cyanos
