import Cyanos.Mm.Frames
import Cyanos.Mm.Space

/-!
# Frames are returned exactly

The ledger of an address space balances: what it was given is what it gave back together with what
its regions hold (`Balanced`).  Dropping the address space gives the rest back, so that in the end
every block was freed exactly once, as it was allocated (`Space.drop_returns_all`).

The order of an eager block is not stored: it is computed from the length of the region.  The
result is therefore about the runs that cut an eager region only where its order stays, and that
do not drop a lazy region that still holds pages beyond its end.
-/

namespace Cyanos

open Lib Machine Block AddressSpace VmaRegion Frames List Option

/-- What was given is what was given back and what is held. -/
structure Balanced (bs : List Block) (w : Frames) : Prop where
  perm : (allocs w.log).Perm (frees w.log ++ bs)
  order_lt : ∀ b ∈ allocs w.log, b.order < maxOrder

namespace Balanced

variable {bs bs' : List Block} {b : Block} {hs : List Holding} {h : Holding} {root : ℕ}
  {w w' : Frames}

theorem of_perm (hbal : Balanced bs w) (hp : bs.Perm bs') (hlog : w'.log = w.log) :
    Balanced bs' w' :=
  ⟨hlog ▸ hbal.perm.trans (hp.append_left _), hlog ▸ hbal.order_lt⟩

theorem alloc (hbal : Balanced bs w) (hb : b.order < maxOrder) (hlog : w'.log = .alloc b :: w.log) :
    Balanced (b :: bs) w' := by
  constructor
  · rw [hlog]
    exact (hbal.perm.cons b).trans perm_middle.symm
  · rw [hlog]
    exact forall_mem_cons.2 ⟨hb, hbal.order_lt⟩

theorem free (hbal : Balanced (b :: bs) w) (hlog : w'.log = .free b :: w.log) : Balanced bs w' := by
  refine ⟨?_, fun c hc => hbal.order_lt c (by rwa [hlog] at hc)⟩
  rw [hlog]
  exact hbal.perm.trans perm_middle

theorem retire (hbal : Balanced (h.block :: bs) w) (hret : retire root w h = some w') :
    Balanced bs w' := by
  obtain rfl := buddyFree_some hret
  exact hbal.free (by simp)

theorem retireAll {gone : List Holding} (hbal : Balanced (blocksOf gone ++ bs) w)
    (hret : gone.foldlM (Cyanos.retire root) w = some w') : Balanced bs w' :=
  foldlM_keeps (J := fun gone w => Balanced (blocksOf gone ++ bs) w) (fun h hbal => hbal.retire h) hret
    hbal

end Balanced

/-! ### Unmapping -/

/-- Unmapping `[lo, hi)` gives back exactly what the region no longer holds: a lazy region that is
dropped has no page beyond its end, and an eager region is dropped, or cut where its order
stays. -/
def VmaRegion.CutExactly (lo hi : ℕ) (r : VmaRegion) : Prop :=
  r.Meets lo hi →
    if r.lazy then
      r.start ≤ r.end_ ∧ (lo ≤ r.start → r.end_ ≤ hi →
        ∀ i f, r.lazyPages[i]? = some f → f ≠ 0 → i < r.pages)
    else
      (lo ≤ r.start ∧ r.end_ ≤ hi) ∨
        (r.start < lo ∧ pagesToOrder ((lo - r.start) / pageSize) = pagesToOrder r.pages)

instance (lo hi : ℕ) (r : VmaRegion) : Decidable (r.CutExactly lo hi) :=
  inferInstanceAs (Decidable (_ → ite ..))

/-- Entries that are all zero hold nothing. -/
theorem lazyHoldings_eq_nil {start i : ℕ} {fs : List ℕ}
    (h : ∀ (j : ℕ) (f : ℕ), fs[j]? = some f → f = 0) : lazyHoldings start i fs = [] := by
  induction fs generalizing i with
  | nil => rfl
  | cons f fs ih =>
    obtain rfl := h 0 f rfl
    exact ih fun j f hf => h (j + 1) f hf

section UnmapSlot

variable {root virt end_ : ℕ} {r : VmaRegion} {slot slot' : Option VmaRegion} {bs : List Block}
  {w w' : Frames}

/-- A lazy region keeps all the pages it does not give back. -/
theorem blocksOf_unmapSlot_lazy (hr : r.Shaped) (hend : pageSize ∣ end_) (hm : r.Meets virt end_)
    (hl : r.lazy = true) (hcut : r.CutExactly virt end_)
    (h : unmapSlot root virt end_ w (some r) = some (slot, w')) :
    ∃ gone, r.holdings.Perm (gone ++ slot.elim [] VmaRegion.holdings) ∧
      gone.foldlM (retire root) w = some w' := by
  obtain ⟨fs, hfree, hslot⟩ := unmapSlot_lazy hm hl h
  obtain ⟨hfs, gone, hperm, hgone⟩ := freeLazy_spec hfree
  have hcut := hcut hm
  rw [if_pos hl] at hcut
  obtain ⟨hle, hfull⟩ := hcut
  refine ⟨gone, ?_, hgone⟩
  rw [holdings_of_lazy hl]
  -- the page numbers of the range's end agree, since everything is page-aligned
  have hde : pageSize ∣ min end_ r.end_ := min_rec' (pageSize ∣ ·) hend hr.dvd_end
  have hes : r.start ≤ min end_ r.end_ := le_min hm.1.le hle
  have hlt : min end_ r.end_ < 2 ^ 64 := lt_of_le_of_lt (min_le_right _ _) hr.end_lt
  have hsub : wsub (min end_ r.end_) r.start = min end_ r.end_ - r.start := wsub_of_le hlt hes
  have hlast : wadd (wsub (min end_ r.end_) r.start) (pageSize - 1) / pageSize =
      wsub (min end_ r.end_) r.start / pageSize := by
    obtain ⟨a, ha⟩ := hde
    obtain ⟨b, hb⟩ := hr.dvd_start
    rw [hsub, wadd_of_lt (by unfold pageSize at *; omega)]
    unfold pageSize at *
    omega
  rw [hlast] at hfs
  have hcleared : virt ≤ r.start → ∀ (j : ℕ) (f : ℕ), fs[j]? = some f →
      j < wsub (min end_ r.end_) r.start / pageSize → f = 0 := by
    intro hs j f hf hj
    rw [hfs, getElem?_clearPages] at hf
    obtain ⟨g, -, rfl⟩ := map_eq_some_iff.1 hf
    refine if_pos ⟨?_, by omega⟩
    rw [max_eq_right hs, wsub_of_le hr.start_lt le_rfl, Nat.sub_self, Nat.zero_div]
    exact Nat.zero_le _
  rcases hslot with ⟨hs, he, rfl⟩ | ⟨hs, hlt, rfl⟩ | ⟨-, rfl⟩
  · have hnil : lazyHoldings r.start 0 fs = [] := by
      refine lazyHoldings_eq_nil fun j f hf => ?_
      by_contra hne
      have hf' := hf
      rw [hfs, getElem?_clearPages] at hf'
      obtain ⟨g, hg, hgf⟩ := map_eq_some_iff.1 hf'
      have hg0 : g ≠ 0 := by
        rintro rfl
        exact hne (by rw [← hgf, ite_self])
      have hj := hfull hs he j g hg hg0
      refine hne (hcleared hs j f hf ?_)
      rwa [min_eq_right he]
    rw [hnil] at hperm
    exact hperm
  · rw [min_eq_left hlt.le] at hcleared
    simp only [Option.elim, VmaRegion.holdings, hl, if_true]
    have hnil : lazyHoldings r.start 0 (fs.take (wsub end_ r.start / pageSize)) = [] := by
      refine lazyHoldings_eq_nil fun j f hf => ?_
      rw [getElem?_take] at hf
      split at hf
      · next hj => exact hcleared hs j f hf hj
      · cases hf
    rwa [lazyHoldings_split (add_wsub_div hr.start_lt hend hr.dvd_start) fs, hnil] at hperm
  · simpa only [Option.elim, VmaRegion.holdings, hl, if_true] using hperm

/-- What an eager region gives up is its whole block, or nothing. -/
theorem balanced_unmapSlot_eager (hr : r.Shaped) (hm : r.Meets virt end_) (hl : r.lazy = false)
    (hcut : r.CutExactly virt end_) (hbal : Balanced (blocksOf r.holdings ++ bs) w)
    (h : unmapSlot root virt end_ w (some r) = some (slot, w')) :
    Balanced (blocksOf (slot.elim [] VmaRegion.holdings) ++ bs) w' := by
  by_cases hp : r.phys = 0
  · rw [holdings_of_phys_zero hl hp] at hbal
    rcases unmapSlot_eager hm hl h with
      ⟨-, -, rfl, hw'⟩ | ⟨-, -, rfl, rfl⟩ | ⟨-, rfl, rfl⟩
    · rw [if_neg (by simpa using hp)] at hw'
      cases hw'
      exact hbal.of_perm (.refl _) unmapPages_log
    · refine hbal.of_perm (.of_eq ?_) unmapPages_log
      simp [VmaRegion.holdings, hl, hp]
    · refine hbal.of_perm (.of_eq ?_) unmapPages_log
      simp [VmaRegion.holdings, hl, hp]
  have hcut := hcut hm
  rw [if_neg (by simp [hl])] at hcut
  rw [holdings_of_eager hl hp] at hbal
  rcases unmapSlot_eager hm hl h with
    ⟨-, -, rfl, hw'⟩ | ⟨hs, hlt, -⟩ | ⟨hlt, rfl, rfl⟩
  · rw [if_pos hp] at hw'
    exact hbal.retire hw'
  · omega
  · have horder : pagesToOrder ((virt - r.start) / pageSize) = pagesToOrder r.pages :=
      (hcut.resolve_left fun h => Nat.not_le_of_lt hlt h.1).2
    have hpages : ({ r with end_ := virt } : VmaRegion).pages = (virt - r.start) / pageSize := by
      rw [VmaRegion.pages, wsub_of_le (lt_trans hm.2 hr.end_lt) hlt.le]
    rw [Option.elim, holdings_of_eager (by exact hl) (by exact hp), hpages, horder]
    exact hbal.of_perm (.refl _) unmapPages_log

theorem balanced_unmapSlot (hr : ∀ r, slot = some r → r.Shaped) (hend : pageSize ∣ end_)
    (hcut : ∀ r, slot = some r → r.CutExactly virt end_)
    (hbal : Balanced (blocksOf (slot.elim [] VmaRegion.holdings) ++ bs) w)
    (h : unmapSlot root virt end_ w slot = some (slot', w')) :
    Balanced (blocksOf (slot'.elim [] VmaRegion.holdings) ++ bs) w' := by
  cases slot with
  | none =>
    cases h
    exact hbal
  | some r =>
    by_cases hm : r.Meets virt end_
    · cases hl : r.lazy with
      | true =>
        obtain ⟨gone, hperm, hgone⟩ := blocksOf_unmapSlot_lazy (hr r rfl) hend hm hl (hcut r rfl) h
        have hperm' := (hperm.map Holding.block).append_right bs
        rw [map_append, append_assoc] at hperm'
        exact (hbal.of_perm hperm' rfl).retireAll hgone
      | false => exact balanced_unmapSlot_eager (hr r rfl) hm hl (hcut r rfl) hbal h
    · rw [unmapSlot_of_not_meets hm] at h
      cases h
      exact hbal

end UnmapSlot

/-! ### The operations -/

namespace AddressSpace

variable {s s' : AddressSpace} {w w' : Frames} {ok : Bool} {virt : ℕ} {flags : PageFlags}
  {bs : List Block}

/-- The ledger balances with what the regions hold. -/
def BalancedOn (s : AddressSpace) (w : Frames) : Prop := Balanced (blocksOf (holdings s.regions)) w

theorem BalancedOn.setRegion (hs : List Holding) {slot : ℕ} {old : Option VmaRegion} {r : VmaRegion}
    (hget : s.regions[slot]? = some old)
    (hr : r.holdings.Perm (hs ++ old.elim [] VmaRegion.holdings))
    (h : Balanced (blocksOf hs ++ blocksOf (holdings s.regions)) w) :
    (s.setRegion slot r).BalancedOn w := by
  have hperm : (hs ++ holdings s.regions).Perm (holdings (s.setRegion slot r).regions) :=
    holdings_setRegion hs [] hget hr.symm
  have hmap := hperm.map Holding.block
  rw [map_append] at hmap
  exact h.of_perm hmap rfl

theorem balancedOn_map {size : ℕ} (hbal : s.BalancedOn w) (hans : w.NonzeroAt w.tick)
    (h : s.map w virt size flags = some (ok, s', w')) : s'.BalancedOn w' := by
  rcases map_cases h with ⟨-, rfl, rfl | ⟨_, halloc⟩⟩ | ⟨slot, v, n, phys, w₁, hplace, halloc, h⟩
  · exact hbal
  · rw [buddyAlloc_none halloc]
    exact hbal.of_perm (.refl _) rfl
  obtain ⟨-, hslot, -, -, hend, -⟩ := place_spec hplace
  obtain ⟨ho, -, hlog, -, hanswer⟩ := buddyAlloc_some halloc
  have hp : phys ≠ 0 := by
    rintro rfl
    exact hans _ ho hanswer
  rcases h with ⟨hmap, -, rfl⟩ | ⟨i, w₂, hmap, hfree, -, rfl⟩
  · have hlog2 := (mapPages_spec hmap).1
    refine BalancedOn.setRegion [⟨⟨phys, pagesToOrder n⟩, v, n⟩] hslot ?_
      (hbal.alloc ho (hlog2.trans hlog))
    rw [holdings_eagerRegion hend, if_pos hp]
    rfl
  · have hlog2 := (mapPages_spec hmap).1
    have hnew : Balanced (⟨phys, pagesToOrder n⟩ :: blocksOf (holdings s'.regions)) w₂ :=
      hbal.alloc ho (hlog2.trans hlog)
    exact hnew.retire (h := ⟨⟨phys, pagesToOrder n⟩, v, i⟩) hfree

theorem balancedOn_mapLazy {size : ℕ} (hbal : s.BalancedOn w)
    (h : s.mapLazy virt size flags = (ok, s')) : s'.BalancedOn w := by
  rcases mapLazy_cases h with ⟨-, rfl⟩ | ⟨slot, v, n, hplace, -, rfl⟩
  · exact hbal
  · obtain ⟨-, hslot, -⟩ := place_spec hplace
    exact BalancedOn.setRegion [] hslot (.refl _) hbal

theorem balancedOn_handleUserPageFault {va : ℕ} (hbal : s.BalancedOn w)
    (hans : w.NonzeroAt w.tick)
    (h : s.handleUserPageFault w va = some (ok, s', w')) : s'.BalancedOn w' := by
  rcases handleUserPageFault_cases h with
    ⟨-, rfl, rfl | halloc⟩ | ⟨slot, r, phys, w₁, hlook, hl, hnone, halloc, h⟩
  · exact hbal
  · rw [buddyAlloc_none halloc]
    exact hbal.of_perm (.refl _) rfl
  obtain ⟨ho, -, hlog, -, hanswer⟩ := buddyAlloc_some halloc
  have hp : phys ≠ 0 := by
    rintro rfl
    exact hans _ ho hanswer
  rcases h with ⟨hmap, -, rfl⟩ | ⟨w₂, hmap, hfree, -, rfl⟩
  · have hlog2 := (mapPage_spec hmap).1
    have hset := lazyHoldings_set r.start hp 0 _ r.lazyPages hnone
    have hnew : Balanced (⟨phys, 0⟩ :: blocksOf (holdings s.regions)) w' :=
      hbal.alloc ho (hlog2.trans hlog)
    refine BalancedOn.setRegion [⟨⟨phys, 0⟩,
      wadd r.start ((0 + wsub (alignDown va pageSize) r.start / pageSize) * pageSize), 1⟩]
      (lookup_spec hlook).1 ?_ hnew
    rw [Option.elim, holdings_of_lazy hl, holdings_of_lazy (by exact hl)]
    exact hset
  · have hlog2 := (mapPage_spec hmap).1
    have hnew : Balanced (⟨phys, 0⟩ :: blocksOf (holdings s'.regions)) w₂ :=
      hbal.alloc ho (hlog2.trans hlog)
    obtain rfl := buddyFree_some hfree
    exact hnew.free rfl

theorem balancedOn_unmapRange {len : ℕ} (hs : s.Shaped) (hbal : s.BalancedOn w)
    (hcut : ∀ lo hi, unmapBounds virt len = some (lo, hi) → ∀ r, some r ∈ s.regions → r.CutExactly lo hi)
    (h : s.unmapRange w virt len = some (s', w')) : s'.BalancedOn w' := by
  rcases unmapRange_cases h with ⟨-, rfl, rfl⟩ | ⟨lo, hi, slots, hb, hloop, rfl⟩
  · exact hbal
  · obtain ⟨hlo, hhi, hle, hlt⟩ := unmapBounds_spec hb
    refine (forSlots_kept (P := fun r => r.Shaped ∧ r.CutExactly lo hi)
      (J := fun hs w => Balanced (blocksOf hs) w) (fun hp hI => hI.of_perm (hp.map _) rfl)
      (fun hf hshape hI => ?_) hloop (fun r hr => ⟨hs r hr, hcut lo hi hb r hr⟩) [] hbal).2
    have hslot := shaped_unmapSlot (fun r hr => (hshape r hr).1) hlo (by omega) hhi hf
    refine ⟨fun r hr => ⟨(hslot r hr).1, fun hm => absurd hm (hslot r hr).2⟩, ?_⟩
    rw [blocksOf, map_append] at hI ⊢
    exact balanced_unmapSlot (fun r hr => (hshape r hr).1) hhi (fun r hr => (hshape r hr).2) hI hf

/-- `mprotect` allocates and frees nothing, and changes no holding. -/
theorem protectSlot_holdings {root addr end_ : ℕ} {slot slot' : Option VmaRegion}
    (h : protectSlot root addr end_ flags w slot = (slot', w')) :
    w'.log = w.log ∧ slot'.elim [] VmaRegion.holdings = slot.elim [] VmaRegion.holdings := by
  have hlog : (protectSlot root addr end_ flags w slot).2.log = w.log :=
    protectSlot_keeps (J := fun w' : Frames => w'.log = w.log) (fun h => mapPage_log.trans h) rfl
  rw [h] at hlog
  refine ⟨hlog, ?_⟩
  cases slot with
  | none =>
    cases h
    rfl
  | some =>
    simp only [protectSlot] at h
    split at h <;> cases h <;> rfl

theorem balancedOn_mprotect {addr len prot : ℕ} (hbal : s.BalancedOn w)
    (h : s.mprotect w addr len prot = some (ok, s', w')) : s'.BalancedOn w' := by
  rcases mprotect_cases h with ⟨-, rfl, rfl⟩ | ⟨end_, slots, -, -, hloop, rfl⟩
  · exact hbal
  · refine (forSlots_kept (P := fun _ => True) (J := fun hs w => Balanced (blocksOf hs) w)
      (fun hp hI => hI.of_perm (hp.map _) rfl) (fun hf _ hI => ⟨fun _ _ => trivial, ?_⟩) hloop
      (fun _ _ => trivial) [] hbal).2
    obtain ⟨hlog, hhold⟩ := protectSlot_holdings (some.inj hf)
    rw [hhold]
    exact hI.of_perm (.refl _) hlog

theorem balancedOn_brk {b newEnd : ℕ} (hbal : s.BalancedOn w)
    (hlazy : ∀ r, some r ∈ s.regions → r.start = s.heapStart → r.lazy = true)
    (h : s.brk w newEnd = some (b, s', w')) : s'.BalancedOn w' := by
  rcases brk_cases h with ⟨rfl, rfl, -⟩ | ⟨s₁, hmap, -, rfl, rfl, -⟩ | ⟨idx, r, -, hget, hstart, h⟩
  · exact hbal
  · have hs1 := balancedOn_mapLazy hbal hmap
    exact hs1
  · have hl := hlazy r (mem_of_getElem? hget) hstart
    rcases h with ⟨-, -, rfl, rfl⟩ | ⟨fs, -, hfree, rfl⟩
    · refine BalancedOn.setRegion [] hget ?_ hbal
      exact .of_eq (by simp [VmaRegion.holdings, hl])
    · obtain ⟨-, gone, hperm, hgone⟩ := freeLazy_spec hfree
      have hhold : VmaRegion.holdings { r with end_ := b, lazyPages := fs } =
          lazyHoldings r.start 0 fs := holdings_of_lazy hl
      rw [← hhold, ← holdings_of_lazy hl] at hperm
      have hmap := (holdings_setRegion [] gone hget hperm).map Holding.block
      rw [nil_append, map_append] at hmap
      exact (hbal.of_perm hmap rfl).retireAll hgone

/-! ### Dropping -/

/-- A block that is held can be freed. -/
theorem buddyFree_held {b : Block} (hbal : Balanced (b :: bs) w) :
    ∃ w', buddyFree w b.addr b.order = some w' ∧ Balanced bs w' :=
  ⟨_, if_pos (hbal.order_lt b (hbal.perm.symm.subset (mem_append_right _ (.head _)))), hbal.free rfl⟩

theorem freeBlocks_held (hbal : Balanced bs w) :
    ∃ w', freeBlocks w bs = some w' ∧ Balanced [] w' := by
  induction bs generalizing w with
  | nil => exact ⟨w, rfl, hbal⟩
  | cons b bs ih =>
    obtain ⟨w₁, hw1, hbal1⟩ := buddyFree_held hbal
    obtain ⟨w', hw', hbal'⟩ := ih hbal1
    exact ⟨w', by rw [freeBlocks, foldlM_cons, hw1]; exact hw', hbal'⟩

end AddressSpace

/-! ### Runs -/

namespace Space

/-- The allocator does not answer the call with the page at address `0`; `unmap_range` gives back
exactly what the regions no longer hold; and `brk` finds a lazy heap. -/
def ReturnsExactly (s : Space Frames) (c : Call) : Prop :=
  s.w.NonzeroAt s.w.tick ∧
    match c with
    | .unmapRange virt len => ∀ lo hi, AddressSpace.unmapBounds virt len = some (lo, hi) →
        ∀ r, some r ∈ s.as.regions → r.CutExactly lo hi
    | .brk _ => s.HeapLazy
    | _ => True

instance (s : Space Frames) (c : Call) : Decidable (s.ReturnsExactly c) := by
  rcases c <;> dsimp only [ReturnsExactly] <;> infer_instance

theorem balancedOn_step {s s' : Space Frames} {c : Call} (hs : s.as.Shaped)
    (hbal : s.as.BalancedOn s.w) (hc : s.ReturnsExactly c) (h : s.step c = some s') :
    s'.as.BalancedOn s'.w := by
  obtain ⟨hans, hc⟩ := hc
  cases c with
  | map =>
    obtain ⟨⟨ok, as, w⟩, hop, rfl⟩ := map_eq_some_iff.1 h
    exact balancedOn_map hbal hans hop
  | mapLazy =>
    cases h
    exact balancedOn_mapLazy hbal rfl
  | fault =>
    obtain ⟨⟨ok, as, w⟩, hop, rfl⟩ := map_eq_some_iff.1 h
    exact balancedOn_handleUserPageFault hbal hans hop
  | unmapRange =>
    obtain ⟨⟨as, w⟩, hop, rfl⟩ := map_eq_some_iff.1 h
    exact balancedOn_unmapRange hs hbal hc hop
  | mprotect =>
    obtain ⟨⟨ok, as, w⟩, hop, rfl⟩ := map_eq_some_iff.1 h
    exact balancedOn_mprotect hbal hop
  | brk =>
    obtain ⟨⟨b, as, w⟩, hop, rfl⟩ := map_eq_some_iff.1 h
    exact balancedOn_brk hbal hc hop

variable {root heapStart heapEnd : ℕ} {answer : ℕ → ℕ → Option ℕ} {mapOk : ℕ → Bool}
  {s : Space Frames}

theorem balanced_of_run
    (h : Run step ReturnsExactly (new root heapStart heapEnd (init answer mapOk)) s) :
    s.as.Shaped ∧ s.as.BalancedOn s.w :=
  h.invariant (I := fun s => s.as.Shaped ∧ s.as.BalancedOn s.w)
    ⟨shaped_new _ _ _, .nil, nofun⟩
    fun _ _ _ ⟨hs, hbal⟩ hc hst =>
      ⟨shaped_step hs (fun _ he => by subst he; exact hc.2) hst, balancedOn_step hs hbal hc hst⟩

/-- **Exact return of data frames.**  After every run whose steps give back exactly what the regions
no longer hold, dropping the address space succeeds, and the blocks freed for its regions are the
blocks allocated for them, each once.  The root page table is freed after them. -/
theorem drop_returns_all
    (h : Run step ReturnsExactly (new root heapStart heapEnd (Frames.init answer mapOk)) s) :
    ∃ w w', s.as.regions.foldlM AddressSpace.dropSlot s.w = some w ∧
      (allocs w.log).Perm (frees w.log) ∧ s.as.drop s.w = some w' ∧
      w'.log = if s.as.pageTableRoot ≠ 0 then .free ⟨s.as.pageTableRoot, 0⟩ :: w.log else w.log := by
  obtain ⟨-, hbal⟩ := balanced_of_run h
  obtain ⟨w, hw, hbal'⟩ := freeBlocks_held hbal
  rw [← dropSlots_eq] at hw
  have hperm := hbal'.perm
  rw [append_nil] at hperm
  by_cases hr : s.as.pageTableRoot = 0
  · exact ⟨w, w, hw, hperm, by simp [AddressSpace.drop, hw, hr], by simp [hr]⟩
  · refine ⟨w, { w with log := .free ⟨s.as.pageTableRoot, 0⟩ :: w.log }, hw, hperm, ?_, ?_⟩
    · simp only [AddressSpace.drop, hw, bind_eq_bind, bind_some, if_pos hr]
      rfl
    · rw [if_pos hr]

/-- Eight eager pages and three lazy ones are mapped; two of the lazy ones are touched, and one of
these is unmapped again with the page after it. -/
def mapTouchCut : List Call :=
  [.map 0x10000 0x8000 (.ofUser true false), .mapLazy 0x20000 0x3000 (.ofUser true false),
    .fault 0x21000, .unmapRange 0x21000 0x2000, .fault 0x20000]

theorem mapTouchCut_drop_returns_all :
    ∃ s, Run step ReturnsExactly (new 0x2000 0 0 Frames.byOrder) s ∧
      (allocs s.w.log = [⟨0x100000, 0⟩, ⟨0x100000, 0⟩, ⟨0x400000, 3⟩] ∧
        frees s.w.log = [⟨0x100000, 0⟩]) ∧
      ∃ w w', s.as.regions.foldlM AddressSpace.dropSlot s.w = some w ∧
        (allocs w.log).Perm (frees w.log) ∧ s.as.drop s.w = some w' ∧
        w'.log =
          if s.as.pageTableRoot ≠ 0 then .free ⟨s.as.pageTableRoot, 0⟩ :: w.log else w.log :=
  Run.exists_guarded_with mapTouchCut (by decide +kernel) fun _ hrun _ => drop_returns_all hrun

/-- Eight eager pages are mapped and the first is unmapped: the region moves on by a page, and with
it the address that is freed in the end. -/
theorem front_cut_frees_another_block :
    ∃ s, Reach step (new 0x200000 0 0 Frames.oneBlock) s ∧
      ∃ w, s.as.regions.foldlM AddressSpace.dropSlot s.w = some w ∧
        allocs w.log = [⟨0x100000, 3⟩] ∧ frees w.log = [⟨0x101000, 3⟩] := by
  obtain ⟨s, hs, hbad⟩ : ∃ s, Reach step (new 0x200000 0 0 Frames.oneBlock) s ∧
      (s.as.regions.foldlM dropSlot s.w).any fun w =>
        allocs w.log = [⟨0x100000, 3⟩] ∧ frees w.log = [⟨0x101000, 3⟩] := Run.exists_of_foldlM
    [.map 0x10000 0x8000 (.ofUser true false), .unmapRange 0x10000 0x1000] (by decide)
  exact ⟨s, hs, exists_of_any hbad⟩

end Space

end Cyanos
