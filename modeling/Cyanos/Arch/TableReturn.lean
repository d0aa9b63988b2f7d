import Cyanos.Arch.PageMap
import Cyanos.Mm.Upkeep

/-!
# Page-table nodes are not returned

Tables of the upper levels are taken from the page allocator by `ensure_table`, in the middle of
`map_4k`, and are recorded only in the entry that points to them.  `AddressSpace::drop` frees what
the regions hold and the root, and never looks at the tables.

`Tabled isa` is physical memory together with the list of the pages that were taken for the tables
of one address space, each with the number of times it has been freed since.

## Main results

* `Space.drop_returns_tables_iff` : **dropping an address space returns its tables just when it has
  none but the root**, after any run that does not cut off the front of an eager region.
* `Space.tables_leaked` : one mapped page leaves three tables behind.
-/

namespace Cyanos

open AddressSpace List Option

open Lib Machine Block Aarch64

/-! ### The allocator and the root -/

namespace Isa

/-- `buddy::alloc(order)`, for an order that exists: any fresh block of physical memory, or none. -/
def take (isa : Isa) (w : Ram) (order : ℕ) : Option ℕ × Ram :=
  match (w.answer w.tick order).filter fun a =>
    Fresh pageSize w.log ⟨a, order⟩ ∧ a + Block.size pageSize ⟨a, order⟩ ≤ 2 ^ isa.physBits with
  | some a => (some a, { w.asked with log := .alloc ⟨a, order⟩ :: w.log })
  | none => (none, w.asked)

/-- The loop of `arch_alloc_page_table_root` on x86-64 that copies the entries of the kernel's half
from the current table. -/
def copyKernelHalf (cr3 phys : ℕ) (w : Ram) : Ram :=
  (List.range 256).foldl (fun w i =>
    w.store (phys + 8 * (256 + i)) (w.mem (alignDown cr3 pageSize + 8 * (256 + i)))) w

/-- What `arch_alloc_page_table_root` does to the page it got, and whether the tables it needs could
be had, which the source does not look at. -/
def initRoot (isa : Isa) (cr3 phys : ℕ) (w : Ram) : Bool × Ram :=
  match isa with
  | aarch64 => (w.fill phys pageSize fun _ => 0).mapWindows phys
  | x86_64 => (true, copyKernelHalf cr3 phys (w.fill phys pageSize fun _ => 0))

end Isa

/-! ### Memory with a list of tables -/

/-- A page taken for a table. -/
structure TablePage where
  /-- Its address. -/
  page : ℕ
  /-- How often `buddy::free` was called with this address since. -/
  freed : ℕ
  deriving DecidableEq, Repr

/-- Physical memory and the tables of one address space, the latest first. -/
structure Tabled (isa : Isa) where
  /-- Physical memory. -/
  ram : Ram
  /-- The pages taken for tables. -/
  tables : List TablePage

/-- Count a call of `buddy::free`, for the last time the page was taken. -/
def credit (addr : ℕ) : List TablePage → List TablePage
  | [] => []
  | t :: ts => if t.page = addr then { t with freed := t.freed + 1 } :: ts else t :: credit addr ts

/-- The pages taken between two states of memory. -/
def newPages (w w' : Ram) : List ℕ :=
  ((allocs w'.log).take ((allocs w'.log).length - (allocs w.log).length)).map Block.addr

namespace Tabled

variable {isa : Isa}

/-- The state after a page-table function: what it took is for tables. -/
def record (s : Tabled isa) (w : Ram) : Tabled isa :=
  ⟨w, (newPages s.ram w).map (⟨·, 0⟩) ++ s.tables⟩

instance : Machine (Tabled isa) where
  buddyAlloc s order :=
    if order < maxOrder then
      let (res, w) := isa.take s.ram order
      some (res, { s with ram := w })
    else none
  buddyFree s addr order :=
    if order < maxOrder then
      some ⟨{ s.ram with log := .free ⟨addr, order⟩ :: s.ram.log }, credit addr s.tables⟩
    else none
  zeroBytes s phys n := { s with ram := s.ram.fill phys n fun _ => 0 }
  mapPage s root virt phys flags :=
    let (ok, w) := isa.archMapPage s.ram root virt phys flags
    (ok, s.record w)
  unmapPage s root virt := { s with ram := isa.archUnmapPage s.ram root virt }

/-- The pages taken for tables, as blocks. -/
def blocks (s : Tabled isa) : List Block := s.tables.map fun t => ⟨t.page, 0⟩

end Tabled

/-- `arch_alloc_page_table_root()`: the new root, or `0`. -/
def Isa.archAllocPageTableRoot (isa : Isa) (cr3 : ℕ) (w : Ram) : ℕ × Tabled isa :=
  match isa.take w 0 with
  | (some phys, w) =>
    match isa.initRoot cr3 phys w with
    | (_, w') => (phys, (⟨w, [⟨phys, 0⟩]⟩ : Tabled isa).record w')
  | (none, w) => (0, ⟨w, []⟩)

/-! ### What the page-table functions take -/

/-- Single pages are taken, and nothing else happens to the ledger. -/
def TakesPages (w w' : Ram) : Prop := ∃ ps : List ℕ, Takes pageSize w.log (ps.map (⟨·, 0⟩)) w'.log

namespace TakesPages

variable {w w' w'' : Ram}

theorem of_log_eq (h : w'.log = w.log) : TakesPages w w' := ⟨[], by rw [h]; exact .nil⟩

theorem trans (h : TakesPages w w') (h' : TakesPages w' w'') : TakesPages w w'' := by
  obtain ⟨ps, hps⟩ := h
  obtain ⟨qs, hqs⟩ := h'
  refine ⟨qs ++ ps, ?_⟩
  rw [map_append]
  exact hps.trans hqs

theorem one {a : ℕ} (hf : Fresh pageSize w.log ⟨a, 0⟩) (h : w'.log = .alloc ⟨a, 0⟩ :: w.log) :
    TakesPages w w' := by
  refine ⟨[a], ?_⟩
  rw [h]
  exact .cons .nil hf

end TakesPages

theorem takesPages_ensureTable (w : Ram) (parent idx : ℕ) :
    TakesPages w (w.ensureTable parent idx).2 := by
  unfold Ram.ensureTable
  simp only
  split_ifs
  · exact .of_log_eq rfl
  · unfold Ram.allocZeroedPage
    rcases htake : w.take 0 with ⟨_ | a, w₁⟩
    all_goals obtain ⟨h, rfl⟩ | ⟨b, hb, hfresh, -, rfl⟩ := Layout.take_cases htake
    · exact .of_log_eq rfl
    · cases hb
    · cases h
    · exact .one hfresh rfl

theorem takesPages_ensureTables (w : Ram) (t : ℕ) (is : List ℕ) :
    TakesPages w (w.ensureTables t is).2 := by
  induction is generalizing w t with
  | nil => exact .of_log_eq rfl
  | cons i is ih =>
    have hone := takesPages_ensureTable w t i
    rw [Ram.ensureTables]
    split
    · next t₁ w₁ hstep =>
      rw [hstep] at hone
      exact hone.trans (ih ..)
    · next w₁ hstep =>
      rw [hstep] at hone
      exact hone

theorem takesPages_map4k (w : Ram) (pgd virt phys flags : ℕ) :
    TakesPages w (w.map4k pgd virt phys flags).2 := by
  have htables := takesPages_ensureTables w pgd (tablePath virt)
  unfold Ram.map4k
  split
  · next hstep =>
    rw [hstep] at htables
    exact htables.trans (.of_log_eq rfl)
  · next hstep =>
    rw [hstep] at htables
    exact htables

theorem takesPages_mapIdentity (root base flags n : ℕ) (w : Ram) :
    TakesPages w (Ram.mapIdentity root base flags n w).2 := by
  induction n with
  | zero => exact .of_log_eq rfl
  | succ n ih => exact ih.trans (takesPages_map4k ..)

theorem takesPages_both {f g : Ram → Bool × Ram} (hf : ∀ w, TakesPages w (f w).2)
    (hg : ∀ w, TakesPages w (g w).2) (w : Ram) : TakesPages w (Ram.both f g w).2 :=
  (hf w).trans (hg _)

theorem takesPages_mapWindows (w : Ram) (root : ℕ) : TakesPages w (w.mapWindows root).2 := by
  exact takesPages_both (takesPages_mapIdentity _ _ _ _) (takesPages_mapIdentity _ _ _ _) w

namespace X86

theorem takesPages_ensureTable (w : Ram) (parent idx flags : ℕ) :
    TakesPages w (ensureTable w parent idx flags).2 := by
  unfold ensureTable
  simp only
  split
  · refine .of_log_eq ?_
    split <;> rfl
  · unfold allocZeroedPage
    cases hchoice : choice w with
    | none => exact .of_log_eq rfl
    | some =>
      obtain ⟨-, hok⟩ := filter_eq_some_iff.1 hchoice
      exact .one (of_decide_eq_true hok).1 rfl

theorem takesPages_ensureTables (flags : ℕ) (w : Ram) (t : ℕ) (is : List ℕ) :
    TakesPages w (ensureTables flags w t is).2 := by
  induction is generalizing w t with
  | nil => exact .of_log_eq rfl
  | cons i is ih =>
    have hone := takesPages_ensureTable w t i flags
    rw [ensureTables]
    split
    · next t₁ w₁ hstep =>
      rw [hstep] at hone
      exact hone.trans (ih ..)
    · next w₁ hstep =>
      rw [hstep] at hone
      exact hone

theorem takesPages_map4k (w : Ram) (pml4 virt phys flags : ℕ) :
    TakesPages w (map4k w pml4 virt phys flags).2 := by
  have htables := takesPages_ensureTables flags w pml4 (tablePath virt)
  unfold map4k
  split
  · next hstep =>
    rw [hstep] at htables
    exact htables.trans (.of_log_eq rfl)
  · next hstep =>
    rw [hstep] at htables
    exact htables

end X86

namespace Isa

variable {isa : Isa} {w w' : Ram}

theorem log_archUnmapPage (isa : Isa) (w : Ram) (root virt : ℕ) :
    (isa.archUnmapPage w root virt).log = w.log := by
  cases isa with
  | aarch64 =>
    unfold archUnmapPage Ram.unmap4k
    simp only
    split <;> rfl
  | x86_64 =>
    unfold archUnmapPage X86.unmap4k
    simp only
    split <;> rfl

theorem log_copyKernelHalf (cr3 phys : ℕ) (w : Ram) : (copyKernelHalf cr3 phys w).log = w.log :=
  foldlRecOn (motive := fun w' : Ram => w'.log = w.log) _ _ rfl fun _ h _ _ => h

theorem takesPages_initRoot {cr3 phys : ℕ} {ok : Bool} (h : isa.initRoot cr3 phys w = (ok, w')) :
    TakesPages w w' := by
  have hfill : TakesPages w (w.fill phys pageSize fun _ => 0) := .of_log_eq rfl
  cases isa with
  | aarch64 =>
    have hwin := takesPages_mapWindows (w.fill phys pageSize fun _ => 0) phys
    rw [initRoot] at h
    rw [h] at hwin
    exact hfill.trans hwin
  | x86_64 =>
    cases h
    exact hfill.trans (.of_log_eq (log_copyKernelHalf _ _ _))

theorem take_cases {order : ℕ} {res : Option ℕ} (h : isa.take w order = (res, w')) :
    (res = none ∧ w' = w.asked) ∨ ∃ a, res = some a ∧ Fresh pageSize w.log ⟨a, order⟩ ∧
      w' = { w.asked with log := .alloc ⟨a, order⟩ :: w.log } := by
  unfold take at h
  split at h
  · next a ha =>
    cases h
    obtain ⟨-, hok⟩ := filter_eq_some_iff.1 ha
    exact .inr ⟨a, rfl, (of_decide_eq_true hok).1, rfl⟩
  · cases h
    exact .inl ⟨rfl, rfl⟩

end Isa

/-! ### Counting -/

section Credit

variable {addr : ℕ} {ts : List TablePage} {t : TablePage}

theorem map_page_credit (addr : ℕ) (ts : List TablePage) :
    (credit addr ts).map TablePage.page = ts.map TablePage.page := by
  induction ts with
  | nil => rfl
  | cons t ts ih =>
    rw [credit]
    split
    · rfl
    · rw [map_cons, ih, map_cons]

theorem credit_of_not_mem (h : addr ∉ ts.map TablePage.page) : credit addr ts = ts := by
  induction ts with
  | nil => rfl
  | cons t ts ih =>
    rw [map_cons, mem_cons, not_or] at h
    rw [credit, if_neg (Ne.symm h.1), ih h.2]

/-- Among different pages one is counted. -/
theorem freed_of_mem_credit (hnodup : (ts.map TablePage.page).Nodup)
    (hfreed : ∀ t ∈ ts, t.freed = 0) (ht : t ∈ credit addr ts) : t.freed = if t.page = addr then 1 else 0 := by
  induction ts with
  | nil => cases ht
  | cons u ts ih =>
    obtain ⟨hu, hnodup⟩ := nodup_cons.1 hnodup
    have hzero := hfreed u (.head _)
    have hrest : ∀ t ∈ ts, t.freed = 0 := fun t h => hfreed t (.tail _ h)
    rw [credit] at ht
    split at ht
    · next hpage =>
      rcases mem_cons.1 ht with rfl | ht
      · rw [if_pos hpage, hzero]
      · rw [hrest t ht, if_neg]
        rintro rfl
        exact hu (hpage ▸ mem_map_of_mem ht)
    · next hpage =>
      rcases mem_cons.1 ht with rfl | ht
      · rw [if_neg hpage, hzero]
      · exact ih hnodup hrest ht

end Credit

theorem newPages_of_takes {w w' : Ram} {ps : List ℕ}
    (h : Takes pageSize w.log (ps.map (⟨·, 0⟩)) w'.log) : newPages w w' = ps := by
  have hlog : allocs w'.log = ps.map (⟨·, 0⟩) ++ allocs w.log := by
    rw [h.eq_append, allocs_append, allocs_map_alloc]
  rw [newPages, hlog, length_append, Nat.add_sub_cancel, take_left, List.map_map]
  exact map_id _

/-! ### The invariant -/

namespace Tabled

variable {isa : Isa} {root : ℕ} {hs hs' : List Holding} {s s' : Tabled isa}

theorem buddyAlloc_some {order a : ℕ} (h : buddyAlloc s order = some (some a, s')) :
    order < maxOrder ∧ Fresh pageSize s.ram.log ⟨a, order⟩ ∧
      s'.ram.log = .alloc ⟨a, order⟩ :: s.ram.log ∧ s'.tables = s.tables := by
  simp only [buddyAlloc] at h
  split at h
  swap
  · cases h
  next ho =>
  rcases htake : isa.take s.ram order with ⟨res, w⟩
  rw [htake] at h
  cases h
  obtain ⟨hnone, -⟩ | ⟨b, hb, hfresh, rfl⟩ := Isa.take_cases htake
  · cases hnone
  · cases hb
    exact ⟨ho, hfresh, rfl, rfl⟩

theorem buddyAlloc_none {order : ℕ} (h : buddyAlloc s order = some (none, s')) :
    s' = { s with ram := s.ram.asked } := by
  simp only [buddyAlloc] at h
  split at h
  swap
  · cases h
  rcases htake : isa.take s.ram order with ⟨res, w⟩
  rw [htake] at h
  cases h
  obtain ⟨-, rfl⟩ | ⟨b, hb, -⟩ := Isa.take_cases htake
  · rfl
  · cases hb

/-- The tables and what the regions hold are apart and held, and no table was freed. -/
structure Keeps (root : ℕ) (hs : List Holding) (s : Tabled isa) : Prop where
  held : Held pageSize s.ram.log (s.blocks ++ blocksOf hs)
  unfreed : ∀ t ∈ s.tables, t.freed = 0
  root_mem : root ∈ s.tables.map TablePage.page
  order_lt : ∀ h ∈ hs, h.block.order < maxOrder

namespace Keeps

variable {w : Ram} {h : Holding}

section

variable (hk : Keeps root hs s)
include hk

/-- Memory changes, and more pages are taken for tables. -/
theorem record (h : TakesPages s.ram w) : Keeps root hs (s.record w) := by
  obtain ⟨ps, hps⟩ := h
  have hnew := newPages_of_takes hps
  refine ⟨?_, fun t ht => ?_, ?_, hk.order_lt⟩
  · rw [blocks, Tabled.record, hnew, List.map_append, List.map_map, append_assoc]
    exact hps.held hk.held
  · rcases mem_append.1 ht with ht | ht
    · obtain ⟨_, -, rfl⟩ := mem_map.1 ht
      rfl
    · exact hk.unfreed t ht
  · rw [Tabled.record, map_append]
    exact mem_append_right _ hk.root_mem

theorem congr (h : w.log = s.ram.log) : Keeps root hs (⟨w, s.tables⟩ : Tabled isa) := by
  refine ⟨?_, hk.unfreed, hk.root_mem, hk.order_lt⟩
  have hheld := hk.held
  rw [← h] at hheld
  exact hheld

theorem mapPage (r va phys : ℕ) (flags : PageFlags) : Keeps root hs (mapPage s r va phys flags).2 :=
  hk.record <| by
    cases isa with
    | aarch64 => exact takesPages_map4k ..
    | x86_64 => exact X86.takesPages_map4k ..

theorem mapPages {r v a n i : ℕ} {flags : PageFlags} {res : Option ℕ}
    (h : mapPages r v a flags n i s = (res, s')) : Keeps root hs s' :=
  mapPages_keeps (J := Keeps root hs) (fun _ _ _ _ hk => hk.mapPage _ _ _ _) h hk

theorem unmapPages (r v n : ℕ) : Keeps root hs (unmapPages s r v n) :=
  unmapPages_keeps (fun _ _ _ hk => hk.congr (isa.log_archUnmapPage _ _ _)) hk

theorem perm (hp : hs.Perm hs') : Keeps root hs' s :=
  ⟨hk.held.perm ((hp.map _).append_left _), hk.unfreed, hk.root_mem,
    fun h hh => hk.order_lt h (hp.symm.subset hh)⟩

theorem sublist (hp : hs'.Sublist hs) : Keeps root hs' s :=
  ⟨hk.held.sublist ((hp.map _).append_left _), hk.unfreed, hk.root_mem,
    fun h hh => hk.order_lt h (hp.subset hh)⟩

theorem alloc {order a v n : ℕ}
    (h : buddyAlloc s order = some (some a, s')) : Keeps root (⟨⟨a, order⟩, v, n⟩ :: hs) s' := by
  obtain ⟨ho, hfresh, hlog, htables⟩ := buddyAlloc_some h
  refine ⟨?_, htables ▸ hk.unfreed, htables ▸ hk.root_mem, forall_mem_cons.2 ⟨ho, hk.order_lt⟩⟩
  rw [hlog, blocks, htables]
  exact (hk.held.alloc hfresh).perm perm_middle.symm

end

/-- A block of a region is freed: it is none of the tables. -/
theorem free (hk : Keeps root (h :: hs) s)
    (hfree : buddyFree s h.block.addr h.block.order = some s') :
    Keeps root hs s' ∧ s'.tables = s.tables := by
  simp only [buddyFree] at hfree
  split at hfree
  swap
  · cases hfree
  cases hfree
  have hheld : Held pageSize s.ram.log (h.block :: (s.blocks ++ blocksOf hs)) :=
    hk.held.perm perm_middle
  have hnot : h.block.addr ∉ s.tables.map TablePage.page := by
    rw [List.mem_map]
    rintro ⟨t, ht, hpage⟩
    have hmem : (⟨t.page, 0⟩ : Block) ∈ s.blocks ++ blocksOf hs :=
      mem_append_left _ (mem_map.2 ⟨t, ht, rfl⟩)
    -- both blocks have the address of the page
    refine (pairwise_cons.1 hheld.apart).1 _ hmem t.page ⟨?_, has_addr (by decide) _⟩
    rw [hpage]
    exact has_addr (by decide) _
  rw [credit_of_not_mem hnot]
  exact ⟨⟨hheld.free, hk.unfreed, hk.root_mem, fun k hmem => hk.order_lt k (.tail _ hmem)⟩, rfl⟩

theorem shrink {h' : Holding} (hk : Keeps root (h :: hs) s) (haddr : h'.block.addr = h.block.addr)
    (horder : h'.block.order ≤ h.block.order) : Keeps root (h' :: hs) s := by
  have hheld : Held pageSize s.ram.log (h.block :: (s.blocks ++ blocksOf hs)) :=
    hk.held.perm perm_middle
  obtain ⟨hlt, hrest⟩ := forall_mem_cons.1 hk.order_lt
  exact ⟨(hheld.shrink haddr horder).perm perm_middle.symm, hk.unfreed, hk.root_mem,
    forall_mem_cons.2 ⟨lt_of_le_of_lt horder hlt, hrest⟩⟩

/-- The rules for the invariant: no eager region is cut at its front only. -/
theorem upkeep (isa : Isa) (root : ℕ) :
    Upkeep root (fun _ => True) (fun virt end_ r => virt ≤ r.start → r.end_ ≤ end_)
      (fun hs (s : Tabled isa) => Keeps root hs s) where
  perm hp hk := hk.perm hp
  sublist hsub hk := hk.sublist hsub
  addr_lt hh hk := Block.addr_lt (by decide)
    (hk.held.block _ (mem_append_right _ (mem_map_of_mem hh))).le
  word halloc := Block.addr_lt (by decide) (buddyAlloc_some halloc).2.1.2.1
  fail halloc hk := by
    rw [buddyAlloc_none halloc]
    exact hk.congr rfl
  adopt halloc _ _ hmap hk := by
    refine Keeps.mapPages ?_ hmap
    exact (hk.alloc halloc).congr rfl
  retire _ hret hk := ((hk.unmapPages _ _ _).free hret).1
  unmap _ hk := hk.congr (isa.log_archUnmapPage _ _ _)
  remap _ _ _ _ hk := hk.mapPage _ _ _ _
  whole _ hend _ := hend
  front hC := hC
  trim _ hr hl _ hgt hlt _ hk := by
    refine Keeps.unmapPages (Keeps.shrink hk ?_ ?_) _ _ _
    · rfl
    refine pagesToOrder_mono ?_ (VmaRegion.pages_le _)
    have hend := hr.end_lt
    simp only [VmaRegion.pages]
    rw [wsub_of_le (by omega) hgt.le, wsub_of_le hend (hr.le hl)]
    exact Nat.div_le_div_right (by omega)

/-! ### Dropping -/

theorem exists_freeBlocks (hk : Keeps root hs s) :
    ∃ s', freeBlocks s (blocksOf hs) = some s' ∧ Keeps root [] s' ∧ s'.tables = s.tables := by
  induction hs generalizing s with
  | nil => exact ⟨s, rfl, hk, rfl⟩
  | cons h hs ih =>
    have hs1 : buddyFree s h.block.addr h.block.order = some _ := if_pos (hk.order_lt h (.head _))
    obtain ⟨hk1, ht1⟩ := hk.free hs1
    obtain ⟨s', hs', hk', ht'⟩ := ih hk1
    refine ⟨s', ?_, hk', ht'.trans ht1⟩
    rw [freeBlocks, blocksOf, map_cons, foldlM_cons, hs1]
    exact hs'

/-- No page is a table twice. -/
theorem nodup (hk : Keeps root hs s) : (s.tables.map TablePage.page).Nodup := by
  have hapart : (s.tables.map fun t => (⟨t.page, 0⟩ : Block)).Pairwise (Apart pageSize) :=
    hk.held.apart.sublist (sublist_append_left _ _)
  refine (pairwise_map.1 hapart).map _ fun t u htu heq => htu t.page ⟨has_addr (by decide) _, ?_⟩
  rw [heq]
  exact has_addr (by decide) _

/-- A new page table. -/
theorem of_archAlloc {cr3 : ℕ} (h : isa.archAllocPageTableRoot cr3 w = (root, s))
    (hgot : s.tables ≠ []) : Keeps root [] s := by
  unfold Isa.archAllocPageTableRoot at h
  split at h
  · next phys w₁ htake =>
    rcases hinit : isa.initRoot cr3 phys w₁ with ⟨ok, w₂⟩
    rw [hinit] at h
    cases h
    obtain ⟨hnone, -⟩ | ⟨a, ha, hfresh, rfl⟩ := Isa.take_cases htake
    · cases hnone
    cases ha
    refine record ?_ (Isa.takesPages_initRoot hinit)
    refine ⟨(Held.nil w.log).alloc hfresh, fun t ht => ?_, mem_singleton_self _,
      fun _ hh => by cases hh⟩
    obtain rfl := mem_singleton.1 ht
    rfl
  · cases h
    exact absurd rfl hgot

end Keeps

end Tabled

/-! ### Runs -/

namespace Space

variable {isa : Isa} {root : ℕ} {s : Space (Tabled isa)}

/-- `unmap_range` does not cut off the front of an eager region and leave the rest, and `brk` finds
a lazy heap. -/
def KeepsFronts (s : Space (Tabled isa)) : Call → Prop
  | .unmapRange virt len => ∀ lo hi, AddressSpace.unmapBounds virt len = some (lo, hi) →
      ∀ r, some r ∈ s.as.regions → r.CutsBy (fun lo hi r => lo ≤ r.start → r.end_ ≤ hi) lo hi
  | .brk _ => s.HeapLazy
  | _ => True

/-- What every state of a run satisfies. -/
abbrev KeepsTables (root : ℕ) (s : Space (Tabled isa)) : Prop :=
  s.as.Kept root (fun _ => True) (Tabled.Keeps root) s.w

theorem keepsTables_run {heapStart heapEnd : ℕ} {s₀ : Tabled isa} (h₀ : s₀.Keeps root [])
    (h : Run step KeepsFronts (new root heapStart heapEnd s₀) s) : s.KeepsTables root := by
  refine h.invariant ⟨rfl, shaped_new _ _ _, fun r hr => ?_, ?_⟩
    fun s c s' hs hc hst => (Tabled.Keeps.upkeep isa root).step hs ?_ ?_ hst
  · cases eq_of_mem_replicate hr
  · exact h₀
  · rintro virt len rfl
    exact hc
  · rintro newEnd rfl
    exact hc

/-- Dropping frees the root once, and no other table. -/
theorem drop_frees_root (hs : s.KeepsTables root) :
    ∃ w', s.as.drop s.w = some w' ∧
      w'.tables.map TablePage.page = s.w.tables.map TablePage.page ∧
      ∀ t ∈ w'.tables, t.freed = if root ≠ 0 ∧ t.page = root then 1 else 0 := by
  obtain ⟨w, hw, hk, htables⟩ := hs.holds.exists_freeBlocks
  rw [← dropSlots_eq] at hw
  by_cases hroot : root = 0
  · refine ⟨w, ?_, by rw [htables], fun t ht => ?_⟩
    · simp [AddressSpace.drop, hw, hs.root_eq, hroot]
    · rw [hk.unfreed t ht, if_neg fun h => h.1 hroot]
  · obtain ⟨w', hfree, hcredit⟩ : ∃ w', buddyFree w root 0 = some w' ∧
        w'.tables = credit root w.tables := ⟨_, if_pos (by decide), rfl⟩
    refine ⟨w', ?_, ?_, fun t ht => ?_⟩
    · rw [AddressSpace.drop, hw, hs.root_eq, bind_eq_bind, bind_some]
      rw [if_pos hroot]
      exact hfree
    · rw [hcredit, map_page_credit, htables]
    · rw [hcredit] at ht
      rw [freed_of_mem_credit hk.nodup hk.unfreed ht]
      simp only [ne_eq, hroot, not_false_eq_true, true_and]

/-- **The tables of an address space are returned just when it has none but the root.**  After any
run of an address space on a new page table that cuts off no front of an eager region and moves the
break only of lazy heaps, `drop` returns.  By then every page taken for a table has been freed
exactly once if and only if the root is the only one, and is not at address `0`. -/
theorem drop_returns_tables_iff {cr3 root heapStart heapEnd : ℕ} {w : Ram} {s₀ : Tabled isa}
    {s : Space (Tabled isa)} (hroot : isa.archAllocPageTableRoot cr3 w = (root, s₀))
    (hgot : s₀.tables ≠ []) (hrun : Run step KeepsFronts (new root heapStart heapEnd s₀) s) :
    ∃ w', s.as.drop s.w = some w' ∧ ((∀ t ∈ w'.tables, t.freed = 1) ↔
      root ≠ 0 ∧ s.w.tables.map TablePage.page = [root]) := by
  have hs := keepsTables_run (.of_archAlloc hroot hgot) hrun
  obtain ⟨w', hdrop, hpages, hfreed⟩ := drop_frees_root hs
  refine ⟨w', hdrop, fun h => ?_, fun ⟨hne, hone⟩ t ht => ?_⟩
  · -- all pages are the root, and no page is there twice
    have hall : ∀ t ∈ w'.tables, root ≠ 0 ∧ t.page = root := by
      intro t ht
      by_contra hnot
      have := hfreed t ht
      rw [h t ht, if_neg hnot] at this
      cases this
    have hmem := hs.holds.root_mem
    have hnodup := hs.holds.nodup
    rw [← hpages] at hmem hnodup ⊢
    have hroots : ∀ a ∈ w'.tables.map TablePage.page, a = root := by
      intro a ha
      obtain ⟨t, ht, rfl⟩ := mem_map.1 ha
      exact (hall t ht).2
    obtain ⟨t, ht, -⟩ := mem_map.1 hmem
    refine ⟨(hall t ht).1, ?_⟩
    have hrep := eq_replicate_of_mem hroots
    rw [hrep] at hnodup hmem ⊢
    have hle := nodup_replicate.1 hnodup
    have hpos : (w'.tables.map TablePage.page).length ≠ 0 := (mem_replicate.1 hmem).1
    have hlen : (w'.tables.map TablePage.page).length = 1 := by omega
    rw [hlen]
    rfl
  · have hpage : t.page = root := by
      have hmem := mem_map_of_mem (f := TablePage.page) ht
      rw [hpages, hone] at hmem
      exact mem_singleton.1 hmem
    rw [hfreed t ht, if_pos ⟨hne, hpage⟩]

/-- Memory whose allocator gives out pages from `0x100000` on. -/
def freshPages : Ram :=
  { mem := fun _ => 0
    log := []
    tick := 0
    answer := fun tick _ => some (0x100000 + tick * pageSize)
    reply := fun _ => 0
    file := fun _ _ => 0 }

/-- A new page table there. -/
def freshRoot : ℕ × Tabled .x86_64 := Isa.x86_64.archAllocPageTableRoot 0 freshPages

theorem lazy_drop_returns_tables :
    ∃ s, Run step KeepsFronts (new freshRoot.1 0 0 freshRoot.2) s ∧
      ∃ w', s.as.drop s.w = some w' ∧ ∀ t ∈ w'.tables, t.freed = 1 := by
  obtain ⟨s, hmap, hpages⟩ : ∃ s,
      (new freshRoot.1 0 0 freshRoot.2).step (.mapLazy 0x10000 0x1000 (.ofUser true false)) = some s ∧
      s.w.tables.map TablePage.page = [freshRoot.1] := exists_of_any (by decide +kernel)
  have hrun : Run step KeepsFronts (new freshRoot.1 0 0 freshRoot.2) s :=
    .single (l := .mapLazy 0x10000 0x1000 (.ofUser true false)) trivial hmap
  have hroot : Isa.x86_64.archAllocPageTableRoot 0 freshPages = (freshRoot.1, freshRoot.2) := rfl
  obtain ⟨w', hdrop, hiff⟩ := drop_returns_tables_iff hroot (by decide +kernel) hrun
  exact ⟨s, hrun, w', hdrop, hiff.2 ⟨by decide +kernel, hpages⟩⟩

/-- A page is mapped, for which three tables are taken; dropping the address space frees the root
only. -/
theorem tables_leaked :
    freshRoot.1 = 0x100000 ∧ ∃ s, Reach step (new freshRoot.1 0 0 freshRoot.2) s ∧
      ∃ w', s.as.drop s.w = some w' ∧
        w'.tables = [⟨0x104000, 0⟩, ⟨0x103000, 0⟩, ⟨0x102000, 0⟩, ⟨0x100000, 1⟩] := by
  refine ⟨by decide +kernel, ?_⟩
  obtain ⟨s, hrun, hleak⟩ : ∃ s, Reach step (new freshRoot.1 0 0 freshRoot.2) s ∧
      (s.as.drop s.w).any fun w' =>
        w'.tables = [⟨0x104000, 0⟩, ⟨0x103000, 0⟩, ⟨0x102000, 0⟩, ⟨0x100000, 1⟩] :=
    Run.exists_of_foldlM [.map 0x10000 0x1000 (.ofUser true false)] (by decide +kernel)
  exact ⟨s, hrun, exists_of_any hleak⟩

end Space

end Cyanos
