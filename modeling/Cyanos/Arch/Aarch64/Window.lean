import Cyanos.Arch.Aarch64.Tables
import Cyanos.Kernel.MemorySpec
import Cyanos.Mm.Orders

/-!
# The kernel window

`arch_alloc_page_table_root` maps two windows of physical memory at their own addresses into every
user page table: the kernel's memory and the UART.  No region of the address space stands for
them.  As long as a process maps no page that has its place in a window, the windows stay as
installed.

## Main results

* `Intact.upkeep` : the invariant of the windows has the upkeep of the memory system calls.
* `window_untouched` : in every run that stays outside of the windows and does not cut eager regions
  at their front, the translations of the windows stay as installed.
-/

namespace Cyanos.Aarch64

open Lib Machine FileMachine Block List Layout Prod AddressSpace Process

/-- `[0x40000000, 0x44000000)` and `[0x09000000, 0x09100000)`. -/
def InWindow (va : ℕ) : Prop :=
  (0x40000000 ≤ va ∧ va < 0x44000000) ∨ (0x09000000 ≤ va ∧ va < 0x09100000)

instance (va : ℕ) : Decidable (InWindow va) := inferInstanceAs (Decidable (_ ∨ _))

/-- The descriptor installed for an address in a window. -/
def windowEntry (va : ℕ) : ℕ :=
  alignDown va pageSize ||| (if 0x40000000 ≤ va then Ram.rwFlags else Ram.deviceFlags) ||| 0b11

/-- The entry of the address in the page table is not one of a window.  The tables know the lowest
48 bits of an address only. -/
def OutsideWindows (va : ℕ) : Prop := ¬ InWindow (va % 2 ^ 48)

/-- The range does not take the front of the region and leave its end. -/
def NoFrontCut (virt end_ : ℕ) (r : VmaRegion) : Prop := virt ≤ r.start → r.end_ ≤ end_

/-! ### Places in the tables -/

theorem place_ne {va va' : ℕ} (hout : OutsideWindows va) (hin : InWindow va') :
    ¬ (tablePath va' = tablePath va ∧ leafIndex va' = leafIndex va) := by
  rw [place_eq_iff]
  simp only [OutsideWindows, InWindow, pageSize] at *
  omega

/-! ### Installed entries -/

/-- The addresses in `S` have their entries. -/
def Installed (S : ℕ → Prop) (T : List (List ℕ × ℕ)) (w : Ram) : Prop :=
  ∀ va, S va → ∃ t, (tablePath va, t) ∈ T ∧ w.mem (t + 8 * leafIndex va) = windowEntry va

section Installed

variable {S : ℕ → Prop} {T T' : List (List ℕ × ℕ)} {w w' : Ram} {root : ℕ} {bs : List Block}
  {ℓ : List ℕ → ℕ → ℕ}

theorem Installed.congr (h : Installed S T w)
    (hagree : ∀ q t i, (q, t) ∈ T → i < 512 → w'.mem (t + 8 * i) = w.mem (t + 8 * i)) :
    Installed S T w' := by
  intro va hva
  obtain ⟨t, ht, hmem⟩ := h va hva
  exact ⟨t, ht, (hagree _ t _ ht (leafIndex_lt va)).trans hmem⟩

/-- The same in terms of the leaf entries. -/
theorem installed_iff (hℓ : Leaves fourLevel T w.mem ℓ) :
    Installed S T w ↔ ∀ va, S va → ℓ (tablePath va) (leafIndex va) = windowEntry va := by
  refine forall₂_congr fun va _ => ⟨?_, fun h => ?_⟩
  · rintro ⟨t, ht, hmem⟩
    rw [← hℓ.eq ht rfl (leafIndex_lt va), hmem]
  · have hne : windowEntry va ≠ 0 := fun h0 => by cases (Nat.or_eq_zero_iff.1 h0).2
    obtain ⟨t, ht⟩ := hℓ.table (h ▸ hne)
    exact ⟨t, ht, (hℓ.eq ht rfl (leafIndex_lt va)).trans h⟩

/-- Mapping the pages of a window one after the other installs their entries. -/
theorem installed_mapIdentity {base flags n : ℕ} (L : Layout root T bs w) (hS : Installed S T w)
    (hbase : pageSize ∣ base) (hend : base + n * pageSize ≤ 2 ^ 48)
    (hdisj : ∀ va, S va → va < 2 ^ 48 ∧ (va < base ∨ base + n * pageSize ≤ va))
    (hflags : ∀ va, base ≤ va → va < base + n * pageSize →
      windowEntry va = alignDown va pageSize ||| flags ||| 0b11)
    (h : Ram.mapIdentity root base flags n w = (true, w')) :
    ∃ T', Layout root T' bs w' ∧
      Installed (fun va => S va ∨ base ≤ va ∧ va < base + n * pageSize) T' w' := by
  induction n generalizing w' with
  | zero =>
    cases h
    refine ⟨T, L, fun va hva => hS va (hva.resolve_right fun h => ?_)⟩
    rw [Nat.zero_mul] at h
    omega
  | succ n ih =>
    rcases hrest : Ram.mapIdentity root base flags n w with ⟨ok, w₁⟩
    rcases hlast : w₁.map4k root (base + n * pageSize) (base + n * pageSize) flags with ⟨ok', w₂⟩
    simp only [Ram.mapIdentity, hrest, hlast] at h
    obtain ⟨hok, rfl⟩ := Prod.mk.inj h
    obtain ⟨rfl, rfl⟩ := Bool.and_eq_true_iff.1 hok
    have hn : (n + 1) * pageSize = n * pageSize + pageSize := Nat.succ_mul n pageSize
    rw [hn] at hend hdisj hflags
    obtain ⟨T₁, L₁, hS1⟩ := ih (by omega) (fun va hva => ⟨(hdisj va hva).1, by have := hdisj va hva; omega⟩)
      (fun va hge hlt => hflags va hge (by omega)) hrest
    obtain ⟨T₂, L₂, hleaves⟩ := L₁.map4k hlast
    obtain ⟨ℓ, hℓ⟩ := L₁.exists_leaves
    rw [installed_iff hℓ] at hS1
    have hd : pageSize ∣ base + n * pageSize := Nat.dvd_add hbase (Nat.dvd_mul_left _ _)
    refine ⟨T₂, L₂, (installed_iff (hleaves ℓ hℓ)).2 fun va hva => ?_⟩
    by_cases hpage : base + n * pageSize ≤ va ∧ va < base + n * pageSize + pageSize
    · -- the page that was mapped last
      have hdown : alignDown va pageSize = base + n * pageSize := alignDown_eq hd hpage.1 hpage.2
      have hplace : tablePath va = tablePath (base + n * pageSize) ∧
          leafIndex va = leafIndex (base + n * pageSize) := by
        rw [place_eq_iff, ← hdown, alignDown, Nat.mul_div_cancel _ (by decide)]
      rw [hflags va (by omega) (by omega), hdown]
      exact if_pos (Prod.ext hplace.1 hplace.2)
    · have hva' : S va ∨ base ≤ va ∧ va < base + n * pageSize :=
        hva.imp_right fun h => ⟨h.1, by omega⟩
      refine Eq.trans (if_neg fun he => ?_) (hS1 va hva')
      have hplace := place_eq_iff.1 (Prod.mk.inj he)
      obtain ⟨q, hq⟩ := hd
      rw [hq] at hplace
      have := hva'.imp_left (hdisj va)
      unfold pageSize at *
      omega

end Installed

/-! ### The invariant -/

/-- The tables are as they should be, and the windows as installed. -/
def Intact (root : ℕ) (hs : List Holding) (w : Ram) : Prop :=
  ∃ T, Layout root T (blocksOf hs) w ∧ Installed InWindow T w

namespace Intact

variable {root va : ℕ} {hs hs' : List Holding} {w w' : Ram}

/-- The two loops install the windows. -/
theorem of_mapWindows {T : List (List ℕ × ℕ)} (L : Layout root T [] w)
    (h : w.mapWindows root = (true, w')) : Intact root [] w' := by
  obtain ⟨w₁, hker, huart⟩ := both_eq_true.1 h
  obtain ⟨T₁, L₁, hS1⟩ := installed_mapIdentity (S := fun _ => False) L (fun _ h => h.elim) (by decide)
    (by decide) (fun _ h => h.elim) (fun va hge _ => by rw [windowEntry, if_pos hge]) hker
  obtain ⟨T₂, L₂, hS2⟩ := installed_mapIdentity L₁ hS1 (by decide) (by decide)
    (fun va hva => by simp only [false_or, pageSize] at hva ⊢; omega)
    (fun va _ hlt => by
      rw [windowEntry, if_neg]
      rw [pageSize] at hlt
      omega) huart
  refine ⟨T₂, L₂, fun va hva => hS2 va ?_⟩
  simp only [InWindow, pageSize] at hva ⊢
  omega

/-- A new page table has the windows installed. -/
theorem of_archAlloc (h : w.archAllocPageTableRoot = (root, true, w')) : Intact root [] w' := by
  unfold Ram.archAllocPageTableRoot at h
  rcases htake : w.take 0 with ⟨_ | phys, w₁⟩
  · rw [htake] at h
    cases (mk.inj (mk.inj h).2).1
  rw [htake] at h
  obtain ⟨h', -⟩ | ⟨a, ha, hfresh, hle, hw1⟩ := take_cases htake
  · cases h'
  cases ha
  obtain ⟨rfl, hwin⟩ := mk.inj h
  generalize hw2 : w₁.fill phys pageSize (fun _ => 0) = w₂ at hwin
  -- at first there is the root only, and it is empty
  have L : Layout phys [([], phys)] [] w₂ := by
    refine root_only hfresh hle (by rw [← hw2, hw1]; rfl) fun i hi => ?_
    have hx := Radix.has_index (S := fourLevel) (t := phys) hi
    rw [← hw2]
    exact if_pos hx
  exact of_mapWindows L hwin

/-- The hardware finds the windows as installed. -/
theorem walk_eq (h : Intact root hs w) (hva : InWindow va) :
    w.walk root va = some (windowEntry va) := by
  obtain ⟨T, L, hS⟩ := h
  obtain ⟨t, ht, hmem⟩ := hS va hva
  rw [L.walk_eq ht, hmem, if_pos]
  exact lor_three_land _

end Intact

/-- Descriptors of the windows do not grant access to user mode. -/
theorem windowEntry_user (va : ℕ) : (windowEntry va).testBit 6 = false := by
  have hpage : (alignDown va pageSize).testBit 6 = false := by
    rw [alignDown, show pageSize = 2 ^ 12 from rfl, ← Nat.shiftLeft_eq, Nat.testBit_shiftLeft]
    rfl
  rw [windowEntry, Nat.testBit_lor, Nat.testBit_lor, hpage]
  split <;> decide

namespace Intact

variable {root va : ℕ} {hs hs' : List Holding} {w w' : Ram}

section

variable (h : Intact root hs w)
include h

theorem map4k (hva : OutsideWindows va) (phys flags : ℕ) :
    Intact root hs (w.map4k root va phys flags).2 := by
  obtain ⟨T, L, hS⟩ := h
  obtain ⟨T', L', hleaves⟩ := L.map4k (mk.eta).symm
  obtain ⟨ℓ, hℓ⟩ := L.exists_leaves
  refine ⟨T', L', (installed_iff (hleaves ℓ hℓ)).2 fun va' hva' => ?_⟩
  have hold := (installed_iff hℓ).1 hS va' hva'
  split_ifs
  · exact (if_neg fun he => place_ne hva hva' (mk.inj he)).trans hold
  · exact hold

theorem unmap4k (hva : OutsideWindows va) :
    Intact root hs (w.unmap4k root va) := by
  obtain ⟨T, L, hS⟩ := h
  obtain ⟨L', hleaves⟩ := L.unmap4k va
  obtain ⟨ℓ, hℓ⟩ := L.exists_leaves
  refine ⟨T, L', (installed_iff (hleaves ℓ hℓ)).2 fun va' hva' => ?_⟩
  exact (if_neg fun he => place_ne hva hva' (mk.inj he)).trans ((installed_iff hℓ).1 hS va' hva')

theorem mapPages {virt phys n i : ℕ} {flags : PageFlags} {res : Option ℕ}
    (hQ : ∀ j, i ≤ j → j < i + n → OutsideWindows (wadd virt (j * pageSize)))
    (hop : mapPages root virt phys flags n i w = (res, w')) : Intact root hs w' :=
  mapPages_keeps (fun j _ hj hj' h => h.map4k (hQ j hj hj') _ _) hop h

theorem unmapPages {virt n : ℕ}
    (hQ : ∀ i < n, OutsideWindows (wadd virt (i * pageSize))) :
    Intact root hs (unmapPages w root virt n) :=
  unmapPages_keeps (fun i hi _ h => h.unmap4k (hQ i hi)) h

/-- A change of what is held, and of the memory outside the tables. -/
theorem congr
    (hheld : ∀ T : List Block, Held pageSize w.log (T ++ blocksOf hs) →
      Held pageSize w'.log (T ++ blocksOf hs'))
    (hmem : ∀ T, Layout root T (blocksOf hs) w → ∀ q t i, (q, t) ∈ T → i < 512 →
      w'.mem (t + 8 * i) = w.mem (t + 8 * i)) : Intact root hs' w' := by
  obtain ⟨T, L, hS⟩ := h
  have hagree := hmem T L
  have R : Radix fourLevel IsDescriptor root T (blocksOf hs) w.log w'.mem :=
    L.toRadix.congr fun ht _ hi => hagree _ _ _ ht hi
  exact ⟨T, ⟨{ R with held := hheld _ L.held }, L.le⟩, hS.congr hagree⟩

/-- Stores into a block that is held. -/
theorem fill {k : Holding} (hk : k ∈ hs) {n : ℕ} (hn : n ≤ 2 ^ k.block.order)
    (f : ℕ → ℕ) : Intact root hs (w.fill k.block.addr (n * pageSize) f) := by
  refine h.congr (fun _ hheld => hheld) fun T L q t i ht hi => ?_
  refine L.fill (mem_map_of_mem hk) rfl ?_ ht hi
  rw [size, Nat.mul_comm]
  exact Nat.mul_le_mul_left _ hn

theorem asked : Intact root hs w.asked :=
  h.congr (fun _ hheld => hheld) fun _ _ _ _ _ _ _ => rfl

/-- A new block is beside the tables. -/
theorem take {order a : ℕ} (htake : w.take order = (some a, w'))
    (virt pages : ℕ) : Intact root (⟨⟨a, order⟩, virt, pages⟩ :: hs) w' := by
  obtain ⟨h', -⟩ | ⟨_, ⟨⟩, hfresh, -, rfl⟩ := take_cases htake
  · cases h'
  · exact h.congr (fun T hheld => (hheld.alloc hfresh).perm perm_middle.symm)
      fun _ _ _ _ _ _ _ => rfl

end

theorem buddyAlloc_eq {order : ℕ} {res : Option ℕ} (h : buddyAlloc w order = some (res, w')) :
    w.take order = (res, w') := by
  simp only [buddyAlloc] at h
  split at h
  · exact Option.some.inj h
  · cases h

/-- What was held may be freed. -/
theorem buddyFree {k : Holding} (h : Intact root (k :: hs) w)
    (hfree : buddyFree w k.block.addr k.block.order = some w') : Intact root hs w' := by
  simp only [Machine.buddyFree] at hfree
  split at hfree
  · cases hfree
    exact h.congr (fun T hheld => (hheld.perm perm_middle).free) fun _ _ _ _ _ _ _ => rfl
  · cases hfree

/-- The rules for the invariant: only pages outside of the windows are mapped, and no eager region
is cut at its front. -/
theorem upkeep (root : ℕ) : FileUpkeep root OutsideWindows NoFrontCut (Intact root) where
  perm hp h := h.congr (fun T hheld => hheld.perm ((hp.map _).append_left _)) fun _ _ _ _ _ _ _ => rfl
  sublist hsub h :=
    h.congr (fun T hheld => hheld.sublist ((hsub.map _).append_left _)) fun _ _ _ _ _ _ _ => rfl
  addr_lt hh h := by
    obtain ⟨T, L, -⟩ := h
    exact addr_lt (by decide) (L.held.block _ (mem_append_right _ (mem_map_of_mem hh))).le
  word halloc := by
    obtain ⟨h, -⟩ | ⟨_, ⟨⟩, hfresh, -⟩ := Layout.take_cases (buddyAlloc_eq halloc)
    · cases h
    · exact addr_lt (by decide) hfresh.2.1
  fail halloc h := by
    obtain ⟨-, rfl⟩ | ⟨_, h', -⟩ := Layout.take_cases (buddyAlloc_eq halloc)
    · exact h.asked
    · cases h'
  adopt halloc hn hQ hmap h := by
    have h1 := h.take (buddyAlloc_eq halloc)
    exact ((h1 _ _).fill (.head _) hn _).mapPages (fun j _ hj => hQ j (by omega)) hmap
  retire hQ hret h := (h.unmapPages fun i hi => hQ _ ⟨i, hi, rfl⟩).buddyFree hret
  unmap hQ h := h.unmap4k hQ
  remap _ _ _ hQ h := h.map4k hQ _ _
  whole _ hend _ := hend
  front hC hle := hC hle
  trim {hs w virt end_ r} hC hr hl hvirt hgt hlt hQ h := by
    have hlt' := hr.end_lt
    have hpages : ({ r with end_ := virt } : VmaRegion).pages ≤ r.pages := by
      simp only [VmaRegion.pages]
      rw [wsub_of_le (by omega) hgt.le, wsub_of_le hlt' (by omega)]
      exact Nat.div_le_div_right (by omega)
    refine (h.unmapPages hQ).congr (fun T hheld => ?_) fun _ _ _ _ _ _ _ => rfl
    have hshrink := (hheld.perm perm_middle).shrink
      (c := ⟨r.phys, pagesToOrder ({ r with end_ := virt } : VmaRegion).pages⟩) rfl
      (pagesToOrder_mono hpages (VmaRegion.pages_le _))
    exact hshrink.perm perm_middle.symm
  seek h := h.asked
  read hh hn h := h.asked.fill hh hn _

end Intact

/-! ### Runs -/

/-- **The windows stay as installed.**  Let a page table be built with all its `map_4k` calls
succeeding, and a process on it make memory system calls and page faults.  If no call maps a page
that has its place in a window, or cuts an eager region at its front, or moves the break of an eager
heap, then the translations of the windows are those installed, and closed to user mode. -/
theorem window_untouched {w₀ w₁ : Ram} {root heapStart heapEnd mmapBump : ℕ} {p : Process Ram}
    (hroot : w₀.archAllocPageTableRoot = (root, true, w₁))
    (h : Run Process.memStep (Process.Keeps OutsideWindows NoFrontCut)
      (Process.new root heapStart heapEnd mmapBump w₁) p) :
    ∀ va, InWindow va → p.w.walk root va = w₁.walk root va ∧
      p.w.walk root va = some (windowEntry va) ∧ (windowEntry va).testBit 6 = false := by
  have hnew := Intact.of_archAlloc hroot
  have hk : p.Kept root OutsideWindows (Intact root) := by
    refine h.invariant (I := fun p => p.Kept root OutsideWindows (Intact root)) ?_
      fun p c p' hk hc hst => kept_memStep (Intact.upkeep root) hk hc hst
    refine ⟨rfl, shaped_new _ _ _, fun r hr => ?_, hnew⟩
    cases eq_of_mem_replicate hr
  intro va hva
  have hwalk := hk.holds.walk_eq hva
  exact ⟨hwalk.trans (hnew.walk_eq hva).symm, hwalk, windowEntry_user va⟩

/-! ### An allocator that does not fail -/

namespace Ram

/-- An allocator that gives out one page after the other, from `0x50000000` on. -/
def supply : Ram :=
  ⟨fun _ => 0, [], 0, fun t _ => some (0x50000000 + t * pageSize), fun _ => 0, fun _ _ => 0⟩

/-- At most `k` pages were given out. -/
structure Supplied (k : ℕ) (w : Ram) : Prop where
  answer : w.answer = fun t _ => some (0x50000000 + t * pageSize)
  tick_le : w.tick ≤ k
  free : ∀ x, 0x50000000 + w.tick * pageSize ≤ x → pageState pageSize x w.log ≠ .held

namespace Supplied

variable {k : ℕ} {w : Ram}

section

variable (h : Supplied k w)
include h

theorem mono {k' : ℕ} (hk : k ≤ k') : Supplied k' w := ⟨h.answer, h.tick_le.trans hk, h.free⟩

theorem take (hk : k < 2 ^ 32) :
    ∃ w', w.take 0 = (some (0x50000000 + w.tick * pageSize), w') ∧ Supplied (k + 1) w' := by
  have htick := h.tick_le
  have hchoice : w.choice 0 = some (0x50000000 + w.tick * pageSize) := by
    rw [choice, h.answer, Option.filter_eq_some_iff]
    refine ⟨rfl, decide_eq_true ⟨⟨?_, ?_, fun i _ => h.free _ (Nat.le_add_right _ _)⟩, ?_⟩⟩
    · exact Nat.dvd_add (by decide) (Nat.dvd_mul_left _ _)
    · simp only [size, pageSize]; omega
    · simp only [size, pageSize]; omega
  refine ⟨{ w.asked with log := .alloc ⟨0x50000000 + w.tick * pageSize, 0⟩ :: w.log },
    by rw [Ram.take, hchoice], h.answer, Nat.succ_le_succ htick, fun x hx => ?_⟩
  have hge : 0x50000000 + (w.tick + 1) * pageSize ≤ x := hx
  rw [Nat.succ_mul] at hge
  have hnot : ¬ Block.Has pageSize ⟨0x50000000 + w.tick * pageSize, 0⟩ x := by
    rintro ⟨-, hlt⟩
    simp only [size, pow_zero, Nat.mul_one] at hlt
    omega
  rw [pageState_alloc_of_not_has hnot]
  exact h.free x (by omega)

theorem ensureTable (hk : k < 2 ^ 32) (t i : ℕ) :
    ∃ u w', w.ensureTable t i = (some u, w') ∧ Supplied (k + 1) w' := by
  unfold Ram.ensureTable
  by_cases hvalid : w.mem (t + 8 * i) &&& VALID ≠ 0
  · exact ⟨_, w, if_pos hvalid, h.mono (Nat.le_succ k)⟩
  · obtain ⟨w', htake, h'⟩ := h.take hk
    refine ⟨0x50000000 + w.tick * pageSize,
      (w'.fill (0x50000000 + w.tick * pageSize) pageSize fun _ => 0).store (t + 8 * i)
        ((0x50000000 + w.tick * pageSize) ||| TABLE ||| VALID), ?_, ⟨h'.answer, h'.tick_le, h'.free⟩⟩
    simp only [hvalid, if_false, allocZeroedPage, htake]

theorem ensureTables (t : ℕ) (is : List ℕ) (hk : k + is.length < 2 ^ 32) :
    ∃ u w', w.ensureTables t is = (some u, w') ∧ Supplied (k + is.length) w' := by
  induction is generalizing k w t with
  | nil => exact ⟨t, w, rfl, h⟩
  | cons i is ih =>
    rw [length_cons] at hk
    obtain ⟨u, w₁, hstep, h1⟩ := h.ensureTable (by omega) t i
    obtain ⟨v, w₂, hrest, h2⟩ := ih h1 u (by omega)
    refine ⟨v, w₂, by rw [ensureTables, hstep]; exact hrest, ?_⟩
    rw [length_cons, Nat.add_comm is.length, ← Nat.add_assoc]
    exact h2

theorem map4k (hk : k + 3 < 2 ^ 32) (root va phys flags : ℕ) :
    ∃ w', w.map4k root va phys flags = (true, w') ∧ Supplied (k + 3) w' := by
  obtain ⟨u, w₁, htables, h1⟩ := h.ensureTables root (tablePath va) hk
  refine ⟨w₁.store (u + 8 * leafIndex va) (phys ||| flags ||| 0b11), ?_,
    ⟨h1.answer, h1.tick_le, h1.free⟩⟩
  rw [Ram.map4k, htables]

theorem mapIdentity (root base flags n : ℕ) (hk : k + 3 * n < 2 ^ 32) :
    ∃ w', mapIdentity root base flags n w = (true, w') ∧ Supplied (k + 3 * n) w' := by
  induction n with
  | zero => exact ⟨w, rfl, h⟩
  | succ n ih =>
    obtain ⟨w₁, hrest, h1⟩ := ih (by omega)
    obtain ⟨w₂, hlast, h2⟩ := h1.map4k (by omega) root (base + n * pageSize) (base + n * pageSize) flags
    refine ⟨w₂, ?_, h2⟩
    simp only [Ram.mapIdentity, hrest, hlast, Bool.and_self]

end

end Supplied

theorem archAllocPageTableRoot_supply :
    ∃ w, supply.archAllocPageTableRoot = (0x50000000, true, w) ∧ Supplied 0x10000 w := by
  have h : Supplied 0 supply := ⟨rfl, le_rfl, fun _ _ => nofun⟩
  obtain ⟨w₁, htake, h1⟩ := h.take (by norm_num)
  have h₁' : Supplied 1 (w₁.fill 0x50000000 pageSize fun _ => 0) := ⟨h1.answer, h1.tick_le, h1.free⟩
  obtain ⟨w₂, hker, h2⟩ := h₁'.mapIdentity 0x50000000 0x40000000 rwFlags 0x4000 (by norm_num)
  obtain ⟨w₃, huart, h3⟩ := h2.mapIdentity 0x50000000 0x09000000 deviceFlags 0x100 (by norm_num)
  refine ⟨w₃, ?_, h3.mono (by norm_num)⟩
  have hwin : (w₁.fill 0x50000000 pageSize fun _ => 0).mapWindows 0x50000000 = (true, w₃) :=
    both_eq_true.2 ⟨w₂, hker, huart⟩
  rw [archAllocPageTableRoot, htake, ← hwin]
  rfl

end Ram

/-- A page that is mapped and was not touched. -/
def lazyPage (virt : ℕ) : VmaRegion := AddressSpace.lazyRegion virt 1 (.ofUser true false)

/-- An address space with one such page. -/
def onePage (virt : ℕ) : AddressSpace := (AddressSpace.new 0x50000000).setRegion 0 (lazyPage virt)

/-- The address space after a fault in the page. -/
def touchedPage (virt phys : ℕ) : AddressSpace :=
  (onePage virt).setRegion 0 (AddressSpace.backPage (lazyPage virt) 0 phys)

/-- A fault in the page takes a new page, and writes its entry. -/
theorem fault_onePage {w : Ram} {k : ℕ} (virt : ℕ) (h : Intact 0x50000000 [] w) (hw : Ram.Supplied k w)
    (hk : k + 4 < 2 ^ 32) (mmapBump : ℕ) (hlook : (onePage virt).lookup virt = some (0, lazyPage virt))
    (hvirt : alignDown virt pageSize = virt) (hidx : wsub virt virt / pageSize = 0) :
    ∃ a w', Process.memStep ⟨onePage virt, mmapBump, w⟩ (.fault virt) =
        some ⟨touchedPage virt (a + 1), mmapBump, w'⟩ ∧
      w'.walk 0x50000000 virt = some ((a + 1) ||| translateFlags (.ofUser true false) ||| 0b11) := by
  obtain ⟨w₁, htake, hw1⟩ := hw.take (by omega)
  have hw₁' : Ram.Supplied (k + 1) (w₁.fill (0x50000000 + w.tick * pageSize) pageSize fun _ => 0) :=
    ⟨hw1.answer, hw1.tick_le, hw1.free⟩
  obtain ⟨a, ha⟩ : ∃ a, 0x50000000 + w.tick * pageSize = a + 1 := ⟨_, (Nat.sub_add_cancel (by omega)).symm⟩
  rw [ha] at htake hw₁'
  obtain ⟨w₂, hmap, -⟩ := hw₁'.map4k (by omega) 0x50000000 virt (a + 1)
    (translateFlags (.ofUser true false))
  have hpage : mapPage (zeroBytes w₁ (a + 1) pageSize) (onePage virt).pageTableRoot
      (alignDown virt pageSize) (a + 1) (.ofUser true false) = (true, w₂) := by
    rw [hvirt]
    exact hmap
  have hfault := handleUserPageFault_eq hlook rfl rfl (congrArg some htake) hpage
  rw [hvirt, show wsub virt (lazyPage virt).start / pageSize = 0 from hidx] at hfault
  refine ⟨a, w₂, by rw [memStep, handlePageFault, hfault]; rfl, ?_⟩
  obtain ⟨T, L, -⟩ := (h.take htake 0 0).fill (n := 1) (.head _) le_rfl fun _ => 0
  rw [Nat.one_mul] at L
  obtain ⟨T', L', hleaves⟩ := L.map4k hmap
  obtain ⟨ℓ, hℓ⟩ := L.exists_leaves
  rw [L'.walk_eq_leaf (hleaves ℓ hℓ), if_pos rfl, Layout.setEntryOf, if_pos rfl,
    if_pos (lor_three_land _)]

instance : AssertsOrder Ram where
  alloc _ _ h := by simp [buddyAlloc, h]
  free _ _ _ h := by simp [buddyFree, h]

/-- The page is made read-only, and then unmapped. -/
theorem unmap_onePage (a mmapBump : ℕ) (w : Ram) :
    ∃ p', Run Process.memStep (Process.Keeps OutsideWindows NoFrontCut)
      ⟨touchedPage 0x10000 (a + 1), mmapBump, w⟩ p' := by
  obtain ⟨p, hprot, hlazy⟩ : ∃ p, memStep ⟨touchedPage 0x10000 (a + 1), mmapBump, w⟩
      (.mprotect 0x10000 0x1000 1) = some p ∧
      (p.as.regions.all fun slot => slot.all VmaRegion.lazy) = true := ⟨_, rfl, rfl⟩
  have hall : ∀ r, some r ∈ p.as.regions → r.lazy ≠ false := by
    intro r hr hl
    cases hl.symm.trans (all_eq_true.1 hlazy _ hr)
  obtain ⟨⟨as, w'⟩, hunmap, -⟩ := ends_unmapRange (w := p.w) 0x10000 0x1000
    fun r hr hl => absurd hl (hall r hr)
  refine ⟨⟨as, p.mmapBump, w'⟩, .tail (l := .munmap 0x10000 0x1000)
    (.single (l := .mprotect 0x10000 0x1000 1) trivial hprot) ?_ ?_⟩
  · exact fun _ _ _ r hr hl => absurd hl (hall r hr)
  · simp [memStep, sysUnmapMem, unmap, unmapFixed, userSpaceEnd, hunmap]

/-- A page is mapped, touched, made read-only and unmapped. -/
theorem munmap_window_untouched :
    ∃ w p p', Ram.supply.archAllocPageTableRoot = (0x50000000, true, w) ∧
      Run Process.memStep (Process.Keeps OutsideWindows NoFrontCut)
        (Process.new 0x50000000 0 0 0x10000000 w) p ∧ (p.w.walk 0x50000000 0x10000).isSome ∧
      Run Process.memStep (Process.Keeps OutsideWindows NoFrontCut) p p' ∧
      ∀ va, InWindow va → p'.w.walk 0x50000000 va = w.walk 0x50000000 va ∧
        p'.w.walk 0x50000000 va = some (windowEntry va) ∧ (windowEntry va).testBit 6 = false := by
  obtain ⟨w, hroot, hw⟩ := Ram.archAllocPageTableRoot_supply
  have hmmap : (new 0x50000000 0 0 0x10000000 w).memStep (.mmap 0x10000 0x1000 3 0x22 0 0) =
      some ⟨onePage 0x10000, 0x10000000, w⟩ := rfl
  have hguard : Process.Keeps OutsideWindows NoFrontCut (new 0x50000000 0 0 0x10000000 w)
      (.mmap 0x10000 0x1000 3 0x22 0 0) := by
    refine ⟨nofun, ?_, ?_⟩
    · intro va _ _ hlt
      norm_num [Process.new, Process.mmapTarget, alignDown, alignUp, wadd, pageSize] at hlt
      simp only [OutsideWindows, InWindow]
      omega
    · intro _ _ _ va _ hge hlt
      norm_num [Process.new, alignDown, alignUp, wadd, pageSize] at hge hlt
      simp only [OutsideWindows, InWindow]
      omega
  obtain ⟨a, w₁, hfault, hwalk⟩ := fault_onePage 0x10000 (Intact.of_archAlloc hroot) hw
    (by norm_num) 0x10000000 (by decide) (by decide) (by decide)
  obtain ⟨p', hrest⟩ := unmap_onePage a 0x10000000 w₁
  have hmapped : Run memStep (Process.Keeps OutsideWindows NoFrontCut) _ _ :=
    .tail (l := .fault 0x10000) (.single hguard hmmap) trivial hfault
  exact ⟨w, _, p', hroot, hmapped, by rw [hwalk]; rfl, hrest,
    window_untouched hroot (hmapped.trans hrest)⟩

/-- A user maps a page over the kernel window with `MAP_FIXED` and touches it. -/
theorem window_page_becomes_user :
    ∃ w p, Ram.supply.archAllocPageTableRoot = (0x50000000, true, w) ∧
      Reach Process.memStep (Process.new 0x50000000 0 0 0x10000000 w) p ∧
      ∃ e e', w.walk 0x50000000 0x40000000 = some e ∧ e.testBit 6 = false ∧
        p.w.walk 0x50000000 0x40000000 = some e' ∧ e'.testBit 6 = true := by
  obtain ⟨w, hroot, hw⟩ := Ram.archAllocPageTableRoot_supply
  have hnew := Intact.of_archAlloc hroot
  have hmmap : (new 0x50000000 0 0 0x10000000 w).memStep
      (.mmap 0x40000000 0x1000 3 0x32 0 0) = some ⟨onePage 0x40000000, 0x10000000, w⟩ := rfl
  obtain ⟨a, w₁, hfault, hwalk⟩ := fault_onePage 0x40000000 hnew hw (by norm_num) 0x10000000
    (by decide) (by decide) (by decide)
  have huser : (translateFlags (.ofUser true false)).testBit 6 = true := by decide
  refine ⟨w, _, hroot, (Run.single trivial hmmap).tail trivial hfault, _, _,
    hnew.walk_eq (by decide), windowEntry_user _, hwalk, ?_⟩
  rw [Nat.testBit_or, Nat.testBit_or, huser, Bool.or_true, Bool.true_or]

end Cyanos.Aarch64
