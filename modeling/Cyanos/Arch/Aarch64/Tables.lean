import Cyanos.Arch.Aarch64.Paging
import Cyanos.Lib.Radix

/-!
# The tables in memory

`Layout root T bs w` says how a tree of page tables lies in physical memory: a tree of tables `T`
beside the blocks `bs` of everything else, in which all tables are below 2^48.

## Main results

* `Layout.map4k`, `Layout.unmap4k` : what the two functions do to the tables; every leaf entry but
  the one of their own address stays.
* `Layout.walk_eq` : the hardware finds the leaf entry at the end of the path.
-/

namespace Cyanos.Aarch64

open Lib Machine Block List Nat Option

/-! ### Addresses of pages -/

section Page

variable {t c mask n k : ℕ}

theorem page_testBit (hd : pageSize ∣ t) (hk : k < 12) : t.testBit k = false := by
  obtain ⟨q, rfl⟩ := hd
  have hsh : pageSize * q = q <<< 12 := by rw [shiftLeft_eq, pageSize, mul_comm]
  rw [hsh, testBit_shiftLeft, decide_eq_false (by omega), Bool.false_and]

/-- The address of a page is left alone by a mask of the bits of such addresses. -/
theorem page_land (hd : pageSize ∣ t) (hlt : t < 2 ^ n) (hn : n ≤ 64)
    (hmask : mask = (2 ^ n - 1) &&& (2 ^ 64 - 2 ^ 12)) : t &&& mask = t := by
  have hlt' : t < 2 ^ 64 := lt_of_lt_of_le hlt (Nat.pow_le_pow_right (by norm_num) hn)
  rw [hmask, ← Nat.and_assoc, and_two_pow_sub_one_eq_mod, mod_eq_of_lt hlt,
    ← alignDown_eq_land 12 hlt' (by norm_num)]
  exact alignDown_of_dvd hd

/-- The mask takes the other bits away. -/
theorem page_lor_land (hd : pageSize ∣ t) (hlt : t < 2 ^ n) (hn : n ≤ 64)
    (hmask : mask = (2 ^ n - 1) &&& (2 ^ 64 - 2 ^ 12)) (hc : c &&& mask = 0) :
    (t ||| c) &&& mask = t := by
  rw [and_or_distrib_right, page_land hd hlt hn hmask, hc, or_zero]

end Page

/-! ### Descriptors of tables -/

section Descriptor

variable {t : ℕ}

theorem descriptor_eq (hd : pageSize ∣ t) : t ||| TABLE ||| VALID = t + 3 := by
  obtain ⟨q, rfl⟩ := hd
  have hsh : pageSize * q = q <<< 12 := by rw [shiftLeft_eq, pageSize, mul_comm]
  rw [Nat.or_assoc, show TABLE ||| VALID = 3 from rfl, hsh, shiftLeft_add_eq_or_of_lt (by norm_num)]

theorem tableAddr_descriptor (hd : pageSize ∣ t) (hlt : t < 2 ^ 48) :
    tableAddr (t ||| TABLE ||| VALID) = t := by
  rw [tableAddr, Nat.or_assoc]
  exact page_lor_land hd hlt (by norm_num) (by decide) (by decide)

theorem descriptor_land (hd : pageSize ∣ t) {mask : ℕ} (hm : mask = VALID ∨ mask = TABLE ||| VALID) :
    (t ||| TABLE ||| VALID) &&& mask = mask := by
  rw [descriptor_eq hd]
  obtain ⟨q, rfl⟩ := hd
  rcases hm with rfl | rfl
  · rw [show VALID = 2 ^ 1 - 1 from rfl, and_two_pow_sub_one_eq_mod, pageSize]
    omega
  · rw [show TABLE ||| VALID = 2 ^ 2 - 1 from rfl, and_two_pow_sub_one_eq_mod, pageSize]
    omega

end Descriptor

theorem tablePath_lt (va : ℕ) : ∀ i ∈ tablePath va, i < 512 := by
  have hmask : ∀ x, x &&& 0x1FF < 512 := fun x => lt_of_le_of_lt and_le_right (by norm_num)
  simp only [tablePath, mem_cons, not_mem_nil, or_false]
  rintro i (rfl | rfl | rfl) <;> exact hmask _

theorem leafIndex_lt (va : ℕ) : leafIndex va < 512 := lt_of_le_of_lt and_le_right (by norm_num)

theorem index_eq (va k : ℕ) : (va >>> k) &&& 0x1FF = va / 2 ^ k % 512 := by
  rw [shiftRight_eq_div_pow]
  exact and_two_pow_sub_one_eq_mod _ 9

/-- Two addresses have the same place in the tables when they are in the same page. -/
theorem place_eq_iff {va va' : ℕ} :
    (tablePath va = tablePath va' ∧ leafIndex va = leafIndex va') ↔
      va / pageSize % 2 ^ 36 = va' / pageSize % 2 ^ 36 := by
  simp only [tablePath, leafIndex, index_eq, cons.injEq, and_true, pageSize]
  omega

theorem lor_three_land (x : ℕ) : (x ||| 0b11) &&& (TABLE ||| VALID) = TABLE ||| VALID := by
  apply eq_of_testBit_eq
  intro i
  rw [show TABLE ||| VALID = 3 from rfl, testBit_and, testBit_or]
  cases (3 : ℕ).testBit i <;> simp

theorem both_eq_true {f g : Ram → Bool × Ram} {w w' : Ram} :
    Ram.both f g w = (true, w') ↔ ∃ w₁, f w = (true, w₁) ∧ g w₁ = (true, w') := by
  rcases hf : f w with ⟨ok, w₁⟩
  rcases hg : g w₁ with ⟨ok', w₂⟩
  simp only [Ram.both, hf, hg, Prod.mk.injEq, Bool.and_eq_true]
  constructor
  · rintro ⟨⟨rfl, rfl⟩, rfl⟩
    exact ⟨w₁, ⟨rfl, rfl⟩, hg⟩
  · rintro ⟨_, ⟨rfl, rfl⟩, hg'⟩
    cases hg.symm.trans hg'
    exact ⟨⟨rfl, rfl⟩, rfl⟩

/-! ### Layouts -/

/-- The sizes of the tables: four levels of 512 entries. -/
def fourLevel : Shape := ⟨pageSize, 512, 3, by decide⟩

/-- A table descriptor is the same wherever the table is in the tree. -/
def IsDescriptor (_ : List ℕ) (u entry : ℕ) : Prop := entry = u ||| TABLE ||| VALID

/-- How the tables lie in memory, beside the blocks `bs`. -/
structure Layout (root : ℕ) (T : List (List ℕ × ℕ)) (bs : List Block) (w : Ram) : Prop
    extends Radix fourLevel IsDescriptor root T bs w.log w.mem where
  le : ∀ {q t}, (q, t) ∈ T → t + pageSize ≤ 2 ^ 48

namespace Layout

variable {root : ℕ} {T : List (List ℕ × ℕ)} {bs : List Block} {w w' : Ram} {q q' : List ℕ}
  {t u i j : ℕ} {va a : ℕ} {res : Option ℕ}

theorem lt (L : Layout root T bs w) (h : (q, t) ∈ T) : t < 2 ^ 48 :=
  lt_of_lt_of_le (Nat.lt_add_of_pos_right (by decide)) (L.le h)

/-- Only the entries of the tables and the ledger matter. -/
theorem congr (L : Layout root T bs w) (hlog : w'.log = w.log)
    (hmem : ∀ {q t i}, (q, t) ∈ T → q.length < 3 → i < 512 → w'.mem (t + 8 * i) = w.mem (t + 8 * i)) :
    Layout root T bs w' :=
  ⟨hlog ▸ L.toRadix.congr hmem, L.le⟩

/-- Stores into a block that is held leave the tables alone. -/
theorem fill (L : Layout root T bs w) {n : ℕ} {f : ℕ → ℕ} {b : Block} (hb : b ∈ bs)
    (ha : b.addr = a) (hn : n ≤ b.size pageSize) (h : (q, t) ∈ T) (hi : i < 512) :
    (w.fill a n f).mem (t + 8 * i) = w.mem (t + 8 * i) := by
  refine if_neg fun hx => L.not_has h hi hb ?_
  have hsize : size fourLevel.page b = b.size pageSize := rfl
  exact ⟨by omega, by omega⟩

/-! ### Following paths -/

/-- The table a descriptor with the bits of `mask` leads to. -/
def nextTable (mask entry : ℕ) : Option ℕ :=
  if entry &&& mask = mask then some (tableAddr entry) else none

theorem findTable_eq (w : Ram) (mask t : ℕ) (is : List ℕ) :
    w.findTable mask t is = (trail (nextTable mask) w.mem t is).map Prod.snd := by
  induction is generalizing t with
  | nil => rfl
  | cons i is ih =>
    rw [Ram.findTable, trail, nextTable]
    split
    · rw [ih, Option.bind_some, Option.map_map]
      rfl
    · rfl

/-- Paths in the list of tables are the paths the walk finds. -/
theorem findTable_eq_some (L : Layout root T bs w) {mask : ℕ}
    (hm : mask = VALID ∨ mask = TABLE ||| VALID) {is : List ℕ} (h : (q, t) ∈ T)
    (hlen : q.length + is.length = 3) (his : ∀ i ∈ is, i < 512) :
    w.findTable mask t is = some u ↔ (q ++ is, u) ∈ T := by
  have hnext : ∀ {q u e}, (q, u) ∈ T → IsDescriptor q u e → nextTable mask e = some u := by
    rintro q u _ hu rfl
    rw [nextTable, if_pos (descriptor_land (L.dvd hu) hm), tableAddr_descriptor (L.dvd hu) (L.lt hu)]
  have hzero : nextTable mask 0 = none := by rcases hm with rfl | rfl <;> rfl
  rw [findTable_eq]
  obtain ⟨htrail, hno⟩ | ⟨es, v, htrail, hv, -⟩ := L.trail_cases hnext hzero h hlen his
  · simp [htrail, hno]
  · rw [htrail, map_some, some_inj]
    exact ⟨fun he => he ▸ hv, L.uniq hv⟩

/-- **What the hardware finds**: the leaf entry in the table at the end of the path. -/
theorem walk_eq (L : Layout root T bs w) (h : (tablePath va, t) ∈ T) :
    w.walk root va =
      if w.mem (t + 8 * leafIndex va) &&& (TABLE ||| VALID) = TABLE ||| VALID then
        some (w.mem (t + 8 * leafIndex va))
      else none := by
  have hfind := (L.findTable_eq_some (.inr rfl) L.root_mem rfl (tablePath_lt va)).2 h
  rw [Ram.walk, hfind]
  rfl

/-- The same in terms of the leaf entries. -/
theorem walk_eq_leaf (L : Layout root T bs w) {ℓ : List ℕ → ℕ → ℕ}
    (hℓ : Leaves fourLevel T w.mem ℓ) :
    w.walk root va =
      if ℓ (tablePath va) (leafIndex va) &&& (TABLE ||| VALID) = TABLE ||| VALID then
        some (ℓ (tablePath va) (leafIndex va))
      else none := by
  by_cases htable : ∃ t, (tablePath va, t) ∈ T
  · obtain ⟨t, ht⟩ := htable
    rw [L.walk_eq ht, hℓ.eq ht rfl (leafIndex_lt va)]
  · have hzero : ℓ (tablePath va) (leafIndex va) = 0 := by
      by_contra hne
      exact htable (hℓ.table hne)
    have hfind : w.findTable (TABLE ||| VALID) root (tablePath va) = none := by
      rw [eq_none_iff_forall_ne_some]
      intro t ht
      exact htable ⟨t, (L.findTable_eq_some (.inr rfl) L.root_mem rfl (tablePath_lt va)).1 ht⟩
    rw [Ram.walk, hfind, hzero]
    rfl

/-- A new root is a tree of one empty table. -/
theorem root_only (hfresh : Fresh pageSize w.log ⟨a, 0⟩) (hle : a + pageSize ≤ 2 ^ 48)
    (hlog : w'.log = .alloc ⟨a, 0⟩ :: w.log) (hmem : ∀ i < 512, w'.mem (a + 8 * i) = 0) :
    Layout a [([], a)] [] w' := by
  have hheld : HeldBlock pageSize w'.log ⟨a, 0⟩ :=
    (hlog ▸ (Held.nil w.log).alloc hfresh).block _ (.head _)
  refine ⟨Radix.root_only hheld hmem, fun h => ?_⟩
  rw [(Prod.mk.inj (mem_singleton.1 h)).2]
  exact hle

/-! ### What the functions do -/

theorem take_cases {order : ℕ} (h : w.take order = (res, w')) :
    (res = none ∧ w' = w.asked) ∨ ∃ a, res = some a ∧ Fresh pageSize w.log ⟨a, order⟩ ∧
      a + size pageSize ⟨a, order⟩ ≤ 2 ^ 48 ∧
      w' = { w.asked with log := .alloc ⟨a, order⟩ :: w.log } := by
  unfold Ram.take at h
  split at h
  · next a ha =>
    cases h
    obtain ⟨-, hok⟩ := filter_eq_some_iff.1 ha
    obtain ⟨hfresh, hle⟩ := of_decide_eq_true hok
    exact .inr ⟨a, rfl, hfresh, hle, rfl⟩
  · cases h
    exact .inl ⟨rfl, rfl⟩

/-- `ensure_table` keeps the tables, adds at most the one asked for, and changes no leaf entry. -/
theorem ensureTable (L : Layout root T bs w) (h : (q, t) ∈ T) (hlen : q.length < 3) (hi : i < 512)
    (hop : w.ensureTable t i = (res, w')) :
    ∃ T', Layout root T' bs w' ∧ (∀ u, res = some u → (q ++ [i], u) ∈ T') ∧
      ∀ ℓ, Leaves fourLevel T w.mem ℓ → Leaves fourLevel T' w'.mem ℓ := by
  unfold Ram.ensureTable at hop
  by_cases hchild : ∃ u, (q ++ [i], u) ∈ T
  · obtain ⟨u, hu⟩ := hchild
    have hvalid := descriptor_land (L.dvd hu) (.inl rfl)
    have hentry : w.mem (t + 8 * i) = u ||| TABLE ||| VALID := L.entry h hlen hi hu
    simp only [hentry] at hop
    rw [if_pos (by rw [hvalid]; decide), tableAddr_descriptor (L.dvd hu) (L.lt hu)] at hop
    cases hop
    refine ⟨T, L, ?_, fun _ hℓ => hℓ⟩
    rintro _ ⟨⟩
    exact hu
  · have hnew : ∀ u, (q ++ [i], u) ∉ T := fun u hu => hchild ⟨u, hu⟩
    simp only [L.empty h hlen hi hnew, Nat.zero_and, ne_eq, not_true_eq_false, if_false,
      Ram.allocZeroedPage] at hop
    rcases htake : w.take 0 with ⟨page, w₁⟩
    rw [htake] at hop
    obtain ⟨rfl, rfl⟩ | ⟨a, rfl, hfresh, hle, rfl⟩ := take_cases htake
    · cases hop
      exact ⟨T, L.congr rfl fun _ _ _ => rfl, nofun, fun _ hℓ => hℓ⟩
    · cases hop
      rw [Block.size, pow_zero, Nat.mul_one] at hle
      obtain ⟨R, hleaves⟩ := L.addTable h hlen hi hnew hfresh rfl (fun _ hx => hx) rfl
      refine ⟨_, ⟨R, fun hu => ?_⟩, ?_, hleaves⟩
      · rcases mem_cons.1 hu with hu | hu
        · rw [(Prod.mk.inj hu).2]
          exact hle
        · exact L.le hu
      · rintro _ ⟨⟩
        exact .head _

theorem ensureTables (L : Layout root T bs w) {is : List ℕ} (h : (q, t) ∈ T)
    (hlen : q.length + is.length = 3) (his : ∀ i ∈ is, i < 512)
    (hop : w.ensureTables t is = (res, w')) :
    ∃ T', Layout root T' bs w' ∧ (∀ u, res = some u → (q ++ is, u) ∈ T') ∧
      ∀ ℓ, Leaves fourLevel T w.mem ℓ → Leaves fourLevel T' w'.mem ℓ := by
  induction is generalizing q t T w with
  | nil =>
    cases hop
    refine ⟨T, L, ?_, fun _ hℓ => hℓ⟩
    rintro _ ⟨⟩
    rwa [append_nil]
  | cons i is ih =>
    rw [length_cons] at hlen
    rw [Ram.ensureTables] at hop
    split at hop
    · next t₁ w₁ hstep =>
      obtain ⟨T₁, L₁, hmem1, hleaves1⟩ := L.ensureTable h (by omega) (his i (.head _)) hstep
      obtain ⟨T', L', hmem, hleaves⟩ := ih L₁ (hmem1 t₁ rfl)
        (by rw [length_append, length_singleton]; omega)
        (fun k hk => his k (.tail _ hk)) hop
      refine ⟨T', L', fun u hu => ?_, fun ℓ hℓ => hleaves ℓ (hleaves1 ℓ hℓ)⟩
      simpa using hmem u hu
    · next w₁ hstep =>
      cases hop
      obtain ⟨T₁, L₁, -, hleaves1⟩ := L.ensureTable h (by omega) (his i (.head _)) hstep
      exact ⟨T₁, L₁, nofun, hleaves1⟩

/-- The leaf function with another entry for one address. -/
def setEntryOf (ℓ : List ℕ → ℕ → ℕ) (va v : ℕ) : List ℕ → ℕ → ℕ :=
  fun q i => if (q, i) = (tablePath va, leafIndex va) then v else ℓ q i

/-- Without a table for it, the entry of an address is empty already. -/
theorem leaves_setEntryOf_zero {mem : ℕ → ℕ} {ℓ : List ℕ → ℕ → ℕ} (hℓ : Leaves fourLevel T mem ℓ)
    (hnone : ∀ t, (tablePath va, t) ∉ T) : Leaves fourLevel T mem (setEntryOf ℓ va 0) := by
  refine ⟨fun hu hl hj => ?_, fun hne => ?_⟩
  · rw [setEntryOf, if_neg fun he => hnone _ ((Prod.mk.inj he).1 ▸ hu)]
    exact hℓ.eq hu hl hj
  · unfold setEntryOf at hne
    split_ifs at hne
    · exact absurd rfl hne
    · exact hℓ.table hne

/-- Storing the leaf entry of an address keeps the tables and the other leaf entries. -/
theorem storeLeaf (L : Layout root T bs w) (h : (tablePath va, t) ∈ T) (v : ℕ) :
    Layout root T bs (w.store (t + 8 * leafIndex va) v) ∧
      ∀ ℓ, Leaves fourLevel T w.mem ℓ →
        Leaves fourLevel T (w.store (t + 8 * leafIndex va) v).mem (setEntryOf ℓ va v) := by
  obtain ⟨R, hleaves⟩ := L.setLeaf h rfl (leafIndex_lt va) v
  exact ⟨⟨R, L.le⟩, hleaves⟩

/-- **What `map_4k` does.**  The tables stay, and so do all leaf entries but its own; that one is
written if the call succeeds. -/
theorem map4k (L : Layout root T bs w) {phys flags : ℕ} {ok : Bool}
    (hop : w.map4k root va phys flags = (ok, w')) :
    ∃ T', Layout root T' bs w' ∧
      ∀ ℓ, Leaves fourLevel T w.mem ℓ → Leaves fourLevel T' w'.mem
        (if ok then setEntryOf ℓ va (phys ||| flags ||| 0b11) else ℓ) := by
  unfold Ram.map4k at hop
  split at hop
  · next t w₁ htables =>
    cases hop
    obtain ⟨T', L', hmem, hleaves⟩ := L.ensureTables L.root_mem rfl (tablePath_lt va) htables
    obtain ⟨L'', hleaves'⟩ := L'.storeLeaf (hmem t rfl) (phys ||| flags ||| 0b11)
    exact ⟨T', L'', fun ℓ hℓ => hleaves' ℓ (hleaves ℓ hℓ)⟩
  · next w₁ htables =>
    cases hop
    obtain ⟨T', L', -, hleaves⟩ := L.ensureTables L.root_mem rfl (tablePath_lt va) htables
    exact ⟨T', L', hleaves⟩

/-- What `unmap_4k` does. -/
theorem unmap4k (L : Layout root T bs w) (va : ℕ) :
    Layout root T bs (w.unmap4k root va) ∧
      ∀ ℓ, Leaves fourLevel T w.mem ℓ →
        Leaves fourLevel T (w.unmap4k root va).mem (setEntryOf ℓ va 0) := by
  unfold Ram.unmap4k
  split
  · next t hfind =>
    have ht := (L.findTable_eq_some (.inl rfl) L.root_mem rfl (tablePath_lt va)).1 hfind
    exact L.storeLeaf ht 0
  · next hfind =>
    refine ⟨L, fun ℓ hℓ => ?_⟩
    -- no table, so the entry was empty before
    have hnone : ∀ t, (tablePath va, t) ∉ T := fun t ht => by
      rw [(L.findTable_eq_some (.inl rfl) L.root_mem rfl (tablePath_lt va)).2 ht] at hfind
      exact (nomatch hfind)
    exact leaves_setEntryOf_zero hℓ hnone

end Layout

end Cyanos.Aarch64
