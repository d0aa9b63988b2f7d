import Cyanos.Arch.Aarch64.Tables
import Cyanos.Arch.X86.Paging
import Mathlib.Tactic.IntervalCases

/-!
# The x86-64 tables in memory

An upper entry holds the address of a table and some of the rights to write and to use the pages
below in user mode.  `ensure_table` only ever adds rights, those of the page that is being mapped.
So the entries on the way to a page allow all that the page's own entry allows: what the four levels
allow together is what the last one allows.

## Main results

* `Tree.map4k`, `Tree.unmap4k` : what the two functions do to the tree of tables and to the function
  that gives its leaf entries.
* `Tree.hardwareWalk_eq` : **what the hardware finds is in the leaf entry**.
-/

namespace Cyanos.X86

open Lib Aarch64 Layout List Nat

theorem tablePath_lt (va : ℕ) : ∀ i ∈ tablePath va, i < 512 := Aarch64.tablePath_lt va

theorem leafIndex_lt (va : ℕ) : leafIndex va < 512 := Aarch64.leafIndex_lt va

/-! ### Upper entries -/

/-- An entry for the table at `u`, which allows at least what `D` demands at its path. -/
def Upper (D : List ℕ → ℕ → Prop) (q : List ℕ) (u entry : ℕ) : Prop :=
  u + pageSize ≤ 2 ^ 52 ∧
    ∃ f < 8, f.testBit 0 = true ∧ entry = u ||| f ∧ ∀ k, D q k → f.testBit k = true

/-- The intermediate flags of a call. -/
def intermediate (flags : ℕ) : ℕ := flags &&& (PRESENT ||| WRITABLE ||| USER)

section Upper

variable {D D' : List ℕ → ℕ → Prop} {q : List ℕ} {u f e flags k : ℕ}

theorem Upper.mono (hD : ∀ k, D' q k → D q k) (h : Upper D q u e) : Upper D' q u e := by
  obtain ⟨hle, f, hf, h0, he, hDf⟩ := h
  exact ⟨hle, f, hf, h0, he, fun k hk => hDf k (hD k hk)⟩

theorem Upper.lt (h : Upper D q u e) : u < 2 ^ 52 :=
  lt_of_lt_of_le (Nat.lt_add_of_pos_right (by decide)) h.1

theorem intermediate_lt (flags : ℕ) : intermediate flags < 8 :=
  lt_of_le_of_lt and_le_right (by decide)

theorem intermediate_testBit (hk : k < 3) : (intermediate flags).testBit k = flags.testBit k := by
  have hmask : PRESENT ||| WRITABLE ||| USER = 2 ^ 3 - 1 := rfl
  rw [intermediate, hmask, testBit_and, testBit_two_pow_sub_one, decide_eq_true hk, Bool.and_true]

theorem land_present (e : ℕ) : e &&& PRESENT = 0 ↔ e.testBit 0 = false := by
  rw [show PRESENT = 1 from rfl, and_one_is_mod, testBit_zero, decide_eq_false_iff_not]
  omega

theorem upper_testBit (hd : pageSize ∣ u) (hk : k < 12) : (u ||| f).testBit k = f.testBit k := by
  rw [testBit_or, page_testBit hd hk, Bool.false_or]

theorem tableAddr_upper (hd : pageSize ∣ u) (hu : u < 2 ^ 52) (hf : f < 8) :
    tableAddr (u ||| f) = u := by
  have hu' : u < 2 ^ 64 := lt_trans hu (by norm_num)
  exact page_lor_land hd hu' le_rfl (by decide) (by interval_cases f <;> decide)

theorem nextTable_upper (h : Upper D q u e) (hd : pageSize ∣ u) : nextTable e = some u := by
  obtain ⟨hu, f, hf, h0, rfl, -⟩ := id h
  have hp : ¬ (u ||| f) &&& PRESENT = 0 := by
    rw [land_present, upper_testBit hd (by norm_num), h0]
    decide
  rw [nextTable, if_neg hp, tableAddr_upper hd h.lt hf]

theorem walkTable_upper (h : Upper D q u e) (hd : pageSize ∣ u) : walkTable e = some u := by
  obtain ⟨hu, f, hf, h0, rfl, -⟩ := id h
  have hlow : u &&& (PRESENT ||| HUGE) = 0 := by
    apply eq_of_testBit_eq
    intro i
    rw [testBit_and, zero_testBit]
    by_cases hi : i < 12
    · rw [page_testBit hd hi, Bool.false_and]
    · have hlt : PRESENT ||| HUGE < 2 ^ i :=
        lt_of_lt_of_le (by decide : PRESENT ||| HUGE < 2 ^ 12)
          (Nat.pow_le_pow_right (by norm_num) (by omega))
      rw [testBit_lt_two_pow hlt, Bool.and_false]
  have hp : (u ||| f) &&& (PRESENT ||| HUGE) = PRESENT := by
    rw [and_or_distrib_right, hlow, zero_or]
    interval_cases f <;> first | rfl | cases h0
  rw [walkTable, if_pos hp]
  exact congrArg some
    (page_lor_land hd h.lt (by norm_num) (by decide) (by interval_cases f <;> decide))

end Upper

/-! ### Adding tables and rights -/

section Ensure

variable {D : List ℕ → ℕ → Prop} {root : ℕ} {T : List (List ℕ × ℕ)} {bs : List Block} {w w' : Ram}
  {q : List ℕ} {t i flags : ℕ} {res : Option ℕ}

/-- The demands with the intermediate flags on the paths in `P`. -/
def addDemand (D : List ℕ → ℕ → Prop) (P : List ℕ → Prop) (flags : ℕ) (q : List ℕ) (k : ℕ) : Prop :=
  D q k ∨ P q ∧ (intermediate flags).testBit k = true

/-- A tree of tables whose upper entries allow what `D` demands. -/
abbrev Grants (D : List ℕ → ℕ → Prop) (root : ℕ) (T : List (List ℕ × ℕ)) (bs : List Block)
    (w : Ram) : Prop :=
  Radix fourLevel (Upper D) root T bs w.log w.mem

theorem Grants.mono {D' : List ℕ → ℕ → Prop} (R : Grants D root T bs w)
    (hD : ∀ q k, D' q k → D q k) : Grants D' root T bs w :=
  Radix.mono R fun q _ _ h => h.mono (hD q)

theorem allocZeroedPage_cases (h : allocZeroedPage w = (res, w')) :
    (res = none ∧ w' = w.asked) ∨
      ∃ a, res = some a ∧ Fresh pageSize w.log ⟨a, 0⟩ ∧ a + pageSize ≤ 2 ^ 52 ∧
        w'.log = .alloc ⟨a, 0⟩ :: w.log ∧
        w'.mem = fun x => if a ≤ x ∧ x < a + pageSize then 0 else w.mem x := by
  unfold allocZeroedPage at h
  split at h
  · next a ha =>
    cases h
    obtain ⟨-, hok⟩ := Option.filter_eq_some_iff.1 ha
    obtain ⟨hfresh, hle⟩ := of_decide_eq_true hok
    exact .inr ⟨a, rfl, hfresh, hle, rfl, rfl⟩
  · cases h
    exact .inl ⟨rfl, rfl⟩

/-- `ensure_table` keeps the tables and adds at most the one asked for.  When it succeeds, the entry
allows what the flags do. -/
theorem ensureTable_spec (R : Grants D root T bs w) (hD : ∀ q k, D q k → ∃ t, (q, t) ∈ T)
    (h : (q, t) ∈ T) (hlen : q.length < 3) (hi : i < 512) (hP : flags.testBit 0 = true)
    (hop : ensureTable w t i flags = (res, w')) :
    ∃ T', T ⊆ T' ∧ Grants D root T' bs w' ∧
      (∀ u, res = some u → (q ++ [i], u) ∈ T' ∧
        Grants (addDemand D (· = q ++ [i]) flags) root T' bs w') ∧
      ∀ ℓ, Leaves fourLevel T w.mem ℓ → Leaves fourLevel T' w'.mem ℓ := by
  set D' := addDemand D (· = q ++ [i]) flags
  have hweaker : ∀ q' k, D q' k → D' q' k := fun _ _ hk => .inl hk
  have hother : ∀ {q' v x}, q' ≠ q ++ [i] → Upper D q' v x →
      Upper D' q' v x :=
    fun hne hx => hx.mono fun k hk => hk.resolve_right fun h => hne h.1
  have hP' : (intermediate flags).testBit 0 = true := by rw [intermediate_testBit (by norm_num), hP]
  unfold ensureTable at hop
  by_cases hchild : ∃ u, (q ++ [i], u) ∈ T
  · -- the entry is there, and gets the rights it lacks
    obtain ⟨u, hu⟩ := hchild
    have hup := R.entry h hlen hi hu
    obtain ⟨hle, f, hf, h0, he, hDf⟩ := id hup
    have hd : pageSize ∣ u := R.dvd hu
    have hp : ¬ w.mem (t + 8 * i) &&& PRESENT = 0 := by
      rw [he, land_present, upper_testBit hd (by norm_num), h0]
      decide
    have hnew : Upper D' (q ++ [i]) u
        (w.mem (t + 8 * i) ||| intermediate flags) := by
      refine ⟨hle, f ||| intermediate flags, or_lt_two_pow (n := 3) hf (intermediate_lt flags),
        by rw [Nat.testBit_or, h0, Bool.true_or], by rw [he, Nat.or_assoc], fun k hk => ?_⟩
      rw [testBit_or, Bool.or_eq_true]
      exact hk.imp (hDf k) And.right
    obtain ⟨R', hleaves⟩ := R.setEntry h hlen hi hu hnew hother
    obtain ⟨hres, hw'⟩ := Prod.mk.inj ((if_pos hp).symm.trans hop)
    have hmem : w'.mem = Function.update w.mem (t + 8 * i) (w.mem (t + 8 * i) ||| intermediate flags) ∧
        w'.log = w.log := by
      rw [← hw']
      split_ifs with hchg
      · exact ⟨rfl, rfl⟩
      · rw [not_not] at hchg
        exact ⟨by rw [intermediate, hchg, Function.update_eq_self], rfl⟩
    have R'' : Grants D' root T bs w' := by
      rw [Grants, hmem.1, hmem.2]
      exact R'
    refine ⟨T, List.Subset.refl _, R''.mono hweaker, fun v hv => ?_, fun ℓ hℓ => hmem.1 ▸ hleaves ℓ hℓ⟩
    rw [he, tableAddr_upper hd hup.lt hf] at hres
    cases hres.trans hv
    exact ⟨hu, R''⟩
  · -- the entry is empty, and gets a new table
    have hnew : ∀ u, (q ++ [i], u) ∉ T := fun u hu => hchild ⟨u, hu⟩
    have hempty : w.mem (t + 8 * i) = 0 := R.empty h hlen hi hnew
    rw [hempty] at hop
    replace hop := (if_neg (by decide : ¬ (0 &&& PRESENT ≠ 0))).symm.trans hop
    rcases halloc : allocZeroedPage w with ⟨page, w₁⟩
    rw [halloc] at hop
    obtain ⟨rfl, rfl⟩ | ⟨a, rfl, hfresh, hle, hlog, hmem⟩ := allocZeroedPage_cases halloc
    · cases hop
      exact ⟨T, List.Subset.refl _, R, nofun, fun _ hℓ => hℓ⟩
    · cases hop
      have hup : Upper D' (q ++ [i]) a (a ||| intermediate flags) := by
        refine ⟨hle, _, intermediate_lt flags, hP', rfl, fun k hk => ?_⟩
        rcases hk with hk | hk
        · -- nothing is demanded where there is no table
          obtain ⟨v, hv⟩ := hD _ k hk
          exact absurd hv (hnew v)
        · exact hk.2
      obtain ⟨R', hleaves⟩ := R.addTable h hlen hi hnew hfresh hup hother rfl
      have R'' : Grants D' root ((q ++ [i], a) :: T) bs
          (w₁.store (t + 8 * i) (a ||| intermediate flags)) := by
        rw [Grants, Ram.store, hlog, hmem]
        exact R'
      refine ⟨_, subset_cons_self _ _, R''.mono hweaker, ?_, fun ℓ hℓ => ?_⟩
      · rintro _ ⟨⟩
        exact ⟨(.head _), R''⟩
      · rw [Ram.store, hmem]
        exact hleaves ℓ hℓ

/-- The tables below a table on the way along a path. -/
def OnWay (q is q' : List ℕ) : Prop := ∃ js, js ≠ [] ∧ js <+: is ∧ q' = q ++ js

/-- `ensure_table` along a path.  When it succeeds, all entries on the way allow what the flags
do. -/
theorem ensureTables_spec {is : List ℕ} (R : Grants D root T bs w)
    (hD : ∀ q k, D q k → ∃ t, (q, t) ∈ T) (h : (q, t) ∈ T) (hlen : q.length + is.length = 3)
    (his : ∀ i ∈ is, i < 512) (hP : flags.testBit 0 = true)
    (hop : ensureTables flags w t is = (res, w')) :
    ∃ T', T ⊆ T' ∧ Grants D root T' bs w' ∧
      (∀ u, res = some u → (q ++ is, u) ∈ T' ∧
        Grants (addDemand D (OnWay q is) flags) root T' bs w') ∧
      ∀ ℓ, Leaves fourLevel T w.mem ℓ → Leaves fourLevel T' w'.mem ℓ := by
  induction is generalizing q t T w D with
  | nil =>
    cases hop
    refine ⟨T, List.Subset.refl _, R, ?_, fun _ hℓ => hℓ⟩
    rintro _ ⟨⟩
    rw [append_nil]
    refine ⟨h, R.mono fun q' k hk => hk.resolve_right ?_⟩
    rintro ⟨⟨js, hne, hpre, -⟩, -⟩
    exact hne (prefix_nil.1 hpre)
  | cons i is ih =>
    rw [length_cons] at hlen
    rw [ensureTables] at hop
    split at hop
    · next t₁ w₁ hstep =>
      obtain ⟨T₁, hsub1, -, hres1, hleaves1⟩ :=
        ensureTable_spec R hD h (by omega) (his i (.head _)) hP hstep
      obtain ⟨ht1, R₁⟩ := hres1 t₁ rfl
      have hD1 : ∀ q' k, addDemand D (· = q ++ [i]) flags q' k → ∃ t, (q', t) ∈ T₁ := by
        rintro q' k (hk | ⟨rfl, -⟩)
        · obtain ⟨v, hv⟩ := hD q' k hk
          exact ⟨v, hsub1 hv⟩
        · exact ⟨t₁, ht1⟩
      obtain ⟨T', hsub, R', hres, hleaves⟩ := ih R₁ hD1 ht1
        (by rw [length_append, length_singleton]; omega)
        (fun k hk => his k (.tail _ hk)) hop
      refine ⟨T', fun x hx => hsub (hsub1 hx), R'.mono fun _ _ hk => .inl hk, fun u hu => ?_,
        fun ℓ hℓ => hleaves ℓ (hleaves1 ℓ hℓ)⟩
      obtain ⟨hmem, R''⟩ := hres u hu
      rw [append_cons]
      refine ⟨hmem, R''.mono fun q' k hk => ?_⟩
      -- the entry of the first index, or one further down
      obtain hk | ⟨⟨js, hne, hpre, rfl⟩, hbit⟩ := hk
      · exact .inl (.inl hk)
      · obtain ⟨j, js, rfl⟩ := exists_cons_of_ne_nil hne
        obtain ⟨rfl, hpre'⟩ := cons_prefix_cons.1 hpre
        by_cases hjs : js = []
        · subst hjs
          exact .inl (.inr ⟨rfl, hbit⟩)
        · exact .inr ⟨⟨js, hjs, hpre', append_cons q j js⟩, hbit⟩
    · next w₁ hstep =>
      cases hop
      obtain ⟨T₁, hsub1, R₁, -, hleaves1⟩ :=
        ensureTable_spec R hD h (by omega) (his i (.head _)) hP hstep
      exact ⟨T₁, hsub1, R₁, nofun, hleaves1⟩

end Ensure

/-! ### The tree and its leaves -/

/-- What the leaf entries below a path allow of writing and of use in user mode. -/
def Demands (ℓ : List ℕ → ℕ → ℕ) (q : List ℕ) (k : ℕ) : Prop :=
  (k = 1 ∨ k = 2) ∧ q ≠ [] ∧ ∃ q' i, q <+: q' ∧ (ℓ q' i).testBit k = true

/-- A tree of tables with the leaf entries `ℓ`, whose upper entries allow what these do. -/
structure Tree (root : ℕ) (ℓ : List ℕ → ℕ → ℕ) (T : List (List ℕ × ℕ)) (w : Ram) : Prop where
  grants : Grants (Demands ℓ) root T [] w
  leaves : Leaves fourLevel T w.mem ℓ

/-- What a leaf entry tells the hardware, if the entries above it allow what it allows. -/
def decode (entry : ℕ) : Option (ℕ × PageFlags) :=
  if entry &&& PRESENT = 0 then none
  else some (physAddr entry, ⟨true, entry.testBit 1, entry.testBit 2, !entry.testBit 63,
    entry.testBit 4⟩)

namespace Tree

variable {root va : ℕ} {ℓ : List ℕ → ℕ → ℕ} {T : List (List ℕ × ℕ)} {w w' : Ram}

/-- Leaf entries are in tables, and these are below tables. -/
theorem exists_table (h : Tree root ℓ T w) {q : List ℕ} {k : ℕ} (hk : Demands ℓ q k) :
    ∃ t, (q, t) ∈ T := by
  obtain ⟨-, -, q', i, ⟨js, rfl⟩, hbit⟩ := hk
  have hne : ℓ (q ++ js) i ≠ 0 := by
    intro h0
    rw [h0, zero_testBit] at hbit
    cases hbit
  obtain ⟨t, ht⟩ := h.leaves.table hne
  exact h.grants.closed ht

/-- With a new leaf entry, the entries on the way to it have to allow what it does. -/
theorem demands_setEntryOf {q : List ℕ} {v k : ℕ} (h : Demands (setEntryOf ℓ va v) q k) :
    Demands ℓ q k ∨ (k = 1 ∨ k = 2) ∧ OnWay [] (tablePath va) q ∧ v.testBit k = true := by
  obtain ⟨hk, hne, q', i, hpre, hbit⟩ := h
  unfold setEntryOf at hbit
  split_ifs at hbit with hslot
  · obtain rfl : q' = tablePath va := (Prod.mk.inj hslot).1
    exact .inr ⟨hk, ⟨q, hne, hpre, rfl⟩, hbit⟩
  · exact .inl ⟨hk, hne, q', i, hpre, hbit⟩

/-- **What `map_4k` does** to the tree and its leaf entries. -/
theorem map4k {phys flags : ℕ} {ok : Bool} (h : Tree root ℓ T w) (hd : pageSize ∣ phys)
    (hP : flags.testBit 0 = true) (hop : X86.map4k w root va phys flags = (ok, w')) :
    ∃ T', Tree root (if ok then setEntryOf ℓ va (phys ||| flags) else ℓ) T' w' := by
  unfold X86.map4k at hop
  split at hop
  · next t w₁ htables =>
    cases hop
    obtain ⟨T', -, -, hres, hleaves⟩ := ensureTables_spec h.grants (fun _ _ => h.exists_table)
      h.grants.root_mem rfl (tablePath_lt va) hP htables
    obtain ⟨ht, R⟩ := hres t rfl
    obtain ⟨R', hset⟩ := Radix.setLeaf R ht rfl (leafIndex_lt va) (phys ||| flags)
    refine ⟨T', R'.mono fun q u e hup => hup.mono fun k hk => ?_, hset ℓ (hleaves ℓ h.leaves)⟩
    refine (demands_setEntryOf hk).imp_right fun ⟨hk, hway, hbit⟩ => ⟨hway, ?_⟩
    rw [upper_testBit hd (by omega)] at hbit
    rw [intermediate_testBit (by omega), hbit]
  · next w₁ htables =>
    cases hop
    obtain ⟨T', -, R, -, hleaves⟩ := ensureTables_spec h.grants (fun _ _ => h.exists_table)
      h.grants.root_mem rfl (tablePath_lt va) hP htables
    exact ⟨T', R, hleaves ℓ h.leaves⟩

/-- What `unmap_4k` does to the tree and its leaf entries. -/
theorem unmap4k (h : Tree root ℓ T w) (va : ℕ) :
    Tree root (setEntryOf ℓ va 0) T (unmap4k w root va) := by
  have hnext : ∀ {q u e}, (q, u) ∈ T → Upper (Demands ℓ) q u e → nextTable e = some u :=
    fun hu hup => nextTable_upper hup (h.grants.dvd hu)
  have hdemands : ∀ q u e, Upper (Demands ℓ) q u e → Upper (Demands (setEntryOf ℓ va 0)) q u e := by
    refine fun q u e hup => hup.mono fun k hk => (demands_setEntryOf hk).resolve_right ?_
    rintro ⟨-, -, hbit⟩
    rw [zero_testBit] at hbit
    cases hbit
  unfold X86.unmap4k
  obtain ⟨htrail, hnone⟩ | ⟨es, t, htrail, ht, -⟩ :=
    h.grants.trail_cases hnext rfl h.grants.root_mem rfl (tablePath_lt va)
  · -- no table, so the entry was empty before
    rw [htrail]
    exact ⟨Radix.mono h.grants hdemands, leaves_setEntryOf_zero h.leaves hnone⟩
  · obtain ⟨R, hset⟩ := h.grants.setLeaf ht rfl (leafIndex_lt va) 0
    rw [htrail]
    exact ⟨R.mono hdemands, hset ℓ h.leaves⟩

/-- **What the hardware finds is in the leaf entry**: the entries above it allow what it allows. -/
theorem hardwareWalk_eq (h : Tree root ℓ T w) :
    hardwareWalk w root va = decode (ℓ (tablePath va) (leafIndex va)) := by
  have hnext : ∀ {q u e}, (q, u) ∈ T → Upper (Demands ℓ) q u e → walkTable e = some u :=
    fun hu hup => walkTable_upper hup (h.grants.dvd hu)
  unfold hardwareWalk
  obtain ⟨htrail, hno⟩ | ⟨es, t, htrail, ht, hes⟩ :=
    h.grants.trail_cases hnext rfl h.grants.root_mem rfl (tablePath_lt va)
  · have hnone : ℓ (tablePath va) (leafIndex va) = 0 :=
      by_contra fun hne => (h.leaves.table hne).elim hno
    rw [htrail, hnone]
    rfl
  · set e := ℓ (tablePath va) (leafIndex va)
    have hleaf : w.mem (t + 8 * leafIndex va) = e := h.leaves.eq ht rfl (leafIndex_lt va)
    -- a right the leaf entry has, all entries above it have, and no upper entry forbids execution
    have hall : ∀ k, k = 1 ∨ k = 2 → (e.testBit k && es.all (·.testBit k)) = e.testBit k := by
      intro k hk
      rw [Bool.and_eq_left_iff_imp, all_eq_true]
      intro hbit e' he
      obtain ⟨js, v, hne, hpre, hv, -, f, -, -, rfl, hDf⟩ := hes e' he
      rw [upper_testBit (h.grants.dvd hv) (by omega)]
      exact hDf k ⟨hk, hne, tablePath va, leafIndex va, hpre, hbit⟩
    have hexec : es.all (!·.testBit 63) = true := by
      rw [all_eq_true]
      intro e he
      obtain ⟨js, v, -, -, hv, hup⟩ := hes e he
      obtain ⟨-, f, hf, -, rfl, -⟩ := id hup
      have hlt : v ||| f < 2 ^ 52 := or_lt_two_pow hup.lt (lt_trans hf (by norm_num))
      rw [testBit_lt_two_pow (lt_trans hlt (by norm_num)), Bool.not_false]
    simp only [decode, htrail, Option.bind_some, hleaf, all_cons, hall 1 (.inl rfl), hall 2 (.inr rfl),
      hexec, Bool.and_true]

end Tree

end Cyanos.X86
