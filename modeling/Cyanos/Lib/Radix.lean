import Cyanos.Lib.Ledger
import Mathlib.Data.List.Pairwise

/-!
# Trees of tables in a memory of words

A table is a page of 8-byte words.  The words of an upper table are descriptors of the tables one
level below, or `0`; those of a table at the lowest level are the leaves.  `Radix` says how such a
tree lies in memory: `T` lists the tables with the path of indices that leads to each of them, the
words of the upper tables are exactly the descriptors of these tables, and the pages of the tables
and the blocks `bs` of everything else are apart and held.  What counts as a descriptor is up to
`desc`, which may depend on the path.

## Main results

* `Radix.addTable`, `Radix.setEntry`, `Radix.setLeaf` : a new table, another descriptor of the same
  table, another leaf.
* `Radix.trail_cases` : following descriptors from the root finds the tables in `T`.
-/

namespace Lib

open Block List Function

/-- The sizes of a tree. -/
structure Shape where
  /-- Bytes of a page. -/
  page : ℕ
  /-- Words of a table. -/
  fanout : ℕ
  /-- Number of levels above the lowest one. -/
  depth : ℕ
  /-- A table fits into a page. -/
  fits : 8 * fanout ≤ page

/-- How a tree of tables lies in memory, beside the blocks `bs`. -/
structure Radix (S : Shape) (desc : List ℕ → ℕ → ℕ → Prop) (root : ℕ) (T : List (List ℕ × ℕ))
    (bs : List Block) (log : List Event) (mem : ℕ → ℕ) : Prop where
  held : Held S.page log (T.map (fun x => ⟨x.2, 0⟩) ++ bs)
  root_mem : ([], root) ∈ T
  uniq : ∀ {q t t'}, (q, t) ∈ T → (q, t') ∈ T → t = t'
  closed : ∀ {q is t}, (q ++ is, t) ∈ T → ∃ t', (q, t') ∈ T
  entry : ∀ {q t i u}, (q, t) ∈ T → q.length < S.depth → i < S.fanout → (q ++ [i], u) ∈ T →
    desc (q ++ [i]) u (mem (t + 8 * i))
  empty : ∀ {q t i}, (q, t) ∈ T → q.length < S.depth → i < S.fanout → (∀ u, (q ++ [i], u) ∉ T) →
    mem (t + 8 * i) = 0

/-- The leaves of the tables in `T` are those of `ℓ`, and `ℓ` is `0` where there is no table. -/
structure Leaves (S : Shape) (T : List (List ℕ × ℕ)) (mem : ℕ → ℕ) (ℓ : List ℕ → ℕ → ℕ) : Prop where
  eq : ∀ {q t i}, (q, t) ∈ T → q.length = S.depth → i < S.fanout → mem (t + 8 * i) = ℓ q i
  table : ∀ {q i}, ℓ q i ≠ 0 → ∃ t, (q, t) ∈ T

/-- Follow a path of indices through descriptors, as `next` reads them: the descriptors on the way
and the table at the end. -/
def trail (next : ℕ → Option ℕ) (mem : ℕ → ℕ) : ℕ → List ℕ → Option (List ℕ × ℕ)
  | t, [] => some ([], t)
  | t, i :: is =>
    let e := mem (t + 8 * i)
    (next e).bind fun u => (trail next mem u is).map fun x => (e :: x.1, x.2)

namespace Radix

variable {S : Shape} {desc desc' : List ℕ → ℕ → ℕ → Prop} {root : ℕ} {T : List (List ℕ × ℕ)}
  {bs : List Block} {log log' : List Event} {mem mem' : ℕ → ℕ} {q q' : List ℕ} {t u i j a e : ℕ}

theorem dvd (R : Radix S desc root T bs log mem) (h : (q, t) ∈ T) : S.page ∣ t :=
  (R.held.block _ (mem_append_left _ (mem_map_of_mem h))).dvd

theorem has_index (hi : i < S.fanout) : Has S.page ⟨t, 0⟩ (t + 8 * i) := by
  have := S.fits
  simp only [Has, size]
  omega

section

variable (R : Radix S desc root T bs log mem)
include R

/-- Two words of the tables are at the same address only if they are the same word. -/
theorem slot_ne (h : (q, t) ∈ T) (h' : (q', u) ∈ T)
    (hi : i < S.fanout) (hj : j < S.fanout) (hne : (q, i) ≠ (q', j)) : t + 8 * i ≠ u + 8 * j := by
  intro heq
  by_cases he : (q, t) = (q', u)
  · cases he
    exact hne (by rw [show i = j by omega])
  · have hap := (pairwise_append.1 R.held.apart).1
    rw [pairwise_map] at hap
    exact hap.forall h h' he (t + 8 * i) ⟨has_index hi, heq ▸ has_index hj⟩

/-- The words of tables are outside the other blocks. -/
theorem not_has (h : (q, t) ∈ T) (hi : i < S.fanout) {b : Block}
    (hb : b ∈ bs) : ¬ b.Has S.page (t + 8 * i) := fun hx =>
  (pairwise_append.1 R.held.apart).2.2 _
    (mem_map_of_mem h) b hb _ ⟨has_index hi, hx⟩

/-- The descriptors may be asked for less. -/
theorem mono (h : ∀ q u e, desc q u e → desc' q u e) : Radix S desc' root T bs log mem :=
  { R with entry := fun hq hlen hi hu => h _ _ _ (R.entry hq hlen hi hu) }

/-- Only the words of the upper tables and the ledger matter. -/
theorem congr
    (hmem : ∀ {q t i}, (q, t) ∈ T → q.length < S.depth → i < S.fanout →
      mem' (t + 8 * i) = mem (t + 8 * i)) :
    Radix S desc root T bs log mem' where
  held := R.held
  root_mem := R.root_mem
  uniq := R.uniq
  closed := R.closed
  entry h hlen hi hu := (hmem h hlen hi).symm ▸ R.entry h hlen hi hu
  empty h hlen hi hu := (hmem h hlen hi).trans (R.empty h hlen hi hu)

/-- The memory has leaves. -/
theorem exists_leaves : ∃ ℓ, Leaves S T mem ℓ := by
  classical
  refine ⟨fun q i => if h : ∃ t, (q, t) ∈ T then mem (h.choose + 8 * i) else 0, fun {q t i} h _ _ => ?_,
    fun h => by_contra fun hno => h (dif_neg hno)⟩
  have hex : ∃ t, (q, t) ∈ T := ⟨t, h⟩
  rw [dif_pos hex, R.uniq h hex.choose_spec]

/-! ### Changes -/

theorem update_other (h : (q, t) ∈ T) (hi : i < S.fanout) (e : ℕ) (hu : (q', u) ∈ T)
    (hj : j < S.fanout) (hne : (q', j) ≠ (q, i)) :
    update mem (t + 8 * i) e (u + 8 * j) = mem (u + 8 * j) :=
  update_of_ne (R.slot_ne hu h hj hi hne) _ _

/-- Another leaf. -/
theorem setLeaf (h : (q, t) ∈ T) (hlen : q.length = S.depth)
    (hi : i < S.fanout) (v : ℕ) :
    Radix S desc root T bs log (update mem (t + 8 * i) v) ∧
      ∀ ℓ, Leaves S T mem ℓ → Leaves S T (update mem (t + 8 * i) v)
        fun q' j => if (q', j) = (q, i) then v else ℓ q' j := by
  refine ⟨R.congr fun hu hl hj => R.update_other h hi v hu hj fun he => ?_, fun ℓ hℓ => ⟨?_, ?_⟩⟩
  · cases he
    omega
  · intro q' u j hu hl hj
    split_ifs with hslot
    · cases hslot
      rw [R.uniq hu h, update_self]
    · rw [R.update_other h hi v hu hj hslot, hℓ.eq hu hl hj]
  · intro q' j hne
    by_cases hslot : (q', j) = (q, i)
    · exact ⟨t, (Prod.mk.inj hslot).1 ▸ h⟩
    · rw [if_neg hslot] at hne
      exact hℓ.table hne

/-- Another descriptor for the same table. -/
theorem setEntry (h : (q, t) ∈ T) (hlen : q.length < S.depth)
    (hi : i < S.fanout) (hu : (q ++ [i], u) ∈ T) (he : desc' (q ++ [i]) u e)
    (hother : ∀ {q' v x}, q' ≠ q ++ [i] → desc q' v x → desc' q' v x) :
    Radix S desc' root T bs log (update mem (t + 8 * i) e) ∧
      ∀ ℓ, Leaves S T mem ℓ → Leaves S T (update mem (t + 8 * i) e) ℓ := by
  refine ⟨⟨R.held, R.root_mem, R.uniq, R.closed, ?_, ?_⟩, fun ℓ hℓ => ⟨?_, hℓ.table⟩⟩
  · intro q' v j x hv hlen hj hx
    by_cases hslot : (q', j) = (q, i)
    · cases hslot
      rw [R.uniq hv h, R.uniq hx hu, update_self]
      exact he
    · rw [R.update_other h hi e hv hj hslot]
      refine hother (fun hpath => hslot ?_) (R.entry hv hlen hj hx)
      obtain ⟨rfl, hji⟩ := append_inj' hpath rfl
      rw [singleton_inj.1 hji]
  · intro q' v j hv hlen hj hnone
    rw [R.update_other h hi e hv hj fun hslot => ?_]
    · exact R.empty hv hlen hj hnone
    · cases hslot
      exact hnone u hu
  · intro q' v j hv hl hj
    rw [R.update_other h hi e hv hj fun hslot => ?_, hℓ.eq hv hl hj]
    cases hslot
    omega

/-- A new table, at the place of an entry that was empty. -/
theorem addTable (h : (q, t) ∈ T) (hlen : q.length < S.depth)
    (hi : i < S.fanout) (hnew : ∀ u, (q ++ [i], u) ∉ T) (hfresh : Fresh S.page log ⟨a, 0⟩)
    (he : desc' (q ++ [i]) a e) (hother : ∀ {q' v x}, q' ≠ q ++ [i] → desc q' v x → desc' q' v x)
    (hmem : mem' = update (fun x => if a ≤ x ∧ x < a + S.page then 0 else mem x)
      (t + 8 * i) e) :
    Radix S desc' root ((q ++ [i], a) :: T) bs (.alloc ⟨a, 0⟩ :: log) mem' ∧
      ∀ ℓ, Leaves S T mem ℓ → Leaves S ((q ++ [i], a) :: T) mem' ℓ := by
  -- no word of the other tables is in the new page
  have hout : ∀ {q' u j}, (q', u) ∈ T → j < S.fanout →
      ¬ (a ≤ u + 8 * j ∧ u + 8 * j < a + S.page) := by
    intro q' u j hu hj hx
    have hap := R.held.apart_of_fresh hfresh
      (mem_append_left _ (mem_map_of_mem hu))
    exact hap _ ⟨by simpa [Block.Has, Block.size] using hx, has_index hj⟩
  have hold : ∀ {q' u j}, (q', u) ∈ T → j < S.fanout → (q', j) ≠ (q, i) →
      mem' (u + 8 * j) = mem (u + 8 * j) := by
    intro q' u j hu hj hne
    rw [hmem, update_of_ne (R.slot_ne hu h hj hi hne), if_neg (hout hu hj)]
  have hzero : ∀ j < S.fanout, mem' (a + 8 * j) = 0 := by
    intro j hj
    have hx := has_index (t := a) hj
    simp only [Block.Has, Block.size, pow_zero, Nat.mul_one] at hx
    have hne : a + 8 * j ≠ t + 8 * i := fun he => hout h hi (by rw [← he]; exact hx)
    rw [hmem, update_of_ne hne, if_pos hx]
  refine ⟨⟨R.held.alloc hfresh, mem_cons_of_mem _ R.root_mem, ?_, ?_, ?_, ?_⟩,
    fun ℓ hℓ => ⟨?_, fun hne => ?_⟩⟩
  · intro q' u u' hu hu'
    rcases mem_cons.1 hu with hu | hu <;> rcases mem_cons.1 hu' with hu' | hu'
    · rw [(Prod.mk.inj hu).2, (Prod.mk.inj hu').2]
    · exact absurd ((Prod.mk.inj hu).1 ▸ hu') (hnew u')
    · exact absurd ((Prod.mk.inj hu').1 ▸ hu) (hnew u)
    · exact R.uniq hu hu'
  · intro q' is u hu
    rcases mem_cons.1 hu with hu | hu
    · rcases eq_nil_or_concat is with rfl | ⟨js, k, rfl⟩
      · rw [append_nil] at hu
        exact ⟨u, hu ▸ (.head _)⟩
      · have hq : q' ++ js = q := by
          have hpath := (Prod.mk.inj hu).1
          rw [concat_eq_append, ← append_assoc] at hpath
          exact (append_inj' hpath rfl).1
        obtain ⟨t', ht'⟩ := R.closed (hq.symm ▸ h)
        exact ⟨t', mem_cons_of_mem _ ht'⟩
    · obtain ⟨t', ht'⟩ := R.closed hu
      exact ⟨t', mem_cons_of_mem _ ht'⟩
  · intro q' u j v hmem_u hlen' hj hmem_v
    rcases mem_cons.1 hmem_u with hu | hu <;> rcases mem_cons.1 hmem_v with hv | hv
    · have hlens := congrArg length (Prod.mk.inj hv).1
      rw [(Prod.mk.inj hu).1] at hlens
      simp at hlens
    · rw [(Prod.mk.inj hu).1] at hv
      obtain ⟨v', hv'⟩ := R.closed hv
      exact absurd hv' (hnew v')
    · obtain ⟨hpath, rfl⟩ := Prod.mk.inj hv
      obtain ⟨rfl, hji⟩ := append_inj' hpath rfl
      obtain rfl : j = i := by simpa using hji
      rw [R.uniq hu h, hmem, update_self]
      exact he
    · have hpath : q' ++ [j] ≠ q ++ [i] := fun hpath => hnew v (hpath ▸ hv)
      rw [hold hu hj fun hslot => ?_]
      · exact hother hpath (R.entry hu hlen' hj hv)
      · cases hslot
        exact hpath rfl
  · intro q' u j hu hlen' hj hv
    rcases mem_cons.1 hu with hu | hu
    · cases hu
      exact hzero j hj
    · rw [hold hu hj fun hslot => ?_]
      · exact R.empty hu hlen' hj fun v hv' => hv v (.tail _ hv')
      · cases hslot
        exact hv a (.head _)
  · intro q' u j hu hl hj
    rcases mem_cons.1 hu with hu | hu
    · cases hu
      rw [hzero j hj]
      by_contra hne
      obtain ⟨v, hv⟩ := hℓ.table (Ne.symm hne)
      exact hnew v hv
    · rw [hold hu hj fun hslot => ?_, hℓ.eq hu hl hj]
      cases hslot
      omega
  · obtain ⟨v, hv⟩ := hℓ.table hne
    exact ⟨v, mem_cons_of_mem _ hv⟩

end

/-- A single empty table. -/
theorem root_only (hheld : HeldBlock S.page log ⟨a, 0⟩) (hmem : ∀ i < S.fanout, mem (a + 8 * i) = 0) :
    Radix S desc a [([], a)] [] log mem := by
  have hmem_iff : ∀ {q : List ℕ} {t : ℕ}, (q, t) ∈ [(([] : List ℕ), a)] → q = [] ∧ t = a :=
    fun h => Prod.mk.inj (mem_singleton.1 h)
  refine ⟨⟨fun b hb => ?_, pairwise_singleton _ _⟩, mem_singleton_self _, ?_, ?_, ?_, ?_⟩
  · obtain rfl := mem_singleton.1 hb
    exact hheld
  · intro q t t' h h'
    rw [(hmem_iff h).2, (hmem_iff h').2]
  · intro q is t h
    exact ⟨a, by rw [(append_eq_nil_iff.1 (hmem_iff h).1).1]; exact mem_singleton_self _⟩
  · intro q t i u _ _ _ h
    exact absurd (hmem_iff h).1 (by simp)
  · intro q t i h _ hi _
    rw [(hmem_iff h).2]
    exact hmem i hi

/-! ### Following paths -/

/-- Following a path below a table ends where there is no table, or finds the table there, and the
descriptors on the way are those of the tables in between. -/
theorem trail_cases {next : ℕ → Option ℕ} {is : List ℕ} (R : Radix S desc root T bs log mem)
    (hnext : ∀ {q u e}, (q, u) ∈ T → desc q u e → next e = some u) (hzero : next 0 = none)
    (h : (q, t) ∈ T) (hlen : q.length + is.length = S.depth) (his : ∀ i ∈ is, i < S.fanout) :
    (trail next mem t is = none ∧ ∀ u, (q ++ is, u) ∉ T) ∨
      ∃ es u, trail next mem t is = some (es, u) ∧ (q ++ is, u) ∈ T ∧
        ∀ e ∈ es, ∃ js v, js ≠ [] ∧ js <+: is ∧ (q ++ js, v) ∈ T ∧ desc (q ++ js) v e := by
  induction is generalizing q t with
  | nil => exact .inr ⟨[], t, rfl, by rwa [append_nil], by simp⟩
  | cons i is ih =>
    have hi := his i (.head _)
    have hlt : q.length < S.depth := by rw [length_cons] at hlen; omega
    rw [trail, append_cons]
    by_cases hchild : ∃ v, (q ++ [i], v) ∈ T
    · obtain ⟨v, hv⟩ := hchild
      have hdesc := R.entry h hlt hi hv
      rw [hnext hv hdesc, Option.bind_some]
      obtain ⟨hnone, hno⟩ | ⟨es, u, htrail, hu, hes⟩ := ih hv (by simp at hlen ⊢; omega)
        fun k hk => his k (.tail _ hk)
      · exact .inl ⟨by rw [hnone]; rfl, hno⟩
      refine .inr ⟨mem (t + 8 * i) :: es, u, by rw [htrail]; rfl, hu, fun e he => ?_⟩
      rcases mem_cons.1 he with rfl | he
      · exact ⟨[i], v, by simp, ⟨is, rfl⟩, hv, hdesc⟩
      · obtain ⟨js, x, -, hpre, hx, hjs⟩ := hes e he
        rw [← append_cons] at hx hjs
        exact ⟨i :: js, x, by simp, cons_prefix_cons.2 ⟨rfl, hpre⟩, hx, hjs⟩
    · rw [R.empty h hlt hi fun v hv => hchild ⟨v, hv⟩, hzero]
      exact .inl ⟨rfl, fun u hu => hchild (R.closed hu)⟩

end Radix

end Lib
