import Cyanos.Ipc.Receive

/-!
# Finding and giving out ports

`find` tries the buckets from a port's own on and stops at the first free one; `alloc` takes the
first free one from there on.

## Main results

* `PortTable.find_eq_some` : a port is found where its id is, if every bucket tried before is taken.
* `PortTable.alloc_spec` : what `alloc` gives out, and how many ids it skips for it.
-/

namespace Cyanos.PortTable

open List Function Nat

variable {t t' : PortTable} {port pid id : ℕ} {idx : Fin liveBuckets}

/-! ### Finding -/

/-- The search for the port goes past its `i`-th bucket. -/
def Passes (t : PortTable) (port i : ℕ) : Prop :=
  (t.buckets (bucketAt port i)).isFree = false ∧ (t.buckets (bucketAt port i)).id ≠ port

/-- The search for the port ends at its `k`-th bucket. -/
structure Leads (t : PortTable) (port k : ℕ) : Prop where
  lt : k < probeLimit
  past : ∀ i < k, t.Passes port i
  taken : (t.buckets (bucketAt port k)).isFree = false
  id_eq : (t.buckets (bucketAt port k)).id = port

theorem probe_range' {s n : ℕ} :
    t.probe port (range' s n) = some idx ↔
      ∃ k, s ≤ k ∧ k < s + n ∧ (∀ i, s ≤ i → i < k → t.Passes port i) ∧
        (t.buckets (bucketAt port k)).isFree = false ∧
        (t.buckets (bucketAt port k)).id = port ∧ bucketAt port k = idx := by
  induction n generalizing s with
  | zero =>
    refine iff_of_false nofun ?_
    rintro ⟨k, hle, hlt, -⟩
    omega
  | succ n ih =>
    rw [range'_succ, probe]
    by_cases hfree : (t.buckets (bucketAt port s)).isFree = true
    · rw [if_pos hfree]
      refine iff_of_false nofun ?_
      rintro ⟨k, hle, -, hpast, htaken, -⟩
      rcases hle.eq_or_lt with rfl | hlt
      · rw [hfree] at htaken; cases htaken
      · have := (hpast s le_rfl hlt).1
        rw [hfree] at this
        cases this
    · rw [if_neg hfree]
      have hfree : (t.buckets (bucketAt port s)).isFree = false := Bool.eq_false_of_not_eq_true hfree
      by_cases hid : (t.buckets (bucketAt port s)).id = port
      · rw [if_pos hid, Option.some.injEq]
        constructor
        · rintro rfl
          exact ⟨s, le_rfl, by omega, fun i h1 h2 => by omega, hfree, hid, rfl⟩
        · rintro ⟨k, hle, -, hpast, -, -, rfl⟩
          rcases hle.eq_or_lt with rfl | hlt
          · rfl
          · exact absurd hid (hpast s le_rfl hlt).2
      · rw [if_neg hid, ih]
        constructor
        · rintro ⟨k, hle, hlt, hpast, hk⟩
          refine ⟨k, by omega, by omega, fun i hi hik => ?_, hk⟩
          rcases hi.eq_or_lt with rfl | hi
          · exact ⟨hfree, hid⟩
          · exact hpast i hi hik
        · rintro ⟨k, hle, hlt, hpast, htaken, hkid, hk⟩
          rcases hle.eq_or_lt with rfl | hsk
          · exact absurd hkid hid
          · exact ⟨k, hsk, by omega, fun i hi hik => hpast i (by omega) hik, htaken, hkid, hk⟩

/-- **A port is found in the first of its buckets that carries its id, if every bucket before is
taken.** -/
theorem find_eq_some : t.find port = some idx ↔ ∃ k, t.Leads port k ∧ bucketAt port k = idx := by
  rw [find, range_eq_range', probe_range']
  constructor
  · rintro ⟨k, -, hlt, hpast, htaken, hid, hk⟩
    exact ⟨k, ⟨by omega, fun i hi => hpast i (zero_le i) hi, htaken, hid⟩, hk⟩
  · rintro ⟨k, h, hk⟩
    exact ⟨k, zero_le k, by simpa using h.lt, fun i _ hi => h.past i hi, h.taken, h.id_eq, hk⟩

theorem Leads.find (h : t.Leads port k) : t.find port = some (bucketAt port k) :=
  find_eq_some.2 ⟨k, h, rfl⟩

/-- The search depends on the ids it meets. -/
theorem Leads.congr (h : t.Leads port k)
    (hid : ∀ i ≤ k, (t'.buckets (bucketAt port i)).id = (t.buckets (bucketAt port i)).id) :
    t'.Leads port k := by
  have hfree : ∀ i ≤ k, (t'.buckets (bucketAt port i)).isFree =
      (t.buckets (bucketAt port i)).isFree := fun i hi => by
    rw [PortEntry.isFree, PortEntry.isFree, hid i hi]
  refine ⟨h.lt, fun i hi => ?_, ?_, ?_⟩
  · rw [Passes, hfree i hi.le, hid i hi.le]
    exact h.past i hi
  · rw [hfree k le_rfl, h.taken]
  · rw [hid k le_rfl, h.id_eq]

/-! ### Giving out -/

/-- The `k`-th bucket of the id is the first free one. -/
structure FirstFree (buckets : Fin liveBuckets → PortEntry) (id k : ℕ) : Prop where
  lt : k < probeLimit
  past : ∀ i < k, (buckets (bucketAt id i)).isFree = false
  free : (buckets (bucketAt id k)).isFree = true

theorem firstFree_iff {buckets : Fin liveBuckets → PortEntry} :
    (((range probeLimit).map (bucketAt id)).find? fun idx => (buckets idx).isFree) =
        some idx ↔ ∃ k, FirstFree buckets id k ∧ bucketAt id k = idx := by
  rw [find?_map, Option.map_eq_some_iff]
  refine exists_congr fun k => and_congr_left fun _ => ?_
  rw [find?_range_eq_some]
  constructor
  · rintro ⟨hfree, hlt, hpast⟩
    exact ⟨mem_range.1 hlt, fun i hi => by simpa using hpast i hi, hfree⟩
  · rintro ⟨hlt, hpast, hfree⟩
    exact ⟨hfree, mem_range.2 hlt, fun i hi => by simpa using hpast i hi⟩

/-- How many ids the loop of `alloc` skips because all their buckets are taken. -/
def skipped : ℕ → PortTable → ℕ
  | 0, _ => 0
  | turns + 1, t =>
    if (((List.range probeLimit).map (bucketAt t.nextId)).find? fun idx =>
        (t.buckets idx).isFree).isSome then 0
    else skipped turns { t with nextId := (t.nextId + 1) % 2 ^ 32 % maxPorts } + 1

/-- The table once the bucket is given to the port. -/
def give (t : PortTable) (idx : Fin liveBuckets) (id pid : ℕ) : PortTable where
  buckets := Function.update t.buckets idx ((t.buckets idx).allot id pid)
  nextId := (id + 1) % maxPorts

theorem give_self (t : PortTable) (idx : Fin liveBuckets) (id pid : ℕ) :
    (t.give idx id pid).buckets idx = (t.buckets idx).allot id pid := update_self ..

theorem give_of_ne {j : Fin liveBuckets} (h : j ≠ idx) :
    (t.give idx id pid).buckets j = t.buckets j := update_of_ne h _ _

theorem set_self (t : PortTable) (idx : Fin liveBuckets) (b : PortEntry) :
    (t.set idx b).buckets idx = b := update_self ..

theorem set_of_ne {b : PortEntry} {j : Fin liveBuckets} (h : j ≠ idx) :
    (t.set idx b).buckets j = t.buckets j := update_of_ne h _ _

/-- `alloc` comes to the id and gives it its first free bucket, or gives up there. -/
def Gives (buckets : Fin liveBuckets → PortEntry) (id pid : ℕ)
    (r : Option (ℕ × Fin liveBuckets) × PortTable) : Prop :=
  (∃ k, FirstFree buckets id k ∧
    r = (some (id, bucketAt id k), give ⟨buckets, id⟩ (bucketAt id k) id pid)) ∨
  r = (none, ⟨buckets, id⟩)

theorem next_eq (id : ℕ) : (id + 1) % 2 ^ 32 % maxPorts = (id + 1) % maxPorts := by
  rw [maxPorts]
  omega

theorem allocFrom_gives (pid turns : ℕ) (t : PortTable) (h : t.nextId < maxPorts) :
    Gives t.buckets ((t.nextId + skipped turns t) % maxPorts) pid (allocFrom pid turns t) := by
  induction turns generalizing t with
  | zero =>
    right
    simp [allocFrom, skipped, mod_eq_of_lt h]
  | succ turns ih =>
    cases hfind : ((range probeLimit).map (bucketAt t.nextId)).find? fun idx =>
        (t.buckets idx).isFree with
    | some =>
      obtain ⟨k, hk, rfl⟩ := firstFree_iff.1 hfind
      have hskip : skipped (turns + 1) t = 0 := by rw [skipped, hfind]; rfl
      have hid : (t.nextId + skipped (turns + 1) t) % maxPorts = t.nextId := by
        rw [hskip, add_zero, mod_eq_of_lt h]
      rw [hid]
      refine .inl ⟨k, hk, ?_⟩
      simp only [allocFrom, hfind, give, next_eq, set]
    | none =>
      have hskip : skipped (turns + 1) t =
          skipped turns { t with nextId := (t.nextId + 1) % maxPorts } + 1 := by
        rw [skipped, hfind, next_eq]
        rfl
      have hstep : allocFrom pid (turns + 1) t =
          allocFrom pid turns { t with nextId := (t.nextId + 1) % maxPorts } := by
        simp only [allocFrom, hfind, next_eq]
      have hid : ((t.nextId + 1) % maxPorts +
          skipped turns { t with nextId := (t.nextId + 1) % maxPorts }) % maxPorts =
          (t.nextId + skipped (turns + 1) t) % maxPorts := by
        rw [hskip, mod_add_mod]
        congr 1
        omega
      have ih := ih { t with nextId := (t.nextId + 1) % maxPorts } (mod_lt _ (by decide))
      rw [hid] at ih
      rw [hstep]
      exact ih

/-- The id that `alloc` gives out, if it gives one out. -/
def allocId (t : PortTable) : ℕ := (t.nextId + skipped maxPorts t) % maxPorts

theorem allocId_lt (t : PortTable) : t.allocId < maxPorts := Nat.mod_lt _ (by decide)

/-- **`alloc` gives out the first id, from the next one on, that has a free bucket.** -/
theorem alloc_gives (pid : ℕ) (h : t.nextId < maxPorts) :
    Gives t.buckets t.allocId pid (t.alloc pid) :=
  allocFrom_gives pid maxPorts t h

/-- The first id, from the next one on, that has a free bucket. -/
def FirstId (t : PortTable) (id : ℕ) : Prop :=
  ∃ n, id = (t.nextId + n) % maxPorts ∧ (∃ k, FirstFree t.buckets id k) ∧
    ∀ m < n, ∀ i < probeLimit,
      (t.buckets (bucketAt ((t.nextId + m) % maxPorts) i)).isFree = false

/-- The buckets of the ids that are skipped are taken. -/
theorem taken_of_lt_skipped {turns m i : ℕ} (h : t.nextId < maxPorts) (hm : m < skipped turns t)
    (hi : i < probeLimit) :
    (t.buckets (bucketAt ((t.nextId + m) % maxPorts) i)).isFree = false := by
  induction turns generalizing t m with
  | zero => cases hm
  | succ turns ih =>
    rw [skipped, next_eq] at hm
    split at hm
    · cases hm
    · next hnone =>
      cases m with
      | zero =>
        rw [add_zero, mod_eq_of_lt h]
        simpa using fun hfree => hnone (find?_isSome.2 ⟨_, mem_map_of_mem (mem_range.2 hi), hfree⟩)
      | succ m =>
        have hrest := ih (t := { t with nextId := (t.nextId + 1) % maxPorts })
          (mod_lt _ (by decide)) (lt_of_succ_lt_succ hm)
        rwa [mod_add_mod, add_assoc, add_comm 1] at hrest

theorem firstId_allocId {k : ℕ} (h : t.nextId < maxPorts) (hk : FirstFree t.buckets t.allocId k) :
    t.FirstId t.allocId :=
  ⟨_, rfl, ⟨k, hk⟩, fun _ hm _ hi => taken_of_lt_skipped h hm hi⟩

/-- The next id is given out if one of its buckets is free. -/
theorem alloc_of_firstFree {k : ℕ} (hk : FirstFree t.buckets t.nextId k) (pid : ℕ) :
    t.alloc pid =
      (some (t.nextId, bucketAt t.nextId k), t.give (bucketAt t.nextId k) t.nextId pid) := by
  have hturns : maxPorts = 65535 + 1 := rfl
  rw [alloc, hturns, allocFrom]
  simp only [firstFree_iff.2 ⟨k, hk, rfl⟩, next_eq, give, set]

theorem skipped_of_firstFree {k : ℕ} (hk : FirstFree t.buckets t.nextId k) :
    skipped maxPorts t = 0 := by
  have hturns : maxPorts = 65535 + 1 := rfl
  rw [hturns, skipped, firstFree_iff.2 ⟨k, hk, rfl⟩]
  rfl

end Cyanos.PortTable
