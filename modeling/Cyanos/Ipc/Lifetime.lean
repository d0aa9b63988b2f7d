import Mathlib.Data.Fintype.Basic
import Cyanos.Ipc.Lookup

/-!
# Ports over whole histories

Calls on the port table, with a history beside it: the ports created and not closed, how many ids
`alloc` has tried, and when each bucket was given out.  No call reads the history.

Two things go wrong.  `close` empties a bucket in the middle of the way to another port, and `find`
stops there.  And ids come round after 65536, when `alloc` looks for a free bucket and not whether
the id is in use.

## Main results

* `Ports.reachable_run` : every live port is found if no bucket on the way to one is emptied and no
  id in use is given out.
* `Ports.distinct_run` : no id in use is given out if every port is closed before the ids come
  round.
* `Ports.port_lost`, `Ports.id_shared` : histories without these conditions.
-/

namespace Cyanos

open Lib Nat Function

/-- The calls on the port table. -/
inductive PortCall where
  | create (pid : ℕ)
  | close (port : ℕ)
  | releaseByOwner (pid : ℕ)
  | send (port : ℕ) (msg : Message)
  | recv (port : ℕ)
  | recvAs (port callerPid : ℕ)

namespace PortTable

variable {t t' : PortTable} {port pid id k : ℕ} {idx : Fin liveBuckets}

/-- The table after a call. -/
def after (t : PortTable) : PortCall → PortTable
  | .create pid => (t.create pid).2
  | .close port => t.close port
  | .releaseByOwner pid => (t.releaseByOwner pid).2
  | .send port msg =>
    match t.send port msg with
    | .ok t => t
    | .error _ => t
  | .recv port => (t.recv port).2
  | .recvAs port callerPid => (t.recvAs port callerPid).2

/-- The same ports in the same buckets. -/
structure SamePorts (t t' : PortTable) : Prop where
  id : ∀ j, (t'.buckets j).id = (t.buckets j).id
  owner : ∀ j, (t'.buckets j).ownerPid = (t.buckets j).ownerPid
  next : t'.nextId = t.nextId

namespace SamePorts

theorem refl (t : PortTable) : t.SamePorts t := ⟨fun _ => rfl, fun _ => rfl, rfl⟩

theorem set {b : PortEntry} (hid : b.id = (t.buckets idx).id)
    (ho : b.ownerPid = (t.buckets idx).ownerPid) : t.SamePorts (t.set idx b) := by
  refine ⟨set_id hid, fun j => ?_, rfl⟩
  by_cases hj : j = idx
  · simp [PortTable.set, hj, ho]
  · simp [PortTable.set, hj]

theorem isFree (h : t.SamePorts t') (j : Fin liveBuckets) :
    (t'.buckets j).isFree = (t.buckets j).isFree := by
  rw [PortEntry.isFree, PortEntry.isFree, h.id j]

theorem leads (h : t.SamePorts t') (hk : t.Leads port k) : t'.Leads port k :=
  hk.congr fun _ _ => h.id _

end SamePorts

theorem enqueue_ports {b b' : PortEntry} {msg : Message} (h : b.enqueue msg = some b') :
    b'.id = b.id ∧ b'.ownerPid = b.ownerPid := by
  unfold PortEntry.enqueue at h
  split at h
  · cases h
  · cases h
    exact ⟨rfl, rfl⟩

theorem samePorts_send (t : PortTable) (port : ℕ) (msg : Message) :
    t.SamePorts (t.after (.send port msg)) := by
  rw [after, send]
  cases hfind : t.find port with
  | none => exact .refl t
  | some idx =>
    cases henq : (t.buckets idx).enqueue msg with
    | none => simp only [henq]; exact .refl t
    | some =>
      simp only [henq]
      exact .set (enqueue_ports henq).1 (enqueue_ports henq).2

theorem samePorts_recv (t : PortTable) (port : ℕ) : t.SamePorts (t.after (.recv port)) := by
  rw [after, recv]
  cases t.find port with
  | none => exact .refl t
  | some => exact .set (dequeue_id _) (dequeue_ownerPid _)

theorem samePorts_recvAs (t : PortTable) (port pid : ℕ) :
    t.SamePorts (t.after (.recvAs port pid)) := by
  rw [after, recvAs]
  cases t.find port with
  | none => exact .refl t
  | some =>
    simp only
    split
    · exact .refl t
    · exact .set (dequeue_id _) (dequeue_ownerPid _)

theorem after_close (t : PortTable) (port : ℕ) :
    (t.find port = none ∧ t.after (.close port) = t) ∨
      ∃ idx, t.find port = some idx ∧ t.after (.close port) = t.set idx .empty := by
  cases hfind : t.find port with
  | none => exact .inl ⟨rfl, by simp [after, close, hfind]⟩
  | some idx => exact .inr ⟨idx, rfl, by simp [after, close, hfind]⟩

/-- The way to the port goes past the bucket. -/
def OnPath (t : PortTable) (port : ℕ) (idx : Fin liveBuckets) : Prop :=
  ∃ k, t.Leads port k ∧ ∃ i < k, bucketAt port i = idx

theorem taken_ne_free {j : Fin liveBuckets} (hj : (t.buckets j).isFree = false)
    (hidx : (t.buckets idx).isFree = true) : j ≠ idx := by
  rintro rfl
  rw [hj] at hidx
  cases hidx

/-- Giving a free bucket to a port does not hide another. -/
theorem Leads.give (h : t.Leads port k) (hfree : (t.buckets idx).isFree = true) :
    (t.give idx id pid).Leads port k := by
  have hsame : ∀ j, (t.buckets j).isFree = false →
      ((t.give idx id pid).buckets j).id = (t.buckets j).id := fun j hj => by
    rw [give_of_ne (taken_ne_free hj hfree)]
  refine h.congr fun i hi => hsame _ ?_
  rcases hi.eq_or_lt with rfl | hlt
  · exact h.taken
  · exact (h.past i hlt).1

/-- A port just created is found, if no bucket had its id before. -/
theorem leads_give (hk : FirstFree t.buckets id k) (hid : id < maxPorts)
    (hnew : ∀ j, (t.buckets j).id ≠ id) (pid : ℕ) :
    (t.give (bucketAt id k) id pid).Leads id k := by
  refine ⟨hk.lt, fun i hi => ?_, ?_, by rw [give_self]; rfl⟩
  · rw [Passes, give_of_ne (taken_ne_free (hk.past i hi) hk.free)]
    exact ⟨hk.past i hi, hnew _⟩
  · rw [give_self]
    have hne : id ≠ emptyId := fun heq => absurd (heq ▸ hid) (by decide)
    simp [PortEntry.isFree, PortEntry.allot, hne]

end PortTable

/-! ### The history -/

open PortTable

/-- The port table and what has happened to it. -/
structure Ports where
  table : PortTable
  /-- The ports created and not closed since, with their owners. -/
  live : List (ℕ × ℕ)
  /-- How many ids `alloc` has tried. -/
  tries : ℕ
  /-- How many it had tried before the id of the port in the bucket. -/
  born : Fin liveBuckets → ℕ
  /-- An id was given out while a bucket held it. -/
  reused : Bool

namespace Ports

/-- Before the first call. -/
def boot : Ports := ⟨.new, [], 0, fun _ => 0, false⟩

/-- One call. -/
def next (s : Ports) (call : PortCall) : Ports :=
  match call with
  | .create pid =>
    match s.table.alloc pid with
    | (some (id, idx), table) =>
      { table := table
        live := (id, pid) :: s.live
        tries := s.tries + skipped maxPorts s.table + 1
        born := Function.update s.born idx (s.tries + skipped maxPorts s.table)
        reused := s.reused || decide (∃ j, (s.table.buckets j).id = id) }
    | (none, table) =>
      { s with
        table := table
        tries := s.tries + skipped maxPorts s.table }
  | .close port =>
    { s with
      table := s.table.after call
      live := s.live.filter fun p => p.1 ≠ port }
  | .releaseByOwner pid =>
    { s with
      table := s.table.after call
      live := s.live.filter fun p => p.2 ≠ pid }
  | .send .. | .recv .. | .recvAs .. => { s with table := s.table.after call }

/-- One call, which is always possible. -/
def step (s : Ports) (call : PortCall) : Option Ports := some (s.next call)

/-- The history follows the table. -/
theorem next_table (s : Ports) (call : PortCall) : (s.next call).table = s.table.after call := by
  cases call with
  | create pid =>
    have hafter : s.table.after (.create pid) = (s.table.alloc pid).2 := rfl
    rw [hafter, next]
    rcases s.table.alloc pid with ⟨_ | ⟨id, idx⟩, t⟩ <;> rfl
  | _ => rfl

/-! ### Live ports are found -/

/-- Every live port is found, in a bucket with its id and its owner. -/
def Reachable (s : Ports) : Prop :=
  ∀ p ∈ s.live, ∃ idx, s.table.find p.1 = some idx ∧ (s.table.buckets idx).id = p.1 ∧
    (s.table.buckets idx).ownerPid = p.2

/-- The first id that has a free bucket is not in use, and no bucket on the way to a port that stays is
emptied. -/
def Unbroken (s : Ports) : PortCall → Prop
  | .create _ => ∀ id, s.table.FirstId id → ∀ j, (s.table.buckets j).id ≠ id
  | .close port =>
    ∀ idx, s.table.find port = some idx → ∀ p ∈ s.live, p.1 ≠ port → ¬s.table.OnPath p.1 idx
  | .releaseByOwner pid =>
    ∀ idx, s.table.ownedBy pid idx = true → ∀ p ∈ s.live, p.2 ≠ pid → ¬s.table.OnPath p.1 idx
  | _ => True

/-- The search for every live port ends at a bucket of its owner. -/
structure Found (s : Ports) : Prop where
  next_lt : s.table.nextId < maxPorts
  leads : ∀ p ∈ s.live, ∃ k, s.table.Leads p.1 k ∧ (s.table.buckets (bucketAt p.1 k)).ownerPid = p.2

variable {s : Ports} {n pid : ℕ} {t : PortTable}

theorem Found.reachable (h : s.Found) : s.Reachable := by
  intro p hp
  obtain ⟨k, hk, howner⟩ := h.leads p hp
  exact ⟨_, hk.find, hk.id_eq, howner⟩

theorem found_boot : boot.Found := ⟨by decide, nofun⟩

theorem Found.samePorts (h : s.Found) (ht : s.table.SamePorts t) :
    ({ s with table := t }).Found := by
  refine ⟨ht.next ▸ h.next_lt, fun p hp => ?_⟩
  obtain ⟨k, hk, howner⟩ := h.leads p hp
  exact ⟨k, ht.leads hk, (ht.owner _).trans howner⟩

theorem Found.create (h : s.Found) (hg : s.Unbroken (.create pid)) :
    (s.next (.create pid)).Found := by
  obtain ⟨k, hk, halloc⟩ | halloc := alloc_gives pid h.next_lt
  · have hnew := hg _ (firstId_allocId h.next_lt hk)
    rw [next, halloc]
    refine ⟨mod_lt _ (by decide), fun p hp => ?_⟩
    obtain rfl | hp := List.mem_cons.1 hp
    · refine ⟨k, leads_give hk (allocId_lt _) hnew pid, ?_⟩
      rw [give_self]
      rfl
    · obtain ⟨j, hj, howner⟩ := h.leads p hp
      refine ⟨j, hj.give hk.free, ?_⟩
      rw [give_of_ne (taken_ne_free hj.taken hk.free)]
      exact howner
  · rw [next, halloc]
    refine ⟨allocId_lt _, fun p hp => ?_⟩
    obtain ⟨k, hk, howner⟩ := h.leads p hp
    exact ⟨k, hk.congr fun _ _ => rfl, howner⟩

/-- Buckets are emptied that no remaining port is in, or past. -/
theorem Found.emptied {s : Ports} (h : s.Found) {t : PortTable} {live : List (ℕ × ℕ)}
    (gone : Fin liveBuckets → Prop) (hnext : t.nextId = s.table.nextId)
    (hkeep : ∀ j, ¬gone j → t.buckets j = s.table.buckets j)
    (hlive : ∀ p ∈ live, p ∈ s.live ∧ (∀ j, gone j → ¬s.table.OnPath p.1 j) ∧
      ∀ j, (s.table.buckets j).id = p.1 → (s.table.buckets j).ownerPid = p.2 → ¬gone j) :
    ({ s with table := t, live := live }).Found := by
  refine ⟨hnext ▸ h.next_lt, fun p hp => ?_⟩
  obtain ⟨hp, hpath, hown⟩ := hlive p hp
  obtain ⟨k, hk, howner⟩ := h.leads p hp
  have hmine := hown _ hk.id_eq howner
  refine ⟨k, hk.congr fun i hi => congrArg _ (hkeep _ ?_), by rwa [hkeep _ hmine]⟩
  rcases hi.eq_or_lt with rfl | hlt
  · exact hmine
  · exact fun hg => hpath _ hg ⟨k, hk, i, hlt, rfl⟩

theorem Found.next (h : s.Found) {call : PortCall} (hg : s.Unbroken call) :
    (s.next call).Found := by
  cases call with
  | create => exact h.create hg
  | close port =>
    obtain ⟨-, hafter⟩ | ⟨idx, hfind, hafter⟩ := after_close ..
    · refine h.emptied (fun _ => False) (by rw [hafter]) (fun j _ => by rw [hafter]) fun p hp => ?_
      exact ⟨List.mem_of_mem_filter hp, nofun, fun _ _ _ => id⟩
    · obtain ⟨k, hk, rfl⟩ := find_eq_some.1 hfind
      refine h.emptied (· = bucketAt port k) (by rw [hafter]; rfl)
        (fun j hj => by rw [hafter, set_of_ne hj]) fun p hp => ?_
      obtain ⟨hp, hne⟩ := List.mem_filter.1 hp
      have hne : p.1 ≠ port := of_decide_eq_true hne
      refine ⟨hp, fun j hj => hj ▸ hg _ hfind p hp hne, fun j hid _ hj => hne ?_⟩
      rw [← hid, hj, hk.id_eq]
  | releaseByOwner pid =>
    refine h.emptied (fun j => s.table.ownedBy pid j = true) rfl
      (fun j hj => if_neg hj) fun p hp => ?_
    obtain ⟨hp, hne⟩ := List.mem_filter.1 hp
    have hne : p.2 ≠ pid := of_decide_eq_true hne
    refine ⟨hp, fun j hj => hg j hj p hp hne, fun j _ howner hj => hne ?_⟩
    rw [ownedBy, Bool.and_eq_true, decide_eq_true_iff] at hj
    exact howner.symm.trans hj.2
  | send => exact h.samePorts (samePorts_send _ _ _)
  | recv => exact h.samePorts (samePorts_recv _ _)
  | recvAs => exact h.samePorts (samePorts_recvAs _ _ _)

/-- **In every run in which no id in use is given out and no bucket on the way to another live port
is emptied, every live port is found in a bucket with its id and its owner.** -/
theorem reachable_run {s : Ports} (h : Run step Unbroken boot s) : s.Reachable := by
  refine Found.reachable (h.invariant found_boot fun s call s' hi hg hs => ?_)
  cases hs
  exact hi.next hg

/-! ### Ids are not shared -/

/-- No id was given out while a bucket held it, and no two ports share one. -/
def Distinct (s : Ports) : Prop :=
  s.reused = false ∧ ∀ i j, (s.table.buckets i).isFree = false →
    (s.table.buckets i).id = (s.table.buckets j).id → i = j

/-- When `create` comes to an id, fewer than 65536 ids were tried since the one of any port in the
table. -/
def InTime (s : Ports) : PortCall → Prop
  | .create _ => ∀ j, (s.table.buckets j).isFree = false →
    s.tries + skipped maxPorts s.table < s.born j + maxPorts
  | _ => True

/-- Ids are given out in the order of the tries. -/
structure Counted (s : Ports) : Prop where
  next_eq : s.table.nextId = s.tries % maxPorts
  id_eq : ∀ j, (s.table.buckets j).isFree = false →
    (s.table.buckets j).id = s.born j % maxPorts ∧ s.born j < s.tries
  distinct : s.Distinct

theorem counted_boot : boot.Counted := by
  have hfree : ∀ j, ¬(boot.table.buckets j).isFree = false := fun j => by
    change ¬PortEntry.empty.isFree = false
    decide
  exact ⟨rfl, fun j hj => absurd hj (hfree j), rfl, fun i _ hi _ => absurd hi (hfree i)⟩

theorem Counted.samePorts (h : s.Counted) (ht : s.table.SamePorts t) :
    ({ s with table := t }).Counted := by
  refine ⟨ht.next.trans h.next_eq, fun j hj => ?_, h.distinct.1, fun i j hi hij => ?_⟩
  · rw [ht.isFree] at hj
    rw [ht.id]
    exact h.id_eq j hj
  · rw [ht.isFree] at hi
    rw [ht.id, ht.id] at hij
    exact h.distinct.2 i j hi hij

/-- Emptying buckets makes no id shared. -/
theorem Counted.emptied (h : s.Counted) {live : List (ℕ × ℕ)} (hnext : t.nextId = s.table.nextId)
    (hbuckets : ∀ j, t.buckets j = .empty ∨ t.buckets j = s.table.buckets j) :
    ({ s with table := t, live := live }).Counted := by
  have hkept : ∀ j, (t.buckets j).isFree = false → t.buckets j = s.table.buckets j := by
    intro j hj
    refine (hbuckets j).resolve_left fun hempty => ?_
    rw [hempty] at hj
    exact absurd hj (by decide)
  refine ⟨hnext.trans h.next_eq, fun j hj => ?_, h.distinct.1, fun i j hi hij => ?_⟩
  · have hsame := hkept j hj
    rw [hsame] at hj ⊢
    exact h.id_eq j hj
  · -- the other bucket has the same id, so it is taken as well
    have hj : (t.buckets j).isFree = false := by
      rw [PortEntry.isFree, ← hij]
      exact hi
    have hsame := hkept i hi
    rw [hkept j hj] at hij
    rw [hsame] at hi hij
    exact h.distinct.2 i j hi hij

theorem mod_ne_of_lt {a b : ℕ} (hab : a < b) (hb : b < a + n) : b % n ≠ a % n := by
  intro heq
  have hdvd : n ∣ b - a := dvd_of_mod_eq_zero (sub_mod_eq_zero_of_mod_eq heq)
  have hle := le_of_dvd (by omega) hdvd
  omega

/-- In time, `alloc` comes to an id that no bucket holds. -/
theorem Counted.allocId_ne (h : s.Counted) (hg : s.InTime (.create pid))
    (j : Fin liveBuckets) : (s.table.buckets j).id ≠ s.table.allocId := by
  cases hfree : (s.table.buckets j).isFree with
  | true =>
    have hid : (s.table.buckets j).id = emptyId := of_decide_eq_true hfree
    have hlt := allocId_lt s.table
    intro heq
    rw [← heq, hid] at hlt
    exact absurd hlt (by decide)
  | false =>
    obtain ⟨hid, hborn⟩ := h.id_eq j hfree
    have hnew : s.table.allocId = (s.tries + skipped maxPorts s.table) % maxPorts := by
      rw [allocId, h.next_eq, mod_add_mod]
    rw [hid, hnew]
    exact (mod_ne_of_lt (by omega) (hg j hfree)).symm

theorem Counted.create (h : s.Counted) (hg : s.InTime (.create pid)) :
    (s.next (.create pid)).Counted := by
  have hlt : s.table.nextId < maxPorts := h.next_eq ▸ Nat.mod_lt _ (by decide)
  have hnew : s.table.allocId = (s.tries + skipped maxPorts s.table) % maxPorts := by
    rw [allocId, h.next_eq, Nat.mod_add_mod]
  have hne := h.allocId_ne hg
  obtain ⟨k, hk, halloc⟩ | halloc := alloc_gives pid hlt
  · simp only [next, halloc]
    have hself := give_self ⟨s.table.buckets, s.table.allocId⟩ (bucketAt s.table.allocId k)
      s.table.allocId pid
    have hother : ∀ j, j ≠ bucketAt s.table.allocId k →
        (give ⟨s.table.buckets, s.table.allocId⟩ (bucketAt s.table.allocId k)
          s.table.allocId pid).buckets j = s.table.buckets j :=
      fun j hj => give_of_ne hj
    refine ⟨?_, fun j hj => ?_, ?_, fun i j hi hij => ?_⟩
    · rw [give, hnew, Nat.mod_add_mod]
    · by_cases hjk : j = bucketAt s.table.allocId k
      · simp only [hjk, hself, update_self]
        exact ⟨hnew, by omega⟩
      · simp only [hother j hjk] at hj
        simp only [hother j hjk, update_of_ne hjk]
        obtain ⟨hid, hborn⟩ := h.id_eq j hj
        exact ⟨hid, by omega⟩
    · simp [h.distinct.1, hne]
    · simp only at hi hij
      by_cases hik : i = bucketAt s.table.allocId k
      · by_cases hjk : j = bucketAt s.table.allocId k
        · rw [hik, hjk]
        · rw [hik, hself, hother j hjk] at hij
          exact absurd hij.symm (hne j)
      · rw [hother i hik] at hi hij
        by_cases hjk : j = bucketAt s.table.allocId k
        · rw [hjk, hself] at hij
          exact absurd hij (hne i)
        · rw [hother j hjk] at hij
          exact h.distinct.2 i j hi hij
  · simp only [next, halloc]
    refine ⟨hnew, fun j hj => ?_, h.distinct⟩
    obtain ⟨hid, hborn⟩ := h.id_eq j hj
    exact ⟨hid, Nat.lt_add_right _ hborn⟩

theorem Counted.next (h : s.Counted) {call : PortCall} (hg : s.InTime call) :
    (s.next call).Counted := by
  cases call with
  | create => exact h.create hg
  | close port =>
    obtain ⟨-, hafter⟩ | ⟨idx, -, hafter⟩ := after_close ..
    · exact h.emptied (by rw [hafter]) fun j => .inr (by rw [hafter])
    · refine h.emptied (by rw [hafter]; rfl) fun j => ?_
      rw [hafter]
      by_cases hj : j = idx
      · exact .inl (hj ▸ set_self ..)
      · exact .inr (set_of_ne hj)
  | releaseByOwner pid =>
    refine h.emptied rfl fun j => ?_
    by_cases hj : s.table.ownedBy pid j = true
    · exact .inl (if_pos hj)
    · exact .inr (if_neg hj)
  | send => exact h.samePorts (samePorts_send _ _ _)
  | recv => exact h.samePorts (samePorts_recv _ _)
  | recvAs => exact h.samePorts (samePorts_recvAs _ _ _)

/-- **In every run in which each port is closed before 65536 more ids were tried, no id is given out
that a bucket holds, and no two ports share one.** -/
theorem distinct_run {s : Ports} (h : Run step InTime boot s) : s.Distinct := by
  refine Counted.distinct (h.invariant counted_boot fun s call s' hi hg hs => ?_)
  cases hs
  exact hi.next hg

/-! ### Histories -/

/-- The state after a port is given out. -/
def created (s : Ports) (k pid : ℕ) : Ports where
  table := s.table.give (bucketAt s.table.nextId k) s.table.nextId pid
  live := (s.table.nextId, pid) :: s.live
  tries := s.tries + 1
  born := Function.update s.born (bucketAt s.table.nextId k) s.tries
  reused := s.reused || decide (∃ j, (s.table.buckets j).id = s.table.nextId)

theorem step_create {k : ℕ} (hk : FirstFree s.table.buckets s.table.nextId k)
    (pid : ℕ) : s.step (.create pid) = some (s.created k pid) := by
  simp only [step, next, alloc_of_firstFree hk, skipped_of_firstFree hk, created, add_zero]

/-- The bucket of port 0. -/
def home : Fin liveBuckets := bucketAt 0 0

/-- The table with port 0 alone, which belongs to task 1, and `n` as the next id. -/
def kept (n : ℕ) : PortTable := ⟨Function.update (fun _ => .empty) home (.allot .empty 0 1), n⟩

theorem kept_home (n : ℕ) : (kept n).buckets home = .allot .empty 0 1 := by
  simp [kept]

theorem kept_of_ne (n : ℕ) {j : Fin liveBuckets} (h : j ≠ home) : (kept n).buckets j = .empty := by
  simp [kept, h]

theorem bucketAt_eq_home {i : ℕ} : bucketAt n i = home ↔ (n % 4096 + i) % 4096 = 0 := by
  rw [home, Fin.ext_iff]
  rfl

/-- The bucket the next port goes to: its own, or the one after that if port 0 is there. -/
def turn (n : ℕ) : ℕ := if n % 4096 = 0 then 1 else 0

theorem turn_ne_home (n : ℕ) : bucketAt n (turn n) ≠ home := by
  rw [Ne, bucketAt_eq_home, turn]
  split <;> omega

theorem firstFree_kept (n : ℕ) : FirstFree (kept n).buckets n (turn n) := by
  refine ⟨?_, fun i hi => ?_, ?_⟩
  · unfold turn
    split <;> decide
  · have hhome : bucketAt n i = home := by
      rw [bucketAt_eq_home]
      unfold turn at hi
      split at hi <;> omega
    rw [hhome, kept_home]
    decide
  · rw [kept_of_ne n (turn_ne_home n)]
    decide

theorem kept_id_ne (h0 : n ≠ 0) (hn : n < maxPorts) (j : Fin liveBuckets) :
    ((kept n).buckets j).id ≠ n := by
  by_cases hj : j = home
  · rw [hj, kept_home]
    exact h0.symm
  · rw [kept_of_ne n hj]
    intro heq
    rw [← heq] at hn
    exact absurd hn (by decide)

theorem firstFree_boot : FirstFree boot.table.buckets boot.table.nextId 0 :=
  ⟨by decide, nofun, by decide⟩

/-- Task 1 has created port 0. -/
def first : Ports := boot.created 0 1

theorem step_boot_create : boot.step (.create 1) = some first := step_create firstFree_boot 1

/-- A port is given out while port 0 is there. -/
theorem step_kept (h : s.table = kept n) (pid : ℕ) : ∃ s', s.step (.create pid) = some s' ∧
    s'.table = (kept n).give (bucketAt n (turn n)) n pid ∧ s'.live = (n, pid) :: s.live ∧
    s'.reused = (s.reused || decide (∃ j, ((kept n).buckets j).id = n)) := by
  have hk : FirstFree s.table.buckets s.table.nextId (turn n) := h ▸ firstFree_kept n
  refine ⟨_, step_create hk pid, ?_⟩
  simp only [created, h]
  exact ⟨rfl, rfl, rfl⟩

/-- Another port is created and closed again: only the next id has changed. -/
theorem create_close (h0 : n ≠ 0) (hn : n < maxPorts) (htable : s.table = kept n)
    (hlive : s.live = [(0, 1)]) :
    ∃ s', Reach step s s' ∧ s'.table = kept ((n + 1) % maxPorts) ∧ s'.live = [(0, 1)] := by
  obtain ⟨s₁, hcreate, htable', hlive', -⟩ := step_kept htable 1
  -- the new port is found, so its bucket is the one emptied
  have hfind := (leads_give (firstFree_kept n) hn (kept_id_ne h0 hn) 1).find
  refine ⟨_, (Run.single trivial hcreate).tail (l := .close n) trivial rfl, ?_, ?_⟩
  · rw [next_table, htable', after, close, hfind]
    simp only [PortTable.set, give, update_idem]
    rw [update_eq_self_iff.2 (kept_of_ne n (turn_ne_home n)).symm]
    rfl
  · simp [next, hlive', hlive, Ne.symm h0]

/-- Port 0 stays while the next id goes round. -/
theorem exists_kept (h0 : n ≠ 0) (hn : n ≤ maxPorts) :
    ∃ s, Reach step boot s ∧ s.table = kept (n % maxPorts) ∧ s.live = [(0, 1)] := by
  induction n with
  | zero => exact absurd rfl h0
  | succ n ih =>
    by_cases hn0 : n = 0
    · subst hn0
      exact ⟨first, Run.single trivial step_boot_create, rfl, rfl⟩
    · obtain ⟨s, hs, htable, hlive⟩ := ih hn0 (by omega)
      rw [mod_eq_of_lt (by omega)] at htable
      obtain ⟨s', hs', htable', hlive'⟩ := create_close hn0 (by omega) htable hlive
      exact ⟨s', hs.trans hs', htable', hlive'⟩

/-- Task 2 has created port 1 after that. -/
def second : Ports := first.created 0 2

theorem step_first_create : first.step (.create 2) = some second := step_create (firstFree_kept 1) 2

theorem unbroken_create {k : ℕ} (hlt : s.table.nextId < maxPorts)
    (hk : FirstFree s.table.buckets s.table.nextId k)
    (hnew : ∀ j, (s.table.buckets j).id ≠ s.table.nextId) (pid : ℕ) : s.Unbroken (.create pid) := by
  rintro id ⟨n, rfl, -, htaken⟩ j
  have hn : n = 0 := by
    by_contra hn
    have hfree := htaken 0 (pos_of_ne_zero hn) k hk.lt
    rw [add_zero, mod_eq_of_lt hlt, hk.free] at hfree
    cases hfree
  rw [hn, add_zero, mod_eq_of_lt hlt]
  exact hnew j

/-- Two ports are created, and the first is closed. -/
theorem reachable_run_closed : ∃ s, Run step Unbroken boot s ∧ s.live = [(1, 2)] ∧ s.Reachable := by
  have hboot : boot.Unbroken (.create 1) :=
    unbroken_create (by decide) firstFree_boot (fun _ => (by decide : PortEntry.empty.id ≠ 0)) 1
  have hfirst : first.Unbroken (.create 2) :=
    unbroken_create (by decide) (firstFree_kept 1) (kept_id_ne (by decide) (by decide)) 2
  have hsecond : second.Unbroken (.close 0) := by
    intro idx _ p hp hne
    -- port 1 is in the first of its buckets, so there is nothing on the way to it
    rintro ⟨k, hk, i, hik, -⟩
    have hp : p.1 = 1 := by
      simp only [second, created, first, List.mem_cons] at hp
      obtain rfl | rfl | hp := hp
      · rfl
      · exact absurd rfl hne
      · cases hp
    have hhere := (hk.past 0 (by omega)).2
    rw [hp, second, created] at hhere
    exact hhere (congrArg PortEntry.id (give_self ..))
  have hrun := ((Run.refl.tail hboot step_boot_create).tail hfirst step_first_create).tail
    hsecond rfl
  exact ⟨_, hrun, rfl, reachable_run hrun⟩

/-- Two ports are created. -/
theorem distinct_run_second :
    ∃ s, Run step InTime boot s ∧ s.live = [(1, 2), (0, 1)] ∧ s.Distinct := by
  have hboot : boot.InTime (.create 1) := fun j hj =>
    absurd hj (by change ¬PortEntry.empty.isFree = false; decide)
  have hfirst : first.InTime (.create 2) := by
    intro j _
    have hskip : skipped maxPorts first.table = 0 := skipped_of_firstFree (firstFree_kept 1)
    have htries : first.tries = 1 := rfl
    rw [hskip, htries, maxPorts]
    omega
  have hrun := (Run.refl.tail hboot step_boot_create).tail hfirst step_first_create
  exact ⟨_, hrun, rfl, distinct_run hrun⟩

/-- **A live port that is not found.**  Port 4096 goes to the bucket after port 0's; once port 0 is
closed, the search for port 4096 stops at the bucket it leaves. -/
theorem port_lost : ∃ s, Reach step boot s ∧ (4096, 1) ∈ s.live ∧ s.table.find 4096 = none := by
  obtain ⟨s, hs, htable, hlive⟩ := exists_kept (n := 4096) (by decide) (by decide)
  have hk : FirstFree s.table.buckets s.table.nextId (turn 4096) := htable ▸ firstFree_kept 4096
  have hnext : s.table.nextId = 4096 := by rw [htable]; rfl
  have htable' : (s.created (turn 4096) 1).table =
      (kept 4096).give (bucketAt 4096 (turn 4096)) 4096 1 := by
    rw [created, hnext, htable]
    rfl
  have hhome : ((kept 4096).give (bucketAt 4096 (turn 4096)) 4096 1).buckets home =
      .allot .empty 0 1 := by
    rw [give_of_ne (turn_ne_home 4096).symm, kept_home]
  have hzero : ((kept 4096).give (bucketAt 4096 (turn 4096)) 4096 1).Leads 0 0 :=
    ⟨by decide, nofun, by rw [← home, hhome]; decide, by rw [← home, hhome]; rfl⟩
  refine ⟨_, (hs.tail trivial (step_create hk 1)).tail (l := .close 0) trivial rfl, ?_, ?_⟩
  · simp [next, created, hnext, hlive]
  · rw [next_table, htable', after, close, hzero.find, find]
    -- the first bucket tried is the one just emptied
    have hfree : (((((kept 4096).give (bucketAt 4096 (turn 4096)) 4096 1).set
        (bucketAt 0 0) .empty).buckets (bucketAt 4096 0)).isFree) = true := by
      rw [show bucketAt 4096 0 = bucketAt 0 0 from rfl, set_self]
      decide
    exact if_pos hfree

/-- **Two ports with one id.**  After 65535 more ids, id 0 is given out again while port 0 is still
there. -/
theorem id_shared :
    ∃ s, Reach step boot s ∧ s.reused = true ∧ ∃ i j, i ≠ j ∧
      (s.table.buckets i).id = 0 ∧ (s.table.buckets j).id = 0 := by
  obtain ⟨s, hs, htable, hlive⟩ := exists_kept (by decide) le_rfl
  have hk : FirstFree s.table.buckets s.table.nextId (turn 0) := htable ▸ firstFree_kept 0
  have hnext : s.table.nextId = 0 := by rw [htable]; rfl
  have htable' : (s.created (turn 0) 2).table = (kept 0).give (bucketAt 0 (turn 0)) 0 2 := by
    rw [created, hnext, htable]
    rfl
  refine ⟨_, hs.tail trivial (step_create hk 2), ?_, home, bucketAt 0 (turn 0),
    (turn_ne_home 0).symm, ?_, ?_⟩
  · have hheld : ∃ j, (s.table.buckets j).id = s.table.nextId := ⟨home, by
      rw [hnext, htable]
      exact congrArg PortEntry.id (kept_home 0)⟩
    simp [created, hheld]
  · rw [htable', give_of_ne (turn_ne_home 0).symm, kept_home]
    rfl
  · rw [htable', give_self]
    rfl

end Ports

end Cyanos
