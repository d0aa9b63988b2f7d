import Cyanos.Lib.Ledger
import Cyanos.Mm.Holdings

/-!
# Page tables as maps, allocation as a ledger

`Frames` is the machine that the memory manager's own properties are stated over: a page table is a
map from page addresses to leaves, and the allocator gives out any fresh block, or none.  What it
gives out and whether the page-table functions succeed is up to the two oracles of the machine,
which a run may consult anew at every call.  Mapping a page that is mapped already needs no new
table, and succeeds.
-/

namespace Cyanos

open Lib Machine Block

/-- A leaf of a page table. -/
structure Leaf where
  /-- The physical page. -/
  phys : ℕ
  /-- What it was mapped with. -/
  flags : PageFlags
  deriving DecidableEq, Repr

/-- Page tables and a ledger of physical memory. -/
structure Frames where
  /-- The leaf at an address, for each root. -/
  pt : ℕ → ℕ → Option Leaf
  /-- The blocks allocated and freed. -/
  log : List Event
  /-- Counts the questions to the oracles. -/
  tick : ℕ
  /-- The block the allocator would give for an order. -/
  answer : ℕ → ℕ → Option ℕ
  /-- Whether a new page-table node can be had. -/
  mapOk : ℕ → Bool

namespace Frames

/-- No mapping and no event yet. -/
def init (answer : ℕ → ℕ → Option ℕ) (mapOk : ℕ → Bool) : Frames :=
  ⟨fun _ _ => none, [], 0, answer, mapOk⟩

/-- An allocator with one block to give out, at `0x100000`, to whoever asks first. -/
def oneBlock : Frames := init (fun t _ => if t = 0 then some 0x100000 else none) fun _ => true

/-- An allocator with one block of each order, which it gives out whenever it is free. -/
def byOrder : Frames := init (fun _ order => some (0x100000 * (order + 1))) fun _ => true

/-- The question `tick` to the allocator is not answered with the block at address `0`. -/
def NonzeroAt (w : Frames) (tick : ℕ) : Prop := ∀ order < maxOrder, w.answer tick order ≠ some 0

instance (w : Frames) (tick : ℕ) : Decidable (w.NonzeroAt tick) :=
  inferInstanceAs (Decidable (∀ _ < _, _))

/-- Change one leaf. -/
def setLeaf (w : Frames) (root va : ℕ) (l : Option Leaf) : Frames :=
  { w with pt := Function.update w.pt root (Function.update (w.pt root) va l) }

/-- Consult an oracle. -/
def asked (w : Frames) : Frames := { w with tick := w.tick + 1 }

/-- The allocator's choice, if it is fresh. -/
def choice (w : Frames) (order : ℕ) : Option ℕ :=
  (w.answer w.tick order).filter fun a => Fresh pageSize w.log ⟨a, order⟩

instance : Machine Frames where
  buddyAlloc w order :=
    if order < maxOrder then
      match w.choice order with
      | some a => some (some a, { w.asked with log := .alloc ⟨a, order⟩ :: w.log })
      | none => some (none, w.asked)
    else none
  buddyFree w addr order :=
    if order < maxOrder then some { w with log := .free ⟨addr, order⟩ :: w.log } else none
  zeroBytes w _ _ := w
  mapPage w root va phys flags :=
    if (w.pt root va).isSome ∨ w.mapOk w.tick then (true, w.asked.setLeaf root va (some ⟨phys, flags⟩))
    else (false, w.asked)
  unmapPage w root va := w.setLeaf root va none

/-! ### What the operations do -/

section Effects

variable {w w' : Frames} {root root' va virt phys order n i : ℕ} {flags : PageFlags} {l : Leaf}

theorem setLeaf_pt_same (l : Option Leaf) : (w.setLeaf root va l).pt root va = l := by
  simp [setLeaf]

theorem setLeaf_pt_of_ne {va' : ℕ} (l : Option Leaf) (h : root' ≠ root ∨ va' ≠ va) :
    (w.setLeaf root va l).pt root' va' = w.pt root' va' := by
  by_cases hr : root' = root
  · subst hr
    have hva : va' ≠ va := h.resolve_left (fun h => h rfl)
    simp [setLeaf, hva]
  · simp [setLeaf, hr]

/-- The outcomes of an allocation. -/
theorem buddyAlloc_cases {res : Option ℕ} (h : buddyAlloc w order = some (res, w')) :
    order < maxOrder ∧
      ((∃ a, res = some a ∧ w.answer w.tick order = some a ∧ Fresh pageSize w.log ⟨a, order⟩ ∧
        w' = { w.asked with log := .alloc ⟨a, order⟩ :: w.log }) ∨
      (res = none ∧ w' = w.asked)) := by
  simp only [buddyAlloc] at h
  split at h
  · next ho =>
    refine ⟨ho, ?_⟩
    split at h
    · next a ha =>
      cases h
      obtain ⟨hans, hfresh⟩ := Option.filter_eq_some_iff.1 ha
      exact .inl ⟨a, rfl, hans, of_decide_eq_true hfresh, rfl⟩
    · cases h
      exact .inr ⟨rfl, rfl⟩
  · cases h

/-- What a successful allocation does. -/
theorem buddyAlloc_some {a : ℕ} (h : buddyAlloc w order = some (some a, w')) :
    order < maxOrder ∧ Fresh pageSize w.log ⟨a, order⟩ ∧ w'.log = .alloc ⟨a, order⟩ :: w.log ∧
      w'.pt = w.pt ∧ w.answer w.tick order = some a := by
  obtain ⟨ho, ⟨b, hb, hans, hfresh, rfl⟩ | ⟨hb, -⟩⟩ := buddyAlloc_cases h
  · cases hb
    exact ⟨ho, hfresh, rfl, rfl, hans⟩
  · cases hb

theorem buddyAlloc_none (h : buddyAlloc w order = some (none, w')) : w' = w.asked := by
  obtain ⟨-, ⟨b, hb, -⟩ | ⟨-, rfl⟩⟩ := buddyAlloc_cases h
  · cases hb
  · rfl

/-- The oracles stay the same. -/
theorem oracles_of_buddyAlloc {res : Option ℕ} (h : buddyAlloc w order = some (res, w')) :
    w'.answer = w.answer ∧ w'.mapOk = w.mapOk := by
  obtain ⟨-, ⟨a, -, -, -, rfl⟩ | ⟨-, rfl⟩⟩ := buddyAlloc_cases h
  · exact ⟨rfl, rfl⟩
  · exact ⟨rfl, rfl⟩

theorem buddyFree_some {a : ℕ} (h : buddyFree w a order = some w') :
    w' = { w with log := .free ⟨a, order⟩ :: w.log } := by
  simp only [buddyFree] at h
  split at h
  · cases h; rfl
  · cases h

@[simp] theorem answer_mapPage : (mapPage w root va phys flags).2.answer = w.answer := by
  simp only [mapPage]
  split <;> rfl

theorem mapPage_log : (mapPage w root va phys flags).2.log = w.log := by
  simp only [mapPage]
  split <;> rfl

theorem mapPage_pt_of_ne (h : root' ≠ root) :
    (mapPage w root va phys flags).2.pt root' = w.pt root' := by
  simp only [mapPage]
  split
  · exact Function.update_of_ne h _ _
  · rfl

/-- What `map_page` does: a leaf after it was there before, or is the new one. -/
theorem mapPage_spec {ok : Bool} (h : mapPage w root va phys flags = (ok, w')) :
    w'.log = w.log ∧ ∀ root' va' l, w'.pt root' va' = some l → w.pt root' va' = some l ∨
      ok = true ∧ root' = root ∧ va' = va ∧ l = ⟨phys, flags⟩ := by
  simp only [mapPage] at h
  split at h
  · cases h
    refine ⟨rfl, fun root' va' l hl => ?_⟩
    by_cases hk : root' ≠ root ∨ va' ≠ va
    · rw [setLeaf_pt_of_ne _ hk] at hl
      exact .inl hl
    · obtain ⟨rfl, rfl⟩ := by simpa [not_or] using hk
      rw [setLeaf_pt_same] at hl
      exact .inr ⟨rfl, rfl, rfl, (Option.some.inj hl).symm⟩
  · cases h
    exact ⟨rfl, fun _ _ _ hl => .inl hl⟩

@[simp] theorem unmapPages_log : (unmapPages w root virt n).log = w.log := by
  induction n with
  | zero => rfl
  | succ n ih => rw [← ih, unmapPages_succ]; rfl

/-- The leaves left by `unmapPages`. -/
theorem unmapPages_pt : (unmapPages w root virt n).pt root' va = some l ↔
    w.pt root' va = some l ∧ (root' = root → ∀ i < n, va ≠ wadd virt (i * pageSize)) := by
  induction n with
  | zero => simp [unmapPages]
  | succ n ih =>
    rw [unmapPages_succ]
    change ((unmapPages w root virt n).setLeaf root (wadd virt (n * pageSize)) none).pt _ _ = _ ↔ _
    by_cases hk : root' ≠ root ∨ va ≠ wadd virt (n * pageSize)
    · rw [setLeaf_pt_of_ne _ hk, ih]
      refine and_congr_right fun _ => ⟨fun h hr i hi => ?_, fun h hr i hi => h hr i (by omega)⟩
      rcases Nat.lt_succ_iff_lt_or_eq.1 hi with hi | rfl
      · exact h hr i hi
      · exact hk.resolve_left fun h => h hr
    · obtain ⟨rfl, rfl⟩ := by simpa [not_or] using hk
      rw [setLeaf_pt_same]
      refine ⟨fun h => absurd h.symm (Option.some_ne_none l), fun h => ?_⟩
      exact absurd rfl (h.2 rfl n (Nat.lt_succ_self n))

theorem pt_of_unmapPage (h : (unmapPage w root va).pt root' virt = some l) :
    w.pt root' virt = some l := by
  by_cases hk : root' ≠ root ∨ virt ≠ va
  · rwa [unmapPage, instMachine, setLeaf_pt_of_ne _ hk] at h
  · obtain ⟨rfl, rfl⟩ := by simpa [not_or] using hk
    simp [unmapPage, setLeaf_pt_same] at h

/-- What `mapPages` does: it maps the pages up to the one that fails. -/
theorem mapPages_spec {res : Option ℕ} (h : mapPages root virt phys flags n i w = (res, w')) :
    w'.log = w.log ∧
      ∀ root' va l, w'.pt root' va = some l → w.pt root' va = some l ∨
        root' = root ∧ ∃ j, i ≤ j ∧ j < res.getD (i + n) ∧ va = wadd virt (j * pageSize) ∧
          l = ⟨wadd phys (j * pageSize), flags⟩ := by
  induction n generalizing i w with
  | zero =>
    cases h
    exact ⟨rfl, fun _ _ _ hl => .inl hl⟩
  | succ n ih =>
    rw [mapPages] at h
    split at h
    · next w₁ hmap =>
      obtain ⟨hlog1, hpt1⟩ := mapPage_spec hmap
      obtain ⟨hlog, hpt⟩ := ih h
      have hend : i + 1 + n = i + (n + 1) := by omega
      rw [hend] at hpt
      refine ⟨hlog.trans hlog1, fun root' va l hl => ?_⟩
      rcases hpt root' va l hl with hl | ⟨hr, j, hj, hj', hva, rfl⟩
      · rcases hpt1 root' va l hl with hl | ⟨-, hr, hva, rfl⟩
        · exact .inl hl
        · refine .inr ⟨hr, i, le_rfl, ?_, hva, rfl⟩
          cases res with
          | none => simp
          | some => exact (mapPages_index h).1
      · exact .inr ⟨hr, j, by omega, hj', hva, rfl⟩
    · next w₁ hmap =>
      cases h
      obtain ⟨hlog1, hpt1⟩ := mapPage_spec hmap
      exact ⟨hlog1, fun root' va l hl => .inl ((hpt1 root' va l hl).resolve_right
        fun h => absurd h.1 (by simp))⟩

end Effects

end Frames

end Cyanos
