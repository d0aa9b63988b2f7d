import Cyanos.Mm.Frames
import Cyanos.Mm.Orders
import Cyanos.Mm.Space

/-!
# The break

`brk` moves the end of the heap to a page, or returns the break as it is.  A break below the start
of the heap is not refused: the region then ends before it starts.  Rounding up a break in the last
page of the address space gives `0`.

Main result: `AddressSpace.brk_run`.  In every run in which `brk` is asked for no such break, each
call meets its contract.
-/

namespace Cyanos.AddressSpace

open Lib Machine List Option

/-- The pages of the heap. -/
def heapPages (s : AddressSpace) : List ℕ := s.heap.elim [] (·.2.lazyPages)

variable {W : Type} [Machine W]

/-- The pages `fs'` of a region at `start` are those of `fs` below `b`, and the others are unmapped
and freed. -/
def CutAt (root start b : ℕ) (fs fs' : List ℕ) (w w' : W) : Prop :=
  (∀ i, fs'.getD i 0 = if start + i * pageSize < b then fs.getD i 0 else 0) ∧
    ∃ gone, (lazyHoldings start 0 fs).Perm (gone ++ lazyHoldings start 0 fs') ∧
      gone.foldlM (retire root) w = some w'

/-- The heap of `s'` is `[heap_start, b)`, with the pages below `b` that it had. -/
structure Moved (b : ℕ) (s s' : AddressSpace) (w w' : W) : Prop where
  le : s.heapStart ≤ b
  heapStart : s'.heapStart = s.heapStart
  heapEnd : s'.heapEnd = b
  region : s'.heap.map (·.2.end_) = some b
  pages : CutAt s.pageTableRoot s.heapStart b s.heapPages s'.heapPages w w'

/-- The contract of `brk(x)`, with the result `b`. -/
def MeetsBrk (x b : ℕ) (s s' : AddressSpace) (w w' : W) : Prop :=
  (b = s.currentBreak ∧ s' = s ∧ w' = w) ∨
    (b = (x + (pageSize - 1)) / pageSize * pageSize ∧ Moved b s s' w w')

/-- The heap, if there is one, is a lazy region up to the break, with pages below it only. -/
structure HeapOk (s : AddressSpace) : Prop where
  dvd : pageSize ∣ s.heapStart
  pos : 0 < s.heapStart
  heap : ∀ idx r, s.heap = some (idx, r) → r.lazy = true ∧ s.heapStart ≤ r.end_ ∧ r.end_ < 2 ^ 64 ∧
    s.heapEnd = r.end_ ∧ ∀ i, r.end_ ≤ s.heapStart + i * pageSize → r.lazyPages.getD i 0 = 0

/-- There is no heap yet, or the new break is not below its start. -/
def BreakAbove (s : AddressSpace) (x : ℕ) : Prop :=
  x < 2 ^ 64 ∧ (x = 0 ∨ s.heap = none ∨ s.heapStart ≤ alignUp x pageSize)

variable {s : AddressSpace} {w : W} {r r' : VmaRegion} {i j x : ℕ}

/-! ### The slot of the heap -/

theorem heap_setRegion (h : s.regions[j]? = some (some r)) (hr : r'.start = r.start) :
    (s.setRegion j r').heap = s.heap.map fun (i, r) => (i, if i = j then r' else r) := by
  have hslot : (s.setRegion j r').heapSlot = s.heapSlot := findIdx?_set h (by simp [hr])
  unfold heap
  rw [hslot]
  cases s.heapSlot with
  | none => rfl
  | some i =>
    obtain ⟨hlen, hget⟩ := List.getElem?_eq_some_iff.1 h
    by_cases hij : i = j
    · subst hij
      simp [setRegion, hlen, hget]
    · simp [setRegion, getElem?_set_ne (Ne.symm hij), hij, Function.comp_def]

theorem heap_create (h : s.heap = none) (hj : s.regions[j]? = some none)
    (hr : r.start = s.heapStart) : (s.setRegion j r).heap = some (j, r) := by
  have hlen := (List.getElem?_eq_some_iff.1 hj).1
  have hnone : s.heapSlot = none := by
    refine eq_none_iff_forall_ne_some.2 fun i hslot => ?_
    obtain ⟨hi, hany, -⟩ := findIdx?_eq_some_iff_getElem.1 hslot
    obtain ⟨r, hr, -⟩ := exists_of_any hany
    simp [heap, hslot, hi, hr] at h
  have hslot : (s.setRegion j r).heapSlot = some j :=
    findIdx?_set_self hnone hlen (by simp [hr, setRegion])
  rw [heap, hslot]
  simp [setRegion, hlen]

/-! ### The calls -/

theorem HeapOk.currentBreak_eq (hs : s.HeapOk) (hr : s.heap = some (i, r)) :
    s.currentBreak = r.end_ := by
  obtain ⟨-, hle, -, hend, -⟩ := hs.heap i r hr
  have := hs.pos
  rw [currentBreak, if_pos (by omega), hend]

/-- The heap after its region has become `r`. -/
theorem HeapOk.moved {w' : W} (hs : s.HeapOk) (hheap : (s.setRegion i r).heap = some (i, r))
    (hup : r.end_ = (x + (pageSize - 1)) / pageSize * pageSize) (hl : r.lazy = true)
    (hle : s.heapStart ≤ r.end_) (hlt : r.end_ < 2 ^ 64)
    (hpages : CutAt s.pageTableRoot s.heapStart r.end_ s.heapPages r.lazyPages w w') :
    MeetsBrk x r.end_ s { s.setRegion i r with heapEnd := r.end_ } w w' ∧
      HeapOk { s.setRegion i r with heapEnd := r.end_ } := by
  change AddressSpace.heap { s.setRegion i r with heapEnd := r.end_ } = _ at hheap
  have hp : heapPages { s.setRegion i r with heapEnd := r.end_ } = r.lazyPages := by
    rw [heapPages, hheap]
    rfl
  refine ⟨.inr ⟨hup, hle, rfl, rfl, by rw [hheap]; rfl, hp ▸ hpages⟩, hs.dvd, hs.pos,
    fun j r' h => ?_⟩
  cases hheap.symm.trans h
  refine ⟨hl, hle, hlt, rfl, fun k hk => ?_⟩
  exact (hpages.1 k).trans (if_neg (not_lt.2 hk))

variable [AssertsOrder W]

/-- **One call meets the contract**, and leaves a heap for the next. -/
theorem HeapOk.brk (hs : s.HeapOk) (hx : s.BreakAbove x) :
    Ends (s.brk w x) fun res => MeetsBrk x res.1 s res.2.1 w res.2.2 ∧ res.2.1.HeapOk := by
  have hsame : MeetsBrk x s.currentBreak s s w w ∧ s.HeapOk := ⟨.inl ⟨rfl, rfl, rfl⟩, hs⟩
  have hpos := hs.pos
  have hdvd := hs.dvd
  by_cases hx0 : x = 0
  · rw [AddressSpace.brk, if_pos hx0]
    exact ends_some hsame
  obtain ⟨hx, hguard⟩ := hx
  have hup : s.heapStart ≤ alignUp x pageSize →
      alignUp x pageSize = (x + (pageSize - 1)) / pageSize * pageSize := by
    -- a wrapped sum rounds to `0`
    unfold alignUp alignDown wadd pageSize
    omega
  have hnew := alignUp_lt x pageSize
  have hdnew : pageSize ∣ alignUp x pageSize := dvd_alignUp _ _
  obtain ⟨⟨b, s', w'⟩, hbrk, -⟩ := brk_returns s w x
  refine ⟨_, hbrk, ?_⟩
  change MeetsBrk x b s s' w w' ∧ s'.HeapOk
  have hcases := brk_cases hbrk
  generalize alignUp x pageSize = new at *
  rcases hcases with ⟨rfl, rfl, hb⟩ | ⟨s₁, hmap, hgt, rfl, rfl, rfl, hnone⟩ |
    ⟨idx, r, ⟨rfl, hheap⟩, hget, hstart, h⟩
  · rcases hb with rfl | ⟨-, hb⟩
    · exact hsame
    · obtain ⟨⟨idx, r⟩, hheap, rfl⟩ := map_eq_some_iff.1 hb
      exact hs.currentBreak_eq hheap ▸ hsame
  · obtain ⟨hf, -⟩ | ⟨slot, v, n, hplace, -, rfl⟩ := mapLazy_cases hmap
    · cases hf
    obtain ⟨-, hslot, hv, hn, -⟩ := place_spec hplace
    rw [alignDown_of_dvd hdvd] at hv
    have hend : v + n * pageSize = b := by
      unfold wadd pageSize at *
      omega
    have hnil : s.heapPages = [] := by rw [heapPages, hnone]; rfl
    subst hend
    exact hs.moved (r := lazyRegion v n (.ofUser true false)) (heap_create hnone hslot hv)
      (hup hgt.le) rfl hgt.le hnew
      ⟨by simp [hnil, lazyRegion], [], by rw [hnil]; exact .refl _, rfl⟩
  · obtain ⟨hl, hle, hlt, hend, hzero⟩ := hs.heap idx r hheap
    have hpages : s.heapPages = r.lazyPages := by rw [heapPages, hheap]; rfl
    have habove : s.heapStart ≤ b := (hguard.resolve_left hx0).resolve_left fun h =>
      by cases h.symm.trans hheap
    have hset (r' : VmaRegion) (hr : r'.start = r.start) :
        (s.setRegion idx r').heap = some (idx, r') := by
      rw [heap_setRegion hget hr, hheap]
      simp
    rcases h with ⟨hgt, -, rfl, rfl⟩ | ⟨fs, -, hfree, rfl⟩
    · refine hs.moved (hset { r with end_ := b } rfl) (hup habove) hl habove hnew
        ⟨fun i => ?_, [], by rw [hpages]; exact .refl _, rfl⟩
      rw [hpages]
      split
      · rfl
      · next hi => exact hzero i (not_lt.1 fun h => hi (h.trans hgt))
    · obtain ⟨rfl, hfreed⟩ := freeLazy_spec hfree
      refine hs.moved (hset { r with end_ := b, lazyPages := _ } rfl) (hup habove) hl
        habove hnew ⟨fun i => ?_, by rw [hpages, ← hstart]; exact hfreed⟩
      rw [hpages, hstart, wsub_of_le hnew habove, wsub_of_le hlt hle]
      simp only [getD_eq_getElem?_getD, getElem?_clearPages, Nat.zero_add]
      have hi : r.end_ ≤ s.heapStart + i * pageSize → r.lazyPages[i]?.getD 0 = 0 := by
        simpa only [getD_eq_getElem?_getD] using hzero i
      generalize r.lazyPages[i]? = page at hi ⊢
      cases page with
      | none => simp
      | some =>
        simp only [map_some, getD_some] at hi ⊢
        split
        · next hcut => rw [if_neg (by unfold pageSize at *; omega)]
        · next hcut =>
          split
          · rfl
          · exact hi (by unfold wadd pageSize at *; omega)

omit [AssertsOrder W] in
/-- A page fault backs a page below the break, or changes nothing. -/
theorem HeapOk.fault {s' : AddressSpace} {w' : W} {va : ℕ} {ok : Bool} (hs : s.HeapOk)
    (h : s.handleUserPageFault w va = some (ok, s', w')) : s'.HeapOk := by
  rcases handleUserPageFault_cases h with
    ⟨-, rfl, -⟩ | ⟨slot, r, phys, -, hlook, -, -, -, ⟨-, -, rfl⟩ | ⟨-, -, -, -, rfl⟩⟩
  · exact hs
  · obtain ⟨hget, hc⟩ := lookup_spec hlook
    refine ⟨hs.dvd, hs.pos, fun idx r' hheap => ?_⟩
    rw [heap_setRegion hget (by rfl)] at hheap
    obtain ⟨⟨i, r₀⟩, hheap, heq⟩ := map_eq_some_iff.1 hheap
    obtain ⟨hl, hle, hlt, hend, hzero⟩ := hs.heap i r₀ hheap
    obtain ⟨hi, hstart⟩ := heap_spec hheap
    cases heq
    split
    · next heq =>
      subst heq
      cases hi.symm.trans hget
      refine ⟨hl, hle, hlt, hend, fun k hk => ?_⟩
      change r.end_ ≤ s.heapStart + k * pageSize at hk
      have hdvd := hs.dvd
      have hne : wsub (alignDown va pageSize) r.start / pageSize ≠ k := by
        obtain ⟨h₁, h₂⟩ := hc
        unfold wsub alignDown pageSize at *
        omega
      have hk := hzero k hk
      rw [getD_eq_getElem?_getD] at hk ⊢
      rw [backPage, getElem?_set_ne hne, getElem?_append]
      split
      · exact hk
      · rw [getElem?_replicate]
        split <;> rfl
    · exact ⟨hl, hle, hlt, hend, hzero⟩
  · exact hs

/-- Page faults, and calls of `brk` for a break that is not below the start of the heap. -/
def Upward (s : Space W) : Space.Call → Prop
  | .brk x => s.as.BreakAbove x
  | .fault _ => True
  | _ => False

instance (x : ℕ) : Decidable (s.BreakAbove x) := inferInstanceAs (Decidable (_ ∧ _))

instance (s : Space W) (c : Space.Call) : Decidable (Upward s c) := by
  rcases c <;> dsimp only [Upward] <;> infer_instance

instance : AssertsOrder Frames where
  alloc w order h := by
    simp only [buddyAlloc, if_pos h]
    split <;> rfl
  free w addr order h := by simp [buddyFree, h]

/-- A process with its heap at `0x400000`. -/
def heapAt : Space Frames := .new 0x200000 0x400000 0 Frames.oneBlock

/-- A heap of three pages of which the second is touched, and then of one page, which is touched. -/
def upAndDown : List Space.Call := [.brk 0x403000, .fault 0x401000, .brk 0x401000, .fault 0x400000]

end Cyanos.AddressSpace
