import Cyanos.Lib.Heap
import Cyanos.Mm.Host
import Cyanos.Mm.RegionUpkeep

/-!
# Memory with a record of what is written

`Watched` is the machine `Host` with a list of the ranges of physical memory that were written.
Page tables are still not part of the memory, so the list has what the kernel writes itself.

`Watched.Contained w w'` says that everything written between two states is in blocks that were
allocated between them.
-/

namespace Cyanos

open Lib Machine MemMachine AddressSpace List

/-- Memory with the ranges that were written, the latest first. -/
structure Watched extends Host where
  /-- The ranges. -/
  writes : List Extent

/-- The block behind an eager region. -/
def VmaRegion.block (r : VmaRegion) : Block := ⟨r.phys, pagesToOrder r.pages⟩

/-- The block behind the region is one of these, inside the address space. -/
def VmaRegion.BackedBy (bs : List Block) (r : VmaRegion) : Prop :=
  r.block ∈ bs ∧ r.phys + r.block.size pageSize ≤ 2 ^ 64

namespace Watched

/-- Record a range. -/
def wrote (w : Watched) (addr n : ℕ) (h : Host) : Watched := ⟨h, ⟨addr, n⟩ :: w.writes⟩

instance : Machine Watched where
  buddyAlloc w order := (buddyAlloc w.toHost order).map fun (r, h) => (r, { w with toHost := h })
  buddyFree w addr order := (buddyFree w.toHost addr order).map fun h => { w with toHost := h }
  zeroBytes w addr n := w.wrote addr n (zeroBytes w.toHost addr n)
  mapPage w root va phys flags :=
    let (ok, h) := mapPage w.toHost root va phys flags
    (ok, { w with toHost := h })
  unmapPage w root va := { w with toHost := unmapPage w.toHost root va }

instance : MemMachine Watched where
  copyBytes w src dst n := w.wrote dst n (copyBytes w.toHost src dst n)
  writeBytes w addr bytes := w.wrote addr bytes.length (writeBytes w.toHost addr bytes)
  allocPageTableRoot w :=
    let (a, h) := allocPageTableRoot w.toHost
    (a, if a = 0 then { w with toHost := h } else w.wrote a pageSize h)

instance : FileMachine Watched where
  vfsLseek w fd off :=
    let (r, h) := FileMachine.vfsLseek w.toHost fd off
    (r, { w with toHost := h })
  vfsRead w fd addr n :=
    let (r, h) := FileMachine.vfsRead w.toHost fd addr n
    (r, w.wrote addr n h)

instance : KernelMachine Watched where

/-- Since the state `w` the blocks `bs` were allocated, and everything written is in them. -/
structure Since (w : Watched) (bs : List Block) (w' : Watched) : Prop where
  allocs : allocs w'.log = bs ++ allocs w.log
  writes : ∃ ws, w'.writes = ws ++ w.writes ∧
    ∀ e ∈ ws, ∀ x, e.addr ≤ x → x < e.addr + e.size → ∃ b ∈ bs, b.Has pageSize x

/-- Everything written between the two states is in blocks allocated between them. -/
def Contained (w w' : Watched) : Prop := ∃ bs, w.Since bs w'

/-! ### What the operations do -/

variable {w w' : Watched} {root va virt phys order n i : ℕ} {flags : PageFlags}

theorem buddyAlloc_toHost {res : Option ℕ} (h : buddyAlloc w order = some (res, w')) :
    buddyAlloc w.toHost order = some (res, w'.toHost) ∧ w'.writes = w.writes := by
  obtain ⟨⟨res₁, h1⟩, hh, h⟩ := Option.map_eq_some_iff.1 h
  cases h
  exact ⟨hh, rfl⟩

theorem buddyFree_toHost {addr : ℕ} (h : buddyFree w addr order = some w') :
    buddyFree w.toHost addr order = some w'.toHost ∧ w'.writes = w.writes := by
  obtain ⟨h1, hh, rfl⟩ := Option.map_eq_some_iff.1 h
  exact ⟨hh, rfl⟩

theorem mapPages_toHost {res : Option ℕ} (h : mapPages root virt phys flags n i w = (res, w')) :
    mapPages root virt phys flags n i w.toHost = (res, w'.toHost) ∧ w'.writes = w.writes := by
  induction n generalizing i w with
  | zero =>
    cases h
    exact ⟨rfl, rfl⟩
  | succ n ih =>
    rw [mapPages] at h ⊢
    have hmap : ∀ va p, mapPage w root va p flags = ((mapPage w.toHost root va p flags).1,
        { w with toHost := (mapPage w.toHost root va p flags).2 }) := fun _ _ => rfl
    rw [hmap] at h
    generalize mapPage w.toHost root _ _ flags = page at h ⊢
    obtain ⟨ok, f⟩ := page
    cases ok with
    | true => exact ih h
    | false =>
      cases h
      exact ⟨rfl, rfl⟩

theorem mapPages_log {res : Option ℕ} (h : mapPages root virt phys flags n i w = (res, w')) :
    w'.log = w.log ∧ w'.writes = w.writes := by
  obtain ⟨hhost, hwrites⟩ := mapPages_toHost h
  exact ⟨(Frames.mapPages_spec (Host.mapPages_toFrames hhost)).1, hwrites⟩

theorem unmapPages_log :
    (unmapPages w root virt n).log = w.log ∧ (unmapPages w root virt n).writes = w.writes := by
  induction n with
  | zero => exact ⟨rfl, rfl⟩
  | succ n ih =>
    rw [unmapPages_succ]
    exact ih

/-- **What `map` allocates and writes**: nothing, or one block, whose pages are zeroed. -/
theorem map_outcome {s s' : AddressSpace} {size : ℕ} {ok : Bool}
    (h : s.map w virt size flags = some (ok, s', w')) :
    (ok = false ∧ s' = s ∧ allocs w'.log = allocs w.log ∧ w'.writes = w.writes) ∨
    ∃ slot v n phys, s.place virt size = some (slot, v, n) ∧
      Fresh pageSize w.log ⟨phys, pagesToOrder n⟩ ∧
      allocs w'.log = ⟨phys, pagesToOrder n⟩ :: allocs w.log ∧
      w'.writes = ⟨phys, n * pageSize⟩ :: w.writes ∧
      ((ok = true ∧ s' = s.setRegion slot (eagerRegion v n phys flags)) ∨
        (ok = false ∧ s' = s)) := by
  rcases map_cases h with ⟨hok, hs, rfl | ⟨order, hnone⟩⟩ |
    ⟨slot, v, n, phys, w₁, hplace, halloc, hcase⟩
  · exact .inl ⟨hok, hs, rfl, rfl⟩
  · obtain ⟨hhost, hwrites⟩ := buddyAlloc_toHost hnone
    have hw := Frames.buddyAlloc_none (Host.buddyAlloc_toFrames hhost).1
    refine .inl ⟨hok, hs, ?_, hwrites⟩
    rw [hw]
    rfl
  · obtain ⟨hhost, hwrites⟩ := buddyAlloc_toHost halloc
    obtain ⟨-, hfresh, hlog, -⟩ := Frames.buddyAlloc_some (Host.buddyAlloc_toFrames hhost).1
    have hallocs : allocs (zeroBytes w₁ phys (n * pageSize)).log =
        ⟨phys, pagesToOrder n⟩ :: allocs w.log := congrArg allocs hlog
    have hzero : (zeroBytes w₁ phys (n * pageSize)).writes = ⟨phys, n * pageSize⟩ :: w.writes :=
      congrArg (cons _) hwrites
    refine .inr ⟨slot, v, n, phys, hplace, hfresh, ?_⟩
    rcases hcase with ⟨hpages, hok, hs⟩ | ⟨i, w₂, hpages, hfree, hok, hs⟩
    · obtain ⟨hlog2, hwrites2⟩ := mapPages_log hpages
      exact ⟨hlog2 ▸ hallocs, hwrites2.trans hzero, .inl ⟨hok, hs⟩⟩
    · obtain ⟨hlog2, hwrites2⟩ := mapPages_log hpages
      obtain ⟨hhost, hwrites3⟩ := buddyFree_toHost hfree
      refine ⟨?_, hwrites3.trans (unmapPages_log.2.trans (hwrites2.trans hzero)), .inr ⟨hok, hs⟩⟩
      rw [Host.buddyFree_log hhost]
      exact (congrArg allocs (unmapPages_log.1.trans hlog2)).trans hallocs

/-! ### What is written where -/

namespace Since

variable {w₀ : Watched} {bs : List Block}

theorem refl (w : Watched) : w.Since [] w := ⟨rfl, [], rfl, fun _ he => absurd he not_mem_nil⟩

/-- A write into the blocks. -/
theorem write (h : w₀.Since bs w) (addr : ℕ) (bytes : List UInt8)
    (hin : ∀ x, addr ≤ x → x < addr + bytes.length → ∃ b ∈ bs, b.Has pageSize x) :
    w₀.Since bs (writeBytes w addr bytes) := by
  obtain ⟨hallocs, ws, hws, hbs⟩ := h
  exact ⟨hallocs, ⟨addr, bytes.length⟩ :: ws, congrArg (cons _) hws, forall_mem_cons.2 ⟨hin, hbs⟩⟩

/-- **`map` writes only to the block it allocates.** -/
theorem map (h : w₀.Since bs w) {s s' : AddressSpace} {size : ℕ} {ok : Bool}
    (hs : s.All (VmaRegion.BackedBy bs)) (hmap : s.map w virt size flags = some (ok, s', w')) :
    ∃ bs', w₀.Since bs' w' ∧ s'.All (VmaRegion.BackedBy bs') ∧
      (ok = true → ∃ slot v n phys, s.place virt size = some (slot, v, n) ∧
        s' = s.setRegion slot (eagerRegion v n phys flags)) := by
  rcases map_outcome hmap with ⟨rfl, rfl, hallocs, hwrites⟩ |
    ⟨slot, v, n, phys, hplace, hfresh, hallocs, hwrites, hcase⟩
  · exact ⟨bs, ⟨hallocs.trans h.allocs, hwrites ▸ h.writes⟩, hs, fun h => (by cases h)⟩
  · obtain ⟨hbs, ws, hws, hin⟩ := h
    have hsince : w₀.Since (⟨phys, pagesToOrder n⟩ :: bs) w' := by
      refine ⟨by rw [hallocs, hbs]; rfl, ⟨phys, n * pageSize⟩ :: ws, by rw [hwrites, hws]; rfl, ?_⟩
      intro e he x hx hx'
      rcases mem_cons.1 he with rfl | he
      · exact ⟨_, .head _, hx, lt_of_lt_of_le hx'
          (Nat.add_le_add_left (mul_le_size (place_pages_le hplace)) _)⟩
      · obtain ⟨b, hb, hhas⟩ := hin e he x hx hx'
        exact ⟨b, mem_cons_of_mem _ hb, hhas⟩
    have hold : s.All (VmaRegion.BackedBy (⟨phys, pagesToOrder n⟩ :: bs)) := fun r hr =>
      ⟨mem_cons_of_mem _ (hs r hr).1, (hs r hr).2⟩
    refine ⟨_, hsince, ?_, ?_⟩
    · rcases hcase with ⟨-, rfl⟩ | ⟨-, rfl⟩
      · refine hold.setRegion ?_
        have hpages : (eagerRegion v n phys flags).pages = n :=
          pages_eagerRegion (place_spec hplace).2.2.2.2.1
        rw [VmaRegion.BackedBy, VmaRegion.block, hpages]
        exact ⟨(.head _), hfresh.2.1⟩
      · exact hold
    · intro hok
      rcases hcase with ⟨-, hs'⟩ | ⟨hno, -⟩
      · exact ⟨slot, v, n, phys, hplace, hs'⟩
      · rw [hok] at hno
        cases hno

end Since

end Watched

end Cyanos
