import Cyanos.Lib.Reads
import Cyanos.Mm.Host
import Cyanos.Mm.VmmSpec

/-!
# Memory as a program sees it

A program reads memory through its page table: `Host.translate` is where an address is in physical
memory, and `Host.userByte` the byte there.  `Host.map_spec` says what a program sees of a range that
`map` has mapped: zeroed pages, one after the other, in a block that was free.

Between `map` and the first instruction of the program the kernel finds the pages through the region
instead, which is the only one that covers the range (`find_setRegion`).
-/

namespace Cyanos

open Lib Machine MemMachine AddressSpace Nat

/-- All pages are mapped. -/
theorem Frames.mapPages_none {w w' : Frames} {root virt phys n i : ℕ} {flags : PageFlags}
    (hlt : virt + (i + n) * pageSize ≤ 2 ^ 64)
    (h : mapPages root virt phys flags n i w = (none, w')) :
    (∀ j, i ≤ j → j < i + n →
      w'.pt root (virt + j * pageSize) = some ⟨wadd phys (j * pageSize), flags⟩) ∧
    ∀ root' va, (root' ≠ root ∨ ∀ j, i ≤ j → j < i + n → va ≠ virt + j * pageSize) →
      w'.pt root' va = w.pt root' va := by
  induction n generalizing i w with
  | zero =>
    cases h
    exact ⟨fun j hj hj' => absurd hj' (by omega), fun _ _ _ => rfl⟩
  | succ n ih =>
    have hva : wadd virt (i * pageSize) = virt + i * pageSize := by
      have : i * pageSize + pageSize ≤ (i + (n + 1)) * pageSize := by
        rw [← succ_mul]
        exact mul_le_mul_right _ (by omega)
      exact wadd_of_lt (by unfold pageSize at *; omega)
    rw [mapPages, hva] at h
    split at h
    · next w₁ hmap =>
      have hw1 : w₁ = w.asked.setLeaf root (virt + i * pageSize)
          (some ⟨wadd phys (i * pageSize), flags⟩) := by
        simp only [mapPage] at hmap
        split at hmap
        · exact (Prod.mk.inj hmap).2.symm
        · cases hmap
      obtain ⟨hnew, hold⟩ := ih (by rwa [add_assoc, add_comm 1 n]) h
      refine ⟨fun j hj hj' => ?_, fun root' va hout => ?_⟩
      · by_cases hji : j = i
        · -- the pages after this one are elsewhere
          subst hji
          rw [hold root _ (.inr fun k hk _ heq => ?_), hw1, setLeaf_pt_same]
          have hk' : (j + 1) * pageSize ≤ k * pageSize := mul_le_mul_right _ hk
          rw [add_mul] at hk'
          have : 0 < pageSize := by decide
          omega
        · exact hnew j (by omega) (by omega)
      · rw [hold root' va, hw1]
        · refine setLeaf_pt_of_ne _ ?_
          rcases hout with hr | hva
          · exact .inl hr
          · exact .inr (hva i le_rfl (by omega))
        · rcases hout with hr | hva
          · exact .inl hr
          · exact .inr fun j hj hj' => hva j (by omega) (by omega)
    · cases h

namespace Host

variable {w w' : Host} {root v phys n va : ℕ} {flags : PageFlags}

/-- Where an address is in physical memory. -/
def translate (w : Host) (root va : ℕ) : Option ℕ :=
  (w.pt root (alignDown va pageSize)).map fun l => l.phys + va % pageSize

/-- The byte that a program reads at an address. -/
def userByte (w : Host) (root va : ℕ) : Option UInt8 := (w.translate root va).map w.mem

/-- The `n` pages from `v` on are mapped to the pages from `phys` on. -/
def Maps (w : Host) (root v phys n : ℕ) (flags : PageFlags) : Prop :=
  ∀ i < n, w.pt root (v + i * pageSize) = some ⟨phys + i * pageSize, flags⟩

section

variable (h : w.Maps root v phys n flags) (hdvd : pageSize ∣ v) (hva : v ≤ va)
  (hlt : va < v + n * pageSize)
include h hdvd hva hlt

/-- The leaf of an address in the range. -/
theorem Maps.leaf :
    ∃ p, w.pt root (alignDown va pageSize) = some ⟨p, flags⟩ ∧
      p + va % pageSize = phys + (va - v) := by
  obtain ⟨q, rfl⟩ := hdvd
  have hpage : alignDown va pageSize = pageSize * q + (va - pageSize * q) / pageSize * pageSize := by
    unfold alignDown pageSize at *
    omega
  have hidx : (va - pageSize * q) / pageSize < n := by
    unfold pageSize at *
    omega
  refine ⟨_, hpage ▸ h _ hidx, ?_⟩
  unfold pageSize at *
  omega

theorem Maps.translate : w.translate root va = some (phys + (va - v)) := by
  obtain ⟨p, hleaf, hp⟩ := h.leaf hdvd hva hlt
  rw [Host.translate, hleaf, Option.map_some, hp]

theorem Maps.userByte : w.userByte root va = some (w.mem (phys + (va - v))) := by
  rw [Host.userByte, h.translate hdvd hva hlt, Option.map_some]

end

theorem writeBytes_mem (w : Host) (addr : ℕ) (bytes : List UInt8) (x : ℕ) :
    (writeBytes w addr bytes).mem x =
      if addr ≤ x ∧ x < addr + bytes.length then bytes.getD (x - addr) 0 else w.mem x := rfl

theorem mapPages_mem {i : ℕ} {res : Option ℕ}
    (h : mapPages root v phys flags n i w = (res, w')) : w'.mem = w.mem :=
  mapPages_keeps (J := fun w' => w'.mem = w.mem) (fun _ _ _ _ h => h) h rfl

/-- **What `map` does**, if it does: the pages of a fresh block are zeroed and mapped, and nothing
else is touched. -/
theorem map_spec {s s' : AddressSpace} {virt size : ℕ}
    (h : s.map w virt size flags = some (true, s', w')) :
    ∃ slot v n phys w₁, s.place virt size = some (slot, v, n) ∧
      buddyAlloc w (pagesToOrder n) = some (some phys, w₁) ∧
      s' = s.setRegion slot (eagerRegion v n phys flags) ∧
      Fresh pageSize w.log ⟨phys, pagesToOrder n⟩ ∧
      w'.log = .alloc ⟨phys, pagesToOrder n⟩ :: w.log ∧
      w'.Maps s.pageTableRoot v phys n flags ∧
      (∀ root va, (root ≠ s.pageTableRoot ∨ va < v ∨ v + n * pageSize ≤ va) →
        w'.pt root va = w.pt root va) ∧
      ∀ x, w'.mem x = if phys ≤ x ∧ x < phys + n * pageSize then 0 else w.mem x := by
  rcases map_cases h with ⟨hok, -⟩ | ⟨slot, v, n, phys, w₁, hplace, halloc, hcase⟩
  · cases hok
  rcases hcase with ⟨hmap, -, rfl⟩ | ⟨-, -, -, -, hok, -⟩
  swap
  · cases hok
  obtain ⟨-, -, -, -, hend, -⟩ := place_spec hplace
  obtain ⟨hframes, hmem⟩ := buddyAlloc_toFrames halloc
  obtain ⟨-, hfresh, hlog, hpt, -⟩ := Frames.buddyAlloc_some hframes
  have hpages := mapPages_toFrames hmap
  obtain ⟨hnew, hold⟩ := Frames.mapPages_none (by rw [zero_add]; exact hend.le) hpages
  have hcover : n * pageSize ≤ Block.size pageSize ⟨phys, pagesToOrder n⟩ :=
    mul_le_size (place_pages_le hplace)
  refine ⟨slot, v, n, phys, w₁, hplace, halloc, rfl, hfresh, ?_, fun i hi => ?_, fun root va hout => ?_,
    fun x => ?_⟩
  · exact (Frames.mapPages_spec hpages).1.trans hlog
  · have hle : phys + Block.size pageSize ⟨phys, pagesToOrder n⟩ ≤ 2 ^ 64 := hfresh.2.1
    have hi' : (i + 1) * pageSize ≤ n * pageSize := mul_le_mul_right _ hi
    rw [add_mul] at hi'
    have hwadd : wadd phys (i * pageSize) = phys + i * pageSize :=
      wadd_of_lt (by unfold pageSize at *; omega)
    rw [hnew i (zero_le _) (by omega), hwadd]
  · rw [hold root va]
    · exact congrFun (congrFun hpt root) va
    · rcases hout with hr | hout
      · exact .inl hr
      · refine .inr fun j _ hj hva => ?_
        have hj' : (j + 1) * pageSize ≤ n * pageSize := mul_le_mul_right _ (by omega)
        rw [add_mul] at hj'
        unfold pageSize at *
        omega
  · rw [mapPages_mem hmap, ← hmem]
    rfl

end Host

end Cyanos
