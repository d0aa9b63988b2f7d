import Cyanos.Kernel.Exec

/-!
# A rule for building images

`ImageRule Q C R` collects what has to be shown of a property `R` of an address space under
construction, on a machine: that it can be established and that `map` and the writes to memory keep
it.  `Q` is what holds of the machine before and, when the address space is dropped, afterwards; `C`
restricts the ranges that are mapped.  The lemmas carry `R` through the ELF loader, `execve` and the
loading of the first process.
-/

namespace Cyanos

open Lib Machine MemMachine Option

variable {W : Type} [KernelMachine W]

/-- The rules for a property of an address space under construction. -/
structure ImageRule (Q : W → Prop) (C : ℕ → ℕ → PageFlags → Prop) (R : AddressSpace → W → Prop) :
    Prop where
  refused : ∀ {w w'}, Q w → allocPageTableRoot w = (0, w') → Q w'
  start : ∀ {w root w'}, Q w → allocPageTableRoot w = (root, w') → root ≠ 0 → R (.new root) w'
  map : ∀ {s w virt size flags ok s' w'}, C virt size flags → R s w →
    s.map w virt size flags = some (ok, s', w') → R s' w'
  write : ∀ {s w} (addr : ℕ) (bytes : List UInt8), R s w → R s (writeBytes w addr bytes)
  heap : ∀ {s w} (highest : ℕ), R s w → R (Elf.placeHeap s highest) w
  drop : ∀ {s w w'}, R s w → s.drop w = some w' → Q w'

/-- What holds after an attempt to build an image. -/
def Built {α : Type} (Q : W → Prop) (R : AddressSpace → W → Prop) (w : W) :
    Except α AddressSpace → Prop
  | .ok s => R s w
  | .error _ => Q w

namespace ImageRule

variable {Q : W → Prop} {C : ℕ → ℕ → PageFlags → Prop} {R : AddressSpace → W → Prop}
  {s s' : AddressSpace} {w w' : W} {emTarget : ℕ} {image bytes : List UInt8}
  {res : Except Elf.ElfError ℕ}

omit [KernelMachine W] in
/-- The address space and the machine are returned as they are. -/
theorem of_some {α : Type} {a b : α} (h : some (a, s, w) = some (b, s', w')) (hR : R s w) :
    R s' w' := by
  cases h
  exact hR

section

variable (U : ImageRule Q C R)
include U

theorem loadSegment {ph : Elf.Phdr} (hC : C ph.pageVaddr ph.mapSize ph.flags)
    (h : Elf.loadSegment bytes ph s w = some (res, s', w')) (hR : R s w) : R s' w' := by
  unfold Elf.loadSegment at h
  split at h
  · exact of_some h hR
  split at h
  · exact of_some h hR
  obtain ⟨⟨ok, s₁, w₁⟩, hmap, h⟩ := bind_eq_some_iff.1 h
  have hR1 := U.map hC hR hmap
  simp only at h
  split at h
  · exact of_some h hR1
  split at h
  · exact of_some h hR1
  obtain ⟨file, -, h⟩ := bind_eq_some_iff.1 h
  split at h
  all_goals exact of_some h (U.write _ _ hR1)

theorem loadSegments {eh : Elf.Ehdr} {n i highest : ℕ}
    (hC : ∀ j ph, i ≤ j → j < i + n → Elf.parsePhdr bytes (eh.ePhoff + j * eh.ePhentsize) = some (.ok ph) →
      ph.Loads → C ph.pageVaddr ph.mapSize ph.flags)
    (h : Elf.loadSegments bytes eh n i highest s w = some (res, s', w'))
    (hR : R s w) : R s' w' := by
  induction n generalizing i highest s w with
  | zero =>
    exact of_some h hR
  | succ n ih =>
    have hrest : ∀ j ph, i + 1 ≤ j → j < i + 1 + n →
        Elf.parsePhdr bytes (eh.ePhoff + j * eh.ePhentsize) = some (.ok ph) → ph.Loads →
        C ph.pageVaddr ph.mapSize ph.flags :=
      fun j ph hj hj' => hC j ph (by omega) (by omega)
    obtain ⟨_ | ph, hph, h⟩ := bind_eq_some_iff.1 h
    · exact of_some h hR
    simp only at h
    split at h
    swap
    · exact ih hrest h hR
    next hload =>
    obtain ⟨⟨res₁, s₁, w₁⟩, hseg, h⟩ := bind_eq_some_iff.1 h
    have hR1 := U.loadSegment (hC i ph le_rfl (by omega) hph hload) hseg hR
    cases res₁ with
    | error =>
      exact of_some h hR1
    | ok => exact ih hrest h hR1

theorem discard {α : Type} {errno : α} {res : Except α AddressSpace}
    (h : discard s w errno = some (res, w')) (hR : R s w) : Built Q R w' res := by
  obtain ⟨w₁, hdrop, h⟩ := bind_eq_some_iff.1 h
  cases h
  exact U.drop hR hdrop

variable (hC : ∀ ph, Elf.IsSegment emTarget image ph → C ph.pageVaddr ph.mapSize ph.flags)
include hC

/-- The ELF loader keeps the property if the segments of the image may be mapped. -/
theorem load (h : Elf.load emTarget image s w = some (res, s', w')) (hR : R s w) : R s' w' := by
  obtain ⟨_ | eh, heh, h⟩ := bind_eq_some_iff.1 h
  · exact of_some h hR
  simp only at h
  split at h
  · exact of_some h hR
  split at h
  · exact of_some h hR
  obtain ⟨⟨res₁, s₁, w₁⟩, hsegs, h⟩ := bind_eq_some_iff.1 h
  have hR1 := U.loadSegments
    (fun j ph _ hj hph hload => hC ph ⟨eh, j, heh, by omega, hph, hload⟩) hsegs hR
  cases res₁ with
  | error =>
    exact of_some h hR1
  | ok highest =>
    exact of_some h (U.heap highest hR1)

theorem buildImage {args : ExecArgs} {res : Except ℤ AddressSpace}
    (hstack : C (userStackTop - userStackSize) userStackSize (.ofUser true false))
    (h : Cyanos.buildImage emTarget image args w = some (res, w'))
    (hQ : Q w) : Built Q R w' res := by
  unfold Cyanos.buildImage at h
  split at h
  · next w₁ hroot =>
    cases h
    exact U.refused hQ hroot
  next root w₁ hne hroot =>
  obtain ⟨⟨res₁, s₁, w₂⟩, hload, h⟩ := bind_eq_some_iff.1 h
  have hR1 := U.load hC hload (U.start hQ hroot hne)
  cases res₁ with
  | error => exact U.discard h hR1
  | ok =>
    obtain ⟨⟨ok, s₂, w₃⟩, hmap, h⟩ := bind_eq_some_iff.1 h
    have hR2 := U.map hstack hR1 hmap
    simp only at h
    split at h
    · exact U.discard h hR2
    split at h
    · exact U.discard h hR2
    split at h
    · exact U.discard h hR2
    · cases h
      exact U.write _ _ hR2

theorem buildInit {res : Except Unit AddressSpace}
    (hstack : C 0x40000000 0x100000 (.ofUser true false))
    (h : Cyanos.buildInit emTarget image w = some (res, w')) (hQ : Q w) : Built Q R w' res := by
  unfold Cyanos.buildInit at h
  split at h
  · next w₁ hroot =>
    cases h
    exact U.refused hQ hroot
  next root w₁ hne hroot =>
  obtain ⟨⟨res₁, s₁, w₂⟩, hload, h⟩ := bind_eq_some_iff.1 h
  have hR1 := U.load hC hload (U.start hQ hroot hne)
  cases res₁ with
  | error => exact U.discard h hR1
  | ok =>
    simp only at h
    split at h
    · exact U.discard h hR1
    obtain ⟨⟨ok, s₂, w₃⟩, hmap, h⟩ := bind_eq_some_iff.1 h
    have hR2 := U.map hstack hR1 hmap
    split at h
    · exact U.discard h hR2
    split at h
    · exact U.discard h hR2
    split at h
    · exact U.discard h (U.write _ _ hR2)
    · cases h
      exact U.write _ _ hR2

end

end ImageRule

/-- The outcomes of `execve`. -/
theorem Kernel.sysExecve_cases {emTarget pid : ℕ} {k k' : Kernel W} {image : List UInt8}
    {args : ExecArgs} {r : ℤ} (h : k.sysExecve emTarget pid image args = some (r, k')) :
    (∃ errno w, buildImage emTarget image args k.w = some (.error errno, w) ∧ k' = { k with w := w }) ∨
    ∃ as w₁ w₂, buildImage emTarget image args k.w = some (.ok as, w₁) ∧
      dropSpace w₁ ((k.rq.findPid pid).bind Task.addressSpace) = some w₂ ∧
      k' = { k with
        rq := k.rq.modifyPid pid fun t =>
          { t with
            addressSpace := some as
            pageTable := as.pageTableRoot
            heapStart := as.heapStart
            heapEnd := as.heapStart }
        w := w₂ } := by
  obtain ⟨⟨res, w₁⟩, hb, h⟩ := bind_eq_some_iff.1 h
  cases res with
  | error errno => exact .inl ⟨errno, w₁, hb, (pair_inj h).2.symm⟩
  | ok as =>
    obtain ⟨w₂, hdrop, h⟩ := bind_eq_some_iff.1 h
    exact .inr ⟨as, w₁, w₂, hb, hdrop, (pair_inj h).2.symm⟩

end Cyanos
