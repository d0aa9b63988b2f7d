import Cyanos.Arch.X86.Tables

/-!
# Page tables refine a finite map

What a page table is for: it assigns to some pages a frame and flags.  `PageMap` is that assignment,
and `PageMap.apply` what the two functions an architecture exports are to do with it.  On both
architectures the tables in memory represent such a map, and the hardware finds what the map holds.

## Main results

* `Isa.Represents.apply` : the functions of the architectures keep the tables in step with the map.
* `Isa.hardwareWalk_run` : **after any calls the hardware finds exactly what the map holds**.
-/

namespace Cyanos

open Aarch64 Function

open Lib Aarch64 Layout

/-! ### The abstract map -/

/-- The frame and the flags of the pages that are mapped. -/
abbrev PageMap := ℕ → Option (ℕ × PageFlags)

/-- A call of `arch_map_page` or `arch_unmap_page`. -/
inductive PageOp
  | map (virt phys : ℕ) (flags : PageFlags)
  | unmap (virt : ℕ)

/-- Addresses are those of pages below `2 ^ 48`, and mappings are present. -/
def PageOp.Ok : PageOp → Prop
  | .map virt phys flags =>
    (pageSize ∣ virt ∧ virt < 2 ^ 48) ∧ (pageSize ∣ phys ∧ phys < 2 ^ 48) ∧ flags.present = true
  | .unmap virt => pageSize ∣ virt ∧ virt < 2 ^ 48

instance : DecidablePred PageOp.Ok
  | .map .. => inferInstanceAs (Decidable (_ ∧ _))
  | .unmap _ => inferInstanceAs (Decidable (_ ∧ _))

/-- What a call that returned `ok` is to do. -/
def PageMap.apply (m : PageMap) (ok : Bool) : PageOp → PageMap
  | .map virt phys flags => if ok then Function.update m virt (some (phys, flags)) else m
  | .unmap virt => Function.update m virt none

/-! ### The architectures -/

/-- The translation the AArch64 hardware finds for an address.  Rights are those of the page's own
descriptor, whose access flag has to be set. -/
def Aarch64.hardwareWalk (w : Ram) (root va : ℕ) : Option (ℕ × PageFlags) :=
  (w.walk root va).bind fun entry =>
    if entry.testBit 10 then
      some (tableAddr entry,
        { present := true
          writable := !entry.testBit 7
          user := entry.testBit 6
          execute := !entry.testBit 54
          nocache := entry.testBit 2 })
    else none

/-- The architectures with page tables. -/
inductive Isa
  | aarch64
  | x86_64
  deriving DecidableEq, Repr

namespace Isa

/-- Bits of a physical address. -/
def physBits : Isa → ℕ
  | aarch64 => 48
  | x86_64 => 52

/-- `arch_map_page(root, virt, phys, flags)`. -/
def archMapPage (isa : Isa) (w : Ram) (root virt phys : ℕ) (flags : PageFlags) : Bool × Ram :=
  match isa with
  | aarch64 => w.map4k root virt phys (Aarch64.translateFlags flags)
  | x86_64 => X86.map4k w root virt phys (X86.translateFlags flags)

/-- `arch_unmap_page(root, virt)`. -/
def archUnmapPage (isa : Isa) (w : Ram) (root virt : ℕ) : Ram :=
  match isa with
  | aarch64 => w.unmap4k root virt
  | x86_64 => X86.unmap4k w root virt

/-- The translation of an address. -/
def hardwareWalk (isa : Isa) (w : Ram) (root va : ℕ) : Option (ℕ × PageFlags) :=
  match isa with
  | aarch64 => Aarch64.hardwareWalk w root va
  | x86_64 => X86.hardwareWalk w root va

/-- A call on the tables: what it returns and leaves. -/
def apply (isa : Isa) (root : ℕ) (w : Ram) : PageOp → Bool × Ram
  | .map virt phys flags => isa.archMapPage w root virt phys flags
  | .unmap virt => (true, isa.archUnmapPage w root virt)

/-- A call on the tables, and on the map according to what it returned. -/
def step (isa : Isa) (root : ℕ) (s : Ram × PageMap) (op : PageOp) : Ram × PageMap :=
  let (ok, w) := isa.apply root s.1 op
  (w, s.2.apply ok op)

/-- The leaf entry for what the map holds. -/
def encode : Isa → Option (ℕ × PageFlags) → ℕ
  | _, none => 0
  | aarch64, some (phys, flags) => phys ||| Aarch64.translateFlags flags ||| 0b11
  | x86_64, some (phys, flags) => phys ||| X86.translateFlags flags

/-- What a leaf entry tells the hardware. -/
def decode : Isa → ℕ → Option (ℕ × PageFlags)
  | aarch64, entry =>
    if entry &&& (TABLE ||| VALID) = TABLE ||| VALID ∧ entry.testBit 10 then
      some (tableAddr entry, ⟨true, !entry.testBit 7, entry.testBit 6, !entry.testBit 54,
        entry.testBit 2⟩)
    else none
  | x86_64, entry => X86.decode entry

/-- A tree of tables in memory, with the leaf entries `ℓ`. -/
def HasLeaves (isa : Isa) (root : ℕ) (w : Ram) (ℓ : List ℕ → ℕ → ℕ) : Prop :=
  match isa with
  | aarch64 => ∃ T, Layout root T [] w ∧ Leaves fourLevel T w.mem ℓ
  | x86_64 => ∃ T, X86.Tree root ℓ T w

end Isa

/-- A frame below `2 ^ 48` and flags that say it is present. -/
def PageMap.Value (x : ℕ × PageFlags) : Prop := (pageSize ∣ x.1 ∧ x.1 < 2 ^ 48) ∧ x.2.present = true

/-- The tables represent the map. -/
structure Isa.Represents (isa : Isa) (root : ℕ) (w : Ram) (m : PageMap) : Prop where
  leaves : ∃ ℓ, isa.HasLeaves root w ℓ ∧
    ∀ va < 2 ^ 48, ℓ (tablePath va) (leafIndex va) = isa.encode (m (alignDown va pageSize))
  value : ∀ {va x}, m va = some x → PageMap.Value x

namespace Isa

variable {isa : Isa} {root va : ℕ} {w w' : Ram} {ℓ : List ℕ → ℕ → ℕ} {m : PageMap}

/-! ### Leaf entries -/

theorem aarch64_bits (f : PageFlags) :
    (translateFlags f ||| 0b11) &&& 0x0000_FFFF_FFFF_F000 = 0 ∧
      (translateFlags f ||| 0b11).testBit 10 = true ∧
      (translateFlags f ||| 0b11).testBit 7 = !f.writable ∧
      (translateFlags f ||| 0b11).testBit 6 = f.user ∧
      (translateFlags f ||| 0b11).testBit 54 = !f.execute ∧
      (translateFlags f ||| 0b11).testBit 2 = f.nocache := by
  rcases f with ⟨_ | _, _ | _, _ | _, _ | _, _ | _⟩ <;> decide

theorem x86_bits {f : PageFlags} (hf : f.present = true) :
    X86.translateFlags f &&& 0x000F_FFFF_FFFF_F000 = 0 ∧
      (X86.translateFlags f).testBit 0 = true ∧
      (X86.translateFlags f).testBit 1 = f.writable ∧
      (X86.translateFlags f).testBit 2 = f.user ∧
      (X86.translateFlags f).testBit 63 = !f.execute ∧
      (X86.translateFlags f).testBit 4 = f.nocache := by
  obtain ⟨p, writable, user, execute, nocache⟩ := f
  obtain rfl : p = true := hf
  cases writable <;> cases user <;> cases execute <;> cases nocache <;> decide

/-- The bits of an entry outside of the address are those of the flags. -/
theorem testBit_value {phys c k : ℕ} (hd : pageSize ∣ phys) (hlt : phys < 2 ^ 48)
    (hk : k < 12 ∨ 48 ≤ k) : (phys ||| c).testBit k = c.testBit k := by
  have hphys : phys.testBit k = false := by
    rcases hk with hk | hk
    · exact page_testBit hd hk
    · exact Nat.testBit_lt_two_pow (lt_of_lt_of_le hlt (Nat.pow_le_pow_right (by norm_num) hk))
  rw [Nat.testBit_or, hphys, Bool.false_or]

/-- The hardware reads back what was written. -/
theorem decode_encode {x : Option (ℕ × PageFlags)} (hx : ∀ y, x = some y → PageMap.Value y) :
    isa.decode (isa.encode x) = x := by
  rcases x with _ | ⟨phys, f⟩
  · cases isa <;> rfl
  obtain ⟨⟨hd, hlt⟩, hf⟩ := hx _ rfl
  cases isa with
  | aarch64 =>
    obtain ⟨hmask, hAF, hW, hU, hX, hC⟩ := aarch64_bits f
    have hentry : encode aarch64 (some (phys, f)) = phys ||| (translateFlags f ||| 0b11) :=
      Nat.or_assoc _ _ _
    have hvalid := lor_three_land (phys ||| translateFlags f)
    rw [Nat.or_assoc] at hvalid
    have hbit : ∀ {k}, k < 12 ∨ 48 ≤ k → (phys ||| (translateFlags f ||| 0b11)).testBit k =
        (translateFlags f ||| 0b11).testBit k := testBit_value hd hlt
    rw [hentry, decode, if_pos ⟨hvalid, by rw [hbit (by omega), hAF]⟩, hbit (by omega),
      hbit (by omega), hbit (by omega), hbit (by omega), hW, hU, hX, hC, Bool.not_not, Bool.not_not,
      tableAddr, page_lor_land hd hlt (by norm_num) (by decide) hmask, ← hf]
  | x86_64 =>
    obtain ⟨hmask, hP, hW, hU, hX, hC⟩ := x86_bits hf
    have hbit : ∀ {k}, k < 12 ∨ 48 ≤ k → (phys ||| X86.translateFlags f).testBit k =
        (X86.translateFlags f).testBit k := testBit_value hd hlt
    have hpresent : ¬ (phys ||| X86.translateFlags f) &&& X86.PRESENT = 0 := by
      rw [X86.land_present, hbit (by omega), hP]
      decide
    have hlt' : phys < 2 ^ 52 := lt_trans hlt (by norm_num)
    rw [encode, decode, X86.decode, if_neg hpresent, hbit (by omega), hbit (by omega), hbit (by omega),
      hbit (by omega), hW, hU, hX, hC, Bool.not_not, X86.physAddr,
      page_lor_land hd hlt' (by norm_num) (by decide) hmask, ← hf]

/-! ### Trees with given leaf entries -/

section

variable (h : isa.HasLeaves root w ℓ)
include h

/-- The hardware finds the leaf entry of the address. -/
theorem HasLeaves.hardwareWalk_eq :
    isa.hardwareWalk w root va = isa.decode (ℓ (tablePath va) (leafIndex va)) := by
  cases isa with
  | aarch64 =>
    obtain ⟨T, L, hℓ⟩ := h
    rw [hardwareWalk, Aarch64.hardwareWalk, L.walk_eq_leaf hℓ, decode]
    by_cases hvalid : ℓ (tablePath va) (leafIndex va) &&& (TABLE ||| VALID) = TABLE ||| VALID
    · rw [if_pos hvalid, Option.bind_some]
      simp only [hvalid, true_and]
    · rw [if_neg hvalid, if_neg fun h => hvalid h.1, Option.bind_none]
  | x86_64 =>
    obtain ⟨T, h⟩ := h
    exact h.hardwareWalk_eq

theorem HasLeaves.map {phys : ℕ} {flags : PageFlags} {ok : Bool} (hx : PageMap.Value (phys, flags))
    (hop : isa.archMapPage w root va phys flags = (ok, w')) :
    isa.HasLeaves root w'
      (if ok then setEntryOf ℓ va (isa.encode (some (phys, flags))) else ℓ) := by
  cases isa with
  | aarch64 =>
    obtain ⟨T, L, hℓ⟩ := h
    obtain ⟨T', L', hleaves⟩ := L.map4k hop
    exact ⟨T', L', hleaves ℓ hℓ⟩
  | x86_64 =>
    obtain ⟨T, h⟩ := h
    exact h.map4k hx.1.1 (x86_bits hx.2).2.1 hop

theorem HasLeaves.unmap (va : ℕ) :
    isa.HasLeaves root (isa.archUnmapPage w root va) (setEntryOf ℓ va 0) := by
  cases isa with
  | aarch64 =>
    obtain ⟨T, L, hℓ⟩ := h
    obtain ⟨L', hleaves⟩ := L.unmap4k va
    exact ⟨T, L', hleaves ℓ hℓ⟩
  | x86_64 =>
    obtain ⟨T, h⟩ := h
    exact ⟨T, h.unmap4k va⟩

end

/-- A zeroed root has no leaf entries. -/
theorem hasLeaves_root (hheld : HeldBlock pageSize w.log ⟨root, 0⟩)
    (hle : root + pageSize ≤ 2 ^ isa.physBits) (hzero : ∀ i < 512, w.mem (root + 8 * i) = 0) :
    isa.HasLeaves root w fun _ _ => 0 := by
  have hleaves : Leaves fourLevel [([], root)] w.mem fun _ _ => 0 := by
    refine ⟨fun h hlen _ => ?_, fun h => absurd rfl h⟩
    rw [(Prod.mk.inj (List.mem_singleton.1 h)).1] at hlen
    cases hlen
  cases isa with
  | aarch64 =>
    refine ⟨_, ⟨Radix.root_only hheld hzero, fun h => ?_⟩, hleaves⟩
    rw [(Prod.mk.inj (List.mem_singleton.1 h)).2]
    exact hle
  | x86_64 => exact ⟨_, Radix.root_only hheld hzero, hleaves⟩

/-! ### The refinement -/

/-- Writing the entry of a page is an update of the map at this page. -/
theorem encodes_update {x : Option (ℕ × PageFlags)} (hd : pageSize ∣ va) (hva : va < 2 ^ 48)
    (h : ∀ va < 2 ^ 48, ℓ (tablePath va) (leafIndex va) = isa.encode (m (alignDown va pageSize))) :
    ∀ va' < 2 ^ 48, setEntryOf ℓ va (isa.encode x) (tablePath va') (leafIndex va') =
      isa.encode (update m va x (alignDown va' pageSize)) := by
  intro va' hva'
  have hplace : (tablePath va', leafIndex va') = (tablePath va, leafIndex va) ↔
      alignDown va' pageSize = va := by
    rw [Prod.mk.injEq, place_eq_iff, alignDown]
    obtain ⟨q, rfl⟩ := hd
    simp only [pageSize] at *
    omega
  unfold setEntryOf
  by_cases hpage : alignDown va' pageSize = va
  · rw [if_pos (hplace.2 hpage), hpage, update_self]
  · rw [if_neg fun he => hpage (hplace.1 he), update_of_ne hpage, h va' hva']

section

variable (h : isa.Represents root w m)
include h

/-- **The tables stay in step with the map.** -/
theorem Represents.apply {op : PageOp} {ok : Bool} (hop : op.Ok)
    (hstep : isa.apply root w op = (ok, w')) : isa.Represents root w' (m.apply ok op) := by
  obtain ⟨⟨ℓ, hℓ, henc⟩, hval⟩ := h
  cases op with
  | map =>
    obtain ⟨⟨hd, hva⟩, hx⟩ := hop
    have hleaves := hℓ.map hx hstep
    cases ok with
    | false => exact ⟨⟨ℓ, hleaves, henc⟩, hval⟩
    | true =>
      refine ⟨⟨_, hleaves, encodes_update hd hva henc⟩, fun {va x} hm => ?_⟩
      rw [PageMap.apply, if_pos rfl, update_apply] at hm
      split_ifs at hm
      · exact Option.some.inj hm ▸ hx
      · exact hval hm
  | unmap virt =>
    cases hstep
    refine ⟨⟨_, hℓ.unmap virt, encodes_update (x := none) hop.1 hop.2 henc⟩, fun {va x} hm => ?_⟩
    rw [PageMap.apply, update_apply] at hm
    split_ifs at hm
    exact hval hm

theorem Represents.run {ops : List PageOp} (hops : ∀ op ∈ ops, op.Ok) :
    isa.Represents root (ops.foldl (isa.step root) (w, m)).1
      (ops.foldl (isa.step root) (w, m)).2 := by
  induction ops generalizing w m with
  | nil => exact h
  | cons op ops ih =>
    rcases hstep : isa.apply root w op with ⟨ok, w'⟩
    have h' := h.apply (hops op (.head _)) hstep
    rw [List.foldl_cons, step, hstep]
    exact ih h' fun op hop => hops op (.tail _ hop)

/-- The hardware finds what the map holds for the page of an address. -/
theorem Represents.hardwareWalk_eq (hva : va < 2 ^ 48) :
    isa.hardwareWalk w root va = m (alignDown va pageSize) := by
  obtain ⟨⟨ℓ, hℓ, henc⟩, hval⟩ := h
  rw [hℓ.hardwareWalk_eq, henc va hva, decode_encode fun y hy => hval hy]

end

/-- **Page tables refine a finite map.**  From a zeroed root, after any calls for pages below
`2 ^ 48`, the hardware finds exactly what the map holds: what the last successful call for the page
put there, whatever the calls for other pages did to the tables in between. -/
theorem hardwareWalk_run (isa : Isa) {root : ℕ} {w : Ram}
    (hheld : HeldBlock pageSize w.log ⟨root, 0⟩) (hle : root + pageSize ≤ 2 ^ isa.physBits)
    (hzero : ∀ i < 512, w.mem (root + 8 * i) = 0) (ops : List PageOp) (hops : ∀ op ∈ ops, op.Ok)
    {va : ℕ} (hva : va < 2 ^ 48) :
    isa.hardwareWalk (ops.foldl (isa.step root) (w, fun _ => none)).1 root va =
      (ops.foldl (isa.step root) (w, fun _ => none)).2 (alignDown va pageSize) := by
  have hinit : isa.Represents root w fun _ => none := by
    refine ⟨⟨_, hasLeaves_root hheld hle hzero, fun va _ => ?_⟩, nofun⟩
    cases isa <;> rfl
  exact (hinit.run hops).hardwareWalk_eq hva

/-- A zeroed root at `0x1000`, and pages for tables from `0x2000` on. -/
def zeroedRoot : Ram :=
  { mem := fun _ => 0
    log := [.alloc ⟨0x1000, 0⟩]
    tick := 0
    answer := fun tick _ => some (0x2000 + tick * pageSize)
    reply := fun _ => 0
    file := fun _ _ => 0 }

/-- A writable page next to one that may not be written to. -/
def twoPages : List PageOp :=
  [.map 0x400000 0x70000 (.ofUser false true), .map 0x401000 0x80000 (.ofUser true false)]

theorem hardwareWalk_run_twoPages :
    x86_64.hardwareWalk (twoPages.foldl (x86_64.step 0x1000) (zeroedRoot, fun _ => none)).1 0x1000
        0x400123 = some (0x70000, .ofUser false true) ∧
      aarch64.hardwareWalk (twoPages.foldl (aarch64.step 0x1000) (zeroedRoot, fun _ => none)).1 0x1000
        0x401000 = some (0x80000, .ofUser true false) := by
  have hheld : HeldBlock pageSize zeroedRoot.log ⟨0x1000, 0⟩ :=
    ⟨by decide, by decide, fun _ _ hx => pageState_alloc_of_has hx⟩
  have hzero : ∀ i < 512, zeroedRoot.mem (0x1000 + 8 * i) = 0 := fun _ _ => rfl
  have hops : ∀ op ∈ twoPages, op.Ok := by decide
  refine ⟨(hardwareWalk_run x86_64 hheld (by decide) hzero twoPages hops (by norm_num)).trans ?_,
    (hardwareWalk_run aarch64 hheld (by decide) hzero twoPages hops (by norm_num)).trans ?_⟩
  · decide +kernel
  · decide +kernel

end Isa

end Cyanos
