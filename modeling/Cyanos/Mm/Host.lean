import Cyanos.Kernel.Memory
import Cyanos.Mm.Cow
import Cyanos.Mm.Frames
import Cyanos.Mm.VmmSpec

/-!
# Frames with contents

`Host` is the machine `Frames` with the bytes of physical memory and the replies of the file
server.  Page tables are still maps from page addresses to leaves; the nodes they are made of are
not part of the memory.
-/

namespace Cyanos

open Lib Machine MemMachine AddressSpace Option

/-- Page tables, the ledger of physical memory, and its contents. -/
structure Host extends Frames where
  /-- The bytes of physical memory. -/
  mem : ℕ → UInt8
  /-- What the file server replies. -/
  reply : ℕ → ℤ
  /-- The bytes the file server delivers. -/
  data : ℕ → ℕ → UInt8

/-- A machine with everything the kernel uses: the allocator, page tables, memory and files. -/
class KernelMachine (W : Type) extends FileMachine W, MemMachine W

namespace Host

/-- No mapping and no event yet. -/
def init (answer : ℕ → ℕ → Option ℕ) (mapOk : ℕ → Bool) (mem : ℕ → UInt8) (reply : ℕ → ℤ)
    (data : ℕ → ℕ → UInt8) : Host :=
  { Frames.init answer mapOk with mem := mem, reply := reply, data := data }

/-- A machine with enough memory: every block it gives out is in a mebibyte of its own. -/
def roomy : Host :=
  init (fun tick _ => some ((tick + 1) * 0x100000)) (fun _ => true) (fun _ => 0) (fun _ => 0) fun _ _ => 0

/-- The allocator gives out no block at address `0`. -/
def NeverZero (w : Host) : Prop := ∀ tick order, w.answer tick order ≠ some 0

/-- Fill the bytes of `[addr, addr + n)` from their offsets. -/
def fill (w : Host) (addr n : ℕ) (f : ℕ → UInt8) : Host :=
  { w with mem := fun x => if addr ≤ x ∧ x < addr + n then f (x - addr) else w.mem x }

/-- No leaf is under the root. -/
def emptyRoot (w : Host) (root : ℕ) : Host :=
  { w with pt := Function.update w.pt root fun _ => none }

instance : Machine Host where
  buddyAlloc w order := (buddyAlloc w.toFrames order).map fun (r, f) => (r, { w with toFrames := f })
  buddyFree w addr order := (buddyFree w.toFrames addr order).map fun f => { w with toFrames := f }
  zeroBytes w addr n := w.fill addr n fun _ => 0
  mapPage w root va phys flags :=
    let (ok, f) := mapPage w.toFrames root va phys flags
    (ok, { w with toFrames := f })
  unmapPage w root va := { w with toFrames := unmapPage w.toFrames root va }

instance : MemMachine Host where
  copyBytes w src dst n := w.fill dst n fun i => w.mem (src + i)
  writeBytes w addr bytes := w.fill addr bytes.length fun i => bytes.getD i 0
  allocPageTableRoot w :=
    match w.choice 0 with
    | some a =>
      let w := { w with toFrames := { w.asked with log := .alloc ⟨a, 0⟩ :: w.log } }
      (a, (w.fill a pageSize fun _ => 0).emptyRoot a)
    | none => (0, { w with toFrames := w.asked })

instance : FileMachine Host where
  vfsLseek w _ _ := (w.reply w.tick, { w with toFrames := w.asked })
  vfsRead w _ addr n := (w.reply w.tick, { w.fill addr n (w.data w.tick) with toFrames := w.asked })

instance : KernelMachine Host where

/-! ### What the operations do -/

section Effects

variable {w w' : Host} {root va virt phys order n i : ℕ} {flags : PageFlags}

@[simp] theorem copyBytes_toFrames (src dst : ℕ) : (copyBytes w src dst n).toFrames = w.toFrames := rfl

@[simp] theorem mapPage_toFrames : (mapPage w root va phys flags).2.toFrames =
    (mapPage w.toFrames root va phys flags).2 := rfl

@[simp] theorem unmapPage_toFrames : (unmapPage w root va).toFrames = unmapPage w.toFrames root va :=
  rfl

theorem buddyAlloc_toFrames {res : Option ℕ} (h : buddyAlloc w order = some (res, w')) :
    buddyAlloc w.toFrames order = some (res, w'.toFrames) ∧ w'.mem = w.mem := by
  obtain ⟨⟨res₁, f⟩, hf, h⟩ := map_eq_some_iff.1 h
  cases h
  exact ⟨hf, rfl⟩

theorem buddyFree_toFrames {addr : ℕ} (h : buddyFree w addr order = some w') :
    buddyFree w.toFrames addr order = some w'.toFrames ∧ w'.mem = w.mem := by
  obtain ⟨f, hf, rfl⟩ := map_eq_some_iff.1 h
  exact ⟨hf, rfl⟩

theorem unmapPages_toFrames :
    (unmapPages w root virt n).toFrames = unmapPages w.toFrames root virt n := by
  induction n with
  | zero => rfl
  | succ n ih => rw [unmapPages_succ, unmapPages_succ, unmapPage_toFrames, ih]

theorem mapPages_toFrames {res : Option ℕ} (h : mapPages root virt phys flags n i w = (res, w')) :
    mapPages root virt phys flags n i w.toFrames = (res, w'.toFrames) := by
  induction n generalizing i w with
  | zero =>
    cases h
    rfl
  | succ n ih =>
    rw [mapPages] at h ⊢
    have hmap : mapPage w root (wadd virt (i * pageSize)) (wadd phys (i * pageSize)) flags =
        ((mapPage w.toFrames root (wadd virt (i * pageSize)) (wadd phys (i * pageSize)) flags).1,
          { w with toFrames :=
            (mapPage w.toFrames root (wadd virt (i * pageSize)) (wadd phys (i * pageSize)) flags).2 }) :=
      rfl
    rw [hmap] at h
    cases hok : mapPage w.toFrames root (wadd virt (i * pageSize)) (wadd phys (i * pageSize)) flags with
    | mk ok =>
      rw [hok] at h
      cases ok with
      | true => exact ih h
      | false =>
        cases h
        rfl

/-! ### Dropping -/

theorem buddyFree_log {addr : ℕ} (h : buddyFree w addr order = some w') :
    w'.log = .free ⟨addr, order⟩ :: w.log := by
  have hf := Frames.buddyFree_some (buddyFree_toFrames h).1
  rw [hf]

theorem freeBlocks_log {bs : List Block} (h : freeBlocks w bs = some w') :
    w'.log = (bs.map Event.free).reverse ++ w.log := by
  induction bs generalizing w with
  | nil =>
    cases h
    rfl
  | cons b bs ih =>
    obtain ⟨w₁, h1, h2⟩ := bind_eq_some_iff.1 h
    rw [ih h2, buddyFree_log h1]
    simp

/-- Dropping an address space gives back what its regions hold, and the root. -/
theorem drop_log {s : AddressSpace} (h : s.drop w = some w') :
    w'.log = ((if s.pageTableRoot ≠ 0 then [Block.mk s.pageTableRoot 0] else []).map Event.free) ++
      (((blocksOf (holdings s.regions)).map Event.free).reverse ++ w.log) := by
  obtain ⟨w₁, h1, h2⟩ := bind_eq_some_iff.1 h
  rw [dropSlots_eq] at h1
  rw [← freeBlocks_log h1]
  split at h2
  · next hr => rw [if_pos hr, buddyFree_log h2]; rfl
  · next hr =>
    cases h2
    rw [if_neg hr]
    rfl

/-- The page for the root comes from the allocator. -/
theorem allocPageTableRoot_page {a : ℕ} (h : allocPageTableRoot w = (a, w')) :
    (a = 0 ∧ w'.log = w.log ∧ ∃ w₂, buddyAlloc w 0 = some (none, w₂)) ∨
    (Fresh pageSize w.log ⟨a, 0⟩ ∧ w'.log = .alloc ⟨a, 0⟩ :: w.log ∧
      ∃ w₂, buddyAlloc w 0 = some (some a, w₂)) := by
  simp only [allocPageTableRoot] at h
  simp only [buddyAlloc]
  cases hc : w.choice 0 with
  | none =>
    rw [hc] at h
    cases h
    exact .inl ⟨rfl, rfl, _, rfl⟩
  | some =>
    rw [hc] at h
    cases h
    exact .inr ⟨of_decide_eq_true (filter_eq_some_iff.1 hc).2, rfl, _, rfl⟩

end Effects

end Host

end Cyanos
