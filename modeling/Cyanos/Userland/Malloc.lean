import Cyanos.Lib.Heap
import Cyanos.Lib.Run
import Cyanos.Mm.Frames
import Cyanos.Mm.VmmSpec

/-!
# The heap of the C library

`malloc`, `calloc` and `realloc` of `userland/libc/src/mem.rs`, with the kernel's `brk` below them.
An object starts behind the word with its size, at the old break.

Main result: `Heap.never_valid`.  The break is page-aligned, so that every object is eight bytes off
a multiple of 16, and the objects are never as they should be.
-/

namespace Cyanos.Libc

open Lib List Option AddressSpace

/-- A process. -/
structure Heap (W : Type) where
  as : AddressSpace
  w : W
  /-- `HEAP_PTR`. -/
  heapPtr : ℕ
  mem : ℕ → UInt8
  /-- The results other than `NULL`, with the sizes asked for. -/
  objects : List (ℕ × ℕ)

/-- What the process does: it calls the library, or writes a byte of an object. -/
inductive HeapAct
  | malloc (size : ℕ)
  | calloc (nmemb size : ℕ)
  | realloc (ptr newSize : ℕ)
  | write (a : ℕ) (v : UInt8)

namespace Heap

variable {W : Type} [Machine W]

/-- `brk(addr)`. -/
def brk (h : Heap W) (addr : ℕ) : Option (ℕ × Heap W) := do
  let (actual, as, w) ← h.as.brk h.w addr
  some (actual, { h with as := as, w := w })

/-- `heap_init()`: the break is asked for. -/
def heapInit (h : Heap W) : Option (ℕ × Heap W) := do
  let (start, h) ← h.brk 0
  some (start, { h with heapPtr := start })

/-- `malloc(size)`. -/
def malloc (h : Heap W) (size : ℕ) : Option (ℕ × Heap W) :=
  if size = 0 then some (0, h)
  else do
    let allocSize := alignDown (wadd (wadd size 8) 15) 16
    let (ptr, h) ← (if h.heapPtr = 0 then h.heapInit else some (h.heapPtr, h))
    let newPtr := wadd ptr allocSize
    let (actual, h) ← h.brk newPtr
    if actual < newPtr then some (0, h)
    else some (wadd ptr 8, { h with mem := storeWord h.mem ptr size, heapPtr := actual })

/-- `calloc(nmemb, size)`; a product that overflows is `0`. -/
def calloc (h : Heap W) (nmemb size : ℕ) : Option (ℕ × Heap W) := do
  let total := if nmemb * size < 2 ^ 64 then nmemb * size else 0
  let (p, h) ← h.malloc total
  some (p, { h with mem := if p ≠ 0 then storeBytes h.mem p (List.replicate total 0) else h.mem })

/-- `realloc(ptr, new_size)`: the old size is the word before the object. -/
def realloc (h : Heap W) (ptr newSize : ℕ) : Option (ℕ × Heap W) :=
  if ptr = 0 then h.malloc newSize
  else
    let oldSize := loadWord h.mem (wsub ptr 8)
    if newSize ≤ oldSize then some (ptr, h)
    else do
      let (newPtr, h) ← h.malloc newSize
      some (newPtr, { h with
        mem := if newPtr ≠ 0 then storeBytes h.mem newPtr (loadBytes h.mem ptr oldSize) else h.mem })

/-- Note a result; an object that was shrunk is noted anew. -/
def record (n : ℕ) (res : ℕ × Heap W) : Heap W :=
  if res.1 = 0 then res.2
  else { res.2 with objects := (res.1, n) :: res.2.objects.filter (·.1 ≠ res.1) }

/-- The process after what it does. -/
def step (h : Heap W) : HeapAct → Option (Heap W)
  | .malloc size => (h.malloc size).map (record size)
  | .calloc nmemb size => (h.calloc nmemb size).map (record (nmemb * size))
  | .realloc ptr newSize => (h.realloc ptr newSize).map (record newSize)
  | .write a v => some { h with mem := storeBytes h.mem a [v] }

/-- Objects are reallocated and written only where they are. -/
def Proper (h : Heap W) : HeapAct → Prop
  | .realloc ptr _ => ptr = 0 ∨ ∃ n, (ptr, n) ∈ h.objects
  | .write a _ => ∃ o ∈ h.objects, o.1 ≤ a ∧ a < o.1 + o.2
  | _ => True

instance (h : Heap W) : (act : HeapAct) → Decidable (h.Proper act)
  | .realloc ptr _ => decidable_of_iff (ptr = 0 ∨ ∃ o ∈ h.objects, o.1 = ptr)
    (by simp [Proper])
  | .write _ _ => inferInstanceAs (Decidable (∃ _ ∈ h.objects, _))
  | .malloc _ | .calloc _ _ => inferInstanceAs (Decidable True)

/-- A process whose break has not been moved by the library yet. -/
def init (as : AddressSpace) (w : W) (mem : ℕ → UInt8) : Heap W := ⟨as, w, 0, mem, []⟩

/-- The objects are aligned, between the first and the current break, and apart from each other and
from the words with their sizes, and `realloc` keeps what is in them. -/
structure Valid (start : ℕ) (h : Heap W) : Prop where
  aligned : ∀ o ∈ h.objects, 16 ∣ o.1
  bounds : ∀ o ∈ h.objects, o.1 + o.2 < 2 ^ 64 ∧ start ≤ o.1 ∧ o.1 + o.2 ≤ h.as.currentBreak
  apart : ∀ o ∈ h.objects, ∀ o' ∈ h.objects, o ≠ o' → o.1 + o.2 ≤ o'.1 - 8 ∨ o'.1 + o'.2 ≤ o.1
  kept : ∀ o ∈ h.objects, ∀ n p h', h.realloc o.1 n = some (p, h') → p ≠ 0 →
    ∀ i < min o.2 n, h'.mem (p + i) = h.mem (o.1 + i)

variable {as as' : AddressSpace} {w w' : W} {h h' : Heap W} {b addr p size : ℕ}

/-- The heap begins and ends with a page. -/
def PageAligned (as : AddressSpace) : Prop := pageSize ∣ as.heapStart ∧ pageSize ∣ as.heapEnd

theorem pageAligned_brk (ha : PageAligned as) (h : as.brk w addr = some (b, as', w')) :
    pageSize ∣ b ∧ PageAligned as' := by
  have hcur : pageSize ∣ as.currentBreak := by
    unfold currentBreak
    split
    · exact ha.2
    · exact ha.1
  have hup : pageSize ∣ alignUp addr pageSize := dvd_alignUp _ _
  rcases brk_cases h with
    ⟨rfl, rfl, rfl | ⟨rfl, -⟩⟩ | ⟨s₁, hmap, -, rfl, rfl, rfl, -⟩ | ⟨idx, r, ⟨rfl, -⟩, -, -, h⟩
  · exact ⟨hcur, ha⟩
  · exact ⟨hup, ha⟩
  · rcases mapLazy_cases hmap with ⟨hf, -⟩ | ⟨slot, v, n, -, -, rfl⟩
    · cases hf
    · exact ⟨hup, ha.1, hup⟩
  · rcases h with ⟨-, -, -, rfl⟩ | ⟨fs, -, -, rfl⟩
    · exact ⟨hup, ha.1, hup⟩
    · exact ⟨hup, ha.1, hup⟩

/-- The break is page-aligned, and every object is eight bytes off. -/
structure Inv (h : Heap W) : Prop where
  as : PageAligned h.as
  heapPtr : pageSize ∣ h.heapPtr
  off : ∀ o ∈ h.objects, o.1 % 16 = 8

theorem Inv.brk (hI : h.Inv) (hb : h.brk addr = some (b, h')) : pageSize ∣ b ∧ h'.Inv := by
  obtain ⟨⟨actual, as, w⟩, hbrk, hb⟩ := bind_eq_some_iff.1 hb
  cases hb
  obtain ⟨hd, ha⟩ := pageAligned_brk hI.as hbrk
  exact ⟨hd, ha, hI.heapPtr, hI.off⟩

theorem Inv.malloc (hI : h.Inv) (hm : h.malloc size = some (p, h')) :
    (p = 0 ∨ p % 16 = 8) ∧ h'.Inv := by
  unfold Heap.malloc at hm
  split at hm
  · cases hm; exact ⟨.inl rfl, hI⟩
  obtain ⟨⟨ptr, h₁⟩, hptr, hm⟩ := bind_eq_some_iff.1 hm
  obtain ⟨⟨actual, h₂⟩, hbrk, hm⟩ := bind_eq_some_iff.1 hm
  have hinit : pageSize ∣ ptr ∧ h₁.Inv := by
    split at hptr
    · unfold heapInit at hptr
      obtain ⟨⟨start, h₀⟩, hbrk, hptr⟩ := bind_eq_some_iff.1 hptr
      obtain ⟨hd, hI⟩ := hI.brk hbrk
      cases hptr
      exact ⟨hd, hI.as, hd, hI.off⟩
    · cases hptr; exact ⟨hI.heapPtr, hI⟩
  obtain ⟨hd, hI⟩ := hinit
  obtain ⟨hda, hI⟩ := hI.brk hbrk
  simp only at hm
  split at hm
  · cases hm; exact ⟨.inl rfl, hI⟩
  · cases hm
    refine ⟨.inr ?_, hI.as, hda, hI.off⟩
    unfold wadd pageSize at *
    omega

omit [Machine W] in
theorem Inv.record {n : ℕ} (hp : p = 0 ∨ p % 16 = 8) (hI : h.Inv) : (record n (p, h)).Inv := by
  unfold Heap.record
  split
  · exact hI
  · next hne =>
    refine ⟨hI.as, hI.heapPtr, fun o ho => ?_⟩
    rcases mem_cons.1 ho with rfl | ho
    · exact hp.resolve_left hne
    · exact hI.off o (mem_filter.1 ho).1

theorem Inv.step {act : HeapAct} (hI : h.Inv) (hp : h.Proper act) (hst : h.step act = some h') :
    h'.Inv := by
  cases act with
  | malloc =>
    obtain ⟨⟨p, h₁⟩, hm, rfl⟩ := map_eq_some_iff.1 hst
    obtain ⟨hp, hI⟩ := hI.malloc hm
    exact hI.record hp
  | calloc =>
    obtain ⟨⟨p, h₁⟩, hm, rfl⟩ := map_eq_some_iff.1 hst
    obtain ⟨⟨q, h₂⟩, hm, heq⟩ := bind_eq_some_iff.1 hm
    obtain ⟨hq, hI⟩ := hI.malloc hm
    cases heq
    exact Inv.record hq ⟨hI.as, hI.heapPtr, hI.off⟩
  | realloc =>
    obtain ⟨⟨p, h₁⟩, hm, rfl⟩ := map_eq_some_iff.1 hst
    unfold Heap.realloc at hm
    split at hm
    · obtain ⟨hp, hI⟩ := hI.malloc hm
      exact hI.record hp
    next hne =>
    simp only at hm
    split at hm
    · cases hm
      obtain ⟨n, hmem⟩ := hp.resolve_left hne
      exact hI.record (.inr (hI.off _ hmem))
    · obtain ⟨⟨q, h₂⟩, hm, heq⟩ := bind_eq_some_iff.1 hm
      obtain ⟨hq, hI⟩ := hI.malloc hm
      cases heq
      exact Inv.record hq ⟨hI.as, hI.heapPtr, hI.off⟩
  | write =>
    cases hst
    exact ⟨hI.as, hI.heapPtr, hI.off⟩

/-- **Objects are never as they should be**: in every run all of them are eight bytes off. -/
theorem never_valid (mem : ℕ → UInt8) (ha : PageAligned as)
    (hrun : Run step Proper (init as w mem) h) (hobj : h.objects ≠ []) :
    (∀ o ∈ h.objects, o.1 % 16 = 8) ∧ ¬ h.Valid as.currentBreak := by
  have hI : h.Inv := hrun.invariant ⟨ha, dvd_zero _, nofun⟩
    fun _ _ _ hI hp hst => hI.step hp hst
  refine ⟨hI.off, fun hv => ?_⟩
  obtain ⟨o, ho⟩ := exists_mem_of_ne_nil _ hobj
  have h₁ := hv.aligned o ho
  have h₂ := hI.off o ho
  omega

/-- A process with its heap at `0x400000`. -/
def atStart : Heap Frames :=
  init { AddressSpace.new 0x200000 with heapStart := 0x400000 } Frames.oneBlock fun _ => 0

/-- Two objects, of which the first is written and then moved to a third one. -/
def threeObjects : List HeapAct :=
  [.malloc 100, .calloc 3 40, .write 0x400010 7, .realloc 0x400008 5000]

theorem never_valid_threeObjects : ∃ h, Run step Proper atStart h ∧
    (h.objects = [(0x402008, 5000), (0x401008, 120), (0x400008, 100)] ∧ h.mem 0x402010 = 7) ∧
    (∀ o ∈ h.objects, o.1 % 16 = 8) ∧ ¬ h.Valid 0x400000 :=
  Run.exists_guarded_with threeObjects (by decide +kernel) fun _ hrun hobj =>
    never_valid _ ⟨by decide, by decide⟩ hrun (by simp [hobj.1])

/-- **A process asks for one byte** and gets it at `0x400008`. -/
theorem one_byte_unaligned :
    ∃ h, Run step Proper atStart h ∧ h.objects = [(0x400008, 1)] ∧ ¬ h.Valid 0x400000 := by
  have hobj : (atStart.step (.malloc 1)).map objects = some [(0x400008, 1)] := by decide
  obtain ⟨h, hst, hobj⟩ := map_eq_some_iff.1 hobj
  refine ⟨h, .single (l := .malloc 1) trivial hst, hobj, fun hv => ?_⟩
  exact absurd (hv.aligned (0x400008, 1) (by simp [hobj])) (by decide)

end Heap

end Cyanos.Libc
