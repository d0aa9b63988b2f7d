import Cyanos.Lib.Ends
import Cyanos.Lib.Heap
import Cyanos.Mm.Cow

/-!
# The ELF loader

`load` of `elf/src/lib.rs`: check the header, then map every `PT_LOAD` segment into a new address
space and copy the bytes of the file into it.  A segment that is writable and executable loses the
right to be written.  An index outside of the image is a panic, and so is a copy from outside of
it; the header and the program headers are parsed without one (`parses_ehdr`, `parses_phdr`).  The
target's `e_machine` is a parameter; cache maintenance and the debug output of the AArch64 build are
not modelled.
-/

namespace Cyanos.Elf

open Lib Machine MemMachine List

/-- `ElfError`. -/
inductive ElfError
  | tooShort
  | badMagic
  | notElf64
  | notLittleEndian
  | notExecutable
  | unsupportedArch
  | badProgramHeader
  | mappingFailed
  | segmentOverflow
  deriving DecidableEq, Repr

/-- `b[i]`. -/
def index (b : List UInt8) (i : ℕ) : Option UInt8 := b[i]?

/-- `b[off..off + n]`. -/
def slice (b : List UInt8) (off n : ℕ) : Option (List UInt8) :=
  if off + n ≤ b.length then some ((b.drop off).take n) else none

theorem slice_of_le {b : List UInt8} {off n : ℕ} (h : off + n ≤ b.length) :
    slice b off n = some ((b.drop off).take n) := if_pos h

/-- `r16`, `r32` and `r64`: the number in the `n` bytes at `off`. -/
def readLe (n : ℕ) (b : List UInt8) (off : ℕ) : Option (Option ℕ) :=
  if off + n > b.length then some none else (slice b off n).map fun s => some (ofLeBytes s)

/-- `r16`. -/
def r16 : List UInt8 → ℕ → Option (Option ℕ) := readLe 2

/-- `r32`. -/
def r32 : List UInt8 → ℕ → Option (Option ℕ) := readLe 4

/-- `r64`. -/
def r64 : List UInt8 → ℕ → Option (Option ℕ) := readLe 8

/-- `Ehdr`. -/
structure Ehdr where
  eType : ℕ
  eMachine : ℕ
  eEntry : ℕ
  ePhoff : ℕ
  ePhentsize : ℕ
  ePhnum : ℕ
  deriving DecidableEq

/-- `Phdr`. -/
structure Phdr where
  pType : ℕ
  pFlags : ℕ
  pOffset : ℕ
  pVaddr : ℕ
  pFilesz : ℕ
  pMemsz : ℕ
  deriving DecidableEq

/-- `ELF_MAGIC`. -/
def elfMagic : List UInt8 := [0x7f, 0x45, 0x4c, 0x46]

/-- `ok_or`. -/
def okOr {α : Type} (e : ElfError) : Option α → Except ElfError α
  | some a => .ok a
  | none => .error e

/-- `r.ok_or(e)?`. -/
def field (e : ElfError) (r : Option (Option ℕ)) : ExceptT ElfError Option ℕ := r.map (okOr e)

/-- `parse_ehdr(b)`. -/
def parseEhdr (emTarget : ℕ) (b : List UInt8) : Option (Except ElfError Ehdr) := ExceptT.run do
  if b.length < 64 then throw .tooShort
  else if (← slice b 0 4) ≠ elfMagic then throw .badMagic
  else if (← index b 4) ≠ 2 then throw .notElf64
  else if (← index b 5) ≠ 1 then throw .notLittleEndian
  else
    let eType ← field .tooShort (r16 b 16)
    let eMachine ← field .tooShort (r16 b 18)
    let eEntry ← field .tooShort (r64 b 24)
    let ePhoff ← field .tooShort (r64 b 32)
    let ePhentsize ← field .tooShort (r16 b 54)
    let ePhnum ← field .tooShort (r16 b 56)
    if eType ≠ 2 ∧ eType ≠ 3 then throw .notExecutable
    else if eMachine ≠ emTarget then throw .unsupportedArch
    else return ⟨eType, eMachine, eEntry, ePhoff, ePhentsize, ePhnum⟩

/-- `parse_phdr(b, off)`. -/
def parsePhdr (b : List UInt8) (off : ℕ) : Option (Except ElfError Phdr) := ExceptT.run do
  let pType ← field .badProgramHeader (r32 b off)
  let pFlags ← field .badProgramHeader (r32 b (off + 4))
  let pOffset ← field .badProgramHeader (r64 b (off + 8))
  let pVaddr ← field .badProgramHeader (r64 b (off + 16))
  let pFilesz ← field .badProgramHeader (r64 b (off + 32))
  let pMemsz ← field .badProgramHeader (r64 b (off + 40))
  return ⟨pType, pFlags, pOffset, pVaddr, pFilesz, pMemsz⟩

/-- The parser does not panic, and what it accepts satisfies `Q`. -/
def Parses {α : Type} (x : ExceptT ElfError Option α) (Q : α → Prop) : Prop :=
  Ends x.run fun r => ∀ a, r = .ok a → Q a

section Parses

variable {α β : Type} {x : ExceptT ElfError Option α} {f : α → ExceptT ElfError Option β}
  {P : α → Prop} {Q : β → Prop} {b : List UInt8}

theorem parses_pure {a : α} (h : P a) : Parses (pure a) P := ends_some (by rintro _ ⟨⟩; exact h)

theorem Parses.bind (hx : Parses x P) (hf : ∀ a, P a → Parses (f a) Q) : Parses (x >>= f) Q := by
  obtain ⟨_ | a, hr, hP⟩ := hx
  all_goals rw [Parses, ExceptT.run_bind, hr]
  · exact ends_some (by rintro _ ⟨⟩)
  · exact hf a (hP a rfl)

theorem Parses.ok {a : α} (h : Parses x P) (ha : x.run = some (.ok a)) : P a := by
  obtain ⟨r, hr, hP⟩ := h
  exact hP a (Option.some.inj (hr.symm.trans ha))

/-- After a check, it has succeeded. -/
theorem parses_check {c : Prop} [Decidable c] {e : ElfError} (h : ¬ c → Parses x P) :
    Parses (if c then throw e else x) P := by
  split
  · exact ends_some (by rintro _ ⟨⟩)
  · next hc => exact h hc

theorem parses_access {o : Option α} (h : o.isSome) : Parses (liftM o) fun _ => True := by
  obtain ⟨a, rfl⟩ := Option.isSome_iff_exists.1 h
  exact parses_pure trivial

theorem parses_field {e : ElfError} {n off : ℕ} : Parses (field e (readLe n b off)) (· < 256 ^ n) := by
  unfold field readLe
  split
  · exact ends_some (by rintro _ ⟨⟩)
  next h =>
  rw [slice_of_le (not_lt.1 h)]
  refine parses_pure (lt_of_lt_of_le (ofLeBytes_lt _) (Nat.pow_le_pow_right (by norm_num) ?_))
  rw [length_take]
  exact Nat.min_le_left _ _

/-- A program header is parsed, and the address in it is a word. -/
theorem parses_phdr (off : ℕ) : Parses (parsePhdr b off) fun ph => ph.pVaddr < 2 ^ 64 := by
  refine parses_field.bind fun _ _ => parses_field.bind fun _ _ => parses_field.bind fun _ _ => ?_
  refine parses_field.bind fun v hv => parses_field.bind fun _ _ => parses_field.bind fun _ _ => ?_
  exact parses_pure (hv.trans_le (by norm_num))

/-- The header is parsed, and the number of program headers is a 16-bit number. -/
theorem parses_ehdr (emTarget : ℕ) : Parses (parseEhdr emTarget b) fun eh => eh.ePhnum < 2 ^ 16 := by
  unfold parseEhdr
  refine parses_check fun hlen => ?_
  have hindex : ∀ i < 64, (index b i).isSome := fun i hi => by
    rw [index, getElem?_eq_getElem (by omega)]
    rfl
  refine (parses_access (by rw [slice_of_le (by omega)]; rfl)).bind fun _ _ => parses_check fun _ => ?_
  refine (parses_access (hindex 4 (by decide))).bind fun _ _ => parses_check fun _ => ?_
  refine (parses_access (hindex 5 (by decide))).bind fun _ _ => parses_check fun _ => ?_
  refine parses_field.bind fun _ _ => parses_field.bind fun _ _ => parses_field.bind fun _ _ => ?_
  refine parses_field.bind fun _ _ => parses_field.bind fun _ _ => parses_field.bind fun n hn => ?_
  exact parses_check fun _ => parses_check fun _ => parses_pure (hn.trans_le (by norm_num))

theorem ends_phdr (off : ℕ) : Ends (parsePhdr b off) fun r => parsePhdr b off = some r :=
  (parses_phdr off).of_eq fun _ h => h

theorem ends_ehdr (emTarget : ℕ) :
    Ends (parseEhdr emTarget b) fun r => parseEhdr emTarget b = some r :=
  (parses_ehdr emTarget).of_eq fun _ h => h

end Parses

namespace Phdr

/-- The segment is one to load: `PT_LOAD`, and not empty. -/
def Loads (ph : Phdr) : Prop := ph.pType = 1 ∧ ph.pMemsz ≠ 0

instance (ph : Phdr) : Decidable ph.Loads := inferInstanceAs (Decidable (_ ∧ _))

/-- `PF_X` is set. -/
def pfX (ph : Phdr) : Bool := ph.pFlags.testBit 0

/-- `PF_W` is set. -/
def pfW (ph : Phdr) : Bool := ph.pFlags.testBit 1

/-- The flags of the segment's pages. -/
def flags (ph : Phdr) : PageFlags := .ofUser (ph.pfW && !ph.pfX) ph.pfX

/-- `page_vaddr`. -/
def pageVaddr (ph : Phdr) : ℕ := alignDown ph.pVaddr pageSize

/-- `map_size`. -/
def mapSize (ph : Phdr) : ℕ := wadd ph.pMemsz (ph.pVaddr - ph.pageVaddr)

theorem pageVaddr_le (ph : Phdr) : ph.pageVaddr ≤ ph.pVaddr := alignDown_le _ _

theorem lt_pageVaddr_add (ph : Phdr) : ph.pVaddr < ph.pageVaddr + pageSize :=
  lt_alignDown_add _ (by decide)

theorem flags_not_wx (ph : Phdr) : ¬ ph.flags.WX := by
  rintro ⟨hw, hx⟩
  obtain ⟨-, hnx⟩ := Bool.and_eq_true_iff.1 hw
  rw [show ph.pfX = true from hx] at hnx
  cases hnx

end Phdr

variable {W : Type} [MemMachine W] {bytes : List UInt8} {ph : Phdr}

/-- Load one segment: the end of the segment, or the error. -/
def loadSegment (bytes : List UInt8) (ph : Phdr) (as : AddressSpace) (w : W) :
    Option (Except ElfError ℕ × AddressSpace × W) :=
  match checkedAdd ph.pOffset ph.pFilesz with
  | none => some (.error .segmentOverflow, as, w)
  | some fend =>
    if fend > bytes.length then some (.error .badProgramHeader, as, w)
    else do
      let (ok, as, w) ← as.map w ph.pageVaddr ph.mapSize ph.flags
      if !ok then some (.error .mappingFailed, as, w)
      else
        match as.find ph.pageVaddr with
        | none => some (.error .mappingFailed, as, w)
        | some vma => do
          let physBase := wadd vma.phys (wsub ph.pVaddr vma.start)
          let w := writeBytes w physBase (← slice bytes ph.pOffset ph.pFilesz)
          match checkedAdd ph.pVaddr ph.pMemsz with
          | none => some (.error .segmentOverflow, as, w)
          | some segEnd => some (.ok segEnd, as, w)

/-- What `load` does with a segment once it is mapped. -/
theorem loadSegment_of_map {as as₁ : AddressSpace} {w w₁ : W} {vma : VmaRegion}
    (hlt : ph.pOffset + ph.pFilesz < 2 ^ 64) (hle : ph.pOffset + ph.pFilesz ≤ bytes.length)
    (hmap : as.map w ph.pageVaddr ph.mapSize ph.flags = some (true, as₁, w₁))
    (hfind : as₁.find ph.pageVaddr = some vma) :
    loadSegment bytes ph as w =
      some (okOr .segmentOverflow (checkedAdd ph.pVaddr ph.pMemsz), as₁,
        writeBytes w₁ (wadd vma.phys (wsub ph.pVaddr vma.start))
          ((bytes.drop ph.pOffset).take ph.pFilesz)) := by
  simp only [loadSegment, checkedAdd_eq_some.2 ⟨hlt, rfl⟩, if_neg (not_lt.2 hle), hmap,
    slice_of_le hle, Option.bind_eq_bind, Option.bind_some, Bool.not_true, Bool.false_eq_true, hfind]
  cases checkedAdd ph.pVaddr ph.pMemsz <;> rfl

/-- The loop over the program headers, from header `i` on; `highest` is the highest end so far. -/
def loadSegments (bytes : List UInt8) (eh : Ehdr) :
    ℕ → ℕ → ℕ → AddressSpace → W → Option (Except ElfError ℕ × AddressSpace × W)
  | 0, _, highest, as, w => some (.ok highest, as, w)
  | n + 1, i, highest, as, w => do
    match ← parsePhdr bytes (eh.ePhoff + i * eh.ePhentsize) with
    | .error e => some (.error e, as, w)
    | .ok ph =>
      if ph.Loads then do
        match ← loadSegment bytes ph as w with
        | (.error e, as, w) => some (.error e, as, w)
        | (.ok segEnd, as, w) => loadSegments bytes eh n (i + 1) (max highest segEnd) as w
      else loadSegments bytes eh n (i + 1) highest as w

/-- The program header is that of a segment of the image that is loaded. -/
def IsSegment (emTarget : ℕ) (bytes : List UInt8) (ph : Phdr) : Prop :=
  ∃ eh i, parseEhdr emTarget bytes = some (.ok eh) ∧ i < eh.ePhnum ∧
    parsePhdr bytes (eh.ePhoff + i * eh.ePhentsize) = some (.ok ph) ∧ ph.Loads

/-- The segment of the `i`-th program header, if it is one to load. -/
def segmentAt (bytes : List UInt8) (eh : Ehdr) (i : ℕ) : Option Phdr :=
  ((parsePhdr bytes (eh.ePhoff + i * eh.ePhentsize)).bind Except.toOption).filter fun ph => ph.Loads

/-- The segments of the image that are loaded. -/
def segments (emTarget : ℕ) (bytes : List UInt8) : List Phdr :=
  match parseEhdr emTarget bytes with
  | some (.ok eh) => (List.range eh.ePhnum).filterMap (segmentAt bytes eh)
  | _ => []

theorem segmentAt_eq_some {eh : Ehdr} {i : ℕ} :
    segmentAt bytes eh i = some ph ↔
      parsePhdr bytes (eh.ePhoff + i * eh.ePhentsize) = some (.ok ph) ∧ ph.Loads := by
  unfold segmentAt
  rcases parsePhdr bytes (eh.ePhoff + i * eh.ePhentsize) with _ | _ | _ <;> simp [Except.toOption]

theorem isSegment_iff {emTarget : ℕ} :
    IsSegment emTarget bytes ph ↔ ph ∈ segments emTarget bytes := by
  unfold IsSegment segments
  constructor
  · rintro ⟨eh, i, heh, hi, hph⟩
    rw [heh]
    exact mem_filterMap.2 ⟨i, mem_range.2 hi, segmentAt_eq_some.2 hph⟩
  · intro h
    split at h
    · next eh heh =>
      obtain ⟨i, hi, hph⟩ := mem_filterMap.1 h
      exact ⟨eh, i, heh, mem_range.1 hi, segmentAt_eq_some.1 hph⟩
    · cases h

/-- Put the heap one page behind the highest segment. -/
def placeHeap (as : AddressSpace) (highest : ℕ) : AddressSpace :=
  if highest > 0 then
    let heapPage := alignUp highest pageSize
    let heapStart := wadd heapPage pageSize
    { as with heapStart := heapStart, heapEnd := heapStart }
  else as

@[simp] theorem placeHeap_regions (as : AddressSpace) (highest : ℕ) :
    (placeHeap as highest).regions = as.regions := by
  unfold placeHeap
  split <;> rfl

@[simp] theorem placeHeap_root (as : AddressSpace) (highest : ℕ) :
    (placeHeap as highest).pageTableRoot = as.pageTableRoot := by
  unfold placeHeap
  split <;> rfl

/-- `load(bytes, as_)`: the entry point, or the error. -/
def load (emTarget : ℕ) (bytes : List UInt8) (as : AddressSpace) (w : W) :
    Option (Except ElfError ℕ × AddressSpace × W) := do
  match ← parseEhdr emTarget bytes with
  | .error e => some (.error e, as, w)
  | .ok eh =>
    -- a product of two 16-bit numbers does not overflow
    match checkedAdd eh.ePhoff (eh.ePhentsize * eh.ePhnum) with
    | none => some (.error .badProgramHeader, as, w)
    | some phTableEnd =>
      if phTableEnd > bytes.length then some (.error .badProgramHeader, as, w)
      else do
        match ← loadSegments bytes eh eh.ePhnum 0 0 as w with
        | (.error e, as, w) => some (.error e, as, w)
        | (.ok highest, as, w) => some (.ok eh.eEntry, placeHeap as highest, w)

/-- An image for AArch64 with one segment: one page at `0x400000`, readable and executable. -/
def tinyImage : List UInt8 :=
  elfMagic ++ [2, 1, 1] ++ leBytes 9 0 ++ leBytes 2 2 ++ leBytes 2 183 ++ leBytes 4 1 ++
    leBytes 8 0x400000 ++ leBytes 8 64 ++ leBytes 8 0 ++ leBytes 4 0 ++ leBytes 2 64 ++
    leBytes 2 56 ++ leBytes 2 1 ++ leBytes 6 0 ++
    -- the program header
    leBytes 4 1 ++ leBytes 4 5 ++ leBytes 8 0 ++ leBytes 8 0x400000 ++ leBytes 8 0 ++ leBytes 8 0 ++
    leBytes 8 1 ++ leBytes 8 0x1000

end Cyanos.Elf
