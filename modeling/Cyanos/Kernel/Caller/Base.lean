import Cyanos.Lib.Effect
import Cyanos.Kernel.Memory

/-!
# The kernel's dealings with its caller's memory

A system-call handler is modelled as an `Effect`: the spans of the caller's memory it touches,
in order, and the questions whose answers it does not compute itself.  Words loaded from the
caller's memory may have any contents: that memory belongs to the process, whose other threads
may write it between any two loads.  The answers stand for the state of the rest of the kernel:
descriptor tables, ring buffers, the scheduler, the caller's address space.

A copy through the caller's address space (`read_user_buf`, `write_user_buf`) counts as touching
the caller's addresses it translates.
-/

namespace Cyanos.Caller

open Lib Effect Nat

/-- What an open descriptor of the file server refers to, with the state a transfer depends on. -/
inductive Vnode
  /-- A read-only file (or directory) with this many bytes after the position. -/
  | ramFile (remaining : ℕ)
  /-- `/dev/null`. -/
  | devNull
  /-- `/dev/zero`. -/
  | devZero
  /-- `/dev/urandom`. -/
  | devUrandom
  /-- `/dev/stdin` and the like: another descriptor of the process. -/
  | devStdio (target : ℕ)
  /-- The framebuffer, with the bytes after the position; `none` if there is none. -/
  | devFb (remaining : Option ℕ)
  /-- The read end of a pipe: bytes in the ring, and whether the write end is open. -/
  | pipeRead (count : ℕ) (writeOpen : Bool)
  /-- The write end of a pipe: free bytes in the ring, and whether the read end is open. -/
  | pipeWrite (free : ℕ) (readOpen : Bool)
  /-- A file under `/tmp`: bytes after the position, free bytes, whether it is writable. -/
  | tmpFile (remaining free : ℕ) (writable : Bool)
  /-- An event counter. -/
  | eventFd (counter : ℕ)
  /-- A timer. -/
  | timerFd (expirations : ℕ)

/-- What a handler asks the rest of the kernel. -/
inductive Query
  /-- A result that involves no memory of the caller: a reply, a pid, a time. -/
  | value
  /-- A yes or no from a kernel table. -/
  | flag
  /-- A number: of bytes, of turns of a waiting loop, an address on the kernel's stack. -/
  | count
  /-- The caller's address space translates this address. -/
  | mapped (va : ℕ)
  /-- The eight bytes a translated copy brought in. -/
  | word
  /-- The caller's descriptor of this number. -/
  | vnode (fd : ℕ)
  /-- The position in a directory, and the lengths of the names listed in it. -/
  | dirents
  /-- The pending connection of a listening socket, if any; whether it is an internet one. -/
  | pendingConn
  /-- The entries of an epoll instance: whether each is ready; `none` if unused. -/
  | interests
  /-- The length of the current directory's name; `set_cwd` keeps at most 127 bytes. -/
  | cwdLen

/-- The answers. -/
def Query.Answer : Query → Type
  | value => ℤ
  | flag => Bool
  | count => ℕ
  | mapped _ => Bool
  | word => Fin (2 ^ 64)
  | vnode _ => Option Vnode
  | dirents => ℕ × List ℕ
  | pendingConn => Option Bool
  | interests => Fin 32 → Option Bool
  | cwdLen => Fin 128

instance : ∀ q, Inhabited (Query.Answer q)
  | .value => inferInstanceAs (Inhabited ℤ)
  | .flag => inferInstanceAs (Inhabited Bool)
  | .count => inferInstanceAs (Inhabited ℕ)
  | .mapped _ => inferInstanceAs (Inhabited Bool)
  | .word => inferInstanceAs (Inhabited (Fin (2 ^ 64)))
  | .vnode _ => inferInstanceAs (Inhabited (Option Vnode))
  | .dirents => inferInstanceAs (Inhabited (ℕ × List ℕ))
  | .pendingConn => inferInstanceAs (Inhabited (Option Bool))
  | .interests => inferInstanceAs (Inhabited (Fin 32 → Option Bool))
  | .cwdLen => inferInstanceAs (Inhabited (Fin 128))

/-- A handler. -/
abbrev Sys (α : Type) : Type := Effect Query.Answer α

/-- The kernel's dealings stay in user space: every byte of the span is below
`USER_SPACE_END`. -/
def InUser (s : Span) : Prop := s.Below userSpaceEnd

/-! ### Questions -/

/-- A result computed without the caller's memory. -/
def value : Sys ℤ := .ask .value .ret

/-- A yes or no from a kernel table. -/
def flag : Sys Bool := .ask .flag .ret

/-- A number. -/
def count : Sys ℕ := .ask .count .ret

/-- The caller's descriptor `fd`: none at or above `MAX_FDS`. -/
def vnode (fd : ℕ) : Sys (Option Vnode) :=
  if fd < 64 then .ask (.vnode fd) .ret else pure none

/-- Whether the caller's address space translates `va`. -/
def mapped (va : ℕ) : Sys Bool := .ask (.mapped va) .ret

/-! ### Buffers -/

/-- A buffer a handler is given: the caller's, or one of the kernel's own. -/
inductive Buf
  /-- At an address the caller supplied. -/
  | caller (ptr : ℕ)
  /-- On the kernel's stack. -/
  | own (ptr : ℕ)

/-- The address of a buffer. -/
def Buf.ptr : Buf → ℕ
  | caller p => p
  | own p => p

/-- Touch `len` bytes at offset `off` of a buffer. -/
def Buf.touch : Buf → (off len : ℕ) → Sys Unit
  | caller p, off, len => .touch ⟨wadd p off, len⟩ (pure ())
  | own _, _, _ => pure ()

/-- Touch the fields of a record in a buffer, each given by its offset and size. -/
def Buf.fields (b : Buf) : List (ℕ × ℕ) → Sys Unit
  | [] => pure ()
  | (off, len) :: fs => do
    b.touch off len
    b.fields fs

/-- Touch `len` bytes at the caller's address `p + off`. -/
def touch (p off len : ℕ) : Sys Unit := (Buf.caller p).touch off len

/-- Touch the fields of a record at the caller's address `p`. -/
def fields (p : ℕ) (fs : List (ℕ × ℕ)) : Sys Unit := (Buf.caller p).fields fs

/-- Load the `len`-byte word at the caller's address `p + off`. -/
def load (p off len : ℕ) : Sys ℕ := .load ⟨wadd p off, len⟩ .ret

/-- `validate_user_buf(ptr, len)`. -/
def validateUserBuf (ptr len : ℕ) : Bool :=
  ptr ≠ 0 && match checkedAdd ptr len with
    | some e => e ≤ userSpaceEnd
    | none => false

/-- `validate_user_ptr_aligned(ptr, size, align)`. -/
def validateUserPtrAligned (ptr size align : ℕ) : Bool :=
  validateUserBuf ptr size && ptr % align = 0

/-- `usize::saturating_mul`. -/
def satMul (a b : ℕ) : ℕ := min (a * b) (2 ^ 64 - 1)

/-! ### Strings and copies -/

/-- The bytes at the caller's address `p`, up to a NUL, at most `n` of them; whether the NUL was
found. -/
def readBytes (p : ℕ) : (n i : ℕ) → Sys (List ℕ × Bool)
  | 0, _ => pure ([], false)
  | n + 1, i => do
    let b ← load p i 1
    if b = 0 then return ([], true)
    let (bs, nul) ← readBytes p n (i + 1)
    return (b :: bs, nul)

/-- `read_cstr_raw(ptr)`: a string of at most 255 bytes and its NUL. -/
def readCstrRaw (p : ℕ) : Sys (Option (List ℕ)) :=
  if p = 0 then pure none
  else do
    let (bs, nul) ← readBytes p 256 0
    return if nul then some bs else none

/-- `read_cstr_for_vfs`: at most 255 bytes, with or without a NUL. -/
def readCstrForVfs (p : ℕ) : Sys (List ℕ) := do
  let (bs, _) ← readBytes p 255 0
  return bs

/-- `read_user_buf` and `write_user_buf`: `len` bytes at `va`, page by page as far as the address
space translates them; whether it did to the end.  Every turn copies a byte or more, so `len`
turns suffice. -/
def userCopy : (turns va len : ℕ) → Sys Bool
  | 0, _, _ => pure true
  | turns + 1, va, len =>
    if len = 0 then pure true
    else do
      if !(← mapped va) then return false
      let chunk := min (pageSize - va % pageSize) len
      touch va 0 chunk
      userCopy turns (wadd va chunk) (len - chunk)

/-! ### What the primitives demand -/

theorem inUser_iff {a l : ℕ} : InUser ⟨a, l⟩ ↔ l = 0 ∨ a + l ≤ userSpaceEnd := Span.below_iff

variable {p n len : ℕ} {fs : List (ℕ × ℕ)}

theorem validateUserBuf_iff : validateUserBuf p n = true ↔ p ≠ 0 ∧ p + n ≤ userSpaceEnd := by
  unfold validateUserBuf checkedAdd
  by_cases h : p + n < 2 ^ 64
  · rw [if_pos h]
    simp
  · rw [if_neg h]
    rw [Bool.and_false, Bool.false_eq_true, false_iff]
    unfold userSpaceEnd
    omega

/-- A part of a range that ends in user space is in user space. -/
theorem inUser_part {off : ℕ} (h : p + n ≤ userSpaceEnd) (hl : off + len ≤ n) :
    InUser ⟨wadd p off, len⟩ := by
  rw [inUser_iff]
  unfold wadd
  omega

theorem inUser_zero_iff (hp : p < 2 ^ 64) (hl : len ≠ 0) :
    InUser ⟨wadd p 0, len⟩ ↔ p + len ≤ userSpaceEnd := by
  rw [inUser_iff, wadd_zero hp, or_iff_right hl]

/-- The fields of a record at `p` are in user space. -/
def FieldsIn (p : ℕ) (fs : List (ℕ × ℕ)) : Prop := ∀ f ∈ fs, InUser ⟨wadd p f.1, f.2⟩

/-- The fields of a record are in user space, if it is a caller's. -/
def Buf.In : Buf → List (ℕ × ℕ) → Prop
  | caller p, fs => FieldsIn p fs
  | own _, _ => True

theorem fieldsIn_of_le (h : p + n ≤ userSpaceEnd) (hf : ∀ f ∈ fs, f.1 + f.2 ≤ n) : FieldsIn p fs :=
  fun f hmem => inUser_part h (hf f hmem)

/-- The first field tells whether the record wraps, the last one where it ends. -/
theorem fieldsIn_iff (hp : p < 2 ^ 64) (hfs : n < 2 ^ 16 ∧ (∃ f ∈ fs, f.1 = 0 ∧ f.2 ≠ 0) ∧
    (∃ f ∈ fs, f.1 + f.2 = n ∧ f.2 ≠ 0) ∧ ∀ f ∈ fs, f.1 + f.2 ≤ n) :
    FieldsIn p fs ↔ p + n ≤ userSpaceEnd := by
  obtain ⟨hn, ⟨f, hf, hf1, hf2⟩, ⟨g, hg, hgn, hg2⟩, hle⟩ := hfs
  refine ⟨fun h => ?_, fun h => fieldsIn_of_le h hle⟩
  have hfirst := (inUser_zero_iff hp hf2).1 (hf1 ▸ h f hf)
  have hlast := (inUser_iff.1 (h g hg)).resolve_left hg2
  unfold wadd at hlast
  unfold userSpaceEnd at hfirst hlast ⊢
  omega

/-! ### Rules -/

section Rules

variable {α : Type} {R : Unit → Prop} {p off len : ℕ} {fs : List (ℕ × ℕ)} {c : Prop}

@[simp] theorem within_mapped {va : ℕ} {R : Bool → Prop} :
    (mapped va).Within InUser R ↔ ∀ b, R b := Iff.rfl

@[simp] theorem within_vnode {fd : ℕ} {R : Option Vnode → Prop} :
    (vnode fd).Within InUser R ↔ R none ∧ (fd < 64 → ∀ v, R (some v)) := by
  unfold vnode
  rw [within_ite]
  constructor
  · rintro ⟨h1, h2⟩
    by_cases hfd : fd < 64
    · exact ⟨h1 hfd none, fun _ v => h1 hfd (some v)⟩
    · exact ⟨h2 hfd, fun h => absurd h hfd⟩
  · rintro ⟨h1, h2⟩
    refine ⟨fun hfd v => ?_, fun _ => h1⟩
    cases v with
    | none => exact h1
    | some v => exact h2 hfd v

@[simp] theorem within_touch' :
    (touch p off len).Within InUser R ↔ InUser ⟨wadd p off, len⟩ ∧ R () := Iff.rfl

@[simp] theorem within_load' {R : ℕ → Prop} :
    (load p off len).Within InUser R ↔
      InUser ⟨wadd p off, len⟩ ∧ ∀ v < 256 ^ len, R v := Iff.rfl

@[simp] theorem within_bufFields {b : Buf} : (b.fields fs).Within InUser R ↔ b.In fs ∧ R () := by
  induction fs with
  | nil => cases b <;> simp [Buf.fields, Buf.In, FieldsIn]
  | cons f fs ih =>
    simp only [Buf.fields, within_bind]
    cases b with
    | own => simpa [Buf.touch, Buf.In] using ih
    | caller => simp [Buf.touch, Buf.In, FieldsIn, and_assoc] at ih ⊢; simp [ih]

@[simp] theorem within_fields :
    (fields p fs).Within InUser R ↔ FieldsIn p fs ∧ R () := within_bufFields

/-- A part that touches memory and always goes on adds its own demand. -/
theorem within_when_and {x : Sys Unit} {D : Prop} [Decidable c]
    (hx : x.Within InUser R ↔ D ∧ R ()) : (when c x).Within InUser R ↔ (c → D) ∧ R () := by
  rw [within_when, hx]
  by_cases hc : c <;> simp [hc]

@[simp] theorem within_when_fields [Decidable c] :
    (when c (fields p fs)).Within InUser R ↔ (c → FieldsIn p fs) ∧ R () :=
  within_when_and within_fields

end Rules

/-- A string of at most `n` bytes may take all of them. -/
theorem safe_readBytes {i : ℕ} :
    (readBytes p n i).Safe InUser ↔ ∀ j < n, InUser ⟨wadd p (i + j), 1⟩ := by
  induction n generalizing i with
  | zero => simp [readBytes, Safe]
  | succ n ih =>
    have hrest : (readBytes p (n + 1) i).Safe InUser ↔
        InUser ⟨wadd p i, 1⟩ ∧ (readBytes p n (i + 1)).Safe InUser := by
      simp only [readBytes, Safe, within_bind, within_load', within_ite, within_pure]
      refine and_congr Iff.rfl ⟨fun h => ?_, fun h v _ => ⟨fun _ => trivial, fun _ => h⟩⟩
      exact (h 1 (by norm_num)).2 one_ne_zero
    rw [hrest, ih]
    constructor
    · rintro ⟨h0, h⟩ j hj
      cases j with
      | zero => exact h0
      | succ j => simpa only [add_assoc, add_comm 1] using h j (by omega)
    · intro h
      refine ⟨h 0 (by omega), fun j hj => ?_⟩
      simpa only [add_assoc, add_comm 1] using h (j + 1) (by omega)

theorem safe_readBytes_iff (hp : p < 2 ^ 64) (hn : n ≠ 0) (hn' : n < 2 ^ 16) :
    (readBytes p n 0).Safe InUser ↔ p + n ≤ userSpaceEnd := by
  rw [safe_readBytes]
  simp only [inUser_iff, one_ne_zero, false_or, zero_add]
  unfold wadd userSpaceEnd
  constructor
  · intro h
    have h0 := h 0 (by omega)
    have hlast := h (n - 1) (by omega)
    omega
  · intro h j hj
    omega

/-- The empty string is one of the strings that may be found. -/
theorem within_readBytes_nil {i : ℕ} {R : List ℕ × Bool → Prop} (hn : n ≠ 0)
    (h : (readBytes p n i).Within InUser R) : R ([], true) := by
  obtain ⟨n, rfl⟩ := exists_eq_succ_of_ne_zero hn
  simp only [readBytes, within_bind, within_ite] at h
  exact (h.2 0 (by norm_num)).1 rfl

theorem safe_readCstrRaw_iff (hp : p < 2 ^ 64) (h0 : p ≠ 0) :
    (readCstrRaw p).Safe InUser ↔ p + 256 ≤ userSpaceEnd := by
  rw [← safe_readBytes_iff hp (by norm_num) (by norm_num)]
  simp only [readCstrRaw, if_neg h0, Safe, within_bind, within_pure]

theorem safe_readCstrForVfs_iff (hp : p < 2 ^ 64) :
    (readCstrForVfs p).Safe InUser ↔ p + 255 ≤ userSpaceEnd := by
  rw [← safe_readBytes_iff hp (by norm_num) (by norm_num)]
  simp only [readCstrForVfs, Safe, within_bind, within_pure]

theorem safe_userCopy_succ {turns va : ℕ} (h : len ≠ 0) :
    (userCopy (turns + 1) va len).Safe InUser ↔
      InUser ⟨wadd va 0, min (pageSize - va % pageSize) len⟩ ∧
        (userCopy turns (wadd va (min (pageSize - va % pageSize) len))
          (len - min (pageSize - va % pageSize) len)).Safe InUser := by
  simp only [userCopy, if_neg h, Safe, within_bind, within_mapped, within_ite, within_touch',
    within_pure]
  simp

/-- A copy through the address space may find every page of its range. -/
theorem safe_userCopy_iff {turns va : ℕ} (hva : va < 2 ^ 64) (hl : len ≤ turns) :
    (userCopy turns va len).Safe InUser ↔ len = 0 ∨ va + len ≤ userSpaceEnd := by
  induction turns generalizing va len with
  | zero => simp [userCopy, Safe, le_zero.1 hl]
  | succ turns ih =>
    by_cases h0 : len = 0
    · simp [userCopy, Safe, h0]
    · have hmod : va % pageSize < pageSize := mod_lt _ (by norm_num [pageSize])
      have hchunk : 0 < min (pageSize - va % pageSize) len := by omega
      rw [safe_userCopy_succ h0, ih (wadd_lt ..) (by omega), inUser_zero_iff hva (by omega),
        or_iff_right h0]
      have hle : min (pageSize - va % pageSize) len ≤ len := min_le_right ..
      generalize min (pageSize - va % pageSize) len = chunk at hchunk hle ⊢
      unfold wadd userSpaceEnd
      omega

end Cyanos.Caller
