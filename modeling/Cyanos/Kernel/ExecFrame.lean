import Cyanos.Kernel.Exec
import Cyanos.Mm.UserView
import Cyanos.Userland.Start

/-!
# Arguments of a program

How `sys_execve` passes strings on: `push_cstr` collects them from the caller's memory, the frame at
the new stack pointer holds them together with the arrays that point to them, and
`__libc_start_main` finds the arrays.

`ExecStrBuf.Holds` says which strings a buffer holds, and `offsetsFrom` where.  The pointers to the
arguments are computed from the lengths, those to the environment from the offsets; for a buffer
that was filled by `push_cstr` the two agree (`argvPtrs_offsetsFrom`).

## Main results

* `frameSize_le` : a frame with strings that were accepted fits the stack.
* `execve_round_trip` : **a program is started with the strings its caller passed**.
-/

namespace Cyanos

open Lib Machine MemMachine List Option Nat AddressSpace

/-! ### Collecting strings -/

/-- `MAX_EXEC_ARGS`. -/
def maxExecArgs : ℕ := 64

/-- `MAX_EXEC_STR`. -/
def maxExecStr : ℕ := 8192

/-- What the kernel reads of the memory of the process that calls `execve`. -/
structure CallerMemory where
  /-- The pointer at an address, if `validate_user_buf` and `read_user_buf` let it be read. -/
  pointer : ℕ → Option ℕ
  /-- The bytes. -/
  byte : ℕ → UInt8

namespace ExecStrBuf

/-- A buffer after `reset`. -/
def empty : ExecStrBuf := ⟨[], []⟩

/-- The loop of `push_cstr`, from byte `i` of the string on: `room` bytes are left in the buffer. -/
def copyCstr (byte : ℕ → UInt8) (ptr : ℕ) : ℕ → ℕ → List UInt8 → Bool × List UInt8
  | 0, _, data => (false, data)
  | room + 1, i, data =>
    let b := byte (wadd ptr i)
    if b = 0 then (true, data) else copyCstr byte ptr room (i + 1) (data ++ [b])

/-- `push_cstr(ptr)`.  What was copied of a string that is refused stays in the buffer. -/
def pushCstr (byte : ℕ → UInt8) (buf : ExecStrBuf) (ptr : ℕ) : Bool × ExecStrBuf :=
  if buf.strings.length ≥ maxExecArgs then (false, buf)
  else if ptr = 0 then (false, buf)
  else
    match copyCstr byte ptr (maxExecStr - 1 - buf.data.length) 0 buf.data with
    | (false, data) => (false, { buf with data := data })
    | (true, data) =>
      (true, ⟨data ++ [0],
        buf.strings ++ [(buf.data.length, data.length - buf.data.length)]⟩)

/-- The loop of `sys_execve` over an array of pointers, from index `i` on. -/
def collect (m : CallerMemory) (base : ℕ) : ℕ → ℕ → ExecStrBuf → ExecStrBuf
  | 0, _, buf => buf
  | n + 1, i, buf =>
    match m.pointer (wadd base (i * 8)) with
    | none => buf
    | some ptr => if ptr = 0 then buf else collect m base n (i + 1) (buf.pushCstr m.byte ptr).2

/-- The strings of the array at `base`; there are none if it is null. -/
def ofCaller (m : CallerMemory) (base : ℕ) : ExecStrBuf :=
  if base ≠ 0 then collect m base maxExecArgs 0 empty else empty

/-! ### What a buffer holds -/

/-- The bytes of strings one after the other, each with a zero byte at its end. -/
def bytesOf (ss : List (List UInt8)) : List UInt8 := ss.flatMap (· ++ [0])

/-- The offsets and lengths of strings one after the other. -/
def offsetsFrom : ℕ → List (List UInt8) → List (ℕ × ℕ)
  | _, [] => []
  | off, s :: ss => (off, s.length) :: offsetsFrom (off + s.length + 1) ss

/-- The buffer holds the strings. -/
structure Holds (buf : ExecStrBuf) (ss : List (List UInt8)) : Prop where
  data : buf.data = bytesOf ss
  strings : buf.strings = offsetsFrom 0 ss
  nonzero : ∀ s ∈ ss, 0 ∉ s
  length_le : ss.length ≤ maxExecArgs
  data_lt : buf.data.length < maxExecStr

variable {byte : ℕ → UInt8} {buf buf' : ExecStrBuf} {ss : List (List UInt8)} {s : List UInt8}
  {ptr : ℕ}

theorem length_offsetsFrom (off : ℕ) (ss : List (List UInt8)) :
    (offsetsFrom off ss).length = ss.length := by
  induction ss generalizing off with
  | nil => rfl
  | cons s ss ih => rw [offsetsFrom, length_cons, ih, length_cons]

theorem bytesOf_append (ss : List (List UInt8)) (s : List UInt8) :
    bytesOf (ss ++ [s]) = bytesOf ss ++ (s ++ [0]) := by
  simp [bytesOf]

theorem offsetsFrom_append (off : ℕ) (ss : List (List UInt8)) (s : List UInt8) :
    offsetsFrom off (ss ++ [s]) =
      offsetsFrom off ss ++ [(off + (bytesOf ss).length, s.length)] := by
  induction ss generalizing off with
  | nil => rfl
  | cons t ss ih =>
    rw [cons_append, offsetsFrom, offsetsFrom, ih, cons_append, bytesOf, bytesOf,
      flatMap_cons, length_append, length_append, length_singleton]
    congr 4
    omega

/-- A byte of the caller's memory; addresses wrap. -/
def seen (byte : ℕ → UInt8) (x : ℕ) : Option UInt8 := some (byte (x % 2 ^ 64))

/-- The string is copied up to its end, or as far as there is room. -/
theorem copyCstr_eq {room i : ℕ} {data : List UInt8} (h : CStringAt (seen byte) (ptr + i) s) :
    copyCstr byte ptr room i data =
      if s.length < room then (true, data ++ s) else (false, data ++ s.take room) := by
  induction room generalizing i data s with
  | zero => simp [copyCstr]
  | succ room ih =>
    obtain ⟨hs, hshow⟩ := h
    cases s with
    | nil =>
      have hb : byte (wadd ptr i) = 0 := some.inj hshow.1
      simp [copyCstr, hb]
    | cons c s =>
      have hb : byte (wadd ptr i) = c := some.inj hshow.1
      have hc : c ≠ 0 := fun h => hs (h ▸ (.head _))
      have hrest : CStringAt (seen byte) (ptr + (i + 1)) s := ⟨fun h => hs (.tail _ h), hshow.2⟩
      simp only [copyCstr, hb, if_neg hc, ih hrest, append_assoc, singleton_append,
        length_cons, add_lt_add_iff_right, take_succ_cons]

/-- **A string that is accepted is held behind those before it.** -/
theorem Holds.push (h : buf.Holds ss) (hs : CStringAt (seen byte) ptr s)
    (hpush : (buf.pushCstr byte ptr).1 = true) : (buf.pushCstr byte ptr).2.Holds (ss ++ [s]) := by
  have hcopy : copyCstr byte ptr (maxExecStr - 1 - buf.data.length) 0 buf.data = _ := copyCstr_eq hs
  unfold pushCstr at hpush ⊢
  by_cases hcount : buf.strings.length ≥ maxExecArgs
  · simp [hcount] at hpush
  by_cases hptr : ptr = 0
  · simp [hcount, hptr] at hpush
  rw [if_neg hcount, if_neg hptr, hcopy] at hpush ⊢
  by_cases hroom : s.length < maxExecStr - 1 - buf.data.length
  · rw [if_pos hroom]
    simp only
    have hlen := length_offsetsFrom 0 ss
    rw [← h.strings] at hlen
    refine ⟨?_, ?_, fun t ht => ?_, ?_, ?_⟩
    · rw [bytesOf_append, h.data, append_assoc]
    · rw [offsetsFrom_append, h.strings, ← h.data, zero_add, length_append, Nat.add_sub_cancel_left]
    · rcases mem_append.1 ht with ht | ht
      · exact h.nonzero t ht
      · exact mem_singleton.1 ht ▸ hs.1
    · rw [length_append, length_singleton]
      omega
    · simp only [length_append, length_singleton]
      omega
  · simp [if_neg hroom] at hpush

/-- All strings at the pointers are accepted, one after the other. -/
def Accepts (byte : ℕ → UInt8) : ExecStrBuf → List ℕ → Prop
  | _, [] => True
  | buf, ptr :: ptrs =>
    (buf.pushCstr byte ptr).1 = true ∧ Accepts byte (buf.pushCstr byte ptr).2 ptrs

instance decidableAccepts (byte : ℕ → UInt8) :
    (buf : ExecStrBuf) → (ptrs : List ℕ) → Decidable (Accepts byte buf ptrs)
  | _, [] => inferInstanceAs (Decidable True)
  | buf, ptr :: ptrs =>
    have := decidableAccepts byte (buf.pushCstr byte ptr).2 ptrs
    inferInstanceAs (Decidable (_ ∧ _))

/-- The pointers of an array that a null pointer ends, if the `n` turns of the loop get to it. -/
def Pointers (m : CallerMemory) (base : ℕ) : ℕ → ℕ → List ℕ → Prop
  | 0, _, [] => True
  | 0, _, _ :: _ => False
  | _ + 1, i, [] => m.pointer (wadd base (i * 8)) = some 0
  | n + 1, i, ptr :: ptrs =>
    m.pointer (wadd base (i * 8)) = some ptr ∧ ptr ≠ 0 ∧ Pointers m base n (i + 1) ptrs

theorem Holds.collect {m : CallerMemory} {base n i : ℕ} {ptrs : List ℕ} {ts : List (List UInt8)}
    (h : buf.Holds ss) (hptrs : Pointers m base n i ptrs)
    (hts : Forall₂ (CStringAt (seen m.byte)) ptrs ts) (hacc : Accepts m.byte buf ptrs) :
    (collect m base n i buf).Holds (ss ++ ts) := by
  induction hts generalizing n i buf ss with
  | nil =>
    rw [append_nil]
    cases n with
    | zero => exact h
    | succ =>
      have hnull : m.pointer (wadd base (i * 8)) = some 0 := hptrs
      simpa [collect, hnull] using h
  | @cons ptr t ptrs ts ht _ ih =>
    cases n with
    | zero => exact absurd hptrs id
    | succ =>
      obtain ⟨hptr, hne, hrest⟩ := hptrs
      obtain ⟨hpush, hacc⟩ := hacc
      simp only [collect, hptr, if_neg hne]
      have hall := ih (h.push ht hpush) hrest hacc
      rwa [append_assoc, singleton_append] at hall

end ExecStrBuf

/-- The array at `base` is a list of strings, all of which `push_cstr` accepts. -/
def CallerMemory.Passes (m : CallerMemory) (base : ℕ) (ss : List (List UInt8)) : Prop :=
  base = 0 ∧ ss = [] ∨ base ≠ 0 ∧ ∃ ptrs, ExecStrBuf.Pointers m base maxExecArgs 0 ptrs ∧
    List.Forall₂ (CStringAt (ExecStrBuf.seen m.byte)) ptrs ss ∧
    ExecStrBuf.Accepts m.byte .empty ptrs

theorem CallerMemory.Passes.holds {m : CallerMemory} {base : ℕ} {ss : List (List UInt8)}
    (h : m.Passes base ss) : (ExecStrBuf.ofCaller m base).Holds ss := by
  have hempty : ExecStrBuf.empty.Holds [] := ⟨rfl, rfl, nofun, zero_le _, by decide⟩
  unfold ExecStrBuf.ofCaller
  rcases h with ⟨rfl, rfl⟩ | ⟨hbase, ptrs, hptrs, hss, hacc⟩
  · exact hempty
  · rw [if_pos hbase]
    exact hempty.collect hptrs hss hacc

/-! ### The frame -/

namespace ExecArgs

open ExecStrBuf Libc

variable {a : ExecArgs} {argv envp : List (List UInt8)} {read : ℕ → Option UInt8}

/-- Adding up the lengths leads to the offsets. -/
theorem argvPtrs_offsetsFrom (base off : ℕ) (ss : List (List UInt8)) :
    argvPtrs base off (offsetsFrom off ss) = (offsetsFrom off ss).map fun x => base + x.1 := by
  induction ss generalizing off with
  | nil => rfl
  | cons s ss ih => rw [offsetsFrom, argvPtrs, ih, map_cons]

theorem length_words (a : ExecArgs) : 8 * a.words.length = a.totalPtrBytes := by
  have hargv : ∀ base off strings, (argvPtrs base off strings).length = strings.length := by
    intro base off strings
    induction strings generalizing off with
    | nil => rfl
    | cons x strings ih => rw [argvPtrs, length_cons, ih, length_cons]
  simp only [words, totalPtrBytes, auxv, length_append, length_cons, length_map, length_nil, hargv]
  omega

theorem length_frame (a : ExecArgs) :
    a.frame.length = a.totalPtrBytes + a.argv.data.length + a.envp.data.length + 16 := by
  have hrand : a.randBytes.length = 16 := by
    rw [randBytes, length_append, length_leBytes, length_leBytes]
  rw [frame, length_append, length_append, length_append, length_flatMap_leBytes,
    length_words, hrand]

/-- Strings that were accepted fit the stack. -/
theorem frameSize_le (hv : a.argv.Holds argv) (he : a.envp.Holds envp) :
    a.frameSize ≤ userStackSize := by
  have hv1 := hv.length_le
  have he1 := he.length_le
  have hv2 := hv.data_lt
  have he2 := he.data_lt
  simp only [frameSize, totalPtrBytes, hv.strings, he.strings, length_offsetsFrom]
  unfold alignUp alignDown wadd maxExecArgs maxExecStr userStackSize pageSize at *
  omega

/-- The frame is inside the stack, at a multiple of 16. -/
theorem userSp_spec (hv : a.argv.Holds argv) (he : a.envp.Holds envp) :
    16 ∣ a.userSp ∧ userStackTop - userStackSize ≤ a.userSp ∧
      a.userSp + a.frame.length ≤ userStackTop := by
  have hlen := length_frame a
  have hsize := frameSize_le hv he
  have hdata : a.argv.data.length + a.envp.data.length + 16 + a.totalPtrBytes ≤ a.frameSize := by
    have hv2 := hv.data_lt
    have he2 := he.data_lt
    unfold frameSize alignUp alignDown wadd maxExecStr at *
    omega
  have hsp : a.userSp ≤ userStackTop - a.frameSize := alignDown_le _ _
  refine ⟨dvd_alignDown _ _, ?_, ?_⟩
  · unfold userSp alignDown userStackTop userStackSize pageSize at *
    omega
  · unfold userStackTop userStackSize pageSize at *
    omega

/-- The pairs of the auxiliary vector before the one that ends it. -/
def auxPairs (a : ExecArgs) : List (ℕ × ℕ) :=
  [(25, a.randVa), (6, pageSize), (11, 0), (12, 0), (13, 0), (14, 0), (256, a.vfsPort)]

theorem auxv_eq (a : ExecArgs) : a.auxv = a.auxPairs.flatMap (fun p => [p.1, p.2]) ++ [0, 0] := rfl

theorem auxPairs_tag {p : ℕ × ℕ} (h : p ∈ a.auxPairs) : p.1 % 2 ^ 64 ≠ 0 := by
  have htag : p.1 ∈ a.auxPairs.map Prod.fst := mem_map_of_mem h
  simp only [auxPairs, map_cons, map_nil, mem_cons, not_mem_nil, or_false]
    at htag
  omega

/-- Strings one after the other, and pointers to them. -/
theorem forall₂_strings {base off : ℕ} {ss : List (List UInt8)}
    (h : Shows read (base + off) (bytesOf ss)) (hnz : ∀ s ∈ ss, 0 ∉ s) (hpos : 0 < base)
    (hlt : base + off + (bytesOf ss).length < 2 ^ 64) :
    List.Forall₂ (fun p s => p ≠ 0 ∧ p < 2 ^ 64 ∧ CStringAt read p s)
      ((offsetsFrom off ss).map fun x => base + x.1) ss := by
  induction ss generalizing off with
  | nil => exact .nil
  | cons s ss ih =>
    have hcons : bytesOf (s :: ss) = (s ++ [0]) ++ bytesOf ss := flatMap_cons
    have hlen : (s ++ [0]).length = s.length + 1 := by simp
    rw [hcons, shows_append, hlen] at h
    rw [hcons, length_append, hlen] at hlt
    have hoff : base + (off + s.length + 1) = base + off + (s.length + 1) := by omega
    have hrest := ih (hoff ▸ h.2) (fun t ht => hnz t (.tail _ ht)) (by omega)
    refine .cons ⟨?_, ?_, hnz s (.head _), h.1⟩ hrest
    · exact Nat.ne_of_gt (Nat.add_pos_left hpos off)
    · exact lt_of_le_of_lt (le_add_right _ _) hlt

/-- **What `__libc_start_main` reads from the frame.** -/
theorem libcStartMain_frame (hv : a.argv.Holds argv) (he : a.envp.Holds envp)
    (h : Shows read a.userSp a.frame) {fuel : ℕ} (hfuel : maxExecArgs < fuel) :
    ∃ m, libcStartMain read fuel a.userSp = some m ∧ m.argc = argv.length ∧
      StringArray read m.argv argv ∧ StringArray read m.envp envp := by
  obtain ⟨-, hlo, hhi⟩ := userSp_spec hv he
  have hlen := length_frame a
  have hargvLen := hv.length_le
  have henvpLen := he.length_le
  have htotal : a.totalPtrBytes = (1 + argv.length + 1 + envp.length + 1 + 8 * 2) * 8 := by
    rw [totalPtrBytes, hv.strings, he.strings, length_offsetsFrom, length_offsetsFrom]
  have hpos : 0 < a.userSp := lt_of_lt_of_le (by decide) hlo
  have htop : userStackTop < 2 ^ 64 := by decide
  -- the three parts of the frame that are used
  rw [frame, shows_append, shows_append, shows_append] at h
  obtain ⟨⟨⟨hwords, hargvData⟩, henvpData⟩, -⟩ := h
  rw [length_flatMap_leBytes, length_words, hv.data] at hargvData
  rw [length_append, length_flatMap_leBytes, length_words, he.data, ← add_assoc]
    at henvpData
  have hbase : a.strBaseVa = a.userSp + a.totalPtrBytes := rfl
  rw [← hbase] at hargvData henvpData
  have hargvPtrs := @forall₂_strings read a.strBaseVa 0 argv hargvData hv.nonzero (by omega)
    (by rw [← hv.data]; omega)
  have henvpPtrs := @forall₂_strings read (a.strBaseVa + a.argv.data.length) 0 envp henvpData
    he.nonzero (by omega) (by rw [← he.data]; omega)
  -- the words are the count, the two arrays and the auxiliary vector
  have hsplit : a.words = [argv.length] ++
      (((offsetsFrom 0 argv).map fun x => a.strBaseVa + x.1) ++ [0] ++
        ((((offsetsFrom 0 envp).map fun x => a.strBaseVa + a.argv.data.length + x.1) ++ [0]) ++
          a.auxv)) := by
    rw [words, hv.strings, he.strings, argvPtrs_offsetsFrom, length_offsetsFrom]
    simp
  obtain ⟨⟨hargc, -⟩, hrest⟩ := words_append.1 (hsplit ▸ hwords.words)
  obtain ⟨hargv, hrest⟩ := words_append.1 hrest
  obtain ⟨henvp, hauxv⟩ := words_append.1 hrest
  simp only [length_append, length_map, length_offsetsFrom, length_singleton,
    mul_one] at hargv henvp hauxv
  have harr := hargv.stringArray hargvPtrs
  have hearr := henvp.stringArray henvpPtrs
  have hskip := skipStrings_eq hearr (by omega) (lt_of_le_of_lt henvpLen hfuel)
  have hpairs : a.auxPairs.length = 7 := rfl
  have hturns : a.auxPairs.length < fuel := lt_trans (by rw [hpairs]; decide) hfuel
  have hparse := parseAuxv_eq (a.auxv_eq ▸ hauxv) (fun p hp => auxPairs_tag hp)
    (by rw [hpairs]; omega) hturns
  refine ⟨⟨argv.length, a.userSp + 8, a.userSp + 8 + 8 * (argv.length + 1)⟩, ?_, rfl, harr, hearr⟩
  unfold maxExecArgs at hargvLen
  have hcount : argv.length % 2 ^ 64 = argv.length := by omega
  have hargvAddr : wadd a.userSp 8 = a.userSp + 8 := wadd_of_lt (by omega)
  have henvpAddr : wadd (a.userSp + 8) (8 * (argv.length + 1)) =
      a.userSp + 8 + 8 * (argv.length + 1) := wadd_of_lt (by omega)
  have hauxvAddr : wadd (a.userSp + 8 + 8 * (argv.length + 1) + 8 * envp.length) 8 =
      a.userSp + 8 + 8 * (argv.length + 1) + 8 * (envp.length + 1) := by
    rw [wadd_of_lt (by omega)]
    omega
  obtain ⟨hbmod, htoNat⟩ := bmod_spec (n := argv.length) (by omega)
  simp only [libcStartMain, hargc, hcount, bind_eq_bind, bind_some, hbmod, htoNat,
    hargvAddr, henvpAddr, hskip, hauxvAddr, hparse]

end ExecArgs

/-! ### From `execve` to `main` -/

section Image

variable {W : Type} [KernelMachine W] {emTarget : ℕ} {image : List UInt8} {args : ExecArgs}
  {s : AddressSpace} {w w' : W}

/-- The last steps of building an image: map the stack, and write the frame. -/
theorem buildImage_ok (h : buildImage emTarget image args w = some (.ok s, w')) :
    ∃ (s₁ : AddressSpace) (w₁ w₂ : W) (phys : ℕ),
      s₁.map w₁ (userStackTop - userStackSize) userStackSize (.ofUser true false) =
        some (true, s, w₂) ∧
      s.virtToPhys args.userSp = some phys ∧ w' = writeBytes w₂ phys args.frame := by
  have hdiscard : ∀ {s₁ : AddressSpace} {w₁ : W} {errno : ℤ},
      discard s₁ w₁ errno ≠ some (.ok s, w') := by
    intro s₁ w₁ errno h
    obtain ⟨w₂, -, h⟩ := bind_eq_some_iff.1 h
    cases h
  unfold buildImage at h
  split at h
  · cases h
  obtain ⟨⟨res, s₁, w₁⟩, -, h⟩ := bind_eq_some_iff.1 h
  cases res with
  | error => exact absurd h hdiscard
  | ok =>
    obtain ⟨⟨ok, s₂, w₂⟩, hmap, h⟩ := bind_eq_some_iff.1 h
    simp only at h
    split at h
    · exact absurd h hdiscard
    next hok =>
    split at h
    · exact absurd h hdiscard
    split at h
    · exact absurd h hdiscard
    next phys hphys =>
    obtain ⟨hs, hw⟩ := pair_inj h
    obtain rfl : s₂ = s := Except.ok.inj hs
    obtain rfl : ok = true := by simpa using hok
    exact ⟨s₁, w₁, w₂, phys, hmap, hphys, hw.symm⟩

/-- The errors of `execve`, when the frame is not too large. -/
theorem buildImage_error {errno : ℤ} (hfits : args.frameSize ≤ userStackSize)
    (h : buildImage emTarget image args w = some (.error errno, w')) :
    errno = -12 ∨ errno = -8 := by
  have hdiscard : ∀ {s₁ : AddressSpace} {w₁ : W} {e : ℤ},
      discard s₁ w₁ e = some (.error errno, w') → e = errno := by
    intro s₁ w₁ e h
    obtain ⟨w₂, -, h⟩ := bind_eq_some_iff.1 h
    exact Except.error.inj (pair_inj h).1
  unfold buildImage at h
  split at h
  · exact .inl (Except.error.inj (pair_inj h).1).symm
  obtain ⟨⟨res, s₁, w₁⟩, -, h⟩ := bind_eq_some_iff.1 h
  cases res with
  | error => exact .inr (hdiscard h).symm
  | ok =>
    obtain ⟨⟨ok, s₂, w₂⟩, -, h⟩ := bind_eq_some_iff.1 h
    simp only at h
    split at h
    · exact .inl (hdiscard h).symm
    split at h
    · next hlarge => exact absurd hlarge (not_lt.2 hfits)
    split at h
    · exact .inl (hdiscard h).symm
    · cases h

end Image

namespace Host

variable {s s' : AddressSpace} {w w' : Host}

/-- Dropping an address space changes neither memory nor page tables. -/
theorem drop_view (h : s.drop w = some w') : w'.mem = w.mem ∧ w'.pt = w.pt := by
  refine drop_keeps (J := fun w₁ : Host => w₁.mem = w.mem ∧ w₁.pt = w.pt) ?_ h
    ⟨rfl, rfl⟩
  rintro w₁ w₂ a order hfree ⟨hmem, hpt⟩
  obtain ⟨hframes, hmem2⟩ := buddyFree_toFrames hfree
  have hframes := Frames.buddyFree_some hframes
  refine ⟨hmem2.trans hmem, ?_⟩
  rw [hframes]
  exact hpt

theorem userByte_congr (hmem : w'.mem = w.mem) (hpt : w'.pt = w.pt) (root : ℕ) :
    w'.userByte root = w.userByte root := by
  funext va
  rw [userByte, userByte, translate, translate, hmem, hpt]

/-- What is written to a range that was mapped is what the program sees there. -/
theorem shows_writeBytes {root v phys n va : ℕ} {flags : PageFlags} {bytes : List UInt8}
    (h : w.Maps root v phys n flags) (hdvd : pageSize ∣ v) (hva : v ≤ va)
    (hlen : va + bytes.length ≤ v + n * pageSize) :
    Shows ((writeBytes w (phys + (va - v)) bytes).userByte root) va bytes := by
  have hmaps : (writeBytes w (phys + (va - v)) bytes).Maps root v phys n flags := h
  refine shows_of_getElem fun i hi => ?_
  rw [hmaps.userByte hdvd (by omega) (by omega)]
  have haddr : phys + (va + i - v) = phys + (va - v) + i := by omega
  have hin : phys + (va - v) ≤ phys + (va - v) + i ∧
      phys + (va - v) + i < phys + (va - v) + bytes.length := by omega
  rw [haddr, writeBytes_mem, if_pos hin, Nat.add_sub_cancel_left, getD_eq_getElem?_getD,
    getElem?_eq_getElem hi, getD_some]

end Host

/-- The arguments that `sys_execve` makes from the caller's two arrays. -/
def CallerMemory.execArgs (m : CallerMemory) (argvPtr envpPtr ticks vfsPort : ℕ) : ExecArgs :=
  ⟨.ofCaller m argvPtr, .ofCaller m envpPtr, ticks, vfsPort⟩

/-- The process `p'` is about to run the image with the arguments. -/
structure Started (emTarget : ℕ) (image : List UInt8) (args : ExecArgs) (p p' : Process Host)
    (argv envp : List (List UInt8)) : Prop where
  /-- The stack pointer is aligned. -/
  aligned : 16 ∣ args.userSp
  /-- The frame is written last, to the physical memory behind the stack that was just mapped. -/
  written : ∃ (s₁ : AddressSpace) (w₁ w₂ : Host) (phys : ℕ),
    s₁.map w₁ (userStackTop - userStackSize) userStackSize (.ofUser true false) =
      some (true, p'.as, w₂) ∧
    buildImage emTarget image args p.w = some (.ok p'.as, writeBytes w₂ phys args.frame) ∧
    ∀ i < args.frame.length, userStackTop - userStackSize ≤ args.userSp + i ∧
      args.userSp + i < userStackTop ∧
      w₂.translate p'.as.pageTableRoot (args.userSp + i) = some (phys + i)
  /-- The program finds its arguments. -/
  main : ∀ fuel, maxExecArgs < fuel → ∃ m,
    Libc.libcStartMain (p'.w.userByte p'.as.pageTableRoot) fuel args.userSp = some m ∧
      m.argc = argv.length ∧ StringArray (p'.w.userByte p'.as.pageTableRoot) m.argv argv ∧
      StringArray (p'.w.userByte p'.as.pageTableRoot) m.envp envp

/-- **A program is started with the strings its caller passed.** -/
theorem execve_round_trip {m : CallerMemory} {argv envp : List (List UInt8)} {image : List UInt8}
    {emTarget argvPtr envpPtr ticks vfsPort : ℕ} {p p' : Process Host} {r : ℤ}
    (hargv : m.Passes argvPtr argv) (henvp : m.Passes envpPtr envp)
    (h : p.sysExecve emTarget image (m.execArgs argvPtr envpPtr ticks vfsPort) = some (r, p')) :
    r ≠ -22 ∧ (r = 0 →
      Started emTarget image (m.execArgs argvPtr envpPtr ticks vfsPort) p p' argv envp) := by
  have hv : (m.execArgs argvPtr envpPtr ticks vfsPort).argv.Holds argv := hargv.holds
  have he : (m.execArgs argvPtr envpPtr ticks vfsPort).envp.Holds envp := henvp.holds
  generalize m.execArgs argvPtr envpPtr ticks vfsPort = args at h hv he ⊢
  obtain ⟨⟨res, w₁⟩, hbuild, h⟩ := bind_eq_some_iff.1 h
  cases res with
  | error =>
    cases h
    have herr := buildImage_error (ExecArgs.frameSize_le hv he) hbuild
    exact ⟨by omega, fun h0 => absurd h0 (by omega)⟩
  | ok =>
    obtain ⟨w₂, hdrop, h⟩ := bind_eq_some_iff.1 h
    cases h
    refine ⟨by decide, fun _ => ?_⟩
    obtain ⟨hmem, hpt⟩ := Host.drop_view hdrop
    obtain ⟨s₁, w₃, w₄, phys, hmap, hphys, rfl⟩ := buildImage_ok hbuild
    obtain ⟨haligned, hlo, hhi⟩ := ExecArgs.userSp_spec hv he
    obtain ⟨slot, v, n, a, -, hplace, -, rfl, hfresh, -, hmaps, -, -⟩ := Host.map_spec hmap
    obtain ⟨-, -, hvirt, hpages, -, -⟩ := place_spec hplace
    have hv0 : v = userStackTop - userStackSize := hvirt.trans (by decide)
    have hn : n = 8 := hpages.trans (by decide)
    have hdvd : pageSize ∣ v := hvirt ▸ dvd_alignDown _ _
    have htop : v + n * pageSize = userStackTop := by rw [hv0, hn]; decide
    have hlen := ExecArgs.length_frame args
    -- the kernel finds the block behind the stack through the region
    have hfind : (s₁.setRegion slot (eagerRegion v n a (.ofUser true false))).find
        args.userSp = some (eagerRegion v n a (.ofUser true false)) :=
      find_setRegion hplace rfl rfl (hv0 ▸ hlo) (by omega)
    have hblock : a + 8 * pageSize ≤ 2 ^ 64 := by
      have hle := hfresh.2.1
      rw [hn] at hle
      exact hle
    have hoff : args.userSp - v < 8 * pageSize := by
      rw [hn] at htop
      omega
    have hphys' : phys = a + (args.userSp - v) := by
      rw [virtToPhys, hfind] at hphys
      cases hphys
      exact wadd_of_lt (by simp only [eagerRegion]; omega)
    subst hphys'
    have hshow : Shows
        ((writeBytes w₄ (a + (args.userSp - v)) args.frame).userByte s₁.pageTableRoot)
        args.userSp args.frame := Host.shows_writeBytes hmaps hdvd (hv0 ▸ hlo) (by omega)
    refine ⟨haligned, ⟨s₁, w₃, w₄, _, hmap, hbuild, fun i hi => ⟨?_, ?_, ?_⟩⟩, fun fuel hfuel => ?_⟩
    · omega
    · omega
    · exact (hmaps.translate hdvd (by omega) (by omega)).trans (congrArg some (by omega))
    · rw [Host.userByte_congr hmem hpt]
      exact ExecArgs.libcStartMain_frame hv he hshow hfuel

/-- A caller with the arguments `"hi"` and `"you"` and the environment `"A=1"`, which are at
`0x1000`. -/
def saysHi : CallerMemory where
  pointer addr := some (if addr = 0x2000 then 0x1000 else if addr = 0x2008 then 0x1003
    else if addr = 0x2100 then 0x1007 else 0)
  byte addr := [104, 105, 0, 121, 111, 117, 0, 65, 61, 49, 0].getD (addr - 0x1000) 0

theorem saysHi_argv : saysHi.Passes 0x2000 [[104, 105], [121, 111, 117]] := by
  refine .inr ⟨by decide, [0x1000, 0x1003], ⟨rfl, by decide, rfl, by decide, rfl⟩,
    .cons ⟨by decide, ?_⟩ (.cons ⟨by decide, ?_⟩ .nil), by decide⟩
  · exact ⟨rfl, rfl, rfl, trivial⟩
  · exact ⟨rfl, rfl, rfl, rfl, trivial⟩

theorem saysHi_envp : saysHi.Passes 0x2100 [[65, 61, 49]] := by
  refine .inr ⟨by decide, [0x1007], ⟨rfl, by decide, rfl⟩, .cons ⟨by decide, ?_⟩ .nil, by decide⟩
  exact ⟨rfl, rfl, rfl, rfl, trivial⟩

/-- The tiny image is started with the arguments and the environment. -/
theorem execve_says_hi :
    ∃ p', Started 183 Elf.tinyImage (saysHi.execArgs 0x2000 0x2100 0 0) ⟨.new 0, 0, Host.roomy⟩ p'
      [[104, 105], [121, 111, 117]] [[65, 61, 49]] := by
  have hrun : ((Process.sysExecve 183 ⟨.new 0, 0, Host.roomy⟩ Elf.tinyImage
      (saysHi.execArgs 0x2000 0x2100 0 0)).map Prod.fst) = some 0 := by decide +kernel
  obtain ⟨⟨r, p'⟩, h, rfl⟩ := map_eq_some_iff.1 hrun
  exact ⟨p', (execve_round_trip saysHi_argv saysHi_envp h).2 rfl⟩

end Cyanos
