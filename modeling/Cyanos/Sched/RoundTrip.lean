import Mathlib.Data.Fintype.EquivFin
import Mathlib.Data.List.Induction
import Cyanos.Mm.VmmSpec
import Cyanos.Sched.Sigreturn
import Cyanos.Sched.Delivery

/-!
# A signal handler and back

Delivery writes the interrupted registers and mask into a signal frame, and `rt_sigreturn` loads
them back.  The frame itself loses nothing.  What the task resumes with is not the frame loaded,
though: the stub then stores the result of `rt_sigreturn`, zero, where the frame has `x0`; and the
mask saved is the one found when the signal is taken, after the signals dropped before it.

## Main results

* `Signal.saved_saveFrame`, `Signal.loadFrame_of_saved` : the frame gives back the registers and
  the mask saved.
* `Signal.transparent_iff` : a handler that leaves the frame alone is invisible exactly when the
  interrupted `x0` is zero and the signals dropped have `SA_NODEFER`.
* `Signal.handler_clears_x0` : a task interrupted with `x0 = 7` resumes with `x0 = 0`.
* `Signal.frameOnly_contiguous` : the frame is written to the user's stack exactly when the bytes
  behind it follow the first one.
-/

namespace Cyanos.Signal

open Lib List Option UserFrame Nat AddressSpace

/-! ### Words in memory -/

namespace Bytes

variable {m m' : Bytes} {a b n k v p off off' : ℕ}

theorem load_congr (h : ∀ i < n, m (a + i) = m' (a + i)) : m.load a n = m'.load a n := by
  induction n generalizing a with
  | zero => rfl
  | succ n ih =>
    have h0 : m a = m' a := h 0 (succ_pos n)
    have hrest : ∀ i < n, m (a + 1 + i) = m' (a + 1 + i) := fun i hi => by
      have := h (i + 1) (by omega)
      rwa [add_comm i 1, ← add_assoc] at this
    rw [load, load, h0, ih hrest]

theorem load_store_self : (m.store a n v).load a n = v % 256 ^ n := by
  -- the bytes above `k` of the word stored are those of the word without its `k` lowest bytes
  have hload : ∀ j k, k + j = n → (m.store a n v).load (a + k) j = v / 256 ^ k % 256 ^ j := by
    intro j
    induction j with
    | zero => intro k _; simp [load, mod_one]
    | succ j ih =>
      intro k hk
      have hbyte : (m.store a n v (a + k)).toNat = v / 256 ^ k % 256 := by
        rw [store, if_pos ⟨by omega, by omega⟩, Nat.add_sub_cancel_left]
        simp
      rw [load, hbyte, add_assoc, ih (k + 1) (by omega), pow_succ, pow_succ,
        ← Nat.div_div_eq_div_mul, Nat.mul_comm (256 ^ j) 256, Nat.mod_mul]
  simpa using hload n 0 (zero_add n)

/-- A record of `sigframeSize` bytes at `p` does not wrap around. -/
def Fits (p : ℕ) : Prop := p + sigframeSize ≤ 2 ^ 64

theorem Fits.wadd (hp : Fits p) (h : off + 8 ≤ sigframeSize) : wadd p off = p + off := by
  rw [Fits] at hp
  exact wadd_of_lt (by omega)

theorem word_setWord_self {w : BitVec 64} : (m.setWord p off w).word p off = w := by
  rw [word, setWord, load_store_self, mod_eq_of_lt (show w.toNat < 256 ^ 8 from w.isLt),
    BitVec.ofNat_toNat, BitVec.setWidth_eq]

theorem word_setWord_of_disjoint {w : BitVec 64} (hp : Fits p) (ho : off + 8 ≤ sigframeSize)
    (ho' : off' + 8 ≤ sigframeSize) (h : off + 8 ≤ off' ∨ off' + 8 ≤ off) :
    (m.setWord p off' w).word p off = m.word p off := by
  rw [word, setWord, word, hp.wadd ho, hp.wadd ho']
  refine congrArg _ (load_congr fun i hi => if_neg ?_)
  omega

theorem word_congr (hp : Fits p) (ho : off + 8 ≤ sigframeSize)
    (h : ∀ k < sigframeSize, m (p + k) = m' (p + k)) : m.word p off = m'.word p off := by
  rw [word, word, hp.wadd ho, load_congr fun i hi => ?_]
  rw [add_assoc]
  exact h _ (by omega)

end Bytes

/-! ### The frame -/

section Frame

variable {m : Bytes} {p off sig : ℕ} {oldMask : BitVec 64} {f : UserFrame}

theorem word_saveRegs_of_disjoint (hp : Bytes.Fits p) (ho : off + 8 ≤ sigframeSize)
    (h : off + 8 ≤ regsOffset ∨ regsOffset + 31 * 8 ≤ off) (l : List (Fin 31)) :
    (saveRegs p f l m).word p off = m.word p off := by
  induction l generalizing m with
  | nil => rfl
  | cons i l ih =>
    refine ih.trans (Bytes.word_setWord_of_disjoint hp ho ?_ ?_) <;>
      simp only [regsOffset, sigframeSize] at * <;> omega

theorem word_saveRegs (hp : Bytes.Fits p) {l : List (Fin 31)} (hl : l.Nodup) {i : Fin 31}
    (hi : i ∈ l) : (saveRegs p f l m).word p (regsOffset + i * 8) = f.reg i := by
  induction l using reverseRecOn with
  | nil => cases hi
  | append_singleton l j ih =>
    rw [saveRegs, foldl_append, foldl_cons, foldl_nil]
    by_cases hij : i = j
    · rw [hij, Bytes.word_setWord_self, UserFrame.reg]
    · -- a later register lies elsewhere
      have hne : (i : ℕ) ≠ j := fun h => hij (Fin.ext h)
      rw [Bytes.word_setWord_of_disjoint hp] <;> try (simp only [regsOffset, sigframeSize]; omega)
      exact ih (nodup_append.1 hl).1 (by simpa [hij] using hi)

/-- The words of the signal frame that `rt_sigreturn` reads. -/
structure Saved (m : Bytes) (p : ℕ) (oldMask : BitVec 64) (f : UserFrame) : Prop where
  regs : ∀ i : Fin 31, m.word p (regsOffset + i * 8) = f.reg i
  sp : m.word p spOffset = f.spEl0
  pc : m.word p pcOffset = f.elrEl1
  pstate : m.word p pstateOffset = f.spsrEl1
  mask : m.word p sigmaskOffset = oldMask

theorem saved_saveFrame (hp : Bytes.Fits p) : Saved (saveFrame m p sig oldMask f) p oldMask f := by
  have hskip : ∀ {m : Bytes} {off off' : ℕ} {w : BitVec 64}, off + 8 ≤ sigframeSize →
      off' + 8 ≤ sigframeSize → off + 8 ≤ off' ∨ off' + 8 ≤ off →
      (m.setWord p off' w).word p off = m.word p off :=
    fun ho ho' h => Bytes.word_setWord_of_disjoint hp ho ho' h
  refine ⟨fun i => ?_, ?_, ?_, Bytes.word_setWord_self, ?_⟩
  · have hi := i.isLt
    rw [saveFrame, hskip, hskip, hskip] <;>
      try (simp only [regsOffset, spOffset, pcOffset, pstateOffset, sigframeSize]; omega)
    exact word_saveRegs hp (nodup_finRange 31) (mem_finRange i)
  · rw [saveFrame, hskip (by decide) (by decide) (by decide),
      hskip (by decide) (by decide) (by decide), Bytes.word_setWord_self]
  · rw [saveFrame, hskip (by decide) (by decide) (by decide), Bytes.word_setWord_self]
  · rw [saveFrame, hskip (by decide) (by decide) (by decide),
      hskip (by decide) (by decide) (by decide), hskip (by decide) (by decide) (by decide)]
    rw [← saveRegs, word_saveRegs_of_disjoint hp (by decide) (by decide),
      hskip (by decide) (by decide) (by decide), Bytes.word_setWord_self]

theorem Saved.congr {m' : Bytes} (h : Saved m p oldMask f) (hp : Bytes.Fits p)
    (hm : ∀ k < sigframeSize, m' (p + k) = m (p + k)) : Saved m' p oldMask f where
  regs i := by
    refine (Bytes.word_congr hp ?_ hm).trans (h.regs i)
    rw [regsOffset, sigframeSize]
    omega
  sp := (Bytes.word_congr hp (by decide) hm).trans h.sp
  pc := (Bytes.word_congr hp (by decide) hm).trans h.pc
  pstate := (Bytes.word_congr hp (by decide) hm).trans h.pstate
  mask := (Bytes.word_congr hp (by decide) hm).trans h.mask

/-- **A signal frame gives back the registers and the mask saved in it.** -/
theorem loadFrame_of_saved {c : Cpu} (h : Saved c.mem p oldMask f) :
    c.loadFrame p =
      { c with
        frame := f
        task := c.task.map fun t => { t with signalMask := oldMask } } := by
  have hx : (Vector.ofFn fun i : Fin 31 => c.mem.word p (regsOffset + i * 8)) = f.x := by
    refine Vector.ext fun i hi => ?_
    rw [Vector.getElem_ofFn]
    exact h.regs ..
  rw [Cpu.loadFrame, hx, h.sp, h.pc, h.pstate, h.mask]

end Frame

/-! ### Delivery -/

variable {p : ℕ} {c : Cpu}

theorem virtToPhys_lt {s : AddressSpace} {virt : ℕ} (h : s.virtToPhys virt = some p) :
    p < 2 ^ 64 := by
  obtain ⟨vma, -, hp⟩ := bind_eq_some_iff.1 h
  split at hp
  · simp only at hp
    split at hp
    · cases hp
    · rw [← some.inj hp]
      exact wadd_lt _ _
  · rw [← some.inj hp]
    exact wadd_lt _ _

theorem Cpu.translate_lt {virt : ℕ} (h : c.translate virt = some p) : p < 2 ^ 64 := by
  obtain ⟨s, -, hs⟩ := bind_eq_some_iff.1 h
  exact virtToPhys_lt hs

/-! ### The way back -/

/-- A handler entered at `c₁` comes back with `rt_sigreturn` at `c₂`, its frame at `p`. -/
structure HandlerReturns (c₁ c₂ : Cpu) (p : ℕ) : Prop where
  /-- The memory behind the frame is contiguous. -/
  backed : ∀ k < sigframeSize, c₁.translate (c₁.frame.spEl0.toNat + k) = some (p + k)
  /-- The handler leaves the frame unchanged. -/
  unchanged : ∀ k < sigframeSize, c₂.mem (p + k) = c₁.mem (p + k)
  /-- `rt_sigreturn` is issued with the stack pointer at the frame. -/
  sp : c₂.frame.spEl0 = c₁.frame.spEl0
  /-- The frame is still mapped where it was. -/
  mapped : c₂.translate c₁.frame.spEl0.toNat = some p
  /-- No further signal is pending. -/
  quiet : ∀ t, c₂.task = some t → t.signalPending = 0

theorem HandlerReturns.fits {c₁ c₂ : Cpu} (h : HandlerReturns c₁ c₂ p) : Bytes.Fits p := by
  have hlast := Cpu.translate_lt (h.backed (sigframeSize - 1) (by decide))
  rw [sigframeSize] at hlast
  rw [Bytes.Fits, sigframeSize]
  omega

/-- The context `rt_sigreturn` resumes with: the one saved, but for the result written over
`x0`. -/
theorem svcState_sigreturn {t : Task} {oldMask : BitVec 64} {f : UserFrame} (ht : c.task = some t)
    (hp : c.translate c.frame.spEl0.toNat = some p) (hsaved : Saved c.mem p oldMask f)
    (hquiet : t.signalPending = 0) :
    svcState sysRtSigreturn 0 c =
      some
        { c with
          frame := f.setReg 0 0
          task := some { t with signalMask := oldMask } } := by
  have hcall := sysRtSigreturn_eq_some.2 ⟨p, hp, rfl, rfl⟩
  rw [svcState, dispatch, hcall, map_some, bind_some, loadFrame_of_saved hsaved]
  simp only [Cpu.raise, Cpu.setResult, ht, map_some, checkAndDeliverSignals]
  -- nothing is pending, so the loop stops at once
  rw [deliver, dif_pos (by simp [hquiet])]
  simp [setReg]

/-- What delivery to a handler leaves: its frame, saved, and the interrupted context in it. -/
theorem saved_of_delivered {c₁ : Cpu} {t t' : Task} {bit : Fin 4} {dropped : List (Fin 4)}
    (ht : c.task = some t) (hloop : signalLoop t = (dropped, .enter bit t'))
    (h : checkAndDeliverSignals c = some c₁) (hp : c₁.translate c₁.frame.spEl0.toNat = some p)
    (hfits : Bytes.Fits p) : Saved c₁.mem p t'.signalMask c.frame := by
  simp only [checkAndDeliverSignals, if_neg c.pid_ne, ht] at h
  rw [deliver_eq, hloop] at h
  obtain ⟨q, -, hq, hmem⟩ := (prepare_spec h).1
  obtain rfl := mem_unique hq hp
  rw [hmem]
  exact saved_saveFrame hfits

/-- **A signal handler that leaves its frame alone and returns with `rt_sigreturn` is invisible to
the task it interrupted exactly when the interrupted `x0` was zero and every signal dropped
before the one delivered has `SA_NODEFER`.** -/
theorem transparent_iff {c c₁ c₂ : Cpu} {t t' : Task} {bit : Fin 4} {dropped : List (Fin 4)}
    {p : ℕ} (ht : c.task = some t) (hloop : signalLoop t = (dropped, .enter bit t'))
    (hdeliver : checkAndDeliverSignals c = some c₁) (hback : HandlerReturns c₁ c₂ p) :
    (∃ c₃, svcState sysRtSigreturn 0 c₂ = some c₃ ∧ excEl0Return c₃.frame = c.frame ∧
        c₃.task.map Task.signalMask = some t.signalMask) ↔
      c.frame.reg 0 = 0 ∧ ∀ b ∈ dropped, t.NoDefer b := by
  have hsaved := saved_of_delivered ht hloop hdeliver (hback.backed 0 (by decide)) hback.fits
  have hsaved2 := hsaved.congr hback.fits hback.unchanged
  have hp : c₂.translate c₂.frame.spEl0.toNat = some p := by rw [hback.sp, hback.mapped]
  obtain ⟨t₂, ht2⟩ : ∃ t₂, c₂.task = some t₂ := by
    obtain ⟨s, hs, -⟩ := bind_eq_some_iff.1 hp
    obtain ⟨t₂, ht2, -⟩ := bind_eq_some_iff.1 hs
    exact ⟨t₂, ht2⟩
  rw [svcState_sigreturn ht2 hp hsaved2 (hback.quiet t₂ ht2), ← signalLoop_mask hloop]
  simp only [some.injEq, exists_eq_left', excEl0Return_eq, map_some]
  refine and_congr_left fun _ => ?_
  constructor
  · intro hframe
    have hx := congrArg UserFrame.x hframe
    rw [UserFrame.reg, ← hx]
    exact Vector.getElem_set_self _
  · intro hx
    rw [← hx]
    exact UserFrame.ext (Vector.set_getElem_self _) rfl rfl rfl

/-- A stack of eight pages. -/
def stackSpace : AddressSpace where
  pageTableRoot := 0x1000
  regions := [some ⟨0x10000, 0x18000, 0x100000, .ofUser true false, false, []⟩]
  heapStart := 0
  heapEnd := 0

/-- A task with its first signal pending, and a handler for it. -/
def pendingTask : Task where
  addressSpace := some stackSpace
  signalPending := 1
  signalMask := 0
  signalActions := Vector.replicate 4 ⟨0x400000, 0, 0, 0⟩

/-- That task on the way back to user space, with the value `x0` in its first register. -/
def interrupted (x0 : BitVec 64) : Cpu where
  pid := 1
  pid_ne := Nat.one_ne_zero
  task := some pendingTask
  frame := ⟨Vector.ofFn fun i => if i.val = 0 then x0 else 0, 0x14000, 0x500000, 0⟩
  mem := fun _ => 0

theorem signalLoop_pendingTask : signalLoop pendingTask = ([], .enter 0 pendingTask) := by
  rw [@signalLoop_of_lt _ (by decide) 0 (by decide +kernel) (by decide), if_neg (by decide)]
  exact if_neg (by decide)

theorem stackSpace_virtToPhys {k : ℕ} (hk : k < sigframeSize) :
    stackSpace.virtToPhys (0x12dc0 + k) = some (0x102dc0 + k) := by
  simp only [sigframeSize] at hk
  have hcovers : (⟨0x10000, 0x18000, 0x100000, .ofUser true false, false, []⟩ :
      VmaRegion).Covers (0x12dc0 + k) := ⟨by simp only; omega, by simp only; omega⟩
  have hphys : wadd 0x100000 (0x12dc0 + k - 0x10000) = 0x102dc0 + k := by
    rw [wadd_of_lt (by omega)]
    omega
  simp [stackSpace, AddressSpace.virtToPhys, AddressSpace.find, AddressSpace.lookup, hcovers, hphys]

theorem interrupted_delivered (x0 : BitVec 64) :
    ∃ c₁, checkAndDeliverSignals (interrupted x0) = some c₁ ∧ HandlerReturns c₁ c₁ 0x102dc0 := by
  have hsp : (interrupted x0).newSp = 0x12dc0 := by
    change alignDown (0x14000 - sigframeSize) 16 = 0x12dc0
    decide
  have hroom : (interrupted x0).Room 0x102dc0 := by
    rw [Cpu.Room, hsp]
    exact ⟨by change 4672 ≤ 0x14000; decide, by decide, by decide,
      stackSpace_virtToPhys (k := 0) (by decide)⟩
  obtain ⟨c₁, h1, -, hframe, htask⟩ := prepare_of_room
    (c := { interrupted x0 with task := some (pendingTask.take 0) }) hroom 1 0x400000 0 0
  have htoNat : c₁.frame.spEl0.toNat = 0x12dc0 := by
    rw [hframe]
    change (BitVec.ofNat 64 (interrupted x0).newSp).toNat = _
    rw [hsp]
    rfl
  have hmapped : ∀ k < sigframeSize,
      c₁.translate (c₁.frame.spEl0.toNat + k) = some (0x102dc0 + k) := by
    intro k hk
    rw [htoNat, Cpu.translate, htask]
    exact stackSpace_virtToPhys hk
  refine ⟨c₁, ?_, hmapped, fun _ _ => rfl, rfl, hmapped 0 (by decide), fun t ht => ?_⟩
  · simp only [checkAndDeliverSignals, if_neg (Cpu.pid_ne _)]
    exact (deliver_eq _ pendingTask).trans (by rw [signalLoop_pendingTask]; exact h1)
  · rw [htask] at ht
    rw [← some.inj ht]
    decide

/-- With `x0 = 0` the task does not see the handler. -/
theorem transparent_iff_zero :
    ∃ c₁, checkAndDeliverSignals (interrupted 0) = some c₁ ∧
      ∃ c₃, svcState sysRtSigreturn 0 c₁ = some c₃ ∧
        excEl0Return c₃.frame = (interrupted 0).frame ∧
        c₃.task.map Task.signalMask = some pendingTask.signalMask := by
  obtain ⟨c₁, h1, hback⟩ := interrupted_delivered 0
  exact ⟨c₁, h1, (transparent_iff rfl signalLoop_pendingTask h1 hback).2 ⟨by decide, forall_mem_nil _⟩⟩

/-- **A task interrupted with `x0 = 7` resumes with `x0 = 0`.** -/
theorem handler_clears_x0 :
    ∃ c₁ c₃, checkAndDeliverSignals (interrupted 7) = some c₁ ∧
      HandlerReturns c₁ c₁ 0x102dc0 ∧ svcState sysRtSigreturn 0 c₁ = some c₃ ∧
      (interrupted 7).frame.reg 0 = 7 ∧ (excEl0Return c₃.frame).reg 0 = 0 := by
  obtain ⟨c₁, h1, hback⟩ := interrupted_delivered 7
  have hmapped := hback.backed 0 (by decide)
  have hsaved := saved_of_delivered rfl signalLoop_pendingTask h1 hmapped hback.fits
  obtain ⟨s, hs, -⟩ := bind_eq_some_iff.1 hmapped
  obtain ⟨t, ht, -⟩ := bind_eq_some_iff.1 hs
  refine ⟨c₁, _, h1, hback, svcState_sigreturn ht hmapped hsaved (hback.quiet t ht), by decide, ?_⟩
  rw [excEl0Return_eq]
  exact Vector.getElem_set_self _

/-! ### Where the frame is written -/

section Written

variable {m m' : Bytes} {p off sig x : ℕ} {oldMask v : BitVec 64} {f : UserFrame}

theorem Bytes.store_of_not_mem {a n k : ℕ} (h : x < a ∨ a + n ≤ x) : m.store a n k x = m x :=
  if_neg (by omega)

theorem Bytes.setWord_congr (h : m x = m' x) : m.setWord p off v x = m'.setWord p off v x := by
  simp only [setWord, store, h]

theorem Bytes.Fits.setWord (hp : Fits p) (hx : x < p ∨ p + sigframeSize ≤ x)
    (ho : off + 8 ≤ sigframeSize) : m.setWord p off v x = m x := by
  rw [Bytes.setWord, hp.wadd ho, store_of_not_mem (by omega)]

/-- What is in the frame does not depend on the memory before. -/
theorem saveFrame_congr (hx : p ≤ x ∧ x < p + sigframeSize) :
    saveFrame m p sig oldMask f x = saveFrame m' p sig oldMask f x := by
  refine Bytes.setWord_congr (Bytes.setWord_congr (Bytes.setWord_congr ?_))
  refine foldl_rel (r := fun m m' : Bytes => m x = m' x) ?_ fun _ _ _ _ => Bytes.setWord_congr
  refine Bytes.setWord_congr (Bytes.setWord_congr ?_)
  simp only [Bytes.store, if_pos hx]

theorem saveFrame_of_not_mem (hp : Bytes.Fits p) (hx : x < p ∨ p + sigframeSize ≤ x) :
    saveFrame m p sig oldMask f x = m x := by
  have hword : ∀ {m : Bytes} {off : ℕ} {v : BitVec 64}, off + 8 ≤ sigframeSize →
      m.setWord p off v x = m x := hp.setWord hx
  unfold saveFrame
  rw [hword (by decide), hword (by decide), hword (by decide)]
  refine foldlRecOn (motive := fun m' : Bytes => m' x = m x) _ _ ?_ fun m' hm' i _ => ?_
  · have hle : 4 ≤ sigframeSize := by decide
    rw [hword (by decide), hword (by decide), Bytes.store_of_not_mem (by omega),
      Bytes.store_of_not_mem hx]
  · rw [hword (by rw [regsOffset, sigframeSize]; omega), hm']

end Written

/-- The byte `x` backs an address of the frame. -/
def Cpu.Backs (c : Cpu) (x : ℕ) : Prop := ∃ k < sigframeSize, c.translate (c.newSp + k) = some x

/-- `prepare` writes no other memory than that behind the frame, and fails if an address of the
frame is not backed. -/
structure FrameOnly (c : Cpu) (sig : ℕ) (handler restorer oldMask : BitVec 64) : Prop where
  writes : ∀ m c', prepare { c with mem := m } sig handler restorer oldMask = some c' →
    ∀ x, ¬ c.Backs x → c'.mem x = m x
  fails : (∃ k < sigframeSize, c.translate (c.newSp + k) = none) →
    prepare c sig handler restorer oldMask = none

variable {c c' : Cpu} {sig p : ℕ} {handler restorer oldMask : BitVec 64}

/-- The bytes behind the frame follow each other. -/
def Cpu.Contiguous (c : Cpu) (p : ℕ) : Prop :=
  ∀ k < sigframeSize, c.translate (c.newSp + k) = some (p + k)

/-- The regions of the task and the pages behind them begin and end with a page. -/
def Cpu.PageBacked (c : Cpu) : Prop :=
  ∀ s, c.task.bind Task.addressSpace = some s → ∀ r, some r ∈ s.regions →
    pageSize ∣ r.start ∧ pageSize ∣ r.end_ ∧ pageSize ∣ r.phys ∧ ∀ f ∈ r.lazyPages, pageSize ∣ f

/-- Translation keeps the offset in the page, and the next byte of the page follows. -/
theorem Cpu.PageBacked.translate (hc : c.PageBacked) {v x : ℕ} (h : c.translate v = some x) :
    x % pageSize = v % pageSize ∧
      ((v + 1) % pageSize ≠ 0 → c.translate (v + 1) = some (x + 1)) := by
  obtain ⟨s, hs, h⟩ := bind_eq_some_iff.1 h
  obtain ⟨r, hr, h⟩ := bind_eq_some_iff.1 h
  obtain ⟨hmem, hstart, hend⟩ := find_spec hr
  obtain ⟨hds, hde, hdp, hdf⟩ := hc s hs r hmem
  have hnext : (v + 1) % pageSize ≠ 0 → s.find (v + 1) = some r := by
    intro hv
    rw [← hr]
    refine find_congr fun q hq => ?_
    -- a region has all of a page, or nothing of it
    obtain ⟨hqs, hqe, -⟩ := hc s hs q hq
    unfold VmaRegion.Covers pageSize at *
    omega
  have hpage : ∀ {a o}, pageSize ∣ a → o % pageSize = v % pageSize →
      wadd a o % pageSize = v % pageSize ∧
        ((v + 1) % pageSize ≠ 0 → wadd a (o + 1) = wadd a o + 1) := by
    intro a o ha ho
    unfold wadd pageSize at *
    omega
  have hoff : (v - r.start) % pageSize = v % pageSize := by
    unfold pageSize at *
    omega
  rw [Cpu.translate, hs, bind_some, virtToPhys]
  by_cases hl : r.lazy = true
  · simp only [hl, if_true] at h
    split at h
    · cases h
    next hne =>
    cases h
    have hd : pageSize ∣ r.lazyPages.getD ((v - r.start) / pageSize) 0 := by
      rw [getD_eq_getElem?_getD] at hne ⊢
      cases hget : r.lazyPages[(v - r.start) / pageSize]? with
      | none => exact dvd_zero _
      | some f => exact hdf f (mem_of_getElem? hget)
    have hmod : (v - r.start) % pageSize % pageSize = v % pageSize := by rw [mod_mod, hoff]
    refine ⟨(hpage hd hmod).1, fun hv => ?_⟩
    have hdiv : (v + 1 - r.start) / pageSize = (v - r.start) / pageSize ∧
        (v + 1 - r.start) % pageSize = (v - r.start) % pageSize + 1 := by
      unfold pageSize at *
      omega
    simp only [hnext hv, bind_some, hl, if_true, hdiv.1, hdiv.2, if_neg hne, (hpage hd hmod).2 hv]
  · rw [if_neg hl] at h
    cases h
    refine ⟨(hpage hdp hoff).1, fun hv => ?_⟩
    have hsub : v + 1 - r.start = v - r.start + 1 := by omega
    rw [hnext hv, bind_some, if_neg hl, hsub, (hpage hdp hoff).2 hv]

/-- **Less than two pages whose bytes are those from `p` on are in order.** -/
theorem contiguous_of_onto {T : ℕ → Option ℕ} {v n : ℕ} (hn : n < 2 * pageSize) (h0 : T v = some p)
    (hpage : ∀ {v x}, T v = some x → x % pageSize = v % pageSize ∧
      ((v + 1) % pageSize ≠ 0 → T (v + 1) = some (x + 1)))
    (honto : ∀ k < n, ∃ j < n, T (v + j) = some (p + k)) (k : ℕ) (hk : k < n) :
    T (v + k) = some (p + k) := by
  -- as many addresses as bytes
  obtain ⟨f, hinj, hf⟩ : ∃ f : Fin n → Fin n, f.Injective ∧
      ∀ k : Fin n, T (v + k) = some (p + f k) := by
    choose g hlt hg using fun i : Fin n => honto i i.isLt
    have hbij : Function.Bijective fun i => (⟨g i, hlt i⟩ : Fin n) := by
      refine Finite.injective_iff_bijective.1 fun i j hij => ?_
      have heq := hg i
      rw [show g i = g j from congrArg Fin.val hij, hg j] at heq
      exact Fin.ext (by simpa using heq.symm)
    have hsurj := Equiv.ofBijective_apply_symm_apply _ hbij
    refine ⟨_, (Equiv.ofBijective _ hbij).symm.injective, fun k => ?_⟩
    rw [← hg, show g _ = k from congrArg Fin.val (hsurj k)]
  induction k using Nat.strong_induction_on with
  | _ k ih =>
    obtain ⟨i, hi⟩ : ∃ i, f ⟨k, hk⟩ = i := ⟨_, rfl⟩
    have hki : T (v + k) = some (p + i) := hi ▸ hf ⟨k, hk⟩
    suffices hik : i.val = k by rw [hki, hik]
    have hge : k ≤ i := by
      by_contra hlt
      have heq := (hf i).symm.trans (ih i (by omega) i.isLt)
      have hfix : f i = i := Fin.ext (by simpa using heq)
      have := congrArg Fin.val (hinj (hi.trans hfix.symm))
      simp only at this
      omega
    have hmod := (hpage hki).1
    have hmod0 := (hpage h0).1
    by_contra hne
    have hfar : i.val = k + pageSize := by
      unfold pageSize at *
      omega
    -- a page begins at `k`, since the byte before it is in its place
    have hbegin : (v + k) % pageSize = 0 := by
      by_contra hin
      obtain _ | j := k
      · rw [add_zero, h0] at hki
        simp at hki
        omega
      · have hnext := (hpage (ih j (by omega) (by omega))).2 hin
        have heq := hnext.symm.trans hki
        simp at heq
        omega
    -- and is too far to end in the range
    have hrun : ∀ m < pageSize, T (v + k + m) = some (p + i + m) := by
      intro m hm
      induction m with
      | zero => exact hki
      | succ m ih' =>
        have hnext := (hpage (ih' (by omega))).2 (by unfold pageSize at *; omega)
        exact hnext
    have hout := hf ⟨n - pageSize, by unfold pageSize at *; omega⟩
    have hend := hrun (n - pageSize - k) (by unfold pageSize at *; omega)
    rw [show v + k + (n - pageSize - k) = v + (n - pageSize) by omega, hout] at hend
    simp at hend
    omega

/-- **Signal frames are written to the user's stack when there is no room for one, or the bytes
behind it follow each other**; and, where regions consist of pages, only then. -/
theorem frameOnly_contiguous (sig : ℕ) (handler restorer oldMask : BitVec 64) :
    (c.PageBacked → FrameOnly c sig handler restorer oldMask → ∀ p, c.Room p → c.Contiguous p) ∧
      ((∀ p, c.Room p → c.Contiguous p) → FrameOnly c sig handler restorer oldMask) := by
  constructor
  · intro hc h p hroom
    have hbacks : ∀ k < sigframeSize, c.Backs (p + k) := by
      intro k hk
      by_contra hback
      -- the byte would keep any value it had
      have hkeeps : ∀ m, saveFrame m p sig oldMask c.frame (p + k) = m (p + k) := by
        intro m
        obtain ⟨c₁, hc1, hmem, -⟩ := prepare_of_room (c := { c with mem := m }) hroom _ _ _ _
        rw [← hmem]
        exact h.writes m c₁ hc1 _ hback
      have hzero := hkeeps fun _ => 0
      have hone := hkeeps fun _ => 1
      rw [saveFrame_congr ⟨by omega, by omega⟩, hzero] at hone
      cases hone
    exact contiguous_of_onto (by decide) hroom.2.2.2 hc.translate hbacks
  · intro h
    constructor
    · intro m c' hc' x hx
      obtain ⟨⟨p, hroom, -, hmem⟩, -⟩ := prepare_spec hc'
      have hcont := h p hroom
      have hfits : Bytes.Fits p := by
        have hlast := Cpu.translate_lt (hcont (sigframeSize - 1) (by decide))
        simp only [Bytes.Fits, sigframeSize] at *
        omega
      rw [hmem]
      refine saveFrame_of_not_mem hfits ?_
      by_contra hin
      refine hx ⟨x - p, by omega, ?_⟩
      rw [hcont _ (by omega), Nat.add_sub_cancel' (by omega)]
    · rintro ⟨k, hk, hnone⟩
      by_contra hsome
      obtain ⟨c', hc'⟩ := ne_none_iff_exists'.1 hsome
      obtain ⟨⟨p, hroom, -⟩, -⟩ := prepare_spec hc'
      cases hnone.symm.trans (h p hroom k hk)

/-- A frame in the middle of the stack. -/
theorem frameOnly_interrupted :
    (interrupted 0).PageBacked ∧ FrameOnly (interrupted 0) 1 0x400000 0 0 := by
  refine ⟨?_, (frameOnly_contiguous 1 0x400000 0 0).2 ?_⟩
  · rintro _ ⟨⟩ r hr
    obtain rfl : r = _ := some.inj (mem_singleton.1 hr)
    decide
  · rintro p ⟨-, -, -, hp⟩ k hk
    cases hp.symm.trans (stackSpace_virtToPhys (k := 0) (by decide))
    exact stackSpace_virtToPhys hk

/-- The stack pointer is past the end of the stack, and the frame goes on behind it. -/
theorem frame_past_stack :
    let c := { interrupted 0 with frame := { (interrupted 0).frame with spEl0 := 0x18240 } }
    (prepare c 1 0x400000 0 0).isSome ∧ c.translate (c.newSp + 4096) = none ∧
      ¬ FrameOnly c 1 0x400000 0 0 := by
  refine ⟨by decide, by decide, fun h => ?_⟩
  exact absurd (h.fails ⟨4096, by decide, by decide⟩) (by decide)

end Cyanos.Signal
