import Cyanos.Kernel.ImageUpkeep
import Cyanos.Mm.Orders

/-!
# The order assertion

The kernel goes down when `buddy::alloc` or `buddy::free` is called with an order of `MAX_ORDER` or
more.  `sys_mmap` lets file mappings of up to 256 MiB through, the largest block has 4 MiB, and the
ELF loader maps segments of any size.  `brk` moves the end of whatever region starts at the heap's
start, also of a file mapping that was put there.

## Main results

* `Kernel.ends_run` : **no request trips the assertion** in runs in which file mappings, segments and
  breaks of file mappings stay within one largest block.
* `Kernel.panic_after_mmap` : a file mapping of 8 MiB does.
-/

namespace Cyanos

open Lib Machine MemMachine FileMachine AddressSpace Elf Option

/-! ### Processes -/

namespace Process

section

variable {W : Type} [FileMachine W] [AssertsOrder W] {p : Process W} {addr virt len prot : ℕ}
  {pageFlags : PageFlags} {fixed : Bool}

theorem ends_unmapFixed (fixed : Bool) (virt len : ℕ) (h : p.as.Small) :
    Ends (p.unmapFixed fixed virt len) fun p' => p'.as.Small := by
  unfold unmapFixed
  split
  · exact (ends_unmapRange virt len h).map fun _ hs => hs
  · exact ends_some h

omit [AssertsOrder W] in
theorem ends_sysMprotect (addr len prot : ℕ) (h : p.as.Small) :
    Ends (p.sysMprotect addr len prot) fun r => r.2.as.Small := by
  unfold sysMprotect
  split
  · exact ends_some h
  · exact (ends_mprotect addr len prot h).bind fun _ hs => ends_some hs

theorem ends_mmapAnonymous (addr virt len : ℕ) (pageFlags : PageFlags) (fixed : Bool)
    (h : p.as.Small) : Ends (p.mmapAnonymous addr virt len pageFlags fixed) fun r => r.2.as.Small := by
  refine (ends_unmapFixed fixed virt len h).bind fun p₁ h1 => ?_
  split
  · next hm => exact ends_some (small_mapLazy h1 hm)
  · next as hm =>
    have h2 := small_mapLazy h1 hm
    split
    swap
    · exact ends_some h2
    simp only
    split
    · next hm => exact ends_some (small_mapLazy h2 hm)
    · next hm => exact ends_some (small_mapLazy h2 hm)

theorem ends_mmapFile (virt prot fd off : ℕ) (pageFlags : PageFlags) (fixed : Bool)
    (hlen : alignUp len pageSize ≤ maxBlock) (h : p.as.Small) :
    Ends (p.mmapFile virt len prot pageFlags fixed fd off) fun r => r.2.as.Small := by
  unfold mmapFile
  generalize (if off ≠ 0 then vfsLseek p.w fd off else (0, p.w)) = seek
  obtain ⟨r, w₀⟩ := seek
  simp only
  split
  · exact ends_some h
  refine (ends_unmapFixed (p := { p with w := w₀ }) fixed virt len h).bind fun p₁ h1 => ?_
  refine (ends_map h1 hlen).bind ?_
  rintro ⟨ok, as, w⟩ h2
  split
  · exact ends_some h2
  split
  · exact (ends_unmapRange virt len h2).bind fun _ hs => ends_some hs
  split
  · exact ends_some h2
  · refine (ends_sysMprotect virt len prot ?_).bind fun _ hs => ends_some hs
    exact h2

/-- A file mapping has the size of one block at most, and an eager region at the heap's start keeps
such a size. -/
def OrderGuard (as : AddressSpace) : MemCall → Prop
  | .mmap _ len _ flags _ _ => mapAnonymous flags = false → alignUp len pageSize ≤ maxBlock
  | .brk newEnd => as.BreakSmall newEnd
  | _ => True

theorem ends_sysMmap (addr len prot flags fd off : ℕ) (h : p.as.Small)
    (hg : mapAnonymous flags = false → alignUp len pageSize ≤ maxBlock) :
    Ends (p.sysMmap addr len prot flags fd off) fun r => r.2.as.Small := by
  simp only [sysMmap]
  split
  · exact ends_some h
  split
  · exact ends_some h
  next hmax =>
  split
  · exact ends_some h
  split
  · exact ends_some h
  -- the target: the address given, or the bump address
  generalize htarget : (if addr ≠ 0 then (addr, p)
    else (p.mmapBump, { p with mmapBump := wadd p.mmapBump (alignUp len pageSize) })) = target
  obtain ⟨virt, p₁⟩ := target
  have h1 : p₁.as.Small := by
    split at htarget
    · cases htarget
      exact h
    · cases htarget
      exact h
  split
  · exact ends_some h1
  split
  · exact ends_some h1
  split
  · exact ends_mmapAnonymous _ _ _ _ _ h1
  · next hanon =>
    refine ends_mmapFile _ _ _ _ _ _ ?_ h1
    have hlen := pages_of_dvd (dvd_alignUp _ _) (not_lt.1 hmax)
    rw [alignUp, alignDown, hlen]
    exact hg (by simpa using hanon)

/-- A memory call ends. -/
theorem ends_memCall {c : MemCall} (h : p.as.Small) (hg : OrderGuard p.as c) :
    Ends (p.memCall c) fun r => r.2.as.Small := by
  cases c with
  | mmap addr len prot flags fd off => exact ends_sysMmap addr len prot flags fd off h hg
  | munmap virt size =>
    simp only [memCall, sysUnmapMem]
    split
    · exact ends_some h
    split
    · exact ends_some h
    · exact (ends_unmapFixed true virt size h).map fun _ hs => hs
  | mremap oldAddr oldSize newSize =>
    simp only [memCall, sysMremap]
    split
    · exact ends_some h
    split
    · exact (ends_unmapFixed true _ _ h).map fun _ hs => hs
    refine (ends_sysMmap _ newSize 3 0x22 _ 0 h fun hfile => by cases hfile).bind fun r h1 => ?_
    split
    · exact ends_some h1
    · exact (ends_unmapFixed true oldAddr oldSize h1).map fun _ hs => hs
  | mprotect addr len prot => exact ends_sysMprotect addr len prot h
  | brk => exact (ends_brk h hg).bind fun _ hs => ends_some hs
  | fault va =>
    refine Ends.map ?_ fun _ hs => hs
    exact (ends_handleUserPageFault va h).bind fun _ hs => ends_some hs

end

end Process

/-! ### Images -/

section Images

variable {W : Type} [KernelMachine W] [AssertsOrder W] {s : AddressSpace} {w : W} {emTarget : ℕ}
  {image bytes : List UInt8}

/-- Every segment of the image has the size of one block at most. -/
def ImageSmall (emTarget : ℕ) (image : List UInt8) : Prop :=
  ∀ ph, Elf.IsSegment emTarget image ph → alignUp ph.mapSize pageSize ≤ maxBlock

theorem ends_loadSegment {ph : Elf.Phdr} (hph : alignUp ph.mapSize pageSize ≤ maxBlock)
    (h : s.Small) : Ends (loadSegment bytes ph s w) fun r => r.2.1.Small := by
  unfold loadSegment
  split
  · exact ends_some h
  next hend =>
  split
  · exact ends_some h
  next hlen =>
  obtain ⟨-, rfl⟩ := checkedAdd_eq_some.1 hend
  refine (ends_map h hph).bind ?_
  rintro ⟨ok, s₁, w₁⟩ h1
  simp only
  split
  · exact ends_some h1
  split
  · exact ends_some h1
  rw [slice_of_le (not_lt.1 hlen)]
  split
  · exact ends_some h1
  · exact ends_some h1

theorem ends_loadSegments {eh : Ehdr} {n i : ℕ} (highest : ℕ)
    (hph : ∀ j ph, i ≤ j → j < i + n →
      parsePhdr bytes (eh.ePhoff + j * eh.ePhentsize) = some (.ok ph) → ph.Loads →
      alignUp ph.mapSize pageSize ≤ maxBlock)
    (h : s.Small) : Ends (loadSegments bytes eh n i highest s w) fun r => r.2.1.Small := by
  induction n generalizing i highest s w with
  | zero => exact ends_some h
  | succ n ih =>
    have hrest : ∀ j ph, i + 1 ≤ j → j < i + 1 + n →
        parsePhdr bytes (eh.ePhoff + j * eh.ePhentsize) = some (.ok ph) → ph.Loads →
        alignUp ph.mapSize pageSize ≤ maxBlock :=
      fun j ph hj hj' => hph j ph (by omega) (by omega)
    refine (ends_phdr _).bind ?_
    rintro (_ | ph) hparse
    · exact ends_some h
    simp only
    split
    swap
    · exact ih highest hrest h
    next hload =>
    refine (ends_loadSegment (hph i ph le_rfl (by omega) hparse hload) h).bind ?_
    rintro ⟨_ | segEnd, s₁, w₁⟩ h1
    · exact ends_some h1
    · exact ih _ hrest h1

/-- The ELF loader ends. -/
theorem ends_load (himage : ImageSmall emTarget image) (h : s.Small) :
    Ends (load emTarget image s w) fun r => r.2.1.Small := by
  refine (ends_ehdr emTarget).bind ?_
  rintro (_ | eh) heh
  · exact ends_some h
  simp only
  split
  · exact ends_some h
  split
  · exact ends_some h
  refine (ends_loadSegments 0 (fun j ph _ hj hparse hload =>
    himage ph ⟨eh, j, heh, by omega, hparse, hload⟩) h).bind ?_
  rintro ⟨_ | highest, s₁, w₁⟩ h1
  · exact ends_some h1
  · exact ends_some fun r hr => h1 r (by simpa using hr)

theorem ends_discard {α : Type} (errno : α) (h : s.Small) :
    Ends (discard s w errno) fun r => ∀ as, r.1 = .ok as → as.Small := by
  refine (ends_drop h).bind fun _ _ => ends_some ?_
  rintro _ ⟨⟩

theorem ends_buildImage (args : ExecArgs) (himage : ImageSmall emTarget image) :
    Ends (buildImage emTarget image args w) fun r => ∀ as, r.1 = .ok as → as.Small := by
  unfold buildImage
  split
  · refine ends_some ?_
    rintro _ ⟨⟩
  refine (ends_load himage (all_new _)).bind ?_
  rintro ⟨_ | entry, s₁, w₁⟩ h1
  · exact ends_discard _ h1
  refine (ends_map h1 (by decide)).bind ?_
  rintro ⟨ok, s₂, w₂⟩ h2
  simp only
  split
  · exact ends_discard _ h2
  split
  · exact ends_discard _ h2
  split
  · exact ends_discard _ h2
  · refine ends_some ?_
    rintro _ ⟨⟩
    exact h2

theorem ends_buildInit (himage : ImageSmall emTarget image) :
    Ends (buildInit emTarget image w) fun r => ∀ as, r.1 = .ok as → as.Small := by
  unfold buildInit
  split
  · refine ends_some ?_
    rintro _ ⟨⟩
  refine (ends_load himage (all_new _)).bind ?_
  rintro ⟨_ | entry, s₁, w₁⟩ h1
  · exact ends_discard _ h1
  simp only
  split
  · exact ends_discard _ h1
  refine (ends_map h1 (by decide)).bind ?_
  rintro ⟨ok, s₂, w₂⟩ h2
  split
  · exact ends_discard _ h2
  split
  · exact ends_discard _ h2
  split
  · exact ends_discard _ h2
  · refine ends_some ?_
    rintro _ ⟨⟩
    exact h2

end Images

/-! ### The kernel -/

namespace Kernel

variable {W : Type} [KernelMachine W]

theorem small_image_upkeep : ImageUpkeep (W := W) VmaRegion.Small (fun _ => True) (fun _ => True) :=
  { small_upkeep with
    copied := fun _ => trivial
    written := fun _ => trivial
    rooted := fun _ => trivial }

/-- Every eager region of every task is small. -/
def Small (k : Kernel W) : Prop := k.Kept VmaRegion.Small fun _ => True

/-- What a task asks for: one of the actions, or to wait for a task that has exited. -/
inductive Request
  | act (a : Action)
  | wait (pid : ℕ)

/-- The kernel after a request. -/
def serve (emTarget : ℕ) (k : Kernel W) : Request → Option (Kernel W)
  | .act a => k.step emTarget a
  | .wait pid => (k.waitPid pid).map Prod.snd

/-- The task that makes the request is there. -/
def Makes (k : Kernel W) : Request → Prop
  | .act (.call pid _) => k.Live pid
  | .act (.execve pid _ _) => k.Live pid
  | .act (.fork pid _) => k.Live pid
  | .act (.cloneThread pid _ _) => k.Live pid
  | .act (.exit pid _) => k.Live pid
  | _ => True

/-- File mappings, segments and breaks of file mappings stay within one largest block. -/
def OrderGuard (emTarget : ℕ) (k : Kernel W) : Request → Prop
  | .act (.call pid c) => ∀ as, (k.rq.findPid pid).bind Task.addressSpace = some as →
    Process.OrderGuard as c
  | .act (.execve _ image _) => ImageSmall emTarget image
  | .act (.spawnElf image) => ImageSmall emTarget image
  | _ => True

section

variable [AssertsOrder W] {k : Kernel W} {emTarget : ℕ}

theorem ends_dropSpace {w : W} {s : Option AddressSpace} (h : ∀ as, s = some as → as.Small) :
    Ends (dropSpace w s) fun _ => True := by
  cases s with
  | none => exact ends_some trivial
  | some as => exact ends_drop (h as rfl)

theorem ends_undo {stack order : ℕ} (root : ℕ) (errno : ℤ) (h : order < maxOrder) :
    Ends (k.undo stack order root errno) fun _ => True :=
  (ends_free h).bind fun _ _ => (ends_free (by decide)).finish

theorem ends_forkEnqueue {parentPid stack root : ℕ} {childAs : AddressSpace} (h : childAs.Small) :
    Ends (k.forkEnqueue parentPid stack root childAs) fun _ => True := by
  unfold forkEnqueue
  split
  · exact (ends_undo root _ (by decide)).bind fun _ _ => (ends_drop h).finish
  · simp only
    split
    · exact ends_some trivial
    · exact (ends_drop h).bind fun _ _ => ends_undo root _ (by decide)

theorem ends_forkCurrent (later : RunQueue) (framePtr pid : ℕ) (h : k.Small) :
    Ends (k.forkCurrent later framePtr pid) fun _ => True := by
  unfold forkCurrent forkWith
  split
  · exact ends_some trivial
  split
  · exact ends_some trivial
  refine (ends_alloc (by decide)).bind ?_
  rintro ⟨_ | stack, w₁⟩ -
  · exact ends_some trivial
  simp only
  split
  · exact (ends_free (by decide)).finish
  split
  · exact ends_undo _ _ (by decide)
  next t ht =>
  split
  · exact ends_undo _ _ (by decide)
  next as has =>
  refine (ends_cloneAs (h.findPid ht as has)).bind ?_
  rintro ⟨_ | childAs, w₂⟩ hchild
  · exact ends_undo _ _ (by decide)
  · exact ends_forkEnqueue (hchild childAs rfl)

theorem ends_cloneThread (framePtr pid : ℕ) (args : CloneArgs) :
    Ends (k.cloneThread framePtr pid args) fun _ => True := by
  unfold cloneThread
  split
  · exact ends_some trivial
  split
  · exact ends_some trivial
  refine (ends_alloc (by decide)).bind ?_
  rintro ⟨_ | stack, w₁⟩ -
  · exact ends_some trivial
  simp only
  split
  · exact (ends_free (by decide)).finish
  split
  · exact ends_some trivial
  · exact (ends_free (by decide)).finish

theorem ends_spawn : Ends k.spawn fun _ => True := by
  refine (ends_alloc (by decide)).bind ?_
  rintro ⟨_ | stack, w₁⟩ -
  · exact ends_some trivial
  simp only
  split
  · exact ends_some trivial
  · exact (ends_free (by decide)).finish

theorem ends_spawnUser {as : AddressSpace} (h : as.Small) :
    Ends (k.spawnUserWithAddressSpace as) fun _ => True := by
  refine (ends_alloc (by decide)).bind ?_
  rintro ⟨_ | stack, w₁⟩ -
  · exact (ends_drop h).finish
  simp only
  split
  · exact ends_some trivial
  · exact (ends_drop h).bind fun _ _ => (ends_free (by decide)).finish

theorem ends_reap (idx : ℕ) (h : k.Small) : Ends (k.reap idx) fun _ => True := by
  unfold reap
  split
  swap
  · exact ends_some trivial
  next t ht =>
  split
  swap
  · exact ends_some trivial
  exact (ends_dropSpace (h.spaces t (RunQueue.mem_of_get ht))).bind fun _ _ =>
    (ends_free (by decide)).finish

theorem ends_waitPid (pid : ℕ) (h : k.Small) : Ends (k.waitPid pid) fun r => r.2.Small := by
  unfold waitPid
  split
  swap
  · exact ends_some h
  split
  swap
  · exact ends_some h
  next t ht =>
  split
  swap
  · exact ends_some h
  refine (ends_dropSpace (h.spaces t (RunQueue.mem_of_get ht))).bind fun _ _ => ends_some ?_
  exact ⟨fun t ht => h.spaces t (RunQueue.mem_remove ht), trivial⟩

theorem ends_sysExecve (pid : ℕ) {image : List UInt8} (args : ExecArgs)
    (himage : ImageSmall emTarget image) (h : k.Small) :
    Ends (k.sysExecve emTarget pid image args) fun _ => True := by
  refine (ends_buildImage args himage).bind ?_
  rintro ⟨_ | as, w₁⟩ -
  · exact ends_some trivial
  refine (ends_dropSpace fun s hs => ?_).finish
  obtain ⟨t, ht, hts⟩ := bind_eq_some_iff.1 hs
  exact h.findPid ht s hts

theorem ends_memCall (pid : ℕ) {c : MemCall} (h : k.Small)
    (hg : k.OrderGuard emTarget (.act (.call pid c))) : Ends (k.memCall pid c) fun _ => True := by
  unfold memCall
  split
  · exact ends_some trivial
  · next as has =>
    obtain ⟨t, ht, hts⟩ := bind_eq_some_iff.1 has
    exact (Process.ends_memCall (h.findPid ht as hts) (hg as has)).finish

theorem ends_step {a : Action} (h : k.Small) (hg : k.OrderGuard emTarget (.act a))
    (hm : k.Makes (.act a)) : Ends (k.step emTarget a) fun _ => True := by
  cases a with
  | call pid =>
    rw [step, if_pos (show k.Live pid from hm)]
    exact (ends_memCall pid h hg).map fun _ h => h
  | execve pid image args =>
    rw [step, if_pos (show k.Live pid from hm)]
    exact (ends_sysExecve pid args hg h).map fun _ h => h
  | fork pid framePtr =>
    rw [step, if_pos (show k.Live pid from hm)]
    exact (ends_forkCurrent k.rq framePtr pid h).map fun _ h => h
  | cloneThread pid framePtr args =>
    rw [step, if_pos (show k.Live pid from hm)]
    exact (ends_cloneThread ..).map fun _ h => h
  | exit pid =>
    rw [step, if_pos (show k.Live pid from hm)]
    exact ends_some trivial
  | spawn => exact ends_spawn.map fun _ h => h
  | spawnElf =>
    refine Ends.map ?_ fun _ h => h
    refine (ends_buildInit hg).bind ?_
    rintro ⟨_ | as, w₁⟩ has
    · exact ends_some trivial
    · exact ends_spawnUser (has as rfl)
  | reap idx => exact ends_reap idx h

omit [KernelMachine W] [AssertsOrder W] in
theorem mapFits_small {virt size : ℕ} {flags : PageFlags} (h : alignUp size pageSize ≤ maxBlock) :
    MapFits VmaRegion.Small (fun _ => True) virt size flags :=
  ⟨trivial, fun _ _ _ _ _ hplace => small_eagerRegion hplace h⟩

theorem small_serve {q : Request} {k' : Kernel W} (h : k.Small) (hg : k.OrderGuard emTarget q)
    (hst : k.serve emTarget q = some k') : k'.Small := by
  cases q with
  | wait pid =>
    obtain ⟨⟨r, k₁⟩, hw, rfl⟩ := map_eq_some_iff.1 hst
    obtain ⟨a, ha, hs⟩ := ends_waitPid pid h
    obtain rfl := mem_unique hw ha
    exact hs
  | act a =>
    have hfits : ActionFits VmaRegion.Small (fun _ => True) emTarget a := by
      cases a with
      | execve | spawnElf =>
        exact ⟨fun ph hseg => mapFits_small (hg ph hseg), mapFits_small (by decide)⟩
      | _ => trivial
    refine kept_step small_image_upkeep h hfits ?_ hst
    rintro pid c r k' rfl hc
    refine kept_memCall h (fun _ => trivial) (fun as p r has hp hP _ => ⟨?_, trivial⟩) hc
    obtain ⟨a, ha, hs⟩ := Process.ends_memCall (p := ⟨as, k.mmapBump, k.w⟩) hP (hg as has)
    obtain rfl := mem_unique hp ha
    exact hs

omit [KernelMachine W] [AssertsOrder W] in
theorem small_boot (w : W) : (boot w).Small := by
  refine ⟨fun t ht => ?_, trivial⟩
  cases List.eq_of_mem_replicate ht

/-- **No request trips the assertion of the allocator**, in any state reached from boot by requests
that stay within their bounds, if the allocator asserts nothing but the order. -/
theorem ends_run {w : W} (h : Run (serve emTarget) (OrderGuard emTarget) (boot w) k) {q : Request}
    (hg : k.OrderGuard emTarget q) (hm : k.Makes q) : (k.serve emTarget q).isSome = true := by
  have hk : k.Small := h.invariant (small_boot w) fun _ _ _ hk hg hst => small_serve hk hg hst
  cases q with
  | wait pid => exact ((ends_waitPid pid hk).map (S := fun _ => True) fun _ _ => trivial).isSome
  | act => exact (ends_step hk hg hm).isSome

end

/-! ### A large file mapping -/

instance : AssertsOrder Host where
  alloc w order h := by
    simp only [buddyAlloc, if_pos h, Option.isSome_map]
    split <;> rfl
  free w addr order h := by
    simp only [buddyFree, if_pos h, Option.isSome_map]
    rfl

theorem imageSmall_tinyImage : ImageSmall 183 tinyImage := by
  have hall : (segments 183 tinyImage).all (fun ph =>
      decide (alignUp ph.mapSize pageSize ≤ maxBlock)) = true := by
    decide +kernel
  intro ph hph
  exact of_decide_eq_true (List.all_eq_true.1 hall ph (isSegment_iff.1 hph))

/-- The first process is started, and a file mapping of 8 MiB stops the kernel. -/
theorem exists_init : ∃ k,
    serve 183 (boot Host.roomy) (.act (.spawnElf tinyImage)) = some k ∧ k.Live 1 ∧
      k.serve 183 (.act (.call 1 (.mmap 0 0x800000 3 2 3 0))) = none := by
  obtain ⟨k, hk, hlive, hnone⟩ : ∃ k,
      serve 183 (boot Host.roomy) (.act (.spawnElf tinyImage)) = some k ∧ k.Live 1 ∧
        (k.serve 183 (.act (.call 1 (.mmap 0 0x800000 3 2 3 0)))).isNone :=
    exists_of_any (by decide +kernel)
  exact ⟨k, hk, hlive, isNone_iff_eq_none.1 hnone⟩

theorem ends_run_mmap : ∃ k : Kernel Host,
    Run (serve 183) (OrderGuard 183) (boot Host.roomy) k ∧ k.Live 1 ∧
      (k.serve 183 (.act (.call 1 (.mmap 0 0x1000 3 2 3 0)))).isSome = true := by
  obtain ⟨k, hk, hlive, -⟩ := exists_init
  have hrun : Run (serve 183) (OrderGuard 183) (boot Host.roomy) k :=
    .single (l := .act (.spawnElf Elf.tinyImage)) imageSmall_tinyImage hk
  have hguard : k.OrderGuard 183 (.act (.call 1 (.mmap 0 0x1000 3 2 3 0))) := by
    intro as _ _
    decide
  exact ⟨k, hrun, hlive, ends_run hrun hguard hlive⟩

/-- **The first process maps 8 MiB of a file: order 11 is asked for, and the kernel stops.** -/
theorem panic_after_mmap : pagesToOrder (0x800000 / pageSize) = maxOrder ∧
    ∃ k : Kernel Host, Reach (serve 183) (boot Host.roomy) k ∧ k.Live 1 ∧
      k.serve 183 (.act (.call 1 (.mmap 0 0x800000 3 2 3 0))) = none := by
  obtain ⟨k, hk, hlive, hnone⟩ := exists_init
  exact ⟨by decide, k, .single trivial hk, hlive, hnone⟩

end Kernel

end Cyanos
