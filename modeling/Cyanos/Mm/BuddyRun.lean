import Cyanos.Lib.Run
import Cyanos.Mm.BuddyInit

/-!
# Runs of the buddy allocator

A `Pool` is the allocator together with the blocks its callers hold.  `Pool.boot` is the pool after
`init_from_map`; from there callers `alloc`, and `free` blocks they hold.

Everything proved about runs comes from one conserved quantity: for every measure of blocks, the
total over the listed and the held blocks never exceeds the total over the blocks released at boot
(`Pool.Backed`), and equals it as long as every freed block settles (`Pool.Conserved`).

## Main results

* `Pool.blocks_apart` : no page is in two blocks.
* `Pool.freePages_eq_and_realloc` : no page is lost, in the runs whose frees all settle.
* `Pool.out_avoids_reserved` : reserved memory is not handed out, when none is released.
-/

namespace Cyanos

open Lib Block List

namespace MemoryRegion

/-- The physical address `x` lies in the region. -/
def Has (r : MemoryRegion) (x : ℕ) : Prop := r.base ≤ x ∧ x < r.base + r.length

/-- Available regions of the map are pairwise disjoint. -/
def AvailableDisjoint (regions : List MemoryRegion) : Prop :=
  regions.Pairwise fun r q =>
    r.kind = .available → q.kind = .available → ∀ x, ¬ (r.Has x ∧ q.Has x)

/-- The end of every region of the map is a 64-bit address. -/
def EndsFit (regions : List MemoryRegion) : Prop := ∀ r ∈ regions, r.base + r.length < 2 ^ 64

/-- Rounding the base of an available region up to the largest block size does not wrap. -/
def BasesRoundUp (regions : List MemoryRegion) : Prop :=
  ∀ r ∈ regions, r.kind = .available → r.base + pageSize <<< (maxOrder - 1) ≤ 2 ^ 64

/-- No memory is released that is below 2 MiB or in a region of another kind. -/
def ReleasesOnlyFree (regions : List MemoryRegion) : Prop :=
  ∀ r ∈ regions, ∀ x, r.Releases x →
    2 * 1024 * 1024 ≤ x ∧ ∀ q ∈ regions, q.kind ≠ .available → ¬ q.Has x

/-- What is released for a region is inside it, when neither its base nor its end wraps. -/
theorem Releases.has {r : MemoryRegion} {x : ℕ} (h : r.Releases x)
    (hbase : r.base + pageSize <<< (maxOrder - 1) ≤ 2 ^ 64)
    (hend : r.base + r.length < 2 ^ 64) : r.Has x := by
  obtain ⟨-, hstart, hlt⟩ := h
  have hpos : 0 < pageSize <<< (maxOrder - 1) := by decide
  have h1 : r.base ≤ r.releaseStart := le_alignUp (by omega) (by omega)
  have h2 : r.releaseEnd ≤ r.base + r.length := by
    rw [releaseEnd, wadd_of_lt hend]
    exact alignDown_le _ _
  exact ⟨by omega, by omega⟩

/-- No address is released by two regions. -/
theorem countP_releases_le_one {regions : List MemoryRegion} (hdisj : AvailableDisjoint regions)
    (hend : EndsFit regions) (hbase : BasesRoundUp regions) (x : ℕ) :
    (regions.countP fun r => decide (r.Releases x)) ≤ 1 := by
  induction regions with
  | nil => simp
  | cons r rs ih =>
    obtain ⟨hr, hrs⟩ := pairwise_cons.1 hdisj
    have hih := ih hrs (fun q hq => hend q (.tail _ hq))
      (fun q hq => hbase q (.tail _ hq))
    by_cases hx : r.Releases x
    · -- the other regions do not release `x`, or they would meet `r` there
      have hz : (rs.countP fun q => decide (q.Releases x)) = 0 := by
        rw [countP_eq_zero]
        intro q hq hqx
        have hqx : q.Releases x := of_decide_eq_true hqx
        have hrs := hx.has (hbase r (.head _) hx.1) (hend r (.head _))
        have hqs := hqx.has (hbase q (.tail _ hq) hqx.1)
          (hend q (.tail _ hq))
        exact hr q hq hx.1 hqx.1 x ⟨hrs, hqs⟩
      rw [countP_cons, hz]
      split <;> simp
    · rw [countP_cons_of_neg (by simpa using hx)]
      exact hih

end MemoryRegion

open Buddy MemoryRegion

/-- The allocator and the blocks its callers hold: returned by `alloc` and not yet freed. -/
structure Pool where
  /-- The allocator. -/
  buddy : Buddy
  /-- The outstanding blocks. -/
  out : List Block

namespace Pool

/-- A call to the allocator. -/
inductive Call
  /-- `alloc(order)`. -/
  | alloc (order : ℕ)
  /-- `free(b.addr, b.order)`. -/
  | free (b : Block)

/-- A call and what becomes of the blocks its caller holds.  Callers free only blocks they hold. -/
def step (s : Pool) : Call → Option Pool
  | .alloc order =>
    (s.buddy.alloc order).map fun
      | (some a, buddy) => ⟨buddy, ⟨a, order⟩ :: s.out⟩
      | (none, buddy) => ⟨buddy, s.out⟩
  | .free b =>
    if b ∈ s.out then (s.buddy.free b.addr b.order).map fun buddy => ⟨buddy, s.out.erase b⟩
    else none

/-- The pool after `init_from_map`. -/
def boot (regions : List MemoryRegion) : Pool := ⟨Buddy.empty.initFromMap regions, []⟩

/-- The blocks in `FREE_LISTS` and the outstanding ones. -/
def blocks (s : Pool) : List Block := listed s.buddy.head ++ s.out

/-- Freed blocks settle. -/
def FreesSettle (s : Pool) : Call → Prop
  | .alloc _ => True
  | .free b => Settles s.buddy.head b

instance (s : Pool) : (c : Call) → Decidable (s.FreesSettle c)
  | .alloc _ => inferInstanceAs (Decidable True)
  | .free b => inferInstanceAs (Decidable (Settles s.buddy.head b))

/-! ### What a call does -/

/-- Every block is aligned, inside the address space, and of an order that has a list. -/
structure WellFormed (s : Pool) : Prop where
  heads : HeadsFit s.buddy.head
  out : ∀ b ∈ s.out, b.order < maxOrder ∧ Fits pageSize b

variable {s s' : Pool} {regions : List MemoryRegion} {b : Block} {c : Call}

theorem WellFormed.fits (h : s.WellFormed) : ∀ b ∈ s.blocks, Fits pageSize b := by
  intro b hb
  rcases mem_append.1 hb with hb | hb
  · obtain ⟨ho, ha⟩ := mem_listed.1 hb
    exact h.heads b.order b.addr ho ha
  · exact (h.out b hb).2

/-- What a call of `alloc` does: it fails, with no list left to take from, or moves pages from
the lists to the caller. -/
theorem step_alloc {order : ℕ} (h : s.WellFormed) (hst : s.step (.alloc order) = some s') :
    (s' = s ∧ ∀ j, order ≤ j → j < maxOrder → s.buddy.head j = none) ∨
    ∃ a, s'.WellFormed ∧ s'.out = ⟨a, order⟩ :: s.out ∧
      s'.buddy.freePages = wsub s.buddy.freePages (2 ^ order) ∧
      ∀ μ, Splits pageSize μ →
        total μ (listed s'.buddy.head) + μ ⟨a, order⟩ = total μ (listed s.buddy.head) := by
  rw [step, alloc] at hst
  split at hst
  · next ho =>
    rcases s.buddy.take_cases ho h.heads with ⟨hnone, hempty⟩ | ⟨a, b', htake, hfit, ha, hfree, -, hμ⟩
    · rw [hnone] at hst
      cases hst
      exact .inl ⟨rfl, hempty⟩
    · rw [htake] at hst
      cases hst
      exact .inr ⟨a, ⟨hfit, forall_mem_cons.2 ⟨⟨ho, ha⟩, h.out⟩⟩, rfl, hfree, hμ⟩
  · cases hst

/-- What a call of `free` does: the block goes from the caller to the allocator. -/
theorem step_free (h : s.WellFormed) (hst : s.step (.free b) = some s') :
    b ∈ s.out ∧ b.order < maxOrder ∧ Fits pageSize b ∧
      s' = ⟨s.buddy.put b.addr b.order, s.out.erase b⟩ ∧ s'.WellFormed := by
  rw [step, free] at hst
  split at hst
  · next hb =>
    obtain ⟨ho, hfit⟩ := h.out b hb
    rw [if_pos ho] at hst
    cases hst
    obtain ⟨-, -, hheads, -⟩ := s.buddy.put_spec ho h.heads hfit
    exact ⟨hb, ho, hfit, rfl, hheads, fun c hc => h.out c (mem_of_mem_erase hc)⟩
  · cases hst

theorem wellFormed_step (h : s.WellFormed) (hst : s.step c = some s') : s'.WellFormed := by
  cases c with
  | alloc =>
    rcases step_alloc h hst with ⟨rfl, -⟩ | ⟨_, h', -⟩
    · exact h
    · exact h'
  | free => exact (step_free h hst).2.2.2.2

/-- No call makes a block out of nothing, and a call keeps every measure of the blocks when what it
frees settles. -/
theorem total_step {μ : Block → ℕ} (hμ : Splits pageSize μ) (h : s.WellFormed)
    (hst : s.step c = some s') :
    total μ s'.blocks ≤ total μ s.blocks ∧
      (s.FreesSettle c → total μ s'.blocks = total μ s.blocks) := by
  cases c with
  | alloc =>
    rcases step_alloc h hst with ⟨rfl, -⟩ | ⟨a, -, hout, -, htot⟩
    · exact ⟨le_rfl, fun _ => rfl⟩
    · have := htot μ hμ
      simp only [blocks, total_append, hout, total_cons]
      omega
  | free =>
    obtain ⟨hb, ho, hfit, rfl, -⟩ := step_free h hst
    have hle := put_total_le ho h.heads hfit hμ
    have herase : total μ _ = μ _ + total μ _ := total_perm (perm_cons_erase hb)
    simp only [blocks, total_append]
    refine ⟨by omega, fun hset => ?_⟩
    have heq := put_total_eq ho h.heads hfit hset hμ
    omega

/-! ### Runs -/

/-- The blocks of the pool are backed by what was released at boot. -/
structure Backed (regions : List MemoryRegion) (s : Pool) : Prop extends WellFormed s where
  total_le : ∀ μ, Splits pageSize μ → total μ s.blocks ≤ total μ (releases regions)

/-- Everything released at boot is listed or held, and `FREE_PAGES` counts what is listed. -/
structure Conserved (regions : List MemoryRegion) (s : Pool) : Prop extends WellFormed s where
  total_eq : ∀ μ, Splits pageSize μ → total μ s.blocks = total μ (releases regions)
  freePages : s.buddy.freePages = total pages (listed s.buddy.head)

theorem listed_empty : listed empty.head = [] := rfl

theorem backed_boot (regions : List MemoryRegion) : Backed regions (boot regions) := by
  have hfit := releases_fit regions
  have hempty : HeadsFit empty.head := nofun
  rw [boot, initFromMap_eq_foldl]
  obtain ⟨hheads, htot⟩ := foldl_release_spec hfit hempty
  refine ⟨⟨hheads, nofun⟩, fun μ hμ => ?_⟩
  have := (htot hμ).1
  simpa only [blocks, append_nil, listed_empty, total_nil, zero_add] using this

theorem backed_of_reach (h : Reach step (boot regions) s) : Backed regions s :=
  h.invariant (backed_boot ..) fun _ _ _ hs _ hst =>
    ⟨wellFormed_step hs.toWellFormed hst,
      fun μ hμ => (total_step hμ hs.toWellFormed hst).1.trans (hs.total_le μ hμ)⟩

/-- The lists hold one block each, so fewer than `2 ^ maxOrder` pages. -/
theorem total_pages_listed_lt (head : ℕ → Option ℕ) : total pages (listed head) < 2 ^ maxOrder := by
  have h : ∀ n, total pages ((range n).flatMap fun o => atOrder o (head o)) < 2 ^ n := by
    intro n
    induction n with
    | zero => simp
    | succ n =>
      have hlast : total pages (atOrder n (head n)) ≤ 2 ^ n := by
        cases head n with
        | none => simp
        | some => simp [pages]
      rw [range_succ, flatMap_append, total_append, flatMap_singleton, pow_succ]
      omega
  exact h maxOrder

theorem put_freePages {s : Buddy} (ho : b.order < maxOrder) (hfit : HeadsFit s.head)
    (hb : Fits pageSize b) (hset : Settles s.head b)
    (hs : s.freePages = total pages (listed s.head)) :
    (s.put b.addr b.order).freePages = total pages (listed (s.put b.addr b.order).head) := by
  have htot := put_total_eq ho hfit hb hset (splits_pages pageSize)
  have hlt := total_pages_listed_lt (s.put b.addr b.order).head
  have hpow : 2 ^ maxOrder < 2 ^ 64 := by decide
  have hfree : (s.put b.addr b.order).freePages = wadd s.freePages (pages b) := by
    rw [put, pages, Nat.one_shiftLeft]
  rw [hfree, hs, wadd_of_lt (by omega), htot]

theorem foldl_release_freePages {bs : List Block} {s : Buddy}
    (hbs : ∀ b ∈ bs, b.order < maxOrder ∧ Fits pageSize b) (hfit : HeadsFit s.head)
    (hset : Settling s bs) (hs : s.freePages = total pages (listed s.head)) :
    (bs.foldl release s).freePages = total pages (listed (bs.foldl release s).head) := by
  induction bs generalizing s with
  | nil => exact hs
  | cons b bs ih =>
    obtain ⟨ho, hb⟩ := hbs b (.head _)
    obtain ⟨-, -, hfit', -⟩ := s.put_spec ho hfit hb
    exact ih (fun c hc => hbs c (.tail _ hc)) hfit' hset.2
      (put_freePages ho hfit hb hset.1 hs)

theorem conserved_boot
    (hset : Settling empty (releases regions)) : Conserved regions (boot regions) := by
  have hfit := releases_fit regions
  have hempty : HeadsFit empty.head := nofun
  refine ⟨(backed_boot ..).toWellFormed, fun μ hμ => ?_, ?_⟩
  · have := ((foldl_release_spec hfit hempty).2 hμ).2 hset
    rw [boot, initFromMap_eq_foldl]
    simpa only [blocks, append_nil, listed_empty, total_nil, zero_add] using this
  · rw [boot, initFromMap_eq_foldl]
    exact foldl_release_freePages hfit hempty hset rfl

theorem conserved_step (h : Conserved regions s) (hset : s.FreesSettle c)
    (hst : s.step c = some s') : Conserved regions s' := by
  refine ⟨wellFormed_step h.toWellFormed hst,
    fun μ hμ => ((total_step hμ h.toWellFormed hst).2 hset).trans (h.total_eq μ hμ), ?_⟩
  cases c with
  | alloc =>
    rcases step_alloc h.toWellFormed hst with ⟨rfl, -⟩ | ⟨a, -, -, hfree, htot⟩
    · exact h.freePages
    · have hp := htot pages (splits_pages pageSize)
      have hlt := total_pages_listed_lt s.buddy.head
      have hpow : 2 ^ maxOrder < 2 ^ 64 := by decide
      simp only [pages] at hp
      rw [hfree, h.freePages, wsub_of_le (by omega) (by omega)]
      omega
  | free =>
    obtain ⟨-, ho, hfit, rfl, -⟩ := step_free h.toWellFormed hst
    exact put_freePages ho h.heads hfit hset h.freePages

theorem freePages_lt_of_reach (h : Reach step (boot regions) s) : s.buddy.freePages < 2 ^ 64 := by
  have hfold : ∀ (bs : List Block) s, s.freePages < 2 ^ 64 →
      (bs.foldl release s).freePages < 2 ^ 64 := by
    intro bs
    induction bs with
    | nil => exact fun _ h => h
    | cons b bs ih => exact fun s _ => ih _ (wadd_lt _ _)
  induction h with
  | refl =>
    rw [boot, initFromMap_eq_foldl]
    exact hfold _ _ (by decide)
  | @tail s _ c h _ hst ih =>
    have hs := (backed_of_reach h).toWellFormed
    cases c with
    | alloc =>
      rcases step_alloc hs hst with ⟨rfl, -⟩ | ⟨_, -, -, hfree, -⟩
      · exact ih
      · rw [hfree]; exact wsub_lt _ _
    | free =>
      obtain ⟨-, -, -, rfl, -⟩ := step_free hs hst
      exact wadd_lt _ _

/-- A listed page can be allocated: repeated calls of `alloc(0)` reach it. -/
theorem exists_run_alloc {x : ℕ} : ∀ {n : ℕ} {s : Pool}, s.WellFormed →
    total pages (listed s.buddy.head) = n → 0 < cover pageSize (listed s.buddy.head) x →
    ∃ s', Run step (fun _ c => c = .alloc 0) s s' ∧ ∃ b ∈ s'.out, b.Has pageSize x := by
  intro n
  induction n with
  | zero =>
    intro s _ hn hx
    obtain ⟨b, hb, -⟩ := cover_pos.1 hx
    have := le_total_of_mem (μ := pages) hb
    have := Nat.two_pow_pos b.order
    simp only [pages] at *
    omega
  | succ n ih =>
    intro s h hn hx
    obtain ⟨s', hst⟩ : ∃ s', s.step (.alloc 0) = some s' := by
      exact ⟨_, rfl⟩
    rcases step_alloc h hst with ⟨-, hnone⟩ | ⟨a, h', hout, -, htot⟩
    · -- `alloc(0)` fails only when all lists are empty
      obtain ⟨b, hb, -⟩ := cover_pos.1 hx
      obtain ⟨ho, ha⟩ := mem_listed.1 hb
      rw [hnone _ (Nat.zero_le _) ho] at ha
      cases ha
    · have hone : Run step (fun _ c => c = .alloc 0) s s' := .single rfl hst
      by_cases hxa : Has pageSize ⟨a, 0⟩ x
      · exact ⟨s', hone, ⟨a, 0⟩, by rw [hout]; exact (.head _), hxa⟩
      · have hp := htot pages (splits_pages pageSize)
        have hc := htot _ (splits_holds pageSize x)
        have hz : holds pageSize x ⟨a, 0⟩ = 0 := if_neg hxa
        obtain ⟨t, hrun, ht⟩ := ih h' (by simp only [pages] at hp hn ⊢; omega)
          (by unfold cover at hx ⊢; omega)
        exact ⟨t, hone.trans hrun, ht⟩

/-! ### `free` undoes `alloc` -/

/-- **`free` undoes `alloc`.**  In every reachable state, freeing the block that `alloc` has just
returned restores the free lists and the counter. -/
theorem free_alloc {regions : List MemoryRegion} {s : Pool} (h : Reach step (boot regions) s)
    {order a : ℕ} {b : Buddy} (hal : s.buddy.alloc order = some (some a, b)) :
    b.free a order = some s.buddy := by
  unfold Buddy.alloc at hal
  split at hal
  · next ho =>
    rw [Buddy.free, if_pos ho, put_take (backed_of_reach h).heads (freePages_lt_of_reach h) ho
      (Option.some.inj hal)]
  · cases hal

/-! ### No page has two owners -/

/-- **No double ownership.**  When the available regions are disjoint and neither their ends nor
their rounded bases wrap, no page is ever in two of the blocks listed or held, and every one of
these blocks is aligned to its own size. -/
theorem blocks_apart {regions : List MemoryRegion} (hdisj : AvailableDisjoint regions)
    (hend : EndsFit regions) (hbase : BasesRoundUp regions) {s : Pool}
    (h : Reach step (boot regions) s) :
    s.blocks.Pairwise (Apart pageSize) ∧ ∀ b ∈ s.blocks, b.Aligned pageSize := by
  have hs := backed_of_reach h
  refine ⟨pairwise_apart_of_cover_le_one fun x => ?_, fun b hb => (hs.fits b hb).aligned⟩
  calc cover pageSize s.blocks x
      ≤ cover pageSize (releases regions) x := hs.total_le _ (splits_holds pageSize x)
    _ = regions.countP fun r => decide (r.Releases x) := cover_releases regions x
    _ ≤ 1 := countP_releases_le_one hdisj hend hbase x

/-- Available memory in two places, and a reserved page. -/
def board : List MemoryRegion :=
  [oddRegion, .mk 0x40000000 0x4000 .available, .mk 0x900000 0x1000 .reserved]

/-- Blocks of several sizes are allocated.  Some are freed and allocated again. -/
def boardCalls : List Call :=
  [.alloc 0, .alloc 3, .alloc 1, .free ⟨0x400000, 3⟩, .alloc 2, .free ⟨0x802000, 0⟩, .alloc 0,
    .alloc 5]

/-- What is held after these calls. -/
def boardOut : List Block := [⟨0x400000, 5⟩, ⟨0x802000, 0⟩, ⟨0x40000000, 2⟩, ⟨0x800000, 1⟩]

theorem board_blocks_apart : ∃ s, Reach step (boot board) s ∧ s.out = boardOut ∧
    s.blocks.Pairwise (Apart pageSize) ∧ ∀ b ∈ s.blocks, b.Aligned pageSize := by
  obtain ⟨s, hrun, hout⟩ : ∃ s, Reach step (boot board) s ∧ s.out = boardOut :=
    Run.exists_of_foldlM boardCalls (by decide +kernel)
  refine ⟨s, hrun, hout, blocks_apart ?_ (by unfold EndsFit; decide) (by unfold BasesRoundUp; decide)
    hrun⟩
  simp only [AvailableDisjoint, board, oddRegion, MemoryRegion.Has, pairwise_cons, forall_mem_cons]
  grind

/-- An available page 8 MiB below the top of the address space. -/
def lowPage : MemoryRegion := ⟨0xffffffffff800000, 0x1000, .available, by decide, by decide⟩

/-- Available bytes in the last 4 MiB of the address space.  Rounding their address up to a multiple
of 4 MiB gives `0`, so all memory below them is released. -/
def topBytes : MemoryRegion := ⟨0xffffffffffc00001, 0x800, .available, by decide, by decide⟩

theorem releaseRegion_topBytes (s : Buddy) : (s.releaseRegion topBytes).head =
    Function.update s.head (maxOrder - 1) (some 0xffffffffff800000) := by
  rw [releaseRegion, if_neg (by decide), if_neg (by decide)]
  exact releaseRange_chunks (by decide) (by decide) (by decide) (by decide)

theorem boot_wrap_head {o : ℕ} (ho : o = 0 ∨ o = 10) :
    (boot [lowPage, topBytes]).buddy.head o = some 0xffffffffff800000 := by
  have hboot : ∀ rs, (boot rs).buddy.head = (rs.foldl releaseRegion .empty).head := fun _ => rfl
  rw [hboot, foldl_cons, foldl_cons, foldl_nil, releaseRegion_topBytes]
  rcases ho with rfl | rfl <;> decide +kernel

theorem wrap_double_owner :
    AvailableDisjoint [lowPage, topBytes] ∧ EndsFit [lowPage, topBytes] ∧
      Reach step (boot [lowPage, topBytes]) (boot [lowPage, topBytes]) ∧
      ¬ (boot [lowPage, topBytes]).blocks.Pairwise (Apart pageSize) := by
  refine ⟨?_, ?_, .refl, fun hapart => ?_⟩
  · refine pairwise_pair.2 fun _ _ x => ?_
    rintro ⟨⟨-, h⟩, ⟨h', -⟩⟩
    simp only [lowPage, topBytes] at h h'
    omega
  · unfold EndsFit
    decide
  · have hm : ∀ {o}, o < maxOrder → o = 0 ∨ o = 10 →
        ⟨0xffffffffff800000, o⟩ ∈ (boot [lowPage, topBytes]).blocks := fun hlt ho =>
      mem_append_left _ (mem_listed.2 ⟨hlt, boot_wrap_head ho⟩)
    exact hapart.forall (hm (by decide) (.inl rfl)) (hm (by decide) (.inr rfl)) (by decide)
      0xffffffffff800000 (by decide)

/-! ### No page is lost -/

/-- **No page is lost.**  In the runs whose frees all settle, those of `init_from_map` included,
`FREE_PAGES` is the number of pages listed, and every released address is in a block some caller
holds or can be allocated. -/
theorem freePages_eq_and_realloc {regions : List MemoryRegion}
    (hset : Settling Buddy.empty (releases regions)) {s : Pool}
    (h : Run step FreesSettle (boot regions) s) :
    s.buddy.freePages = total pages (listed s.buddy.head) ∧
      ∀ r ∈ regions, ∀ x, r.Releases x →
        (∃ b ∈ s.out, b.Has pageSize x) ∨
        ∃ s', Run step (fun _ c => c = .alloc 0) s s' ∧ ∃ b ∈ s'.out, b.Has pageSize x := by
  have hs : Conserved regions s :=
    h.invariant (conserved_boot hset) fun _ _ _ hs hg hst => conserved_step hs hg hst
  refine ⟨hs.freePages, fun r hr x hx => ?_⟩
  have hcover : 0 < cover pageSize s.blocks x := by
    rw [cover, hs.total_eq _ (splits_holds pageSize x), ← cover, cover_releases]
    exact countP_pos_iff.2 ⟨r, hr, decide_eq_true hx⟩
  obtain ⟨b, hb, hbx⟩ := cover_pos.1 hcover
  rcases mem_append.1 hb with hb | hb
  · exact .inr (exists_run_alloc hs.toWellFormed rfl (cover_pos.2 ⟨b, hb, hbx⟩))
  · exact .inl ⟨b, hb, hbx⟩

/-- 4 MiB from 1 GiB on, which make a single block. -/
def fourMiB : MemoryRegion := ⟨0x40000000, 0x400000, .available, by decide, by decide⟩

theorem board_freePages_eq_and_realloc : ∃ s, Run step FreesSettle (boot board) s ∧
    s.out = boardOut ∧ s.buddy.freePages = total pages (listed s.buddy.head) ∧
      ∀ r ∈ board, ∀ x, r.Releases x →
        (∃ b ∈ s.out, b.Has pageSize x) ∨
        ∃ s', Run step (fun _ c => c = .alloc 0) s s' ∧ ∃ b ∈ s'.out, b.Has pageSize x :=
  Run.exists_guarded_with boardCalls (by decide +kernel) fun _ hrun _ =>
    freePages_eq_and_realloc (by decide +kernel) hrun

theorem fourMiB_free_alloc : ∃ b, (boot [fourMiB]).buddy.alloc 0 = some (some 0x40000000, b) ∧
    b.free 0x40000000 0 = some (boot [fourMiB]).buddy := by
  obtain ⟨⟨_, b⟩, hb, rfl⟩ : ∃ r, (boot [fourMiB]).buddy.alloc 0 = some r ∧
      r.1 = some 0x40000000 := exists_of_any (by decide +kernel)
  exact ⟨b, hb, free_alloc .refl hb⟩

/-- The map of the QEMU `virt` board: 256 MiB from 1 GiB on. -/
def virtMap : List MemoryRegion := [⟨0x40000000, 0x10000000, .available, by decide, by decide⟩]

/-- On the QEMU `virt` board `FREE_PAGES` says 65536 after boot, and the free lists hold the 1024
pages of the last 4 MiB. -/
theorem virtMap_pages_lost :
    AvailableDisjoint virtMap ∧ Reach step (boot virtMap) (boot virtMap) ∧
      (boot virtMap).buddy.freePages = 65536 ∧
      total pages (listed (boot virtMap).buddy.head) = 1024 := by
  exact ⟨pairwise_singleton _ _, .refl, by decide +kernel⟩

/-! ### Reserved memory -/

/-- **Reserved memory stays reserved.**  When nothing below 2 MiB and nothing in a region of
another kind is released at boot, no block a caller ever holds overlaps them. -/
theorem out_avoids_reserved {regions : List MemoryRegion} (hfree : ReleasesOnlyFree regions)
    {s : Pool} (h : Reach step (boot regions) s) :
    ∀ b ∈ s.out, ∀ x, b.Has pageSize x →
      2 * 1024 * 1024 ≤ x ∧ ∀ q ∈ regions, q.kind ≠ .available → ¬ q.Has x := by
  intro b hb x hx
  have hle := (backed_of_reach h).total_le _ (splits_holds pageSize x)
  have hpos : 0 < cover pageSize (releases regions) x :=
    lt_of_lt_of_le (cover_pos.2 ⟨b, mem_append_right _ hb, hx⟩) hle
  rw [cover_releases] at hpos
  obtain ⟨r, hr, hrx⟩ := countP_pos_iff.1 hpos
  exact hfree r hr x (of_decide_eq_true hrx)

theorem board_out_avoids_reserved : ∃ s, Reach step (boot board) s ∧ s.out = boardOut ∧
    ∀ b ∈ s.out, ∀ x, b.Has pageSize x →
      2 * 1024 * 1024 ≤ x ∧ ∀ q ∈ board, q.kind ≠ .available → ¬ q.Has x := by
  obtain ⟨s, hrun, hout⟩ : ∃ s, Reach step (boot board) s ∧ s.out = boardOut :=
    Run.exists_of_foldlM boardCalls (by decide +kernel)
  refine ⟨s, hrun, hout, out_avoids_reserved (fun r hr x hx => ?_) hrun⟩
  have hfree : ∀ r ∈ board, r.kind = .available → 0x400000 ≤ r.releaseStart ∧
      (r.releaseEnd ≤ 0x900000 ∨ 0x901000 ≤ r.releaseStart) := by decide
  obtain ⟨hk, hstart, hend⟩ := hx
  have := hfree r hr hk
  refine ⟨by omega, ?_⟩
  simp only [board, oddRegion, MemoryRegion.Has, forall_mem_cons]
  grind

/-- The first page of the 4 MiB, reserved as an FDT `/memreserve/` entry is. -/
def reservedPage : MemoryRegion := ⟨0x40000000, 0x1000, .reserved, by decide, by decide⟩

/-- The first page handed out is the reserved one. -/
theorem reservedPage_handed_out :
    ∃ s, Reach step (boot [fourMiB, reservedPage]) s ∧ ⟨0x40000000, 0⟩ ∈ s.out ∧
      Has pageSize ⟨0x40000000, 0⟩ 0x40000000 ∧ reservedPage.kind ≠ .available ∧
      reservedPage.Has 0x40000000 := by
  obtain ⟨s, hrun, hout⟩ : ∃ s, Reach step (boot [fourMiB, reservedPage]) s ∧
      ⟨0x40000000, 0⟩ ∈ s.out := Run.exists_of_foldlM [.alloc 0] (by decide +kernel)
  exact ⟨s, hrun, hout, by decide, by decide, by unfold MemoryRegion.Has; decide⟩

end Pool

end Cyanos
