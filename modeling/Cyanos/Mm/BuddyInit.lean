import Cyanos.Mm.BuddyOwners
import Mathlib.Data.List.Range

/-!
# Releasing the boot memory map

`init_from_map` releases a fixed sequence of blocks, the `tiles` of the available regions, whatever
the state of the lists: `Buddy.initFromMap_eq_foldl`.  The tiles of a page-aligned range are
aligned blocks that cover each of its addresses exactly once (`Buddy.cover_tiles`).
-/

namespace Cyanos

open Lib Block List Function Nat

namespace Buddy

/-! ### The order of the next block -/

variable {addr end_ x k : ℕ} {s : Buddy}

theorem two_pow_dvd_of_testBit (h : ∀ i, i < k → x.testBit i = false) : 2 ^ k ∣ x := by
  apply dvd_of_mod_eq_zero
  apply eq_of_testBit_eq
  intro i
  by_cases hi : i < k
  · simp [h i hi]
  · simp [hi]

theorem two_pow_dvd_of_le_trailingZeros (h : k ≤ trailingZeros x) : 2 ^ k ∣ x := by
  apply two_pow_dvd_of_testBit
  intro i hi
  unfold trailingZeros at h
  cases hf : (range 64).find? fun i => x.testBit i with
  | none =>
    rw [hf, Option.getD_none] at h
    have := find?_eq_none.1 hf i (mem_range.2 (by omega))
    simpa using this
  | some =>
    rw [hf, Option.getD_some] at h
    have := (find?_range_eq_some.1 hf).2.2 i (by omega)
    simpa using this

theorem le_trailingZeros_of_two_pow_dvd (hk : k ≤ 64) (h : 2 ^ k ∣ x) : k ≤ trailingZeros x := by
  unfold trailingZeros
  cases hf : (range 64).find? fun i => x.testBit i with
  | none => simpa using hk
  | some j =>
    rw [Option.getD_some]
    have hbit : x.testBit j = true := (find?_range_eq_some.1 hf).1
    obtain ⟨c, rfl⟩ := h
    rw [testBit_two_pow_mul] at hbit
    rw [Bool.and_eq_true, decide_eq_true_eq] at hbit
    omega

/-- The next block fits: it is aligned, and ends within the range. -/
theorem nextOrder_spec (ha : pageSize ∣ addr) (he : pageSize ∣ end_) (hlt : addr < end_) :
    nextOrder addr end_ < maxOrder ∧ pageSize * 2 ^ nextOrder addr end_ ∣ addr ∧
      addr + pageSize * 2 ^ nextOrder addr end_ ≤ end_ := by
  obtain ⟨q, rfl⟩ := ha
  obtain ⟨r, rfl⟩ := he
  have hqr : q < r := Nat.lt_of_mul_lt_mul_left hlt
  have hrem : (pageSize * r - pageSize * q) / pageSize = r - q := by
    rw [← Nat.mul_sub, Nat.mul_div_cancel_left _ (by decide)]
  have hdiv : pageSize * q / pageSize = q := Nat.mul_div_cancel_left _ (by decide)
  have hdef : nextOrder (pageSize * q) (pageSize * r) =
      min (min (maxOrder - 1) (log2 (r - q))) (min (trailingZeros q) (maxOrder - 1)) := by
    simp only [nextOrder, hrem, hdiv]
  set o := nextOrder (pageSize * q) (pageSize * r)
  have hlog : 2 ^ o ≤ r - q :=
    (Nat.pow_le_pow_right (by norm_num) (by omega)).trans (Nat.log2_self_le (by omega))
  refine ⟨by unfold maxOrder at *; omega, ?_, ?_⟩
  · exact mul_dvd_mul_left _ (two_pow_dvd_of_le_trailingZeros (by omega))
  · calc pageSize * q + pageSize * 2 ^ o ≤ pageSize * q + pageSize * (r - q) := by gcongr
      _ = pageSize * r := by rw [← Nat.mul_add, Nat.add_sub_cancel' hqr.le]

/-- No larger block fits: the next one has every order that the alignment and the remaining length
allow. -/
theorem le_nextOrder {o : ℕ} (ho : o < maxOrder) (hd : pageSize <<< o ∣ addr)
    (hle : addr + pageSize <<< o ≤ end_) : o ≤ nextOrder addr end_ := by
  have hlog : o ≤ log2 ((end_ - addr) / pageSize) := by
    have hrem : 2 ^ o ≤ (end_ - addr) / pageSize := by
      rw [le_div_iff_mul_le (by decide), mul_comm, ← shiftLeft_eq]; omega
    exact (Nat.le_log2 (by have := Nat.two_pow_pos o; omega)).2 hrem
  have htz : o ≤ trailingZeros (addr / pageSize) := by
    apply le_trailingZeros_of_two_pow_dvd (ho.le.trans (by decide))
    obtain ⟨c, rfl⟩ := hd
    rw [Nat.shiftLeft_eq, Nat.mul_assoc, Nat.mul_div_cancel_left _ (by decide)]
    exact dvd_mul_right _ _
  simp only [nextOrder]
  omega

/-- Releasing whole blocks of the largest order: each overwrites the one before it, so only the
last of them is listed in the end. -/
theorem releaseRange_chunks {last : ℕ} (hend : last + pageSize <<< (maxOrder - 1) = end_)
    (ha : pageSize <<< (maxOrder - 1) ∣ addr) (hl : pageSize <<< (maxOrder - 1) ∣ last)
    (hle : addr ≤ last) : (s.releaseRange addr end_).head = update s.head (maxOrder - 1) (some last) := by
  have hpos : 0 < pageSize <<< (maxOrder - 1) := by decide
  induction s, addr using releaseRange.induct end_ with
  | case2 s addr hge => omega
  | case1 s addr hlt ih =>
    -- where a block of the largest order fits, it is the next one
    have hnext : nextOrder addr end_ = maxOrder - 1 := le_antisymm
      ((min_le_left _ _).trans (min_le_left _ _)) (le_nextOrder (by decide) ha (by omega))
    rw [hnext] at ih
    rw [releaseRange, if_pos hlt, hnext]
    rcases hle.eq_or_lt with rfl | hlt'
    · rw [hend, releaseRange, if_neg (lt_irrefl _)]
      rfl
    · have := Nat.le_of_dvd (Nat.sub_pos_of_lt hlt') (Nat.dvd_sub hl ha)
      rw [ih ((Nat.dvd_add_right ha).2 dvd_rfl) (by omega)]
      exact update_idem ..

theorem put_head_of_none {o : ℕ} (addr : ℕ) (h : s.head o = none) :
    (s.put addr o).head = update s.head o (some addr) := by
  unfold put
  cases maxOrder - 1 - o with
  | zero => rfl
  | succ => simp [mergeUp, h]

/-- Freeing the block that `alloc` returned gives back the state before. -/
theorem put_take {s s' : Buddy} {a order : ℕ} (hs : HeadsFit s.head) (hf : s.freePages < 2 ^ 64)
    (ho : order < maxOrder) (h : s.take order = (some a, s')) : s'.put a order = s := by
  rcases s.takeFrom_cases order (maxOrder - order) order le_rfl (by omega)
    (fun j hj hj' => absurd hj (by omega)) with ⟨hnone, -⟩ | ⟨k, b, hk, hk', hhead, hempty, htake⟩
  · cases h.symm.trans hnone
  · cases h.symm.trans htake
    obtain ⟨n, rfl⟩ := Nat.exists_eq_add_of_le hk
    have hmerge := mergeUp_splitDown a order n (maxOrder - 1 - (order + n)) (update s.head (order + n) none)
      (fun j hj hj' => by rw [update_of_ne (by omega)]; exact hempty j hj hj') (hs _ _ hk' hhead)
    have hput : mergeUp (maxOrder - 1 - (order + n)) (update s.head (order + n) none) a (order + n) =
        s.head := by
      have := put_head_of_none (s := ⟨update s.head (order + n) none, 0, 0⟩) a (update_self ..)
      rw [update_idem, ← hhead, update_eq_self] at this
      exact this
    have hpages : wadd (wsub s.freePages (1 <<< order)) (1 <<< order) = s.freePages := by
      unfold wadd wsub
      have : 1 <<< order < 2 ^ 64 := by
        rw [Nat.one_shiftLeft]
        exact Nat.pow_lt_pow_right (by norm_num) (ho.trans (by decide))
      omega
    rw [put, show maxOrder - 1 - order = maxOrder - 1 - (order + n) + n by unfold maxOrder at *; omega]
    simp only [Nat.add_sub_cancel_left, hmerge, hput, hpages]

/-! ### Tiles -/

/-- The blocks that the loop of `init_from_map` releases from `[addr, end_)`. -/
def tiles (addr end_ : ℕ) : List Block :=
  if addr < end_ then
    ⟨addr, nextOrder addr end_⟩ :: tiles (addr + pageSize <<< nextOrder addr end_) end_
  else []
termination_by end_ - addr
decreasing_by
  have : 0 < pageSize <<< nextOrder addr end_ := by
    rw [Nat.shiftLeft_eq]; exact Nat.mul_pos (by decide) (Nat.two_pow_pos _)
  omega

/-- Release one block. -/
def release (s : Buddy) (b : Block) : Buddy := s.put b.addr b.order

theorem releaseRange_eq_foldl (s : Buddy) (addr end_ : ℕ) :
    s.releaseRange addr end_ = (tiles addr end_).foldl release s := by
  induction addr using tiles.induct end_ generalizing s with
  | case1 addr hlt ih =>
    rw [releaseRange, tiles, if_pos hlt, if_pos hlt, foldl_cons, ih]
    rfl
  | case2 addr hge => rw [releaseRange, tiles, if_neg hge, if_neg hge, foldl_nil]

/-- Every tile is what the loop chose at its address. -/
theorem mem_tiles (ha : pageSize ∣ addr) : ∀ b ∈ tiles addr end_,
    pageSize ∣ b.addr ∧ b.addr < end_ ∧ b.order = nextOrder b.addr end_ := by
  induction addr using tiles.induct end_ with
  | case1 addr hlt ih =>
    rw [tiles, if_pos hlt]
    intro b hb
    rcases mem_cons.1 hb with rfl | hb
    · exact ⟨ha, hlt, rfl⟩
    · refine ih ?_ b hb
      rw [shiftLeft_eq]
      exact Nat.dvd_add ha (Nat.dvd_mul_right _ _)
  | case2 addr hge => rw [tiles, if_neg hge]; intro b hb; cases hb

/-- Every tile is a block of the allocator inside the range. -/
theorem tiles_fit (ha : pageSize ∣ addr) (he : pageSize ∣ end_)
    (hend : end_ ≤ 2 ^ 64) : ∀ b ∈ tiles addr end_, b.order < maxOrder ∧ Fits pageSize b := by
  intro b hb
  obtain ⟨hd, hlt, ho⟩ := mem_tiles ha b hb
  obtain ⟨hmax, halign, hle⟩ := nextOrder_spec hd he hlt
  rw [← ho] at hmax halign hle
  exact ⟨hmax, halign, hle.trans hend⟩

/-- **The tiles of a range cover each of its addresses once**, and no other. -/
theorem cover_tiles (ha : pageSize ∣ addr) (he : pageSize ∣ end_) (x : ℕ) :
    cover pageSize (tiles addr end_) x = if addr ≤ x ∧ x < end_ then 1 else 0 := by
  induction addr using tiles.induct end_ with
  | case1 addr hlt ih =>
    obtain ⟨-, -, hle⟩ := nextOrder_spec ha he hlt
    have hih := ih (by rw [Nat.shiftLeft_eq]; exact Nat.dvd_add ha (Nat.dvd_mul_right _ _))
    rw [tiles, if_pos hlt]
    simp only [cover, total_cons] at hih ⊢
    rw [hih, shiftLeft_eq, holds_mk]
    have hpos : 0 < pageSize * 2 ^ nextOrder addr end_ :=
      Nat.mul_pos (by decide) (Nat.two_pow_pos _)
    split_ifs <;> omega
  | case2 addr hge =>
    rw [tiles, if_neg hge, if_neg (by omega)]
    rfl

end Buddy

namespace MemoryRegion

/-- The address `x` is released by `init_from_map` for the region `r`. -/
def Releases (r : MemoryRegion) (x : ℕ) : Prop :=
  r.kind = .available ∧ r.releaseStart ≤ x ∧ x < r.releaseEnd

instance (r : MemoryRegion) (x : ℕ) : Decidable (r.Releases x) :=
  inferInstanceAs (Decidable (_ ∧ _))

/-- The blocks released for a region. -/
def tiles (r : MemoryRegion) : List Block :=
  if r.kind = .available then Buddy.tiles r.releaseStart r.releaseEnd else []

section

variable (r : MemoryRegion)
include r

theorem pageSize_dvd_releaseStart : pageSize ∣ r.releaseStart :=
  Dvd.dvd.trans ⟨2 ^ (maxOrder - 1), shiftLeft_eq _ _⟩ (dvd_alignUp _ _)

theorem pageSize_dvd_releaseEnd : pageSize ∣ r.releaseEnd := dvd_alignDown _ _

theorem tiles_fit : ∀ b ∈ r.tiles, b.order < maxOrder ∧ Fits pageSize b := by
  intro b hb
  unfold tiles at hb
  split at hb
  · have hlt : r.releaseEnd < 2 ^ 64 := lt_of_le_of_lt (alignDown_le _ _) (wadd_lt _ _)
    exact Buddy.tiles_fit r.pageSize_dvd_releaseStart r.pageSize_dvd_releaseEnd hlt.le b hb
  · cases hb

theorem cover_tiles (x : ℕ) : cover pageSize r.tiles x = if r.Releases x then 1 else 0 := by
  unfold tiles
  split
  · next h =>
    rw [Buddy.cover_tiles r.pageSize_dvd_releaseStart r.pageSize_dvd_releaseEnd]
    exact if_congr (by simp [Releases, h]) rfl rfl
  · next h => rw [if_neg fun hx : r.Releases x => h hx.1]; rfl

end

end MemoryRegion

namespace Buddy

/-- The blocks that `init_from_map` releases, in order. -/
def releases (regions : List MemoryRegion) : List Block := regions.flatMap MemoryRegion.tiles

theorem releaseRegion_eq_foldl (s : Buddy) (r : MemoryRegion) :
    s.releaseRegion r = r.tiles.foldl release s := by
  unfold releaseRegion MemoryRegion.tiles
  by_cases hk : r.kind = .available
  · rw [if_neg (by simpa using hk), if_pos hk]
    split
    · next hge => rw [tiles, if_neg (by omega)]; rfl
    · exact releaseRange_eq_foldl _ _ _
  · rw [if_pos hk, if_neg hk]; rfl

/-- **An available region is tiled exactly.**  When rounding its base up and adding its length do
not wrap, the loop ends after freeing the tiles one after the other.  They cover each address from
the rounded base to the rounded end once and no other, and each is aligned to its size and the
largest block that the alignment of its address and what remains of the region allow. -/
theorem releaseRegion_tiled (s : Buddy) (r : MemoryRegion) (hk : r.kind = .available)
    (hbase : r.base ≤ 2 ^ 64 - 4194304) (hend : r.base + r.length < 2 ^ 64) :
    r.tiles.foldlM (fun s b => s.free b.addr b.order) s = some (s.releaseRegion r) ∧
      (∀ x, cover pageSize r.tiles x =
        if alignDown (r.base + 4194303) 4194304 ≤ x ∧ x < alignDown (r.base + r.length) 4096 then 1
        else 0) ∧
      ∀ b ∈ r.tiles, b.order < maxOrder ∧ b.Aligned pageSize ∧
        ∀ o < maxOrder, Aligned pageSize ⟨b.addr, o⟩ →
          b.addr + size pageSize ⟨b.addr, o⟩ ≤ alignDown (r.base + r.length) 4096 → o ≤ b.order := by
  have hfree : ∀ (bs : List Block) (s : Buddy), (∀ b ∈ bs, b.order < maxOrder) →
      bs.foldlM (fun s b => s.free b.addr b.order) s = some (bs.foldl release s) := by
    intro bs
    induction bs with
    | nil => exact fun _ _ => rfl
    | cons b bs ih =>
      intro s h
      rw [foldlM_cons, free, if_pos (h b (.head _))]
      exact ih _ fun c hc => h c (.tail _ hc)
  have hstart : r.releaseStart = alignDown (r.base + 4194303) 4194304 :=
    alignUp_of_lt (a := 4194304) (by omega)
  have hlast : r.releaseEnd = alignDown (r.base + r.length) 4096 := by
    rw [MemoryRegion.releaseEnd, wadd_of_lt hend]
    rfl
  refine ⟨?_, fun x => ?_, fun b hb => ?_⟩
  · rw [releaseRegion_eq_foldl]
    exact hfree _ _ fun b hb => (r.tiles_fit b hb).1
  · rw [r.cover_tiles, ← hstart, ← hlast]
    exact if_congr (and_iff_right hk) rfl rfl
  · obtain ⟨hmax, hfit⟩ := r.tiles_fit b hb
    rw [MemoryRegion.tiles, if_pos hk] at hb
    obtain ⟨-, -, ho⟩ := mem_tiles r.pageSize_dvd_releaseStart b hb
    refine ⟨hmax, hfit.aligned, fun o hlt hd hle => ?_⟩
    rw [← hlast] at hle
    rw [ho]
    exact le_nextOrder hlt (by rwa [shiftLeft_eq]) (by rwa [shiftLeft_eq])

/-- An available region whose base and end are inside pages. -/
def oddRegion : MemoryRegion := .mk 0x3ff001 0x404abc .available

theorem oddRegion_tiled : oddRegion.tiles = [⟨0x400000, 10⟩, ⟨0x800000, 1⟩, ⟨0x802000, 0⟩] ∧
    oddRegion.tiles.foldlM (fun s b => s.free b.addr b.order) empty =
      some (empty.releaseRegion oddRegion) ∧
    (∀ x, cover pageSize oddRegion.tiles x = if 0x400000 ≤ x ∧ x < 0x803000 then 1 else 0) ∧
    ∀ b ∈ oddRegion.tiles, b.order < maxOrder ∧ b.Aligned pageSize ∧
      ∀ o < maxOrder, Aligned pageSize ⟨b.addr, o⟩ →
        b.addr + size pageSize ⟨b.addr, o⟩ ≤ 0x803000 → o ≤ b.order :=
  ⟨by decide +kernel, releaseRegion_tiled empty oddRegion rfl (by decide) (by decide)⟩

/-- `init_from_map` frees the tiles of the available regions one after the other. -/
theorem initFromMap_eq_foldl (s : Buddy) (regions : List MemoryRegion) :
    s.initFromMap regions =
      { (releases regions).foldl release s with
        totalPages := ((releases regions).foldl release s).freePages } := by
  have hfold : regions.foldl releaseRegion s = (releases regions).foldl release s := by
    induction regions generalizing s with
    | nil => rfl
    | cons r rs ih =>
      rw [foldl_cons, ih, releases, releases, flatMap_cons, foldl_append, releaseRegion_eq_foldl]
  rw [initFromMap, hfold]

theorem releases_fit (regions : List MemoryRegion) :
    ∀ b ∈ releases regions, b.order < maxOrder ∧ Fits pageSize b := by
  intro b hb
  obtain ⟨r, -, hb⟩ := mem_flatMap.1 hb
  exact r.tiles_fit b hb

/-- An address is released as often as regions release it. -/
theorem cover_releases (regions : List MemoryRegion) (x : ℕ) :
    cover pageSize (releases regions) x = regions.countP fun r => decide (r.Releases x) := by
  induction regions with
  | nil => rfl
  | cons r rs ih =>
    have h : cover pageSize (releases (r :: rs)) x =
        cover pageSize r.tiles x + cover pageSize (releases rs) x := by
      simp only [releases, flatMap_cons, cover, total_append]
    rw [h, r.cover_tiles, ih, countP_cons]
    simp only [decide_eq_true_eq]
    omega

/-! ### Releasing a sequence of blocks -/

/-- Each block of the sequence settles when it is released. -/
def Settling : Buddy → List Block → Prop
  | _, [] => True
  | s, b :: bs => Settles s.head b ∧ Settling (s.release b) bs

instance decidableSettling : (s : Buddy) → (bs : List Block) → Decidable (Settling s bs)
  | _, [] => inferInstanceAs (Decidable True)
  | s, b :: bs => @instDecidableAnd _ _ _ (decidableSettling (s.release b) bs)

variable {s : Buddy} {bs : List Block}

/-- Releasing blocks keeps the lists well-formed and adds at most what the blocks measure, and exactly
that when they settle. -/
theorem foldl_release_spec (hbs : ∀ b ∈ bs, b.order < maxOrder ∧ Fits pageSize b)
    (hfit : HeadsFit s.head) :
    HeadsFit (bs.foldl release s).head ∧ ∀ {μ : Block → ℕ}, Splits pageSize μ →
      total μ (listed (bs.foldl release s).head) ≤ total μ (listed s.head) + total μ bs ∧
      (Settling s bs →
        total μ (listed (bs.foldl release s).head) = total μ (listed s.head) + total μ bs) := by
  induction bs generalizing s with
  | nil => exact ⟨hfit, fun _ => by simp⟩
  | cons b bs ih =>
    obtain ⟨ho, hb⟩ := hbs b ((.head _) ..)
    obtain ⟨-, -, hfit', -⟩ := s.put_spec ho hfit hb
    obtain ⟨hheads, htot⟩ := ih (fun c hc => hbs c (.tail _ hc)) hfit'
    refine ⟨hheads, fun {μ} hμ => ?_⟩
    obtain ⟨hle, heq⟩ := htot hμ
    have hput := put_total_le ho hfit hb hμ
    simp only [foldl_cons, total_cons, release] at hle heq ⊢
    refine ⟨by omega, fun hs => ?_⟩
    have hput' := put_total_eq ho hfit hb hs.1 hμ
    have hrest := heq hs.2
    omega

end Buddy

end Cyanos
