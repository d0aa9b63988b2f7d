import Cyanos.Mm.Buddy

/-!
# What the buddy allocator conserves

One description of each loop of the allocator, from which every invariant follows.

* `Buddy.take_cases` : `alloc` fails exactly when no list from the requested order on holds a
  block; otherwise it takes the first one, and every measure of the listed blocks and the returned
  block together is what it was.
* `Buddy.mergeUp_spec` : `free` merges up to some order `k` and overwrites the head of list `k`.
  Every measure of the listed blocks grows by that of the freed block, less the block that was
  overwritten.

So `alloc` conserves the owners of every address, and `free` conserves them unless the list in
which the merged block ends up was occupied (`Buddy.Settles`).
-/

namespace Cyanos

open Lib Block Function

namespace Buddy

variable {head : ℕ → Option ℕ} {μ : Block → ℕ}

theorem pageSize_shiftLeft (o : ℕ) : pageSize <<< o = 2 ^ 12 * 2 ^ o := by
  rw [Nat.shiftLeft_eq]; rfl

/-- Every block in the free lists is aligned and inside the address space. -/
def HeadsFit (head : ℕ → Option ℕ) : Prop :=
  ∀ o a, o < maxOrder → head o = some a → Fits pageSize ⟨a, o⟩

theorem HeadsFit.update (h : HeadsFit head) (o : ℕ) (v : Option ℕ)
    (hv : ∀ a, v = some a → Fits pageSize ⟨a, o⟩) : HeadsFit (update head o v) := by
  intro o' a ho' ha
  by_cases he : o' = o
  · subst he; rw [update_self] at ha; exact hv a ha
  · rw [update_of_ne he] at ha; exact h o' a ho' ha

theorem total_update (head : ℕ → Option ℕ) {o : ℕ} (ho : o < maxOrder) (v : Option ℕ) :
    total μ (listed (update head o v)) + total μ (atOrder o (head o)) =
      total μ (listed head) + total μ (atOrder o v) := by
  obtain ⟨rest, h1, h2⟩ := listed_update_perm head ho v
  rw [total_perm h1, total_perm h2, total_append, total_append]
  omega

@[simp] theorem total_atOrder_none (o : ℕ) : total μ (atOrder o none) = 0 := rfl

@[simp] theorem total_atOrder_some (o a : ℕ) : total μ (atOrder o (some a)) = μ ⟨a, o⟩ := by
  simp [atOrder]

/-! ### `alloc` -/

/-- The start of the upper half of a block that fits: its address does not wrap, and it is the buddy
of the lower half. -/
theorem upper_half {addr o : ℕ} (h : Fits pageSize ⟨addr, o + 1⟩) :
    wadd addr (pageSize <<< o) = addr + pageSize * 2 ^ o ∧
      addr ^^^ pageSize <<< o = addr + pageSize * 2 ^ o := by
  obtain ⟨hleft, hright⟩ := h.halves
  have hpos : 0 < pageSize * 2 ^ o := Nat.mul_pos (by decide) (Nat.two_pow_pos _)
  have hle := hright.le
  simp only [size] at hle
  rw [Nat.shiftLeft_eq, wadd_of_lt (by omega)]
  refine ⟨rfl, ?_⟩
  have hmin : min addr (addr ^^^ pageSize * 2 ^ o) = addr :=
    (min_xor_eq_alignDown (k := 12) hleft.aligned).trans (alignDown_of_dvd h.aligned)
  rcases xor_of_aligned (k := 12) hleft.aligned with ⟨-, hx⟩ | ⟨b, -, hb, hx⟩
  · exact hx
  · -- the buddy would be the lower of the two
    rw [show addr ^^^ pageSize * 2 ^ o = b from hx] at hmin
    have hb : addr = b + pageSize * 2 ^ o := hb
    omega

/-- Splitting a block of order `order + n` down to `order` over empty lists keeps every measure. -/
theorem splitDown_spec (hμ : Splits pageSize μ) (addr order : ℕ) :
    ∀ n head, (∀ j, order ≤ j → j < order + n → head j = none) → order + n < maxOrder →
      HeadsFit head → Fits pageSize ⟨addr, order + n⟩ →
      HeadsFit (splitDown addr order n head) ∧ Fits pageSize ⟨addr, order⟩ ∧
        total μ (listed (splitDown addr order n head)) + μ ⟨addr, order⟩ =
          total μ (listed head) + μ ⟨addr, order + n⟩ := by
  intro n
  induction n with
  | zero => intro head _ _ hfit hb; exact ⟨hfit, hb, rfl⟩
  | succ n ih =>
    intro head hempty hlt hfit hb
    obtain ⟨hleft, hright⟩ := Fits.halves (o := order + n) hb
    have hadd := (upper_half (o := order + n) hb).1
    have hhead : head (order + n) = none := hempty _ (by omega) (by omega)
    have htot := total_update (μ := μ) head (o := order + n) (by omega)
      (some (addr + pageSize * 2 ^ (order + n)))
    rw [hhead] at htot
    obtain ⟨h1, h2, h3⟩ := ih (update head (order + n) (some (addr + pageSize * 2 ^ (order + n))))
      (fun j hj hj' => by rw [update_of_ne (by omega)]; exact hempty j hj (by omega))
      (by omega) (hfit.update _ _ fun a ha => by cases ha; exact hright) hleft
    refine ⟨?_, h2, ?_⟩
    · rw [splitDown, hadd]; exact h1
    · rw [splitDown, hadd, h3, ← Nat.add_assoc order n 1, hμ addr (order + n)]
      simp only [total_atOrder_none, total_atOrder_some] at htot
      omega

/-- The search of `alloc`: it stops at the first list from `order` on that holds a block. -/
theorem takeFrom_cases (s : Buddy) (order : ℕ) :
    ∀ n o, order ≤ o → n + o = maxOrder → (∀ j, order ≤ j → j < o → s.head j = none) →
      (s.takeFrom order n o = (none, s) ∧ ∀ j, order ≤ j → j < maxOrder → s.head j = none) ∨
      ∃ k a, order ≤ k ∧ k < maxOrder ∧ s.head k = some a ∧
        (∀ j, order ≤ j → j < k → s.head j = none) ∧
        s.takeFrom order n o = (some a,
          { s with
            head := splitDown a order (k - order) (update s.head k none)
            freePages := wsub s.freePages (1 <<< order) }) := by
  intro n
  induction n with
  | zero =>
    intro o _ hn hempty
    exact .inl ⟨rfl, fun j hj hj' => hempty j hj (by omega)⟩
  | succ n ih =>
    intro o ho hn hempty
    cases hhead : s.head o with
    | some a =>
      refine .inr ⟨o, a, ho, by omega, hhead, hempty, ?_⟩
      rw [takeFrom, hhead]
    | none =>
      have hstep : s.takeFrom order (n + 1) o = s.takeFrom order n (o + 1) := by
        rw [takeFrom, hhead]
      rw [hstep]
      refine ih (o + 1) (by omega) (by omega) fun j hj hj' => ?_
      by_cases hjo : j = o
      · rw [hjo]; exact hhead
      · exact hempty j hj (by omega)

/-- **What `alloc` can do.**  It fails when no list from `order` on holds a block, and changes
nothing then.  Otherwise it returns a block of that order, and every measure of the listed blocks
and the returned block together is unchanged. -/
theorem take_cases (s : Buddy) {order : ℕ} (ho : order < maxOrder) (hfit : HeadsFit s.head) :
    (s.take order = (none, s) ∧ ∀ j, order ≤ j → j < maxOrder → s.head j = none) ∨
    ∃ a s', s.take order = (some a, s') ∧ HeadsFit s'.head ∧ Fits pageSize ⟨a, order⟩ ∧
      s'.freePages = wsub s.freePages (2 ^ order) ∧ s'.totalPages = s.totalPages ∧
      ∀ μ, Splits pageSize μ → total μ (listed s'.head) + μ ⟨a, order⟩ = total μ (listed s.head) := by
  rcases s.takeFrom_cases order (maxOrder - order) order le_rfl (by omega)
    (fun j hj hj' => absurd hj (by omega)) with h | ⟨k, a, hk, hk', hhead, hempty, htake⟩
  · exact .inl h
  · right
    have hblock : Fits pageSize ⟨a, order + (k - order)⟩ := by
      rw [Nat.add_sub_cancel' hk]; exact hfit k a hk' hhead
    have hsplit : ∀ μ, Splits pageSize μ → _ := fun μ hμ =>
      splitDown_spec hμ a order (k - order) (update s.head k none)
        (fun j hj hj' => by rw [update_of_ne (by omega)]; exact hempty j hj (by omega))
        (by omega) (hfit.update _ _ fun a ha => by cases ha) hblock
    obtain ⟨h1, h2, -⟩ := hsplit _ (splits_pages pageSize)
    refine ⟨a, _, htake, h1, h2, by rw [Nat.one_shiftLeft], rfl, fun μ hμ => ?_⟩
    have htot := total_update (μ := μ) s.head hk' none
    rw [hhead] at htot
    simp only [total_atOrder_none, total_atOrder_some] at htot
    have h3 := (hsplit μ hμ).2.2
    rw [Nat.add_sub_cancel' hk] at h3
    simp only
    omega

/-! ### `free` -/

/-- The buddy, at order `o`, of the block of order `o` that contains `addr`. -/
def buddyAt (addr o : ℕ) : ℕ := alignDown addr (pageSize <<< o) ^^^ (pageSize <<< o)

/-- Freeing a block at `addr` of order `o` merges it exactly up to order `k`. -/
structure StopsAt (head : ℕ → Option ℕ) (addr o k : ℕ) : Prop where
  le : o ≤ k
  lt : k < maxOrder
  merges : ∀ j, o ≤ j → j < k → head j = some (buddyAt addr j)
  stops : k + 1 < maxOrder → head k ≠ some (buddyAt addr k)

/-- The block settles without loss: the first list, from its order on, whose head is not the buddy
to merge with is empty. -/
def Settles (head : ℕ → Option ℕ) (b : Block) : Prop :=
  ∃ k, b.order ≤ k ∧ k < maxOrder ∧
    (∀ j, b.order ≤ j → j < k → head j = some (buddyAt b.addr j)) ∧ head k = none

instance (head : ℕ → Option ℕ) (b : Block) : Decidable (Settles head b) :=
  decidable_of_iff (∃ k < maxOrder, b.order ≤ k ∧
      (∀ j < k, b.order ≤ j → head j = some (buddyAt b.addr j)) ∧ head k = none) (by grind [Settles])

theorem StopsAt.head_eq_none {addr o k : ℕ} (h : StopsAt head addr o k)
    (hs : Settles head ⟨addr, o⟩) : head k = none := by
  obtain ⟨k', hle, hlt, hm, hn⟩ := hs
  rcases Nat.lt_trichotomy k k' with hk | rfl | hk
  · exact absurd (hm k h.le hk) (h.stops (by omega))
  · exact hn
  · rw [h.merges k' hle hk] at hn; cases hn

/-- **What `free` does.**  It merges up to an order `k` and overwrites the head of list `k`: every
measure of the listed blocks grows by that of the freed block less that of the overwritten one. -/
theorem mergeUp_spec :
    ∀ n head current o, n + o = maxOrder - 1 → HeadsFit head → Fits pageSize ⟨current, o⟩ →
      ∃ k, StopsAt head current o k ∧ HeadsFit (mergeUp n head current o) ∧
        ∀ μ, Splits pageSize μ →
          total μ (listed (mergeUp n head current o)) + total μ (atOrder k (head k)) =
            total μ (listed head) + μ ⟨current, o⟩ := by
  have hstore : ∀ {head : ℕ → Option ℕ} {current o : ℕ}, o < maxOrder → ∀ μ,
      total μ (listed (update head o (some current))) + total μ (atOrder o (head o)) =
        total μ (listed head) + μ ⟨current, o⟩ := by
    intro head current o ho μ
    rw [total_update head ho, total_atOrder_some]
  intro n
  induction n with
  | zero =>
    intro head current o hn hfit hb
    have ho : o + 1 = maxOrder := by simp only [maxOrder] at hn ⊢; omega
    refine ⟨o, ⟨le_rfl, by omega, fun j hj hj' => absurd hj (by omega), fun h => absurd ho (by omega)⟩,
      hfit.update _ _ fun a ha => by cases ha; exact hb, fun μ _ => hstore (by omega) μ⟩
  | succ n ih =>
    intro head current o hn hfit hb
    have ho : o < maxOrder := by simp only [maxOrder] at hn ⊢; omega
    have hdown : alignDown current (pageSize <<< o) = current := by
      rw [Nat.shiftLeft_eq]; exact alignDown_of_dvd hb.aligned
    by_cases hmerge : head o = some (current ^^^ (pageSize <<< o))
    · have hbuddy : Fits pageSize ⟨current ^^^ (pageSize <<< o), o⟩ := hfit o _ ho hmerge
      have hmin : min current (current ^^^ (pageSize <<< o)) =
          alignDown current (pageSize <<< (o + 1)) := by
        rw [pageSize_shiftLeft, pageSize_shiftLeft]; exact min_xor_eq_alignDown hb.aligned
      have hpair : Fits pageSize ⟨min current (current ^^^ (pageSize <<< o)), o + 1⟩ := by
        rw [pageSize_shiftLeft] at hbuddy ⊢; exact Fits.merge (k := 12) hb hbuddy
      obtain ⟨k, hk, hfit', htot⟩ := ih (update head o none)
        (min current (current ^^^ (pageSize <<< o))) (o + 1) (by omega)
        (hfit.update _ _ fun a ha => by cases ha) hpair
      have hupd : ∀ j, o + 1 ≤ j → update head o none j = head j := fun j hj =>
        update_of_ne (by omega) _ _
      -- the blocks above are those of the unmerged address
      have hanc : ∀ j, o + 1 ≤ j →
          buddyAt (min current (current ^^^ (pageSize <<< o))) j = buddyAt current j := by
        intro j hj
        rw [buddyAt, buddyAt, hmin, alignDown_alignDown]
        rw [pageSize_shiftLeft, pageSize_shiftLeft]
        exact Nat.mul_dvd_mul_left _ (Nat.pow_dvd_pow 2 hj)
      have hrun : mergeUp (n + 1) head current o = mergeUp n (update head o none)
          (min current (current ^^^ (pageSize <<< o))) (o + 1) := by
        rw [mergeUp]; simp only [hmerge, ↓reduceIte]
      rw [hrun]
      refine ⟨k, ⟨by have := hk.le; omega, hk.lt, ?_, ?_⟩, hfit', ?_⟩
      · intro j hj hj'
        by_cases hjo : j = o
        · rw [hjo, hmerge, buddyAt, hdown]
        · rw [← hupd j (by omega), hk.merges j (by omega) hj', hanc j (by omega)]
      · intro hk1
        rw [← hupd k hk.le, ← hanc k hk.le]
        exact hk.stops hk1
      · intro μ hμ
        have h1 := htot μ hμ
        have h2 := total_update (μ := μ) head ho none
        rw [hmerge, total_atOrder_none, total_atOrder_some] at h2
        have h3 : μ ⟨min current (current ^^^ (pageSize <<< o)), o + 1⟩ =
            μ ⟨current, o⟩ + μ ⟨current ^^^ (pageSize <<< o), o⟩ := by
          rw [pageSize_shiftLeft]; exact Splits.merge hμ hb.aligned
        rw [hupd k hk.le] at h1
        omega
    · have hrun : mergeUp (n + 1) head current o = update head o (some current) := by
        rw [mergeUp]; simp only [hmerge, ↓reduceIte]
      rw [hrun]
      refine ⟨o, ⟨le_rfl, ho, fun j hj hj' => absurd hj (by omega), fun _ => ?_⟩,
        hfit.update _ _ fun a ha => by cases ha; exact hb, fun μ _ => hstore ho μ⟩
      rw [buddyAt, hdown]; exact hmerge

/-- The merge loop undoes the split loop. -/
theorem mergeUp_splitDown (addr order : ℕ) : ∀ n m head,
    (∀ j, order ≤ j → j < order + n → head j = none) → Fits pageSize ⟨addr, order + n⟩ →
      mergeUp (m + n) (splitDown addr order n head) addr order = mergeUp m head addr (order + n) := by
  intro n
  induction n with
  | zero => intros; rfl
  | succ n ih =>
    intro m head hempty hb
    obtain ⟨hadd, hxor⟩ := upper_half (o := order + n) hb
    rw [splitDown, Nat.add_comm n 1, ← Nat.add_assoc, ih (m + 1) _ _ (Fits.halves (o := order + n) hb).1,
      mergeUp, hxor, hadd, if_pos (update_self ..), update_idem, min_eq_left (by omega),
      update_eq_self_iff.2 (hempty _ (by omega) (by omega)).symm, Nat.add_assoc, Nat.add_comm n]
    intro j hj hj'
    rw [update_of_ne (by omega)]
    exact hempty j hj (by omega)

section Put

variable {s : Buddy} {b : Block}

theorem put_spec (s : Buddy) {b : Block} (ho : b.order < maxOrder) (hfit : HeadsFit s.head)
    (hb : Fits pageSize b) :
    ∃ k, StopsAt s.head b.addr b.order k ∧ HeadsFit (s.put b.addr b.order).head ∧
      ∀ μ, Splits pageSize μ →
        total μ (listed (s.put b.addr b.order).head) + total μ (atOrder k (s.head k)) =
          total μ (listed s.head) + μ b :=
  mergeUp_spec (maxOrder - 1 - b.order) s.head b.addr b.order (by omega) hfit hb

section

variable (ho : b.order < maxOrder) (hfit : HeadsFit s.head) (hb : Fits pageSize b)
include ho hfit hb

/-- `free` never adds an owner beyond those of the freed block. -/
theorem put_total_le (hμ : Splits pageSize μ) :
    total μ (listed (s.put b.addr b.order).head) ≤ total μ (listed s.head) + μ b := by
  obtain ⟨k, -, -, htot⟩ := s.put_spec ho hfit hb
  have := htot μ hμ
  omega

/-- `free` loses nothing when the block settles. -/
theorem put_total_eq (hs : Settles s.head b) (hμ : Splits pageSize μ) :
    total μ (listed (s.put b.addr b.order).head) = total μ (listed s.head) + μ b := by
  obtain ⟨k, hk, -, htot⟩ := s.put_spec ho hfit hb
  have h := htot μ hμ
  rw [hk.head_eq_none hs, total_atOrder_none, Nat.add_zero] at h
  exact h

end

end Put

end Buddy

end Cyanos
