import Cyanos.Lib.Block
import Cyanos.Lib.Inversion

/-!
# Ledgers of an allocator's client

A ledger lists the blocks a client was given and gave back, the latest event first.  It says of
every page whether the client holds it or has returned it (`pageState`), and which blocks came in
and went out (`allocs`, `frees`).  A block is `Fresh` when none of its pages is held.

`Held log bs` says that the blocks `bs` are apart and all of their pages are held; a fresh block can
be added to them (`Held.alloc`), and one of them can go (`Held.free`) or shrink (`Held.shrink`).
-/

namespace Lib

open Block List Nat

/-- A block is given to the client, or given back by it. -/
inductive Event
  | alloc (b : Block)
  | free (b : Block)
  deriving DecidableEq, Repr

/-- What the ledger says of a page. -/
inductive PageState
  /-- The client has had nothing to do with it. -/
  | unknown
  /-- The client was given it, and has not given it back since. -/
  | held
  /-- The client has given it back, and was not given it since. -/
  | returned
  deriving DecidableEq, Repr

variable (p : ℕ)

/-- The state of the page at `x`. -/
def pageState (x : ℕ) : List Event → PageState
  | [] => .unknown
  | .alloc b :: log => if b.Has p x then .held else pageState x log
  | .free b :: log => if b.Has p x then .returned else pageState x log

/-- The blocks given to the client. -/
def allocs : List Event → List Block
  | [] => []
  | .alloc b :: log => b :: allocs log
  | .free _ :: log => allocs log

/-- The blocks the client gave back. -/
def frees : List Event → List Block
  | [] => []
  | .alloc _ :: log => frees log
  | .free b :: log => b :: frees log

/-- An aligned block inside the address space none of whose pages is held. -/
def Fresh (log : List Event) (b : Block) : Prop :=
  p ∣ b.addr ∧ b.addr + b.size p ≤ 2 ^ 64 ∧
    ∀ i < 2 ^ b.order, pageState p (b.addr + i * p) log ≠ .held

instance (log : List Event) (b : Block) : Decidable (Fresh p log b) :=
  inferInstanceAs (Decidable (_ ∧ _ ∧ _))

variable {p} {log : List Event} {b : Block} {x : ℕ}

theorem pageState_alloc_of_has (h : b.Has p x) : pageState p x (.alloc b :: log) = .held := if_pos h

theorem pageState_alloc_of_not_has (h : ¬ b.Has p x) :
    pageState p x (.alloc b :: log) = pageState p x log := if_neg h

theorem pageState_free_of_not_has (h : ¬ b.Has p x) :
    pageState p x (.free b :: log) = pageState p x log := if_neg h

/-- The pages of a block are at multiples of the page size from its start. -/
theorem Block.Has.exists_index (hb : p ∣ b.addr) (hx : p ∣ x) (h : b.Has p x) :
    ∃ i < 2 ^ b.order, x = b.addr + i * p := by
  obtain ⟨q, hq⟩ := hb
  obtain ⟨r, rfl⟩ := hx
  obtain ⟨hle, hlt⟩ := h
  rw [hq] at hle hlt ⊢
  rcases Nat.eq_zero_or_pos p with rfl | hp
  · simp [size] at hlt
  have hqr : q ≤ r := le_of_mul_le_mul_left hle hp
  rw [size, ← mul_add] at hlt
  have hrq : r < q + 2 ^ b.order := Nat.lt_of_mul_lt_mul_left hlt
  refine ⟨r - q, by omega, ?_⟩
  rw [mul_comm (r - q), ← mul_add, Nat.add_sub_cancel' hqr]

/-- A page that is held is in no fresh block. -/
theorem Fresh.not_has (h : Fresh p log b) (hx : p ∣ x) (hheld : pageState p x log = .held) :
    ¬ b.Has p x := by
  intro hbx
  obtain ⟨i, hi, rfl⟩ := hbx.exists_index h.1 hx
  exact h.2.2 i hi hheld

/-- A page that is held is in a block that was given to the client. -/
theorem exists_mem_allocs (h : pageState p x log = .held) : ∃ b ∈ allocs log, b.Has p x := by
  induction log with
  | nil => cases h
  | cons e log ih =>
    cases e with
    | alloc b =>
      by_cases hb : b.Has p x
      · exact ⟨b, (.head _), hb⟩
      · rw [pageState_alloc_of_not_has hb] at h
        obtain ⟨c, hc, hx⟩ := ih h
        exact ⟨c, mem_cons_of_mem _ hc, hx⟩
    | free b =>
      by_cases hb : b.Has p x
      · rw [pageState, if_pos hb] at h
        cases h
      · rw [pageState_free_of_not_has hb] at h
        exact ih h

theorem allocs_append (log log' : List Event) : allocs (log ++ log') = allocs log ++ allocs log' := by
  induction log with
  | nil => rfl
  | cons e log ih => cases e <;> simp [allocs, ih]

theorem frees_append (log log' : List Event) : frees (log ++ log') = frees log ++ frees log' := by
  induction log with
  | nil => rfl
  | cons e log ih => cases e <;> simp [frees, ih]

theorem allocs_map_alloc (bs : List Block) : allocs (bs.map Event.alloc) = bs := by
  induction bs with
  | nil => rfl
  | cons b bs ih => simp [allocs, ih]

theorem allocs_map_free (bs : List Block) : allocs (bs.map Event.free) = [] := by
  induction bs with
  | nil => rfl
  | cons b bs ih => simp [allocs, ih]

theorem frees_map_free (bs : List Block) : frees (bs.map Event.free) = bs := by
  induction bs with
  | nil => rfl
  | cons b bs ih => simp [frees, ih]

theorem frees_map_alloc (bs : List Block) : frees (bs.map Event.alloc) = [] := by
  induction bs with
  | nil => rfl
  | cons b bs ih => simp [frees, ih]

/-! ### Blocks that are held -/

variable (p) in
/-- A block with whole pages inside the address space, all of them held. -/
structure HeldBlock (log : List Event) (b : Block) : Prop where
  dvd : p ∣ b.addr
  le : b.addr + b.size p ≤ 2 ^ 64
  held : ∀ x, p ∣ x → b.Has p x → pageState p x log = .held

variable (p) in
/-- Blocks that are apart and held. -/
structure Held (log : List Event) (bs : List Block) : Prop where
  block : ∀ b ∈ bs, HeldBlock p log b
  apart : bs.Pairwise (Apart p)

namespace Held

variable {bs cs : List Block} {c : Block}

theorem nil (log : List Event) : Held p log [] := ⟨nofun, .nil⟩

theorem perm (h : Held p log bs) (hp : bs.Perm cs) : Held p log cs :=
  ⟨fun b hb => h.block b (hp.symm.subset hb),
    (hp.pairwise_iff fun hab => Std.Symm.symm _ _ hab).1 h.apart⟩

theorem sublist (h : Held p log bs) (hs : cs.Sublist bs) : Held p log cs :=
  ⟨fun b hb => h.block b (hs.subset hb), h.apart.sublist hs⟩

/-- A block with whole pages has the page of every address in it. -/
theorem has_alignDown (hb : p ∣ b.addr) (h : b.Has p x) : b.Has p (alignDown x p) := by
  refine ⟨?_, lt_of_le_of_lt (alignDown_le _ _) h.2⟩
  rw [← alignDown_of_dvd hb]
  exact alignDown_mono _ h.1

/-- A fresh block is apart from those held. -/
theorem apart_of_fresh (h : Held p log bs) (hf : Fresh p log b) (hc : c ∈ bs) : Apart p b c := by
  intro x ⟨hx, hx'⟩
  have hb := h.block c hc
  have hheld := hb.held _ (dvd_alignDown x p) (has_alignDown hb.dvd hx')
  exact hf.not_has (dvd_alignDown x p) hheld (has_alignDown hf.1 hx)

theorem alloc (h : Held p log bs) (hf : Fresh p log b) : Held p (.alloc b :: log) (b :: bs) := by
  refine ⟨fun c hc => ?_, pairwise_cons.2 ⟨fun c hc => h.apart_of_fresh hf hc, h.apart⟩⟩
  rcases mem_cons.1 hc with rfl | hc
  · exact ⟨hf.1, hf.2.1, fun x _ hx => pageState_alloc_of_has hx⟩
  · have hb := h.block c hc
    refine ⟨hb.dvd, hb.le, fun x hx hcx => ?_⟩
    rw [pageState_alloc_of_not_has (hf.not_has hx (hb.held x hx hcx)), hb.held x hx hcx]

/-- Giving back a block that is apart from those held. -/
theorem free_of_apart (h : Held p log bs) (hap : ∀ c ∈ bs, Apart p b c) :
    Held p (.free b :: log) bs := by
  refine ⟨fun c hc => ?_, h.apart⟩
  have hb := h.block c hc
  refine ⟨hb.dvd, hb.le, fun x hx hcx => ?_⟩
  rw [pageState_free_of_not_has fun hbx => hap c hc x ⟨hbx, hcx⟩, hb.held x hx hcx]

theorem free (h : Held p log (b :: bs)) : Held p (.free b :: log) bs :=
  (h.sublist (sublist_cons_self _ _)).free_of_apart (pairwise_cons.1 h.apart).1

theorem freeAll (h : Held p log (cs ++ bs)) : Held p ((cs.map Event.free).reverse ++ log) bs := by
  induction cs generalizing log with
  | nil => exact h
  | cons c cs ih =>
    rw [map_cons, reverse_cons, append_assoc]
    exact ih h.free

/-- A shorter block at the same address has only addresses of the longer one. -/
theorem has_of_shorter (haddr : c.addr = b.addr) (horder : c.order ≤ b.order) (h : c.Has p x) :
    b.Has p x := by
  have hsize : c.size p ≤ b.size p := mul_le_mul_left _ (Nat.pow_le_pow_right (by norm_num) horder)
  exact ⟨haddr ▸ h.1, by have := h.2; omega⟩

/-- A block may give up its end. -/
theorem shrink (h : Held p log (b :: bs)) (haddr : c.addr = b.addr) (horder : c.order ≤ b.order) :
    Held p log (c :: bs) := by
  have hsize : c.size p ≤ b.size p := mul_le_mul_left _ (Nat.pow_le_pow_right (by norm_num) horder)
  obtain ⟨hap, hpair⟩ := pairwise_cons.1 h.apart
  refine ⟨fun d hd => ?_, pairwise_cons.2 ⟨fun d hd x hx => ?_, hpair⟩⟩
  · rcases mem_cons.1 hd with rfl | hd
    · have hb := h.block b (.head _)
      exact ⟨haddr ▸ hb.dvd, by have := hb.le; omega,
        fun x hx hcx => hb.held x hx (has_of_shorter haddr horder hcx)⟩
    · exact h.block d (.tail _ hd)
  · exact hap d hd x ⟨has_of_shorter haddr horder hx.1, hx.2⟩

end Held

/-! ### Taking blocks one after the other -/

variable (p) in
/-- The ledger `log'` is `log` after the blocks `bs` were given out, the last of them first; each was
fresh when it was. -/
inductive Takes (log : List Event) : List Block → List Event → Prop
  | nil : Takes log [] log
  | cons {bs : List Block} {log' : List Event} {b : Block} :
    Takes log bs log' → Fresh p log' b → Takes log (b :: bs) (.alloc b :: log')

namespace Takes

variable {bs cs : List Block} {log' log'' : List Event}

theorem trans (h : Takes p log bs log') (h' : Takes p log' cs log'') :
    Takes p log (cs ++ bs) log'' := by
  induction h' with
  | nil => exact h
  | cons _ hf ih => exact .cons ih hf

theorem eq_append (h : Takes p log bs log') : log' = bs.map Event.alloc ++ log := by
  induction h with
  | nil => rfl
  | cons _ _ ih => rw [ih, map_cons, cons_append]

theorem held (h : Takes p log bs log') (hc : Held p log cs) : Held p log' (bs ++ cs) := by
  induction h with
  | nil => exact hc
  | cons _ hf ih => exact ih.alloc hf

end Takes

end Lib
