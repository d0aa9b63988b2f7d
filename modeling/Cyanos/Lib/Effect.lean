import Mathlib.Algebra.Group.Nat.Defs
import Mathlib.Logic.Function.Basic
import Mathlib.Tactic.Common

/-!
# Programs that touch memory and consult their surroundings

An `Effect A α` is a program seen from outside: it touches spans of memory, loads words whose
contents it does not control, asks its surroundings questions `q` with answers of type `A q`,
and returns a value or stops for good.

* `Effect.spans` lists the spans one run touches, for given surroundings;
* `Effect.Within P R` is the weakest precondition under which every run touches only spans
  with `P` and returns only values with `R`;
* `Effect.safe_iff` says the two agree: a program is `Safe P` exactly when every span of every
  run has `P`.

The rules for `Within` are equivalences, so that a program's exact condition can be computed
from its text.
-/

namespace Lib

open Function

/-- A stretch of memory: `len` bytes from `addr` on. -/
structure Span where
  /-- First byte. -/
  addr : ℕ
  /-- Number of bytes. -/
  len : ℕ
deriving DecidableEq, Repr

/-- Every byte of the span lies below `bound`. -/
def Span.Below (bound : ℕ) (s : Span) : Prop := ∀ i < s.len, s.addr + i < bound

theorem Span.below_iff {bound addr len : ℕ} :
    Span.Below bound ⟨addr, len⟩ ↔ len = 0 ∨ addr + len ≤ bound := by
  constructor
  · intro h
    rcases Nat.eq_zero_or_pos len with h0 | h0
    · exact .inl h0
    · have := h (len - 1) (by simp only; omega)
      simp only at this
      exact .inr (by omega)
  · rintro (rfl | h) i hi
    · exact absurd hi (Nat.not_lt_zero i)
    · simp only at hi ⊢
      omega

/-- A program that touches memory and asks questions with answers in `A`. -/
inductive Effect {Q : Type} (A : Q → Type) (α : Type) : Type
  /-- Return a value. -/
  | ret (a : α)
  /-- Stop for good: the program panics, or never comes back. -/
  | halt
  /-- Touch a span whose contents do not matter, and go on. -/
  | touch (s : Span) (k : Effect A α)
  /-- Load the word of a span, and go on with it. -/
  | load (s : Span) (k : ℕ → Effect A α)
  /-- Ask the surroundings, and go on with the answer. -/
  | ask (q : Q) (k : A q → Effect A α)

namespace Effect

variable {Q : Type} {A : Q → Type} {α β : Type}

/-- Run `x`, then `f` on its value. -/
def bind (f : α → Effect A β) : Effect A α → Effect A β
  | ret a => f a
  | halt => halt
  | touch s k => touch s (k.bind f)
  | load s k => load s fun v => (k v).bind f
  | ask q k => ask q fun a => (k a).bind f

instance : Monad (Effect A) where
  pure := ret
  bind x f := x.bind f

/-- `p` when the condition holds, nothing otherwise. -/
def when (c : Prop) [Decidable c] (p : Effect A Unit) : Effect A Unit :=
  if c then p else pure ()

/-- What a run meets: the contents of the word loaded, and the answer given, at each event. -/
structure Surroundings (A : Q → Type) where
  /-- The word an `i`-th event loads. -/
  word : ℕ → ℕ
  /-- The answer an `i`-th event gets. -/
  answer : ℕ → ∀ q, A q

/-- The spans a run touches, from its `i`-th event on. -/
def spans (e : Surroundings A) : ℕ → Effect A α → List Span
  | _, ret _ => []
  | _, halt => []
  | i, touch s k => s :: spans e i k
  | i, load s k => s :: spans e (i + 1) (k (e.word i % 256 ^ s.len))
  | i, ask q k => spans e (i + 1) (k (e.answer i q))

/-! ### Weakest preconditions -/

variable {P : Span → Prop} {R : α → Prop} {x : Effect A α} {f : α → Effect A β}

/-- Every run touches only spans with `P` and returns only values with `R`. -/
def Within (P : Span → Prop) (R : α → Prop) : Effect A α → Prop
  | ret a => R a
  | halt => True
  | touch s k => P s ∧ k.Within P R
  | load s k => P s ∧ ∀ v < 256 ^ s.len, (k v).Within P R
  | ask _ k => ∀ a, (k a).Within P R

/-- Every run touches only spans with `P`. -/
def Safe (P : Span → Prop) (x : Effect A α) : Prop := x.Within P fun _ => True

theorem within_bind {R : β → Prop} (x : Effect A α) :
    (x >>= f).Within P R ↔ x.Within P fun a => (f a).Within P R := by
  induction x with
  | ret => exact Iff.rfl
  | halt => exact Iff.rfl
  | touch s k ih => exact and_congr Iff.rfl ih
  | load s k ih => exact and_congr Iff.rfl (forall₂_congr fun v _ => ih v)
  | ask q k ih => exact forall_congr' fun a => ih a

theorem Within.mono {R' : α → Prop} (hR : ∀ a, R a → R' a) (h : x.Within P R) : x.Within P R' := by
  induction x with
  | ret a => exact hR a h
  | halt => trivial
  | touch s k ih => exact ⟨h.1, ih h.2⟩
  | load s k ih => exact ⟨h.1, fun v hv => ih v (h.2 v hv)⟩
  | ask q k ih => exact fun a => ih a (h a)

/-- A safe program followed by programs that are all safe is safe. -/
theorem Safe.bind (hx : x.Safe P) (hf : ∀ a, (f a).Safe P) : (x >>= f).Safe P :=
  (within_bind x).2 (hx.mono fun a _ => hf a)

/-- Whatever is returned at the end. -/
theorem Safe.ret {g : α → β} (hx : x.Safe P) : (x >>= fun a => pure (g a)).Safe P :=
  hx.bind fun _ => trivial

theorem Safe.of_bind (h : (x >>= f).Safe P) : x.Safe P :=
  ((within_bind x).1 h).mono fun _ _ => trivial

/-- What follows counts for nothing if it is safe anyway. -/
theorem safe_bind_iff (hf : ∀ a, (f a).Safe P) :
    (x >>= f).Safe P ↔ x.Safe P := ⟨Safe.of_bind, fun h => h.bind hf⟩

@[simp] theorem within_pure (a : α) : (pure a : Effect A α).Within P R ↔ R a := Iff.rfl

@[simp] theorem within_halt : (halt : Effect A α).Within P R ↔ True := Iff.rfl

@[simp] theorem within_touch (s : Span) (k : Effect A α) :
    (touch s k).Within P R ↔ P s ∧ k.Within P R := Iff.rfl

theorem within_ite (c : Prop) [Decidable c] (x y : Effect A α) :
    (if c then x else y).Within P R ↔ (c → x.Within P R) ∧ (¬c → y.Within P R) := by
  by_cases h : c <;> simp [h]

@[simp] theorem within_when {R : Unit → Prop} (c : Prop) [Decidable c] (x : Effect A Unit) :
    (when c x).Within P R ↔ (c → x.Within P R) ∧ (¬c → R ()) := by
  exact within_ite ..

/-! ### The weakest precondition is about the runs -/

theorem spans_congr {e e' : Surroundings A} {i : ℕ}
    (hw : ∀ j, i ≤ j → e.word j = e'.word j) (ha : ∀ j, i ≤ j → e.answer j = e'.answer j)
    (x : Effect A α) : spans e i x = spans e' i x := by
  induction x generalizing i with
  | ret => rfl
  | halt => rfl
  | touch s k ih => simp only [spans, ih hw ha]
  | load s k ih =>
    rw [spans, hw i (Nat.le_refl i)]
    exact congrArg _ (ih _ (fun j hj => hw j (by omega)) fun j hj => ha j (by omega))
  | ask q k ih =>
    rw [spans, ha i (Nat.le_refl i)]
    exact ih _ (fun j hj => hw j (by omega)) fun j hj => ha j (by omega)

theorem Safe.spans (h : x.Safe P) (e : Surroundings A) (i : ℕ) : ∀ s ∈ spans e i x, P s := by
  induction x generalizing i with
  | ret | halt => simp [Effect.spans]
  | touch s k ih =>
    intro s' hs'
    rcases List.mem_cons.1 hs' with rfl | hs'
    · exact h.1
    · exact ih h.2 i s' hs'
  | load s k ih =>
    intro s' hs'
    rcases List.mem_cons.1 hs' with rfl | hs'
    · exact h.1
    · exact ih _ (h.2 _ (Nat.mod_lt _ (Nat.pow_pos (by decide)))) (i + 1) s' hs'
  | ask q k ih => exact ih _ (h _) (i + 1)

/-- A program that is not safe has a run that shows it: the surroundings are chosen event by
event. -/
theorem exists_span_of_not_safe [∀ q, Inhabited (A q)] (h : ¬x.Safe P)
    (i : ℕ) : ∃ e, ∃ s ∈ spans e i x, ¬P s := by
  classical
  induction x generalizing i with
  | ret | halt => exact absurd trivial h
  | touch s k ih =>
    by_cases hs : P s
    · obtain ⟨e, s', hs', hP⟩ := ih (fun hk => h ⟨hs, hk⟩) i
      exact ⟨e, s', List.mem_cons_of_mem _ hs', hP⟩
    · exact ⟨⟨fun _ => 0, fun _ _ => default⟩, s, (.head _), hs⟩
  | load s k ih =>
    by_cases hs : P s
    · obtain ⟨v, hv, hk⟩ : ∃ v, v < 256 ^ s.len ∧ ¬(k v).Safe P := by
        by_contra hall
        push Not at hall
        exact h ⟨hs, hall⟩
      obtain ⟨e, s', hs', hP⟩ := ih v hk (i + 1)
      -- the run of `k v` from the next event on, with `v` loaded now
      refine ⟨⟨update e.word i v, e.answer⟩, s', List.mem_cons_of_mem _ ?_, hP⟩
      simp only [update_self, Nat.mod_eq_of_lt hv]
      have heq : spans ⟨update e.word i v, e.answer⟩ (i + 1) (k v) =
          spans e (i + 1) (k v) := by
        refine spans_congr (fun j hj => ?_) (fun _ _ => ?_) (k v)
        · exact update_of_ne (show j ≠ i by omega) ..
        · rfl
      rwa [heq]
    · exact ⟨⟨fun _ => 0, fun _ _ => default⟩, s, (.head _), hs⟩
  | ask q k ih =>
    obtain ⟨a, hk⟩ : ∃ a, ¬(k a).Safe P := by
      by_contra hall
      push Not at hall
      exact h hall
    obtain ⟨e, s', hs', hP⟩ := ih a hk (i + 1)
    refine ⟨⟨e.word, update e.answer i (update (e.answer i) q a)⟩, s', ?_, hP⟩
    simp only [spans, update_self]
    have heq : spans ⟨e.word, update e.answer i (update (e.answer i) q a)⟩
        (i + 1) (k a) = spans e (i + 1) (k a) := by
      refine spans_congr (fun _ _ => ?_) (fun j hj => ?_) (k a)
      · rfl
      · exact update_of_ne (show j ≠ i by omega) ..
    rwa [heq]

/-- A program is safe exactly when every span of every run has the property. -/
theorem safe_iff [∀ q, Inhabited (A q)] (i : ℕ) : x.Safe P ↔ ∀ e, ∀ s ∈ spans e i x, P s := by
  refine ⟨fun h e => h.spans e i, fun h => ?_⟩
  by_contra hx
  obtain ⟨e, s, hs, hP⟩ := exists_span_of_not_safe hx i
  exact hP (h e s hs)

end Effect

end Lib
