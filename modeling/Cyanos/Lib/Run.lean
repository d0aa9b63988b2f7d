/-!
# Runs of a deterministic labelled system

`step s l` is the state after the call `l` in the state `s`, or `none` when the call cannot be
made there.  `Run step G s t` says that `t` is reached from `s` by calls each of which met the
guard `G` in the state it was made in; `Reach step s t` puts no guard on the calls.
-/

namespace Lib

variable {S L : Type _}

/-- `t` is reached from `s` by calls that met `G` in the state before them. -/
inductive Run (step : S → L → Option S) (G : S → L → Prop) (s : S) : S → Prop
  | refl : Run step G s s
  | tail {t u : S} {l : L} : Run step G s t → G t l → step t l = some u → Run step G s u

/-- `t` is reached from `s`. -/
abbrev Reach (step : S → L → Option S) (s t : S) : Prop := Run step (fun _ _ => True) s t

/-- Evaluating what may fail, and testing its result. -/
theorem exists_of_any {o : Option S} {p : S → Prop} [DecidablePred p]
    (h : o.any (fun s => p s) = true) : ∃ s, o = some s ∧ p s := by
  obtain ⟨s, hs, hp⟩ := (Option.any_eq_true _ _).1 h
  exact ⟨s, hs, of_decide_eq_true hp⟩

namespace Run

variable {step : S → L → Option S} {G : S → L → Prop} {s t u : S} {l : L}

theorem single (hg : G s l) (hst : step s l = some t) : Run step G s t := .tail .refl hg hst

theorem trans (h : Run step G s t) (h' : Run step G t u) : Run step G s u := by
  induction h' with
  | refl => exact h
  | tail _ hg hst ih => exact .tail ih hg hst

/-- A predicate that holds initially and that every guarded call preserves holds in every state of
the run. -/
theorem invariant {I : S → Prop} (h : Run step G s t) (h₀ : I s)
    (hstep : ∀ s l s', I s → G s l → step s l = some s' → I s') : I t := by
  induction h with
  | refl => exact h₀
  | tail _ hg hst ih => exact hstep _ _ _ ih hg hst

theorem of_foldlM {ls : List L} (h : ls.foldlM step s = some t) : Reach step s t := by
  induction ls generalizing s with
  | nil => cases h; exact .refl
  | cons l ls ih =>
    obtain ⟨u, hu, h⟩ := Option.bind_eq_some_iff.1 h
    exact (single trivial hu).trans (ih h)

/-- Making the calls of a list one after the other, and testing where they lead. -/
theorem exists_of_foldlM {p : S → Prop} [DecidablePred p] (ls : List L)
    (h : (ls.foldlM step s).any (fun t => p t) = true) : ∃ t, Reach step s t ∧ p t := by
  obtain ⟨t, ht, hp⟩ := exists_of_any h
  exact ⟨t, of_foldlM ht, hp⟩

/-- Making the calls of a list one after the other, testing that each of them meets the guard and
then where they lead. -/
theorem exists_of_guarded [∀ s l, Decidable (G s l)] {p : S → Prop} [DecidablePred p] (ls : List L)
    (h : (ls.foldlM (fun s l => if G s l then step s l else none) s).any (fun t => p t) = true) :
    ∃ t, Run step G s t ∧ p t := by
  induction ls generalizing s with
  | nil => exact ⟨s, .refl, of_decide_eq_true h⟩
  | cons l ls ih =>
    rw [List.foldlM_cons] at h
    obtain ⟨t, ht, hp⟩ := (Option.any_eq_true _ _).1 h
    obtain ⟨u, hu, ht⟩ := Option.bind_eq_some_iff.1 ht
    split at hu
    · next hg =>
      obtain ⟨t, hrun, hp⟩ := ih ((Option.any_eq_true _ _).2 ⟨t, ht, hp⟩)
      exact ⟨t, (single hg hu).trans hrun, hp⟩
    · cases hu

/-- The same, with what follows from the run and its test. -/
theorem exists_guarded_with [∀ s l, Decidable (G s l)] {p q : S → Prop} [DecidablePred p] (ls : List L)
    (h : (ls.foldlM (fun s l => if G s l then step s l else none) s).any (fun t => p t) = true)
    (hq : ∀ t, Run step G s t → p t → q t) : ∃ t, Run step G s t ∧ p t ∧ q t := by
  obtain ⟨t, hrun, hp⟩ := exists_of_guarded ls h
  exact ⟨t, hrun, hp, hq t hrun hp⟩

end Run

/-! ### Guards that can be tested -/

section Guards

variable {α β : Type _}

instance decidableSome {p : α → Prop} [DecidablePred p] (o : Option α) :
    Decidable (∀ a, o = some a → p a) :=
  inferInstanceAs (Decidable (∀ a ∈ o, p a))

instance decidablePair {p : α → β → Prop} [∀ a b, Decidable (p a b)] (o : Option (α × β)) :
    Decidable (∀ a b, o = some (a, b) → p a b) :=
  decidable_of_iff (∀ x ∈ o, p x.1 x.2) ⟨fun h a b => h (a, b), fun h x => h x.1 x.2⟩

instance decidableSlots {p : α → Prop} [DecidablePred p] (l : List (Option α)) :
    Decidable (∀ a, some a ∈ l → p a) :=
  decidable_of_iff (∀ o ∈ l, ∀ a ∈ o, p a)
    ⟨fun h a ha => h _ ha a rfl, fun h _ ho a ha => h a (ha ▸ ho)⟩

instance decidableIndex {p : Nat → α → Prop} [∀ i a, Decidable (p i a)] (l : List α) :
    Decidable (∀ i a, l[i]? = some a → p i a) :=
  decidable_of_iff (∀ i < l.length, ∀ a ∈ l[i]?, p i a) (by grind)

end Guards

end Lib
