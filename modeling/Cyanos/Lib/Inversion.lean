/-!
# Results that are tuples

What follows when a computation that may stop has returned two given results.
-/

namespace Lib

variable {α β γ : Type _} {a a' : α} {b b' : β} {c c' : γ}

theorem pair_inj (h : some (a, b) = some (a', b')) : a = a' ∧ b = b' :=
  Prod.mk.inj (Option.some.inj h)

theorem triple_inj (h : some (a, b, c) = some (a', b', c')) : a = a' ∧ b = b' ∧ c = c' := by
  obtain ⟨ha, h⟩ := pair_inj h
  exact ⟨ha, Prod.mk.inj h⟩

theorem exists_of_map_ok {ε : Type _} {x : Except ε α} {f : α → β} (h : x.map f = .ok b) :
    ∃ a, x = .ok a ∧ f a = b := by
  cases x with
  | error => cases h
  | ok a => exact ⟨a, rfl, Except.ok.inj h⟩

/-- What each turn of a loop over a list keeps. -/
theorem foldlM_keeps {f : β → α → Option β} {J : List α → β → Prop}
    (hstep : ∀ {a l b b'}, f b a = some b' → J (a :: l) b → J l b') {l : List α}
    (h : l.foldlM f b = some b') (hJ : J l b) : J [] b' := by
  induction l generalizing b with
  | nil =>
    cases h
    exact hJ
  | cons a l ih =>
    rw [List.foldlM_cons] at h
    obtain ⟨b₁, h1, h⟩ := Option.bind_eq_some_iff.1 h
    exact ih h (hstep h1 hJ)

end Lib
