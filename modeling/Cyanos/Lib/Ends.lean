/-!
# Programs that end

A program that may stop for good is an `Option`: `none` is a failed assertion.  `Ends x Q` says that
`x` does not stop and that its value satisfies `Q`.
-/

namespace Lib

variable {α β : Type _} {x : Option α} {Q R : α → Prop}

/-- The program ends with a value that satisfies `Q`. -/
def Ends (x : Option α) (Q : α → Prop) : Prop := ∃ a, x = some a ∧ Q a

theorem ends_some {a : α} (h : Q a) : Ends (some a) Q := ⟨a, rfl, h⟩

namespace Ends

section

variable (h : Ends x Q)
include h

theorem isSome : x.isSome = true := by
  obtain ⟨a, rfl, -⟩ := h
  rfl

theorem mono (hQ : ∀ a, Q a → R a) : Ends x R := by
  obtain ⟨a, ha, hq⟩ := h
  exact ⟨a, ha, hQ a hq⟩

/-- What is known of the value of a program that does not stop. -/
theorem of_eq (hR : ∀ a, x = some a → R a) : Ends x R := by
  obtain ⟨a, ha, -⟩ := h
  exact ⟨a, ha, hR a ha⟩

/-- One program after the other. -/
theorem bind {f : α → Option β} {S : β → Prop} (hf : ∀ a, Q a → Ends (f a) S) :
    Ends (x >>= f) S := by
  obtain ⟨a, rfl, hq⟩ := h
  exact hf a hq

/-- Whatever is made of the value, the program ends. -/
theorem finish {f : α → β} : Ends (x >>= fun a => some (f a)) fun _ => True :=
  h.bind fun _ _ => ends_some trivial

theorem map {f : α → β} {S : β → Prop} (hf : ∀ a, Q a → S (f a)) : Ends (x.map f) S := by
  obtain ⟨a, rfl, hq⟩ := h
  exact ⟨f a, rfl, hf a hq⟩

end

/-- A loop over a list, each turn of which ends and keeps the invariant. -/
theorem foldlM {ι : Type _} {f : α → ι → Option α} {l : List ι} {a : α}
    (hstep : ∀ a, Q a → ∀ i ∈ l, Ends (f a i) Q) (h : Q a) : Ends (l.foldlM f a) Q := by
  induction l generalizing a with
  | nil => exact ends_some h
  | cons i l ih =>
    rw [List.foldlM_cons]
    exact (hstep a h i (.head _)).bind fun a ha =>
      ih (fun a ha i hi => hstep a ha i (.tail _ hi)) ha

end Ends

end Lib
