/-!
# Relations between values that may be absent

Rules for `Option.Rel R`: both are absent, or both are there and related by `R`.
-/

namespace Lib

open Option

variable {α β γ δ : Type} {R : α → β → Prop} {s : Option α} {d : Option β}

theorem rel_map_self {R : α → α → Prop} {f : α → α} (hf : ∀ a, R a (f a)) (s : Option α) :
    Rel R s (s.map f) := by
  cases s with
  | none => exact .none
  | some a => exact .some (hf a)

theorem exists_of_rel_some {b : β} (h : Rel R s (some b)) : ∃ a, s = some a ∧ R a b := by
  cases h with
  | some hab => exact ⟨_, rfl, hab⟩

theorem exists_of_some_rel {a : α} (h : Rel R (some a) d) : ∃ b, d = some b ∧ R a b := by
  cases h with
  | some hab => exact ⟨_, rfl, hab⟩

theorem isSome_of_rel (h : Rel R s d) : d.isSome = s.isSome := by
  cases h <;> rfl

theorem rel_mono {R' : α → β → Prop} (h : Rel R s d) (hR : ∀ a ∈ s, ∀ b, R a b → R' a b) :
    Rel R' s d := by
  cases h with
  | none => exact .none
  | some hab => exact .some (hR _ rfl _ hab)

theorem rel_trans {S : β → γ → Prop} {T : α → γ → Prop} {e : Option γ}
    (hT : ∀ {a b c}, R a b → S b c → T a c) (h : Rel R s d) (h' : Rel S d e) : Rel T s e := by
  cases h with
  | none =>
    cases h'
    exact .none
  | some hab =>
    cases h' with
    | some hbc => exact .some (hT hab hbc)

theorem rel_bind {S : γ → δ → Prop} {f : α → Option γ} {g : β → Option δ} (h : Rel R s d)
    (hfg : ∀ {a b}, R a b → Rel S (f a) (g b)) : Rel S (s.bind f) (d.bind g) := by
  cases h with
  | none => exact .none
  | some hab => exact hfg hab

end Lib
