import Mathlib.Tactic.Common

/-!
# Computations that may fail

What a computation that has come to a result has done on the way, and what it means
that one computation follows another: where the first comes to a result, the second
comes to a related one.
-/

namespace Foundation

universe u

variable {ε : Type*} {α β : Type u}

theorem bind_eq_ok {x : Except ε α} {f : α → Except ε β} {b : β} (h : x >>= f = .ok b) :
    ∃ a, x = .ok a ∧ f a = .ok b := by
  cases x with
  | error e => cases h
  | ok a => exact ⟨a, rfl, h⟩

theorem map_eq_ok {x : Except ε α} {f : α → β} {b : β} (h : x.map f = .ok b) :
    ∃ a, x = .ok a ∧ f a = b := by
  cases x with
  | error e => cases h
  | ok a => exact ⟨a, rfl, Except.ok.inj h⟩

theorem toOption_eq_some {x : Except ε α} {a : α} : x.toOption = some a ↔ x = .ok a := by
  cases x <;> simp [Except.toOption]

def Follows (R : α → β → Prop) (x : Except ε α) (y : Except ε β) : Prop :=
  ∀ a, x = .ok a → ∃ b, y = .ok b ∧ R a b

namespace Follows

variable {γ δ : Type u} {R : α → β → Prop} {S : γ → δ → Prop} {x : Except ε α} {y : Except ε β}

theorem ok {a : α} {b : β} (h : R a b) : Follows R (.ok a : Except ε α) (.ok b) := by
  rintro _ ⟨⟩
  exact ⟨b, rfl, h⟩

theorem error {e : ε} : Follows R (.error e) y := by
  rintro _ ⟨⟩

theorem refl (x : Except ε α) : Follows Eq x x := fun a h => ⟨a, h, rfl⟩

theorem mono {R' : α → β → Prop} (h : Follows R x y) (himp : ∀ a b, R a b → R' a b) :
    Follows R' x y := by
  intro a ha
  obtain ⟨b, hb, hab⟩ := h a ha
  exact ⟨b, hb, himp a b hab⟩

theorem bind {f : α → Except ε γ} {g : β → Except ε δ} (hx : Follows R x y)
    (hf : ∀ a b, R a b → Follows S (f a) (g b)) : Follows S (x >>= f) (y >>= g) := by
  intro c hc
  obtain ⟨a, ha, hc⟩ := bind_eq_ok hc
  obtain ⟨b, hb, hab⟩ := hx a ha
  rw [hb]
  exact hf a b hab c hc

/-- The same computation goes before both. -/
theorem after {x : Except ε α} {f : α → Except ε γ} {g : α → Except ε δ}
    (hf : ∀ a, x = .ok a → Follows S (f a) (g a)) : Follows S (x >>= f) (x >>= g) := by
  intro c hc
  obtain ⟨a, ha, hc⟩ := bind_eq_ok hc
  rw [ha]
  exact hf a ha c hc

end Follows

end Foundation
