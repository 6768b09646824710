import Mathlib.Tactic.Common

/-!
# Simulations of stateful computations

A computation changes a state and may fail; a failure keeps what was done to the
state before it. One computation simulates another when, from related states,
both come to the same result and leave related states behind.
-/

namespace Foundation

universe u

variable {ε σ τ α β : Type u}

abbrev Stateful (ε σ α : Type u) := ExceptT ε (StateM σ) α

namespace Stateful

/-- The result of a computation and the state that it leaves. -/
def exec (x : Stateful ε σ α) (s : σ) : Except ε α × σ := x s

@[simp] theorem exec_pure (a : α) (s : σ) : exec (pure a : Stateful ε σ α) s = (.ok a, s) := rfl

@[simp] theorem exec_throw (e : ε) (s : σ) :
    exec (throw e : Stateful ε σ α) s = (.error e, s) := rfl

@[simp] theorem exec_get (s : σ) : exec (get : Stateful ε σ σ) s = (.ok s, s) := rfl

@[simp] theorem exec_set (s s' : σ) : exec (set s' : Stateful ε σ PUnit) s = (.ok ⟨⟩, s') := rfl

@[simp] theorem exec_lift (x : Except ε α) (s : σ) : exec (x : Stateful ε σ α) s = (x, s) := rfl

theorem exec_bind (x : Stateful ε σ α) (f : α → Stateful ε σ β) (s : σ) :
    exec (x >>= f) s =
      match exec x s with
      | (.ok a, s') => exec (f a) s'
      | (.error e, s') => (.error e, s') := by
  change ExceptT.bindCont f (exec x s).1 (exec x s).2 = _
  rcases exec x s with ⟨_ | a, s'⟩
  · rfl
  · rfl

/-- From states related by `R` the two come to one result, and to related states. -/
def Simulates (R : σ → τ → Prop) (x : Stateful ε σ α) (y : Stateful ε τ α) : Prop :=
  ∀ s t, R s t → (exec x s).1 = (exec y t).1 ∧ R (exec x s).2 (exec y t).2

namespace Simulates

variable {R : σ → τ → Prop}

theorem pure (a : α) : Simulates R (Pure.pure a : Stateful ε σ α) (Pure.pure a : Stateful ε τ α) :=
  fun _ _ h => ⟨rfl, h⟩

theorem lift (x : Except ε α) : Simulates R (x : Stateful ε σ α) (x : Stateful ε τ α) :=
  fun _ _ h => ⟨rfl, h⟩

theorem bind {x : Stateful ε σ α} {y : Stateful ε τ α} {f : α → Stateful ε σ β}
    {g : α → Stateful ε τ β} (hx : Simulates R x y) (hf : ∀ a, Simulates R (f a) (g a)) :
    Simulates R (x >>= f) (y >>= g) := by
  intro s t h
  obtain ⟨hresult, hstate⟩ := hx s t h
  rw [exec_bind, exec_bind]
  rcases hs : exec x s with ⟨_ | a, s'⟩ <;> rcases ht : exec y t with ⟨_ | b, t'⟩ <;>
    rw [hs, ht] at hresult hstate
  · cases hresult
    exact ⟨rfl, hstate⟩
  · cases hresult
  · cases hresult
  · cases hresult
    exact hf a s' t' hstate

end Simulates

end Stateful

end Foundation
