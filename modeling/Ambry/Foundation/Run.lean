import Mathlib.Data.List.Induction
import Mathlib.Tactic.Common

/-!
# Runs of a labelled step relation

A run lists the events it took. A system given as a partial function from a
state and an action to a reply and a next state steps by events that pair an
action with its reply; a guard restricts the states in which an action is taken.
-/

namespace Foundation

variable {σ ε : Type*}

inductive Run (step : σ → ε → σ → Prop) (start : σ) : List ε → σ → Prop
  | nil : Run step start [] start
  | snoc {trace : List ε} {s s' : σ} {e : ε} :
      Run step start trace s → step s e s' → Run step start (trace ++ [e]) s'

namespace Run

variable {step : σ → ε → σ → Prop} {start s : σ} {trace : List ε}

/-- What holds at the start and is kept by every step holds in every state reached. -/
theorem invariant {I : σ → Prop} (h : Run step start trace s) (hstart : I start)
    (hstep : ∀ s e s', I s → step s e s' → I s') : I s := by
  induction h with
  | nil => exact hstart
  | snoc _ hs ih => exact hstep _ _ _ ih hs

/-- The same with the history in view: the invariant speaks of the trace as well. -/
theorem history {I : List ε → σ → Prop} (h : Run step start trace s) (hstart : I [] start)
    (hstep : ∀ t s e s', I t s → step s e s' → I (t ++ [e]) s') : I trace s := by
  induction h with
  | nil => exact hstart
  | snoc _ hs ih => exact hstep _ _ _ _ ih hs

theorem mono {step' : σ → ε → σ → Prop} (h : Run step start trace s)
    (hsub : ∀ s e s', step s e s' → step' s e s') : Run step' start trace s := by
  induction h with
  | nil => exact .nil
  | snoc _ hs ih => exact .snoc ih (hsub _ _ _ hs)

theorem cons {s' : σ} {e : ε} (hs : step start e s') (h : Run step s' trace s) :
    Run step start (e :: trace) s := by
  induction h with
  | nil => exact .snoc .nil hs
  | snoc _ hs' ih => exact .snoc ih hs'

theorem append {s' : σ} {trace' : List ε} (h : Run step start trace s)
    (h' : Run step s trace' s') : Run step start (trace ++ trace') s' := by
  induction h' with
  | nil => rwa [List.append_nil]
  | snoc _ hs ih =>
    rw [← List.append_assoc]
    exact .snoc ih hs

theorem last {e : ε} (h : Run step start (trace ++ [e]) s) :
    ∃ m, Run step start trace m ∧ step m e s := by
  generalize htrace : trace ++ [e] = trace' at h
  cases h with
  | nil => simp at htrace
  | snoc hrun hs =>
    obtain ⟨rfl, rfl⟩ := List.append_inj' htrace rfl |>.imp_right List.singleton_inj.mp
    exact ⟨_, hrun, hs⟩

/-- A run passes through a state before and a state after each of its events. -/
theorem split {e : ε} {trace' : List ε} (h : Run step start (trace ++ e :: trace') s) :
    ∃ m m', Run step start trace m ∧ step m e m' ∧ Run step m' trace' s := by
  induction trace' using List.reverseRecOn generalizing s with
  | nil =>
    obtain ⟨m, hrun, hs⟩ := h.last
    exact ⟨m, s, hrun, hs, .nil⟩
  | append_singleton trace' e' ih =>
    rw [← List.cons_append, ← List.append_assoc] at h
    obtain ⟨n, hrun, hs⟩ := h.last
    obtain ⟨m, m', hbefore, he, hafter⟩ := ih hrun
    exact ⟨m, m', hbefore, he, .snoc hafter hs⟩

/-- Where the event tells the next state, the trace tells the state reached. -/
theorem functional {step' : σ → ε → σ → Prop} {s' : σ} (h : Run step start trace s)
    (h' : Run step' start trace s')
    (hstep : ∀ s e s₁ s₂, step s e s₁ → step' s e s₂ → s₁ = s₂) : s = s' := by
  induction h generalizing s' with
  | nil =>
    generalize htrace : ([] : List ε) = trace' at h'
    cases h' with
    | nil => rfl
    | snoc => simp at htrace
  | snoc _ hs ih =>
    obtain ⟨m, hrun, hs'⟩ := h'.last
    obtain rfl := ih hrun
    exact hstep _ _ _ _ hs hs'

/-- Where the steps of one system can be taken by another from related states, so can its runs. -/
theorem forward {τ : Type*} {step' : τ → ε → τ → Prop} {R : σ → τ → Prop} {start' : τ}
    (h : Run step start trace s) (hstart : R start start')
    (hstep : ∀ s t e s', R s t → step s e s' → ∃ t', step' t e t' ∧ R s' t') :
    ∃ t, Run step' start' trace t ∧ R s t := by
  induction h with
  | nil => exact ⟨start', .nil, hstart⟩
  | snoc _ hs ih =>
    obtain ⟨t, hrun, hrelated⟩ := ih
    obtain ⟨t', hs', hrelated'⟩ := hstep _ _ _ _ hrelated hs
    exact ⟨t', .snoc hrun hs', hrelated'⟩

end Run

section
variable {α ρ : Type*}

/-- One guarded step of a partial system: the event carries the action and its reply. -/
def Steps (next : σ → α → Option (ρ × σ)) (guard : σ → α → Prop) (s : σ) (e : α × ρ) (s' : σ) :
    Prop :=
  guard s e.1 ∧ next s e.1 = some (e.2, s')

theorem Steps.functional {next : σ → α → Option (ρ × σ)} {guard guard' : σ → α → Prop}
    {s s₁ s₂ : σ} {e : α × ρ} (h : Steps next guard s e s₁) (h' : Steps next guard' s e s₂) :
    s₁ = s₂ := by
  cases h.2.symm.trans h'.2
  rfl

/-- The system cut down to the steps that end within a bound. -/
def within (next : σ → α → Option (ρ × σ)) (bound : σ → Prop) [DecidablePred bound] (s : σ) (a : α) :
    Option (ρ × σ) :=
  (next s a).filter fun r => bound r.2

theorem Steps.of_within {next : σ → α → Option (ρ × σ)} {bound : σ → Prop} [DecidablePred bound]
    {guard : σ → α → Prop} {s s' : σ} {e : α × ρ} (h : Steps (within next bound) guard s e s') :
    Steps next guard s e s' ∧ bound s' := by
  obtain ⟨hguard, hnext⟩ := h
  obtain ⟨hnext, hbound⟩ := Option.filter_eq_some_iff.mp hnext
  exact ⟨⟨hguard, hnext⟩, of_decide_eq_true hbound⟩

def runAll (next : σ → α → Option (ρ × σ)) : σ → List α → Option (List (α × ρ) × σ)
  | s, [] => some ([], s)
  | s, a :: actions => (next s a).bind fun r =>
    (runAll next r.2 actions).bind fun t => some ((a, r.1) :: t.1, t.2)

def Guarded (next : σ → α → Option (ρ × σ)) (guard : σ → α → Prop) : σ → List α → Prop
  | _, [] => True
  | s, a :: actions => guard s a ∧ ∀ r ∈ next s a, Guarded next guard r.2 actions

instance Guarded.decidable {next : σ → α → Option (ρ × σ)} {guard : σ → α → Prop}
    [∀ s a, Decidable (guard s a)] :
    ∀ (s : σ) (actions : List α), Decidable (Guarded next guard s actions)
  | _, [] => .isTrue trivial
  | s, a :: actions =>
    have (s' : σ) : Decidable (Guarded next guard s' actions) := Guarded.decidable s' actions
    inferInstanceAs (Decidable (guard s a ∧ ∀ r ∈ next s a, Guarded next guard r.2 actions))

theorem Guarded.of_forall {next : σ → α → Option (ρ × σ)} {guard : σ → α → Prop}
    (h : ∀ s a, guard s a) (s : σ) (actions : List α) : Guarded next guard s actions := by
  induction actions generalizing s with
  | nil => trivial
  | cons a actions ih => exact ⟨h s a, fun r _ => ih r.2⟩

theorem run_of_runAll {next : σ → α → Option (ρ × σ)} {guard : σ → α → Prop} {actions : List α} :
    ∀ {start s : σ} {trace : List (α × ρ)}, Guarded next guard start actions →
      runAll next start actions = some (trace, s) → Run (Steps next guard) start trace s := by
  induction actions with
  | nil =>
    intro start s trace _ h
    cases h
    exact .nil
  | cons a actions ih =>
    intro start s trace hg h
    obtain ⟨⟨reply, s'⟩, hnext, h⟩ := Option.bind_eq_some_iff.mp h
    obtain ⟨⟨rest, t⟩, hrest, h⟩ := Option.bind_eq_some_iff.mp h
    cases h
    exact Run.cons ⟨hg.1, hnext⟩ (ih (hg.2 _ hnext) hrest)

/-- A run that can be computed, with what can be computed of its end. -/
theorem exists_run {next : σ → α → Option (ρ × σ)} {guard : σ → α → Prop} {start : σ}
    {P : List (α × ρ) → σ → Prop} (actions : List α)
    (hguard : Guarded next guard start actions) (h : ∃ r ∈ runAll next start actions, P r.1 r.2) :
    ∃ trace s, Run (Steps next guard) start trace s ∧ P trace s := by
  obtain ⟨⟨trace, s⟩, hrun, hP⟩ := h
  exact ⟨trace, s, run_of_runAll hguard hrun, hP⟩

end

end Foundation
