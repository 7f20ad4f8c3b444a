import Mathlib.Logic.Relation
import Mathlib.Data.Nat.Init
import Mathlib.Logic.Basic

/-!
# Runs that come to rest

A step relation, and what holds at the end of every run: each run stops after finitely many
steps, and only in states of a given kind.
-/

namespace ProtonDrive.TerminatingRuns
open Relation

variable {σ : Type} {step : σ → σ → Prop} {P : σ → Prop} {s s' : σ}

/-- No step is possible. -/
def AtRest (step : σ → σ → Prop) (s : σ) : Prop := ∀ s', ¬ step s s'

/-- Every run from here stops, and then the property holds. -/
inductive Eventually (step : σ → σ → Prop) (P : σ → Prop) : σ → Prop
  | intro {s : σ} (rest : AtRest step s → P s) (next : ∀ s', step s s' → Eventually step P s') :
    Eventually step P s

/-- When every step makes a weight smaller, the states at rest are all that matters. -/
theorem Eventually.of_weight (weight : σ → ℕ) (hw : ∀ s s', step s s' → weight s' < weight s)
    (h : ∀ s', ReflTransGen step s s' → AtRest step s' → P s') : Eventually step P s := by
  induction hn : weight s using Nat.strong_induction_on generalizing s with
  | h n ih =>
    subst hn
    refine .intro (h s .refl) fun s' hs => ?_
    exact ih (weight s') (hw s s' hs) (fun s'' hr => h s'' (.head hs hr)) rfl

/-- There is a run to a state at rest, and the property holds there. -/
theorem Eventually.exists_rest (h : Eventually step P s) :
    ∃ s', ReflTransGen step s s' ∧ AtRest step s' ∧ P s' := by
  induction h with
  | intro rest next ih =>
    rename_i s
    by_cases hs : AtRest step s
    · exact ⟨s, .refl, hs, rest hs⟩
    · simp only [AtRest, not_forall, not_not] at hs
      obtain ⟨s₁, hstep⟩ := hs
      obtain ⟨s', hr, hrest⟩ := ih s₁ hstep
      exact ⟨s', .head hstep hr, hrest⟩

theorem Eventually.of_rest (h : Eventually step P s) (hr : ReflTransGen step s s')
    (hs : AtRest step s') : P s' := by
  induction hr using ReflTransGen.head_induction_on with
  | refl =>
    cases h with
    | intro rest next => exact rest hs
  | head hstep _ ih =>
    cases h with
    | intro rest next => exact ih (next _ hstep)

end ProtonDrive.TerminatingRuns
