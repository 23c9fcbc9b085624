import Mathlib

/-! Runs of a deterministic step function over a list of events, and the rule that carries an
invariant from one step to every state of a run. -/

namespace Rynex.Lib

variable {σ ε : Type*}

/-- Every event of the run from `s` over `es` meets `ok` in the state it is taken from. -/
def Steps (step : σ → ε → σ) (ok : σ → ε → Prop) : σ → List ε → Prop
  | _, [] => True
  | s, e :: es => ok s e ∧ Steps step ok (step s e) es

instance Steps.decidable (step : σ → ε → σ) (ok : σ → ε → Prop) [∀ s e, Decidable (ok s e)] :
    ∀ s es, Decidable (Steps step ok s es)
  | _, [] => .isTrue trivial
  | s, e :: es =>
    have := Steps.decidable step ok (step s e) es
    inferInstanceAs (Decidable (ok s e ∧ Steps step ok (step s e) es))

variable {step : σ → ε → σ} {ok : σ → ε → Prop} {I : σ → Prop}

theorem Steps.invariant (hstep : ∀ s e, I s → ok s e → I (step s e)) {es : List ε} {s : σ}
    (hs : I s) (h : Steps step ok s es) : I (es.foldl step s) := by
  induction es generalizing s with
  | nil => exact hs
  | cons e es ih => exact ih (hstep s e hs h.1) h.2

theorem Steps.mono {ok' : σ → ε → Prop} (himp : ∀ s e, ok s e → ok' s e) {es : List ε} {s : σ}
    (h : Steps step ok s es) : Steps step ok' s es := by
  induction es generalizing s with
  | nil => trivial
  | cons e es ih => exact ⟨himp s e h.1, ih h.2⟩

theorem Steps.append {es es' : List ε} {s : σ} :
    Steps step ok s (es ++ es') ↔
      Steps step ok s es ∧ Steps step ok (es.foldl step s) es' := by
  induction es generalizing s with
  | nil => simp [Steps]
  | cons e es ih => simp [Steps, ih, and_assoc]

end Rynex.Lib
