import Mathlib

/-! Runs of a step function that can fail: `none` is a step that does not come back. -/

namespace Rynex.Lib

variable {σ ε : Type*} {I : σ → Prop} {ok : σ → ε → Prop}

/-- Every state of the run from `s` over `es`, which no step leaves, meets `P`. -/
def Throughout (step : σ → ε → Option σ) (P : σ → Prop) : σ → List ε → Prop
  | s, [] => P s
  | s, e :: es => P s ∧ ∃ s', step s e = some s' ∧ Throughout step P s' es

/-- Every event of the run meets `ok` in the state it is taken from, as far as the run comes. -/
def Allowed (step : σ → ε → Option σ) (ok : σ → ε → Prop) : σ → List ε → Prop
  | _, [] => True
  | s, e :: es => ok s e ∧ ∀ s', step s e = some s' → Allowed step ok s' es

/-- If `I` implies `P` and is kept by just those steps that are `ok`, while the others break `P`,
then `P` holds throughout a run exactly if all its events are `ok`. -/
theorem throughout_iff_allowed {step : σ → ε → Option σ} {P : σ → Prop} (hP : ∀ s, I s → P s)
    (hok : ∀ s e, I s → ok s e → ∃ s', step s e = some s' ∧ I s')
    (hbad : ∀ s e, I s → ¬ ok s e → ∀ s', step s e = some s' → ¬ P s') {s : σ} (hs : I s)
    (es : List ε) : Throughout step P s es ↔ Allowed step ok s es := by
  have hhead (t : σ) (fs : List ε) (h : Throughout step P t fs) : P t := by
    cases fs with
    | nil => exact h
    | cons f fs => exact h.1
  induction es generalizing s with
  | nil => exact ⟨fun _ => trivial, fun _ => hP s hs⟩
  | cons e es ih =>
    constructor
    · rintro ⟨-, s', hstep, hrest⟩
      by_cases hoke : ok s e
      · obtain ⟨t, ht, hI⟩ := hok s e hs hoke
        obtain rfl : s' = t := Option.some_inj.mp (hstep.symm.trans ht)
        refine ⟨hoke, fun u hu => ?_⟩
        obtain rfl : s' = u := Option.some_inj.mp (hstep.symm.trans hu)
        exact (ih hI).mp hrest
      · exact absurd (hhead s' es hrest) (hbad s e hs hoke s' hstep)
    · rintro ⟨hoke, hrest⟩
      obtain ⟨s', hstep, hI⟩ := hok s e hs hoke
      exact ⟨hP s hs, s', hstep, (ih hI).mpr (hrest s' hstep)⟩

end Rynex.Lib
