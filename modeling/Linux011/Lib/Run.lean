import Mathlib.Logic.Relation

/-!
# Runs

A system is a step relation. `invariant_of_run` is the induction behind every statement about the
states a run reaches. When the steps carry labels, `Run` keeps the labels of a run, and `Run.refine`
compares it with a function that says what each label is supposed to do.
-/

namespace Linux011.Lib

variable {σ ε α : Type _}

/-- What holds at the start and survives each step holds in every state a run reaches. -/
theorem invariant_of_run {step : σ → σ → Prop} {I : σ → Prop}
    (hstep : ∀ s s', I s → step s s' → I s') {s s' : σ} (h0 : I s)
    (hrun : Relation.ReflTransGen step s s') : I s' := by
  induction hrun with
  | refl => exact h0
  | tail _ hst ih => exact hstep _ _ ih hst

/-- A run from `s`, with the labels of its steps in order. -/
inductive Run (step : σ → ε → σ → Prop) (s : σ) : List ε → σ → Prop
  | nil : Run step s [] s
  | snoc {es : List ε} {s' s'' : σ} {e : ε} (hrun : Run step s es s') (hstep : step s' e s'') :
      Run step s (es ++ [e]) s''

namespace Run

variable {step : σ → ε → σ → Prop} {s s' : σ} {es : List ε}

/-- A relation to an abstract state that every step keeps, when the abstract state follows `apply`,
is kept by whole runs. -/
theorem refine {R : σ → α → Prop} {apply : α → ε → α}
    (hstep : ∀ s e s' a, R s a → step s e s' → R s' (apply a e)) {a : α} (h0 : R s a)
    (hrun : Run step s es s') : R s' (es.foldl apply a) := by
  induction hrun with
  | nil => exact h0
  | snoc _ hst ih =>
    rw [List.foldl_append]
    exact hstep _ _ _ _ ih hst

theorem cons {s₁ : σ} {e : ε} (hstep : step s e s₁) (hrun : Run step s₁ es s') : Run step s (e :: es) s' := by
  induction hrun with
  | nil => exact .snoc .nil hstep
  | snoc _ hst ih => exact ih.snoc hst

theorem mono {step' : σ → ε → σ → Prop} (hstep : ∀ {s e s'}, step s e s' → step' s e s')
    (hrun : Run step s es s') : Run step' s es s' := by
  induction hrun with
  | nil => exact .nil
  | snoc _ hst ih => exact ih.snoc (hstep hst)

theorem inv {I : σ → Prop} (hstep : ∀ s e s', I s → step s e s' → I s') (h0 : I s)
    (hrun : Run step s es s') : I s' := by
  induction hrun with
  | nil => exact h0
  | snoc _ hst ih => exact hstep _ _ _ ih hst

end Run

end Linux011.Lib
