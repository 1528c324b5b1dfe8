/-!
# Lockstep — machines that answer alike

A machine is a step function: it answers an input and goes on to its next state.  Two machines run in
lockstep under a relation on their states if related states answer every input alike and stay related.
Such a relation is found by looking at single inputs; `Lockstep.run` carries it to whole runs.
-/

namespace CounterRng

universe u v u₁ u₂

/-- The answers to a list of inputs, one after the other, and the state after them. -/
def run {ι : Type u} {ο : Type v} {σ : Type u₁} (step : ι → σ → ο × σ) :
    List ι → σ → List ο × σ
  | [], s => ([], s)
  | input :: inputs, s =>
      let (answer, s) := step input s
      let (answers, s) := run step inputs s
      (answer :: answers, s)

structure Lockstep {ι : Type u} {ο : Type v} {σ : Type u₁} {τ : Type u₂}
    (left : ι → σ → ο × σ) (right : ι → τ → ο × τ) (R : σ → τ → Prop) : Prop where
  answer {s : σ} {t : τ} (input : ι) : R s t → (left input s).1 = (right input t).1
  next {s : σ} {t : τ} (input : ι) : R s t → R (left input s).2 (right input t).2

variable {ι : Type u} {ο : Type v} {σ : Type u₁} {τ : Type u₂}
variable {left : ι → σ → ο × σ} {right : ι → τ → ο × τ} {R : σ → τ → Prop}

theorem Lockstep.run (h : Lockstep left right R) (inputs : List ι) :
    ∀ {s : σ} {t : τ}, R s t →
      (run left inputs s).1 = (run right inputs t).1 ∧
        R (run left inputs s).2 (run right inputs t).2 := by
  induction inputs with
  | nil =>
      intro s t hst
      exact ⟨rfl, hst⟩
  | cons input rest ih =>
      intro s t hst
      rcases ih (h.next input hst) with ⟨hanswers, hfinal⟩
      refine ⟨?_, hfinal⟩
      calc
        (CounterRng.run left (input :: rest) s).1
            = (left input s).1 :: (CounterRng.run left rest (left input s).2).1 := rfl
        _ = (right input t).1 :: (CounterRng.run right rest (right input t).2).1 := by
              rw [h.answer input hst, hanswers]

end CounterRng
