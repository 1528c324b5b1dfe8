import CounterRng.Proofs.WordStream

/-!
# Simulation — generators that answer alike

Two generators simulate each other under a relation on their states if related states record the same
seed and hand out the same word, and stay related in whatever they are asked.  Only the operations that a
generator is made of have to be looked at.  What is built from them, numbers and bytes that are drawn and
children derived through a digest, then follows for every such relation at once.

* `Generator.Simulation` — the conditions on a relation;
* `Simulation.wordAt_eq` — related states have the same words to come;
* `Simulation.fillBytes`, `Simulation.call` and `Simulation.viaDigest` — what is built from the operations;
* `Engine.Simulation` — the same with the derivation that an engine brings along.
-/

namespace CounterRng

universe u v u₁

/-! ## Generators -/

namespace Generator

structure Simulation {σ : Type u} {τ : Type v} {w : Width} [Generator σ w] [Generator τ w]
    (R : σ → τ → Prop) : Prop where
  reset {s : σ} {t : τ} : R s t → R (Generator.reset s) (Generator.reset t)
  reseed {s : σ} {t : τ} (x : Word w) : R s t → R (Generator.reseed s x) (Generator.reseed t x)
  seedValue {s : σ} {t : τ} : R s t → Generator.seedValue s = Generator.seedValue t
  word {s : σ} {t : τ} : R s t → (Generator.next s).1 = (Generator.next t).1
  next {s : σ} {t : τ} : R s t → R (Generator.next s).2 (Generator.next t).2

namespace Simulation

open RandomSource

variable {σ : Type u} {τ : Type v} {w : Width} [Generator σ w] [Generator τ w]
variable {R : σ → τ → Prop} {s : σ} {t : τ}

theorem advance (h : Simulation R) (hst : R s t) (n : Nat) :
    R (Generator.advance n s) (Generator.advance n t) := by
  induction n generalizing s t with
  | zero =>
      exact hst
  | succ n ih =>
      exact ih (h.next hst)

theorem wordAt_eq (h : Simulation R) (hst : R s t) : wordAt s = wordAt t := by
  funext i
  exact h.word (h.advance hst i)

/-! ## Numbers and bytes -/

theorem next32 (h : Simulation R) (hst : R s t) :
    (RandomSource.next32 s).1 = (RandomSource.next32 t).1 ∧
      R (RandomSource.next32 s).2 (RandomSource.next32 t).2 :=
  ⟨congrArg Word.low32 (h.word hst), h.next hst⟩

theorem next64 (h : Simulation R) (hst : R s t) :
    (RandomSource.next64 s).1 = (RandomSource.next64 t).1 ∧
      R (RandomSource.next64 s).2 (RandomSource.next64 t).2 := by
  constructor
  · simp only [next64_fst, h.wordAt_eq hst]
  · simp only [next64_snd]
    exact h.advance hst _

theorem fillBytes (h : Simulation R) (hst : R s t) (n : Nat) :
    (RandomSource.fillBytes n s).1 = (RandomSource.fillBytes n t).1 ∧
      R (RandomSource.fillBytes n s).2 (RandomSource.fillBytes n t).2 := by
  constructor
  · simp only [fillBytes_fst, h.wordAt_eq hst]
  · simp only [fillBytes_snd]
    exact h.advance hst _

theorem call {ε : Type u₁} (h : Simulation R) (hst : R s t) (call : Call) :
    (call.apply s : Answer w ε × σ).1 = (call.apply t).1 ∧
      R (call.apply (ε := ε) s).2 (call.apply (ε := ε) t).2 := by
  simp only [Call.apply_eq]
  exact ⟨congrArg (fun word => call.answer word 0) (h.wordAt_eq hst), h.advance hst _⟩

/-! ## Children derived through a digest -/

theorem viaDigest (h : Simulation R) (hst : R s t) (D : Digest) (key : Word w) :
    (Derivation.viaDigest D s key).log = (Derivation.viaDigest D t key).log ∧
      R (Derivation.viaDigest D s key).value (Derivation.viaDigest D t key).value := by
  -- The digest is the same, and so are the seed that it gives and the number of draws.
  simp only [Derivation.viaDigest, h.seedValue hst]
  exact ⟨trivial, h.advance (h.reseed _ hst) _⟩

end Simulation
end Generator

/-! ## Engines -/

namespace Engine

structure Simulation {σ : Type u} {τ : Type v} {w : Width} [Engine σ w] [Engine τ w]
    (R : σ → τ → Prop) : Prop extends Generator.Simulation R where
  log {s : σ} {t : τ} (key : Word w) : R s t → (Engine.derive s key).log = (Engine.derive t key).log
  child {s : σ} {t : τ} (key : Word w) :
    R s t → R (Engine.derive s key).value (Engine.derive t key).value

end Engine
end CounterRng
