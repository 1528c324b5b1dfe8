import Mathlib.Logic.Equiv.Defs
import CounterRng.Threefry.Decipher

/-!
# Permutation — under every key Threefry permutes the blocks

Every step of Threefry can be undone whatever the key, so that enciphering, with any wiring and any
number of rounds, is a permutation of the blocks (`Threefry.permutation`) whose inverse deciphers.

* `threefry_permutes_counters` — the case of the two standard shapes: every block comes from exactly
  one counter.
-/

namespace CounterRng
namespace Threefry

variable {n : Nat}

def permutation (wiring : Wiring n) (rounds : Nat) (key : Block .w64 n) :
    Equiv.Perm (Block .w64 n) where
  toFun := encipher wiring rounds key
  invFun := decipher wiring rounds key
  left_inv := decipher_encipher wiring rounds key
  right_inv := encipher_decipher wiring rounds key

/-- No rotation distance, no wiring and no number of rounds lets two counters meet in one block. -/
theorem encipher_bijective (wiring : Wiring n) (rounds : Nat) (key : Block .w64 n) :
    Function.Bijective (encipher wiring rounds key) :=
  (permutation wiring rounds key).bijective

end Threefry

/-- For every number of rounds and every key, both shapes of Threefry are bijections on the blocks, and
deciphering undoes them on both sides. -/
theorem threefry_permutes_counters (rounds : Nat) :
    (∀ key : Block .w64 4,
      Function.Bijective ((threefry4x64 rounds).eval key) ∧
        Function.LeftInverse (Threefry.decipher Threefry.wiring4 rounds key)
          ((threefry4x64 rounds).eval key) ∧
        Function.RightInverse (Threefry.decipher Threefry.wiring4 rounds key)
          ((threefry4x64 rounds).eval key)) ∧
    (∀ key : Block .w64 2,
      Function.Bijective ((threefry2x64 rounds).eval key) ∧
        Function.LeftInverse (Threefry.decipher Threefry.wiring2 rounds key)
          ((threefry2x64 rounds).eval key) ∧
        Function.RightInverse (Threefry.decipher Threefry.wiring2 rounds key)
          ((threefry2x64 rounds).eval key)) := by
  constructor
  · intro key
    refine ⟨Threefry.encipher_bijective _ rounds key, ?_, ?_⟩
    · exact Threefry.decipher_encipher Threefry.wiring4 rounds key
    · exact Threefry.encipher_decipher Threefry.wiring4 rounds key
  · intro key
    refine ⟨Threefry.encipher_bijective _ rounds key, ?_, ?_⟩
    · exact Threefry.decipher_encipher Threefry.wiring2 rounds key
    · exact Threefry.encipher_decipher Threefry.wiring2 rounds key

end CounterRng
