import CounterRng.Word

/-!
# Generator — reseedable streams of words

A generator is a state from which one word after another is drawn, which can be seeded anew with a
word, and which remembers the seed.  States are values: drawing returns the next state.

* `Generator.draw` and `Generator.advance` repeat a draw, keeping or dropping the words;
* `Generator.advance_add` takes an advance apart.
-/

namespace CounterRng

class Generator (σ : Type u) (w : outParam Width) where
  reset : σ → σ
  reseed : σ → Word w → σ
  next : σ → Word w × σ
  seedValue : σ → Word w

namespace Generator

variable {σ : Type u} {w : Width} [Generator σ w]

def advance : (n : Nat) → σ → σ
  | 0, s => s
  | n + 1, s => advance n (next s).2

def draw : (n : Nat) → σ → List (Word w) × σ
  | 0, s => ([], s)
  | n + 1, s =>
      let (x, s) := next s
      let (rest, s) := draw n s
      (x :: rest, s)

theorem advance_add (m n : Nat) (s : σ) : advance (m + n) s = advance n (advance m s) := by
  induction m generalizing s with
  | zero => rw [Nat.zero_add]; rfl
  | succ m ih =>
      rw [Nat.succ_add]
      exact ih (next s).2

end Generator
end CounterRng
