import CounterRng.Engine
import CounterRng.Keystream.Seeding
import CounterRng.RandomSource

/-!
# SeededSource — an engine from any integer-seeded random source

The adapter keeps the seed beside the source, for derivation through a digest.  Its words are the
numbers of matching width that the source yields, and its default seed is zero.
-/

namespace CounterRng

structure SeededSource (ρ : Type u) (w : Width) where
  source : ρ
  seed : Word w

namespace SeededSource

variable {ρ : Type u} {w : Width}

def ofSeed [IntegerSeeded ρ] (seed : Word w) : SeededSource ρ w :=
  ⟨IntegerSeeded.ofInteger seed.to64, seed⟩

def describe (_ : SeededSource ρ w) : String := "SeedableEngine \x7b .. \x7d"

instance [RandomSource ρ] [IntegerSeeded ρ] : Engine (SeededSource ρ w) w where
  reset _ := ofSeed 0
  reseed _ x := ofSeed x
  next s :=
    let (x, source) := RandomSource.nextWord w s.source
    (x, { s with source })
  seedValue := seed

end SeededSource
end CounterRng
