import CounterRng.Digest
import CounterRng.Generator
import CounterRng.Log

/-!
# Derivation — children of any generator, through a digest

A child of a generator is the generator seeded anew.  The seed is the leading bits of a digest of a
salt, a key and the parent's seed, and the child is advanced by as many draws as the digest has set
bits, so that a generator whose seeding spreads entropy poorly still starts from a mixed state.

Of the parent only the recorded seed matters, not how far it was drawn from.
-/

namespace CounterRng
namespace Derivation

/-- What every digest starts with, to keep it apart from other uses. -/
def salt : List Byte := [
  0x63, 0x62, 0x72, 0x6e, 0x67, 0x2d, 0x64, 0x65, 0x72, 0x69, 0x76, 0x61, 0x74, 0x69, 0x6f, 0x6e]

def digest (D : Digest) {w : Width} (seed key : Word w) : Vector Word32 5 :=
  D.words (D.absorbWord (D.absorbWord (D.absorb D.init salt) key) seed)

def draws (digest : Vector Word32 5) : Nat := digest.foldl (fun n x => n + x.popcount) 0

def viaDigest (D : Digest) {σ : Type u} {w : Width} [Generator σ w] (parent : σ) (key : Word w) :
    Logged σ :=
  let digest := digest D (Generator.seedValue parent) key
  let child := Generator.reseed parent (Word.ofDigest digest)
  ⟨Generator.advance (draws digest) child, [.digestDerivation (draws digest)]⟩

end Derivation
end CounterRng
