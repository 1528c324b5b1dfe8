import CounterRng.Block.Codec
import CounterRng.Keystream
import CounterRng.Log
import CounterRng.SeedSource
import CounterRng.SeedSource.Integer

/-!
# Seeding — keys from seed words, seed bytes and integers

A keystream is keyed by the block that seed words or seed bytes decode to.  A seed source that
produces too few words gives no key; a keystream that was to be seeded from it stays as it was.
-/

namespace CounterRng

/-! ## Seeding a keystream -/

namespace Keystream

variable {w : Width} {c k : Nat} {F : BlockFunction w c k}

/-- The keystream keyed from a seed source; a source that falls short is reported. -/
def ofSource (source : SeedSource) : Logged (Except SeedError (Keystream F)) :=
  let required := k * w.parts
  let (parts, produced) := source.fill (Vector.replicate required 0)
  if produced < required then
    ⟨.error (.short required produced), [.shortSeed produced required]⟩
  else ⟨.ok (ofKey (Block.ofParts parts)), []⟩

/-- Seeds anew from a seed source, unless that falls short. -/
def reseedFrom (e : Keystream F) (source : SeedSource) :
    Logged (Except SeedError Unit × Keystream F) :=
  (ofSource source).map fun
    | .ok fresh => (.ok (), fresh)
    | .error cause => (.error cause, e)

def ofBytes (bytes : Vector Byte (k * w.bytes)) : Keystream F := ofKey (Block.ofBytes bytes)

end Keystream

/-! ## Integer seeds -/

class IntegerSeeded (ρ : Type u) where
  ofInteger : Word64 → ρ

/-- The integer is expanded to the seed bytes of a key. -/
instance {w : Width} {c k : Nat} {F : BlockFunction w c k} : IntegerSeeded (Keystream F) where
  ofInteger seed := Keystream.ofBytes (IntegerSeed.keyBytes w k seed)

end CounterRng
