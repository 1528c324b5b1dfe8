import CounterRng.Word

/-!
# SeedSource — where key material comes from

A seed source is handed a destination of 32-bit words, fills some of it, and reports how many words
it produced.  A report below what a key requires is an error; the words themselves are not judged.
-/

namespace CounterRng

/-- Fills a destination and reports the number of words produced. -/
structure SeedSource where
  fill : {n : Nat} → Vector Word32 n → Vector Word32 n × Nat

/-- A list of words is copied to the front of the destination, and the rest left as it was. -/
def SeedSource.ofWords (words : List Word32) : SeedSource where
  fill := fun {n} dest =>
    (Vector.ofFn fun i => words[i.val]?.getD dest[i], min words.length n)

/-! ## Errors -/

inductive SeedError where
  | short (required produced : Nat)
  deriving DecidableEq, Repr

namespace SeedError

def message : SeedError → String
  | .short required produced =>
      s!"seed sequence produced {produced} words, key requires {required}"

def describe : SeedError → String
  | .short required produced =>
      "ShortSeedSequence \x7b required: " ++ toString required ++ ", produced: "
        ++ toString produced ++ " \x7d"

end SeedError
end CounterRng
