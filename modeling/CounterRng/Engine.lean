import CounterRng.Derivation
import CounterRng.Digest.Sha1

/-!
# Engine — generators that derive children

An engine is a generator with a way to derive an independent child from a key.  Unless it brings its
own, children are derived through SHA-1.
-/

namespace CounterRng

class Engine (σ : Type u) (w : outParam Width) extends Generator σ w where
  derive : σ → Word w → Logged σ := Derivation.viaDigest sha1

end CounterRng
