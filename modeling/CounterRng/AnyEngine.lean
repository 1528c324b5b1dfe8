import CounterRng.Engine

/-!
# AnyEngine — engines whose type is not known

An `AnyEngine w` owns an engine of words of width `w`, of whatever type, or another `AnyEngine w`.
Every operation is the one of the engine at the bottom, so that hiding the type of an engine, however
often, does not change what it does.
-/

namespace CounterRng

inductive AnyEngine (w : Width) : Type 1 where
  | of {σ : Type} [Engine σ w] (state : σ)
  /-- Goes around an engine whose type is hidden already. -/
  | around (inner : AnyEngine w)

namespace AnyEngine

variable {w : Width}

def reset : AnyEngine w → AnyEngine w
  | @of _ _ _ s => .of (Generator.reset s)
  | .around inner => .around inner.reset

def reseed : AnyEngine w → Word w → AnyEngine w
  | @of _ _ _ s, x => .of (Generator.reseed s x)
  | .around inner, x => .around (inner.reseed x)

def next : AnyEngine w → Word w × AnyEngine w
  | @of _ _ _ s =>
      let (x, s) := Generator.next s
      (x, .of s)
  | .around inner =>
      let (x, inner) := inner.next
      (x, .around inner)

def seedValue : AnyEngine w → Word w
  | @of _ _ _ s => Generator.seedValue s
  | .around inner => inner.seedValue

def derive : AnyEngine w → Word w → Logged (AnyEngine w)
  | @of _ _ _ s, key => (Engine.derive s key).map .of
  | .around inner, key => (inner.derive key).map .around

def describe (_ : AnyEngine w) : String := "EngineMapper \x7b .. \x7d"

instance : Engine (AnyEngine w) w where
  reset := reset
  reseed := reseed
  next := next
  seedValue := seedValue
  derive := derive

end AnyEngine
end CounterRng
