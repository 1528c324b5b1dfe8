import CounterRng.Block

/-!
# BlockFunction — keyed functions from counters to blocks

The stateless heart of a counter-mode generator: a pure function of a key and a counter whose result
has the shape of the counter.  Key and counter may differ in length, and the key may be empty; a
block has at least one limb.
-/

namespace CounterRng

/-- A keyed pure function on blocks of `c` limbs, under keys of `k` limbs. -/
structure BlockFunction (w : Width) (c k : Nat) where
  eval : (key : Block w k) → (counter : Block w c) → Block w c
  pos : 0 < c := by decide

end CounterRng
