import CounterRng.Fault
import CounterRng.SeedSource.EntropyPool

/-!
# Checked — stirring, with every step tested that could go wrong

A pool finds the cells that a step of stirring works on by adding, subtracting and dividing counts, and the
word that a step takes in by subtracting one.  `EntropyPool.fill` relies on all of these being what they are
meant to be: its cells are elements of `Fin n`, a word that is not there counts as zero, and its counts have
no limit.  Here cells and words are plain counts up to a limit, cells are read and written and words are read
where the counts say, and what cannot be done stops with a `Trap`.

Besides what `EntropyPool.fill` gives, a `Filling` has on record which of the pool's words were taken in, each by
its place, the earliest first.
-/

namespace CounterRng
namespace Checked

variable {n : Nat}

/-! ## The ring of cells -/

def gap (n : Nat) : Except Fault Nat := do
  if 623 ≤ n then
    return 11
  else if 68 ≤ n then
    return 7
  else if 39 ≤ n then
    return 5
  else if 7 ≤ n then
    return 3
  else
    let others ← subtract n 1
    return others / 2

/-- Distances from a cell to the two further ones. -/
structure Reach where
  near : Nat
  far : Nat

def reach (limit n : Nat) : Except Trap Reach := do
  let gap ← gap n
  let others ← subtract n gap
  let near := others / 2
  let far ← sum limit near gap
  return ⟨near, far⟩

/-- Where the cells are that a step works on. -/
structure Places where
  here : Nat
  near : Nat
  far : Nat
  previous : Nat

def places (limit n : Nat) (reach : Reach) (i : Nat) : Except Trap Places := do
  let (_, here) ← divide i n
  let (_, near) ← divide (← sum limit i reach.near) n
  let (_, far) ← divide (← sum limit i reach.far) n
  let (_, previous) ← divide (← subtract (← sum limit i n) 1) n
  return ⟨here, near, far, previous⟩

/-! ## Steps -/

def draw (mix : Word32 → Word32 → Word32 → Word32) (dest : Block .w32 n) (p : Places) :
    Except Fault Word32 := do
  let previous ← limb dest p.previous
  let here ← limb dest p.here
  let near ← limb dest p.near
  return mix here near previous

/-- Combines one word with each of the further cells, and overwrites the current one with the second. -/
def spread (combine : Word32 → Word32 → Word32) (dest : Block .w32 n) (p : Places)
    (x y : Word32) : Except Fault (Block .w32 n) := do
  let dest ← setLimb dest p.near (combine (← limb dest p.near) x)
  let dest ← setLimb dest p.far (combine (← limb dest p.far) y)
  setLimb dest p.here y

/-- What a step takes in, and the places of the pool's words that are part of it. -/
def intake (pool : EntropyPool) (i here : Nat) : Except Fault (Word32 × List Nat) := do
  if i = 0 then
    return (BitVec.ofNat 32 pool.size, [])
  else if i ≤ pool.size then
    let place ← subtract i 1
    let word ← limb ⟨pool.words.toArray, rfl⟩ place
    return (BitVec.ofNat 32 here + word, [place])
  else
    return (BitVec.ofNat 32 here, [])

/-- A destination, and the places of the words taken in for it so far. -/
structure Filling (n : Nat) where
  dest : Block .w32 n
  taken : List Nat := []
  deriving DecidableEq, Repr

def absorbStep (limit : Nat) (pool : EntropyPool) (reach : Reach) (s : Filling n) (i : Nat) :
    Except Trap (Filling n) := do
  let p ← places limit n reach i
  let x ← draw (fun here near previous =>
    1664525 * EntropyPool.temper (here ^^^ near ^^^ previous)) s.dest p
  let (word, taken) ← intake pool i p.here
  let dest ← spread (· + ·) s.dest p x (x + word)
  return ⟨dest, s.taken ++ taken⟩

def finishStep (limit : Nat) (reach : Reach) (dest : Block .w32 n) (i : Nat) :
    Except Trap (Block .w32 n) := do
  let p ← places limit n reach i
  let x ← draw (fun here near previous =>
    1566083941 * EntropyPool.temper (here + near + previous)) dest p
  spread (· ^^^ ·) dest p x (x - BitVec.ofNat 32 p.here)

/-! ## Passes -/

/-- An empty destination is filled without a step. -/
def fill (limit : Nat) (pool : EntropyPool) (dest : Block .w32 n) :
    Except Trap (Filling n × Nat) := do
  if n = 0 then
    return (⟨dest, []⟩, 0)
  let blank := dest.map fun _ => EntropyPool.blank
  let reach ← reach limit n
  let m := max (← sum limit pool.size 1) n
  let absorbed ← (List.range m).foldlM (absorbStep limit pool reach) ⟨blank, []⟩
  let last ← sum limit m n
  let finished ← (List.range' m (last - m)).foldlM (finishStep limit reach) absorbed.dest
  return (⟨finished, absorbed.taken⟩, n)

end Checked
end CounterRng
