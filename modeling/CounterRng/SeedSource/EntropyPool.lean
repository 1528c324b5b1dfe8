import CounterRng.SeedSource

/-!
# EntropyPool — any amount of entropy spread over any number of words

A pool holds entropy words and fills a destination of any length: the destination is first set to a
constant, then stirred in two passes.  The first pass takes in the number of entropy words and each
of them in turn, and runs on until every cell was visited; the second visits every cell once more.

Each step of a pass works on four cells of the destination taken as a ring: the current one, two
cells further on whose distances depend on the length alone (`near` and `far`), and the one before.
-/

namespace CounterRng

structure EntropyPool where
  words : List Word32 := []
  deriving DecidableEq, Repr

namespace EntropyPool

instance : Inhabited EntropyPool := ⟨{}⟩

def size (pool : EntropyPool) : Nat := pool.words.length

/-! ## The ring of cells -/

/-- Distance between the two further cells in a ring of `n`. -/
def gap (n : Nat) : Nat :=
  if 623 ≤ n then 11
  else if 68 ≤ n then 7
  else if 39 ≤ n then 5
  else if 7 ≤ n then 3
  else (n - 1) / 2

/-- Distance to the first of the further cells. -/
def near (n : Nat) : Nat := (n - gap n) / 2

/-- Distance to the second of the further cells. -/
def far (n : Nat) : Nat := near n + gap n

def cell {n : Nat} (pos : 0 < n) (i : Nat) : Fin n := ⟨i % n, Nat.mod_lt i pos⟩

structure Cells (n : Nat) where
  here : Fin n
  near : Fin n
  far : Fin n
  previous : Fin n

def cells {n : Nat} (pos : 0 < n) (i : Nat) : Cells n where
  here := cell pos i
  near := cell pos (i + near n)
  far := cell pos (i + far n)
  previous := cell pos (i + n - 1)

/-! ## Steps -/

def blank : Word32 := 0x8b8b8b8b

/-- Folds the high bits of a word into its low ones. -/
def temper (x : Word32) : Word32 := x ^^^ (x >>> 27)

/-- What step `i` at cell `here` of the first pass takes in: the size of the pool, then cell number
and entropy word, and after the last of those the cell number alone. -/
def intake (pool : EntropyPool) (i : Nat) (here : Nat) : Word32 :=
  if i = 0 then BitVec.ofNat 32 pool.size
  else if i ≤ pool.size then BitVec.ofNat 32 here + pool.words[i - 1]?.getD 0
  else BitVec.ofNat 32 here

/-- Step `i` of the first pass, which adds. -/
def absorbStep (pool : EntropyPool) {n : Nat} (pos : 0 < n) (dest : Vector Word32 n) (i : Nat) :
    Vector Word32 n :=
  let c := cells pos i
  let x := 1664525 * temper (dest[c.here] ^^^ dest[c.near] ^^^ dest[c.previous])
  let y := x + pool.intake i c.here
  let dest := dest.set c.near (dest[c.near] + x)
  let dest := dest.set c.far (dest[c.far] + y)
  dest.set c.here y

/-- Step `i` of the second pass, which combines by exclusive-or. -/
def finishStep {n : Nat} (pos : 0 < n) (dest : Vector Word32 n) (i : Nat) : Vector Word32 n :=
  let c := cells pos i
  let x := 1566083941 * temper (dest[c.here] + dest[c.near] + dest[c.previous])
  let y := x - BitVec.ofNat 32 c.here
  let dest := dest.set c.near (dest[c.near] ^^^ x)
  let dest := dest.set c.far (dest[c.far] ^^^ y)
  dest.set c.here y

/-! ## Passes -/

def absorbSteps (pool : EntropyPool) (n : Nat) : Nat := max (pool.size + 1) n

def stir (pool : EntropyPool) {n : Nat} (dest : Vector Word32 n) : Vector Word32 n :=
  if pos : 0 < n then
    let m := pool.absorbSteps n
    let absorbed := (List.range m).foldl (pool.absorbStep pos) dest
    (List.range' m n).foldl (finishStep pos) absorbed
  else dest

/-- Fills a destination whatever it held before, and reports its length. -/
def fill (pool : EntropyPool) {n : Nat} (dest : Vector Word32 n) : Vector Word32 n × Nat :=
  (pool.stir (dest.map fun _ => blank), n)

def toSource (pool : EntropyPool) : SeedSource where
  fill := pool.fill

end EntropyPool
end CounterRng
