import CounterRng.Fault
import CounterRng.Keystream.Child
import CounterRng.Keystream.Seeding

/-!
# Checked — the operations of a keystream, with every step tested that could go wrong

A keystream takes counts from one another, divides by the block length, reads a limb by its index,
rotates a block and assembles limbs from lists.  Each of these makes sense under a condition only, which
`Keystream.generate` and the others rely on and do not test.  Here the same operations are made of steps
that test it, and that stop with a `Fault` where it does not hold.

An `Except Fault (Keystream F)` is a keystream that may have stopped.  It is a generator, so that numbers,
bytes and children derived through a digest are drawn from it by the functions that every generator is
drawn from.
-/

namespace CounterRng
namespace Checked

variable {w : Width} {c k : Nat} {F : BlockFunction w c k}

def generate (e : Keystream F) : Except Fault (Word w × Keystream F) := do
  let e := e.loaded
  let cursor ← subtract e.cursor 1
  let x ← limb e.buffer cursor
  return (x, { e with cursor })

/-- A draw from a keystream that has stopped leaves it so. -/
instance : Generator (Except Fault (Keystream F)) w where
  reset := Except.map Keystream.rewind
  reseed s x := s.map fun _ => Keystream.ofWord x
  next
    | .ok e =>
        match generate e with
        | .ok (x, e) => (x, .ok e)
        | .error fault => (0, .error fault)
    | .error fault => (0, .error fault)
  seedValue
    | .ok e => e.seedValue
    | .error _ => 0

def discard (e : Keystream F) (n : Distance) : Except Fault (Keystream F) := do
  let dropped := min e.cursor n.toNat
  let cursor ← subtract e.cursor dropped
  let rest ← subtract n.toNat dropped
  let (blocks, words) ← divide rest c
  let counter := e.counter.add (BitVec.ofNat 128 blocks)
  Generator.advance words (Except.ok { e with counter, cursor } : Except Fault (Keystream F))

def derive (parent : Keystream F) (key : Block w k) : Except Fault (Logged (Keystream F)) := do
  let (_, stepped) ← generate parent
  let rotated ← rotateLeft stepped.buffer parent.cursor
  let block := F.eval key rotated
  return ⟨Keystream.ofKey (block.cycle F.pos),
    [.nativeDerivation parent.blockLength parent.cursor]⟩

def ofSource (source : SeedSource) : Except Fault (Logged (Except SeedError (Keystream F))) := do
  let required := k * w.parts
  let (parts, produced) := source.fill (Vector.replicate required 0)
  if produced < required then
    return ⟨.error (.short required produced), [.shortSeed produced required]⟩
  let key ← Vector.ofFnM fun i => ofPartList (chunk parts i).toList
  return ⟨.ok (Keystream.ofKey key), []⟩

end Checked
end CounterRng
