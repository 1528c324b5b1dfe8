import CounterRng.BlockFunction
import CounterRng.Generator

/-!
# Keystream — the words of a block function in counter mode

A keystream holds a key, a counter, the block last generated and a cursor, the number of its words
not yet handed out.  When none is left the counter goes up by one and the block function is
evaluated; the words of a block leave from its last limb to its first.

The cursor counts down to the limb to read, so the invariant is that it stays below the block
length, and that the buffer is the block at the counter whenever the cursor is not zero.  It is a
predicate on keystreams (`Synced`), not a field: the buffer of a fresh, repositioned or drained
keystream holds what it held before, and no operation reads it.
-/

namespace CounterRng

structure Keystream {w : Width} {c k : Nat} (F : BlockFunction w c k) where
  key : Block w k
  counter : Block w c
  buffer : Block w c
  /-- Number of words of the buffer not yet handed out. -/
  cursor : Nat

namespace Keystream

variable {w : Width} {c k : Nat} {F : BlockFunction w c k}

/-! ## Starting -/

def ofKey (key : Block w k) : Keystream F where
  key := key
  counter := Block.broadcast 0
  buffer := Block.broadcast 0
  cursor := 0

def ofWord (x : Word w) : Keystream F := ofKey (Block.broadcast x)

instance : Inhabited (Keystream F) := ⟨ofKey (Block.broadcast 0)⟩

def rewind (e : Keystream F) : Keystream F := ofKey e.key

/-- Goes on after a counter, with an empty buffer. -/
def setCounter (e : Keystream F) (counter : Block w c) : Keystream F :=
  { e with counter, cursor := 0 }

/-! ## Looking -/

def blockLength (_ : Keystream F) : Nat := c

def blockAt (e : Keystream F) (counter : Block w c) : Block w c := F.eval e.key counter

/-- The first limb of the key, zero if the key is empty. -/
def seedValue (e : Keystream F) : Word w := e.key.getD 0 0

def describe (_ : Keystream F) : String := "CounterEngine \x7b .. \x7d"

/-- Same key, counter and cursor: the buffers need not agree. -/
def Agree (a b : Keystream F) : Prop :=
  a.counter = b.counter ∧ a.cursor = b.cursor ∧ a.key = b.key

instance (a b : Keystream F) : Decidable (Agree a b) :=
  inferInstanceAs (Decidable (_ ∧ _ ∧ _))

instance : BEq (Keystream F) := ⟨fun a b => decide (Agree a b)⟩

theorem beq_iff_agree {a b : Keystream F} : (a == b) = true ↔ Agree a b :=
  decide_eq_true_iff

theorem Agree.refl (e : Keystream F) : Agree e e :=
  ⟨rfl, rfl, rfl⟩

theorem Agree.symm {a b : Keystream F} (h : Agree a b) : Agree b a :=
  ⟨h.1.symm, h.2.1.symm, h.2.2.symm⟩

/-! ## Drawing -/

def refill (e : Keystream F) : Keystream F :=
  let counter := e.counter.increment
  { e with counter, buffer := F.eval e.key counter, cursor := c }

/-- A keystream with a word to hand out, refilled only if there is none. -/
def loaded (e : Keystream F) : Keystream F := if e.cursor = 0 then e.refill else e

def generate (e : Keystream F) : Word w × Keystream F :=
  let e := e.loaded
  let cursor := e.cursor - 1
  (e.buffer.getD cursor 0, { e with cursor })

/-- The next whole block, in the layout of the block function; words still buffered are dropped. -/
def generateBlock (e : Keystream F) : Block w c × Keystream F :=
  let counter := e.counter.increment
  (F.eval e.key counter, { e with counter, cursor := 0 })

instance : Generator (Keystream F) w where
  reset := rewind
  reseed _ x := ofWord x
  next := generate
  seedValue := seedValue

/-- Skips `n` words at a cost that does not depend on `n`: buffered words first, whole blocks by one
addition to the counter, and the rest by drawing. -/
def discard (e : Keystream F) (n : Distance) : Keystream F :=
  let dropped := min e.cursor n.toNat
  let rest := n.toNat - dropped
  let counter := e.counter.add (BitVec.ofNat 128 (rest / c))
  Generator.advance (rest % c) { e with counter, cursor := e.cursor - dropped }

end Keystream
end CounterRng
