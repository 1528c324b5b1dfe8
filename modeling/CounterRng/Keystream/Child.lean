import CounterRng.Engine
import CounterRng.Keystream

/-!
# Child — the native derivation of a keystream

The child of a keystream under a key depends on the whole state of the parent.  The block from which
the parent's next word will come is rotated by the parent's cursor and enciphered under the given
key; the result, repeated or cut to the length of a key, becomes the key of the child, which starts
at counter zero.  The parent is not drawn from.
-/

namespace CounterRng
namespace Keystream

variable {w : Width} {c k : Nat} {F : BlockFunction w c k}

def derive (parent : Keystream F) (key : Block w k) : Logged (Keystream F) :=
  let stepped := parent.generate.2
  let block := F.eval key (stepped.buffer.rotateLeft parent.cursor)
  ⟨ofKey (block.cycle F.pos), [.nativeDerivation parent.blockLength parent.cursor]⟩

/-- The child under the key that has a word in every limb. -/
def deriveWord (parent : Keystream F) (x : Word w) : Logged (Keystream F) :=
  parent.derive (Block.broadcast x)

instance : Engine (Keystream F) w where
  derive := deriveWord

end Keystream
end CounterRng
