import CounterRng.Word.Bytes

/-!
# Digest — streaming hashes of 160 bits

A digest is a machine that absorbs bytes and then gives twenty of them.  Everything that hashes takes
the digest as an argument; SHA-1 is the one that comes with the library.
-/

namespace CounterRng

structure Digest where
  State : Type
  init : State
  absorb : State → List Byte → State
  finish : State → Vector Byte 20

namespace Digest

def hash (D : Digest) (bytes : List Byte) : Vector Byte 20 := D.finish (D.absorb D.init bytes)

/-- Twenty bytes read as five words, the most significant byte first. -/
def wordsOf (bytes : Vector Byte 20) : Vector Word32 5 :=
  Vector.ofFn fun i => Word.ofBytesBE
    [bytes[4 * i.val], bytes[4 * i.val + 1], bytes[4 * i.val + 2], bytes[4 * i.val + 3]]

def words (D : Digest) (s : D.State) : Vector Word32 5 := wordsOf (D.finish s)

/-- Feeds a limb into the state, its most significant byte first. -/
def absorbWord (D : Digest) {w : Width} (s : D.State) (x : Word w) : D.State :=
  D.absorb s x.toBytesBE

end Digest
end CounterRng
