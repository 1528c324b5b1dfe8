import CounterRng.Block

/-!
# Threefish — the tweakless block cipher with blocks of four limbs

Threefish is the cipher that Threefry was cut down from, here with a zero tweak and a free choice of
the number of rounds.  Every round is the same: a subkey is added if the round number is a multiple
of four, two mixes are made on fixed pairs of limbs, and the limbs are permuted.  A last subkey
follows if the number of rounds is a multiple of four.

The definitions share nothing with Threefry, so that a theorem which relates the two says something
about both.
-/

namespace CounterRng
namespace Threefish

/-! ## Key schedule -/

def parity (key : Block .w64 4) : Word64 :=
  0x1BD11BDAA9FC1A22 ^^^ key[0] ^^^ key[1] ^^^ key[2] ^^^ key[3]

/-- Limb `i` of the key, counted modulo five, where the fifth limb is the parity. -/
def keyLimb (key : Block .w64 4) (i : Nat) : Word64 :=
  match i % 5 with
  | 0 => key[0]
  | 1 => key[1]
  | 2 => key[2]
  | 3 => key[3]
  | _ => parity key

/-- Four key limbs in a row, with the subkey number added to the last. -/
def subkey (key : Block .w64 4) (s : Nat) : Block .w64 4 := #v[
  keyLimb key s, keyLimb key (s + 1), keyLimb key (s + 2), keyLimb key (s + 3) + BitVec.ofNat 64 s]

/-- Adds the subkey that is due before round `d`, if any. -/
def addDue (key : Block .w64 4) (d : Nat) (x : Block .w64 4) : Block .w64 4 :=
  if d % 4 = 0 then x.zipWith (· + ·) (subkey key (d / 4)) else x

/-! ## Rounds -/

def mix (rotation : Nat) (left right : Word64) : Word64 × Word64 :=
  (left + right, right.rotateLeft rotation ^^^ (left + right))

/-- The rotation distances of both mixes, by round modulo eight. -/
def rotations (d : Nat) : Nat × Nat :=
  match d % 8 with
  | 0 => (14, 16)
  | 1 => (52, 57)
  | 2 => (23, 40)
  | 3 => (5, 37)
  | 4 => (25, 33)
  | 5 => (46, 12)
  | 6 => (58, 22)
  | _ => (32, 32)

/-- Changes the places of the second and the fourth limb. -/
def exchange (x : Block .w64 4) : Block .w64 4 := #v[x[0], x[3], x[2], x[1]]

def round (key : Block .w64 4) (x : Block .w64 4) (d : Nat) : Block .w64 4 :=
  let x := addDue key d x
  let front := mix (rotations d).1 x[0] x[1]
  let back := mix (rotations d).2 x[2] x[3]
  exchange #v[front.1, front.2, back.1, back.2]

def encipher (rounds : Nat) (key x : Block .w64 4) : Block .w64 4 :=
  addDue key rounds ((List.range rounds).foldl (round key) x)

theorem exchange_exchange (x : Block .w64 4) : exchange (exchange x) = x := by
  apply Vector.ext
  intro i hi
  match i with
  | 0 => rfl
  | 1 => rfl
  | 2 => rfl
  | 3 => rfl

end Threefish
end CounterRng
