import CounterRng.BlockFunction

/-!
# Threefry — block functions from additions, rotations and exclusive-ors

Threefry is the Threefish permutation without tweak and with a free choice of the number of rounds:
the counter is enciphered under the key.  Every round mixes disjoint pairs of limbs; before the
first round and after every fourth, a subkey is added that is read from the extended key.

This file defines:

* `Mix`, one mixing of two limbs, and `Wiring`, the mixes of every round;
* `extendedKey` and `addSubkey`, the key schedule;
* `encipher`, for every block length, wiring and number of rounds;
* `threefry2x64` and `threefry4x64`, its two standard shapes.
-/

namespace CounterRng
namespace Threefry

variable {n : Nat}

/-! ## Mixing -/

/-- Which two limbs meet in a mix, and how far the right one is rotated. -/
structure Mix (n : Nat) where
  left : Fin n
  right : Fin n
  rotation : Nat
  distinct : left ≠ right := by decide

theorem Mix.left_lt (m : Mix n) : m.left.val < n := m.left.isLt

theorem Mix.right_lt (m : Mix n) : m.right.val < n := m.right.isLt

/-- Replaces the two limbs that meet. -/
def Mix.put (m : Mix n) (x : Block .w64 n) (left right : Word64) : Block .w64 n :=
  (x.set m.left left m.left_lt).set m.right right m.right_lt

/-- The left limb becomes the sum of both, the right one its rotation combined with that sum. -/
def Mix.apply (m : Mix n) (x : Block .w64 n) : Block .w64 n :=
  let sum := x.get m.left + x.get m.right
  m.put x sum ((x.get m.right).rotateLeft m.rotation ^^^ sum)

/-- The mixes of each round, in the order they are made. -/
abbrev Wiring (n : Nat) := (round : Nat) → List (Mix n)

def mixAll (mixes : List (Mix n)) (x : Block .w64 n) : Block .w64 n :=
  mixes.foldl (fun x m => m.apply x) x

/-! ## Key schedule -/

def parity : Word64 := 0x1BD11BDAA9FC1A22

/-- The key followed by the parity constant combined with all its limbs. -/
def extendedKey (key : Block .w64 n) : Block .w64 (n + 1) :=
  key.push (key.foldl (fun acc x => acc ^^^ x) parity)

/-- Limb `i` of subkey `s`: extended key limb `s + i`, cyclically, and in the last limb also the
number `s`. -/
def subkeyLimb (keys : Block .w64 (n + 1)) (s : Nat) (i : Fin n) : Word64 :=
  Block.limb keys n.succ_pos (s + i) + if i.val + 1 = n then BitVec.ofNat 64 s else 0

def addSubkey (keys : Block .w64 (n + 1)) (s : Nat) (x : Block .w64 n) : Block .w64 n :=
  Vector.ofFn fun i => x.get i + subkeyLimb keys s i

/-! ## Enciphering -/

/-- Round number `d`, with the subkey that follows every fourth round. -/
def round (wiring : Wiring n) (keys : Block .w64 (n + 1)) (x : Block .w64 n) (d : Nat) :
    Block .w64 n :=
  let mixed := mixAll (wiring d) x
  if d % 4 = 3 then addSubkey keys ((d + 1) / 4) mixed else mixed

def encipher (wiring : Wiring n) (rounds : Nat) (key x : Block .w64 n) : Block .w64 n :=
  let keys := extendedKey key
  (List.range rounds).foldl (round wiring keys) (addSubkey keys 0 x)

/-! ## The two standard shapes -/

theorem pos2 : 0 < 2 := Nat.two_pos

theorem pos4 : 0 < 4 := Nat.succ_pos 3

def rotations2 : Vector Nat 8 := #v[16, 42, 12, 31, 16, 32, 24, 21]

/-- Rotation distances for the two pairs of four limbs, by round modulo eight. -/
def rotations4 : Vector (Nat × Nat) 8 := #v[
  (14, 16), (52, 57), (23, 40), (5, 37), (25, 33), (46, 12), (58, 22), (32, 32)]

def wiring2 : Wiring 2 := fun d => [⟨0, 1, rotations2.get (Fin.ofNat 8 d), by decide⟩]

/-- Four limbs meet their neighbours in even rounds, and in odd rounds the even limbs meet the odd
ones the other way about. -/
def wiring4 : Wiring 4 := fun d =>
  let r := rotations4.get (Fin.ofNat 8 d)
  if d % 2 = 0 then [⟨0, 1, r.1, by decide⟩, ⟨2, 3, r.2, by decide⟩]
  else [⟨0, 3, r.1, by decide⟩, ⟨2, 1, r.2, by decide⟩]

end Threefry

def threefry2x64 (rounds : Nat) : BlockFunction .w64 2 2 where
  eval := Threefry.encipher Threefry.wiring2 rounds
  pos := Threefry.pos2

def threefry4x64 (rounds : Nat) : BlockFunction .w64 4 4 where
  eval := Threefry.encipher Threefry.wiring4 rounds
  pos := Threefry.pos4

end CounterRng
