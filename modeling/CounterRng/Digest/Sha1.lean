import CounterRng.Digest

/-!
# Sha1 — the Secure Hash Algorithm with a result of 160 bits

Bytes are collected into blocks of sixty-four; each full block is compressed into a chain of five
words.  At the end the message is padded with a one bit, zeros and its length in bits.

* `Sha1.absorbByte` takes in one byte, and absorption is its fold, so that the way a message is cut
  into chunks cannot matter (`absorb_append`);
* `sha1` is the digest.
-/

namespace CounterRng
namespace Sha1

/-! ## Compression -/

structure Chain where
  a : Word32
  b : Word32
  c : Word32
  d : Word32
  e : Word32
  deriving DecidableEq, Repr

namespace Chain

def initial : Chain := ⟨0x67452301, 0xEFCDAB89, 0x98BADCFE, 0x10325476, 0xC3D2E1F0⟩

def add (s t : Chain) : Chain := ⟨s.a + t.a, s.b + t.b, s.c + t.c, s.d + t.d, s.e + t.e⟩

def bytes (s : Chain) : Vector Byte 20 :=
  ⟨([s.a, s.b, s.c, s.d, s.e].flatMap Word.toBytesBE).toArray, by
    simp [Word.toBytesBE, Word.length_toBytesLE, Width.bytes]⟩

end Chain

def wordsOf : List Byte → List Word32
  | p :: q :: r :: s :: rest => Word.ofBytesBE [p, q, r, s] :: wordsOf rest
  | _ => []

/-- Puts the next schedule word in front of those before it, of which the latest comes first. -/
def extend (latest : List Word32) : List Word32 :=
  (latest.getD 2 0 ^^^ latest.getD 7 0 ^^^ latest.getD 13 0 ^^^ latest.getD 15 0).rotateLeft 1
    :: latest

def schedule (block : List Word32) : List Word32 := (Nat.repeat extend 64 block.reverse).reverse

/-- The function and the constant of round `t`. -/
def select (t : Nat) (b c d : Word32) : Word32 × Word32 :=
  if t < 20 then ((b &&& c) ||| (~~~b &&& d), 0x5A827999)
  else if t < 40 then (b ^^^ c ^^^ d, 0x6ED9EBA1)
  else if t < 60 then ((b &&& c) ||| (b &&& d) ||| (c &&& d), 0x8F1BBCDC)
  else (b ^^^ c ^^^ d, 0xCA62C1D6)

def round (s : Chain) : Word32 × Nat → Chain
  | (x, t) =>
      let (f, k) := select t s.b s.c s.d
      ⟨s.a.rotateLeft 5 + f + s.e + k + x, s.a, s.b.rotateLeft 30, s.c, s.d⟩

def compress (s : Chain) (block : List Word32) : Chain :=
  s.add ((schedule block).zipIdx.foldl round s)

/-! ## Absorption -/

/-- The chain so far, the bytes of the unfinished block with the latest first, and the number of
bytes absorbed. -/
structure State where
  chain : Chain := .initial
  pending : List Byte := []
  length : Nat := 0
  deriving DecidableEq, Repr

def absorbByte (s : State) (b : Byte) : State :=
  let pending := b :: s.pending
  if pending.length = 64 then
    ⟨compress s.chain (wordsOf pending.reverse), [], s.length + 1⟩
  else ⟨s.chain, pending, s.length + 1⟩

def absorb (s : State) (bytes : List Byte) : State := bytes.foldl absorbByte s

theorem absorb_append (s : State) (front back : List Byte) :
    absorb s (front ++ back) = absorb (absorb s front) back := by
  simp [absorb]

/-- What follows a message of `length` bytes: a one bit, zeros up to the last eight bytes of a
block, and the length in bits. -/
def padding (length : Nat) : List Byte :=
  let zeros := (119 - length % 64) % 64
  0x80 :: List.replicate zeros 0 ++ Word.toBytesBE (w := .w64) (BitVec.ofNat 64 (8 * length))

def finish (s : State) : Vector Byte 20 := (absorb s (padding s.length)).chain.bytes

end Sha1

def sha1 : Digest where
  State := Sha1.State
  init := {}
  absorb := Sha1.absorb
  finish := Sha1.finish

end CounterRng
