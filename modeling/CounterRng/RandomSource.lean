import CounterRng.Generator
import CounterRng.Word.Bytes

/-!
# RandomSource — numbers and bytes from any source

A random source yields 32-bit and 64-bit numbers; byte strings are filled from these.  Every
generator is a source: its 32-bit numbers are the low halves of its words, its 64-bit numbers as many
words as make up 64 bits.
-/

namespace CounterRng

class RandomSource (ρ : Type u) where
  next32 : ρ → Word32 × ρ
  next64 : ρ → Word64 × ρ

instance {σ : Type u} {w : Width} [Generator σ w] : RandomSource σ where
  next32 s :=
    let (x, s) := Generator.next s
    (x.low32, s)
  next64 s := Word.drawU64 Generator.next s

namespace RandomSource

variable {ρ : Type u} [RandomSource ρ]

def nextWord : (w : Width) → ρ → Word w × ρ
  | .w32, s => next32 s
  | .w64, s => next64 s

/-- The next `n` bytes: 64-bit numbers while eight bytes are wanted, and for the rest the front of
one more number, of 64 bits if more than four bytes are wanted. -/
def fillBytes : (n : Nat) → ρ → List Byte × ρ
  | n + 8, s =>
      let (x, s) := next64 s
      let (rest, s) := fillBytes n s
      (x.toBytesLE ++ rest, s)
  | 0, s => ([], s)
  | n, s =>
      if 4 < n then
        let (x, s) := next64 s
        (x.toBytesLE.take n, s)
      else
        let (x, s) := next32 s
        (x.toBytesLE.take n, s)

/-- Filling bytes for callers that expect sources to fail, with errors of a type `ε`: this one does
not. -/
def tryFillBytes {ε : Type v} (n : Nat) (s : ρ) : Except ε (List Byte) × ρ :=
  let (bytes, s) := fillBytes n s
  (.ok bytes, s)

end RandomSource
end CounterRng
