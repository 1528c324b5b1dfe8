import CounterRng.Word.Bytes

/-!
# Integer — seed bytes from a 64-bit integer

A short integer seed is expanded by a small permuted congruential generator, thirty-two bits at a
time, into as many seed bytes as are needed.
-/

namespace CounterRng
namespace IntegerSeed

def step (state : Word64) : Word64 := state * 6364136223846793005 + 11634580027462260723

/-- The output of a state: a shifted copy folded in, cut to 32 bits and rotated by the top bits. -/
def output (state : Word64) : Word32 :=
  let folded : Word32 := (((state >>> 18) ^^^ state) >>> 27).setWidth 32
  folded.rotateRight (state >>> 59).toNat

def words : (count : Nat) → (seed : Word64) → List Word32
  | 0, _ => []
  | count + 1, seed => output (step seed) :: words count (step seed)

/-- The outputs as bytes, each least significant byte first. -/
def bytes (count : Nat) (seed : Word64) : List Byte := (words count seed).flatMap Word.toBytesLE

theorem length_bytes (count : Nat) (seed : Word64) : (bytes count seed).length = 4 * count := by
  induction count generalizing seed with
  | zero => rfl
  | succ count ih =>
      have h := ih (step seed)
      simp only [bytes] at h
      simp only [bytes, words, List.flatMap_cons, List.length_append, Word.length_toBytesLE, h,
        Width.bytes]
      omega

def keyBytes (w : Width) (k : Nat) (seed : Word64) : Vector Byte (k * w.bytes) :=
  ⟨(bytes (k * w.parts) seed).toArray, by
    have h : 4 * w.parts = w.bytes := by cases w <;> rfl
    rw [List.size_toArray, length_bytes, Nat.mul_left_comm, h]⟩

end IntegerSeed
end CounterRng
