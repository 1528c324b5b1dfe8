/-!
# Word — the limbs that counters, keys and blocks are made of

A limb is a bit vector of one of two widths, 32 or 64 bits, with wrapping arithmetic.  Taking the
width as an index lets every later definition be written, and every law be proved, once for both.

This file defines:

* `Width`, its size in bits, in bytes and in 32-bit parts, and `Word w`;
* conversions: the low bits of a wider amount, the low and the zero-extended view, assembly from
  32-bit parts;
* `Word.drawU64`, sixty-four bits drawn from a stream of limbs.
-/

namespace CounterRng

-- A power of numbers is the standard library's, also where another one is in scope.
attribute [instance (high)] instPowNat

/-! ## Widths -/

inductive Width where
  | w32
  | w64
  deriving DecidableEq, Repr

namespace Width

@[reducible] def bits : Width → Nat
  | .w32 => 32
  | .w64 => 64

@[reducible] def bytes : Width → Nat
  | .w32 => 4
  | .w64 => 8

@[reducible] def parts : Width → Nat
  | .w32 => 1
  | .w64 => 2

theorem bits_eq_parts (w : Width) : w.bits = 32 * w.parts := by
  cases w <;> rfl

theorem bits_pos (w : Width) : 0 < w.bits := by
  cases w <;> decide

theorem parts_pos (w : Width) : 0 < w.parts := by
  cases w <;> decide

end Width

/-- A limb: an unsigned number of the given width, with arithmetic modulo `2 ^ w.bits`. -/
abbrev Word (w : Width) := BitVec w.bits

abbrev Word32 := Word .w32

abbrev Word64 := Word .w64

/-- An amount to move a counter or a stream by. -/
abbrev Distance := BitVec 128

namespace Word

variable {w : Width}

/-! ## Range and arithmetic -/

def least : Word w := 0

def greatest : Word w := BitVec.allOnes w.bits

def truncate (amount : Distance) : Word w := amount.setWidth w.bits

def popcount (x : Word w) : Nat := (List.range w.bits).countP x.getLsbD

def wipe (_ : Word w) : Word w := 0

/-! ## Views in the two widths -/

def low32 (x : Word w) : Word32 := x.setWidth 32

def to64 (x : Word w) : Word64 := x.setWidth 64

/-! ## Assembly from 32-bit parts -/

/-- The limb with the given 32-bit parts, the least significant first. -/
def ofParts : {w : Width} → Vector Word32 w.parts → Word w
  | .w32, part => part[0]
  | .w64, part => part[1] ++ part[0]

def toParts (x : Word w) : Vector Word32 w.parts :=
  Vector.ofFn fun i => x.extractLsb' (32 * i) 32

theorem ofParts_toParts (x : Word w) : ofParts x.toParts = x := by
  cases w
  · simp [ofParts, toParts]
  · simp [ofParts, toParts]

/-- The part that a list is too short to have, when a limb is assembled from it. -/
structure MissingPart where
  available : Nat
  index : Nat
  deriving DecidableEq, Repr

/-- States the length of the list and the first index looked for in vain. -/
def MissingPart.message : MissingPart → String
  | ⟨available, index⟩ =>
      s!"index out of bounds: the len is {available} but the index is {index}"

/-- Assembles a limb from the leading words of a list, and fails at the first one missing. -/
def ofPartList : {w : Width} → List Word32 → Except MissingPart (Word w)
  | .w32, low :: _ => .ok (ofParts (w := .w32) #v[low])
  | .w64, low :: high :: _ => .ok (ofParts (w := .w64) #v[low, high])
  | _, short => .error ⟨short.length, short.length⟩

/-! ## The leading bits of a digest -/

/-- The limb made of the leading digest words, the most significant first. -/
def ofDigest : {w : Width} → Vector Word32 5 → Word w
  | .w32, digest => digest[0]
  | .w64, digest => digest[0] ++ digest[1]

/-! ## Sixty-four bits from a stream of limbs -/

/-- Draws 64 bits: one wide limb, or two narrow ones of which the first is the low half. -/
def drawU64 {σ : Type u} : {w : Width} → (σ → Word w × σ) → σ → Word64 × σ
  | .w32, next, s =>
      let (low, s) := next s
      let (high, s) := next s
      (high ++ low, s)
  | .w64, next, s => next s

end Word
end CounterRng
