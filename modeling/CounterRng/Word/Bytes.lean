import CounterRng.Word

/-!
# Bytes — the byte views of a limb

A limb is written to bytes least significant byte first (`toBytesLE`), as random bytes and seed
bytes are, or most significant byte first (`toBytesBE`), as digest input and digest output are.

* `Bytes.value` is the number that a list of bytes writes, least significant first;
* `Word.ofBytesLE_toBytesLE` and `Word.ofBytesBE_toBytesBE`: reading undoes writing.
-/

namespace CounterRng

abbrev Byte := BitVec 8

/-! ## Numbers written in bytes -/

namespace Bytes

def value : List Byte → Nat
  | [] => 0
  | b :: rest => b.toNat + 256 * value rest

theorem value_lt (bytes : List Byte) : value bytes < 256 ^ bytes.length := by
  induction bytes with
  | nil => simp [value]
  | cons b rest ih =>
      have hb : b.toNat < 256 := b.isLt
      simp only [value, List.length_cons, Nat.pow_succ]
      omega

end Bytes

/-! ## Writing and reading limbs -/

namespace Word

variable {w : Width}

/-- The bytes of a limb, the least significant first. -/
def toBytesLE (x : Word w) : List Byte :=
  (List.range w.bytes).map fun i => x.extractLsb' (8 * i) 8

def toBytesBE (x : Word w) : List Byte := x.toBytesLE.reverse

/-- The limb that the bytes write, the least significant first. -/
def ofBytesLE (bytes : List Byte) : Word w := BitVec.ofNat w.bits (Bytes.value bytes)

def ofBytesBE (bytes : List Byte) : Word w := ofBytesLE bytes.reverse

theorem length_toBytesLE (x : Word w) : x.toBytesLE.length = w.bytes := by
  simp [toBytesLE]

private theorem value_map_range (x : Nat) (len : Nat) :
    Bytes.value ((List.range len).map fun i => BitVec.ofNat 8 (x >>> (8 * i))) =
      x % 256 ^ len := by
  induction len generalizing x with
  | zero => simp [Bytes.value, Nat.mod_one]
  | succ len ih =>
      have hshift : ∀ i, x >>> (8 * (i + 1)) = (x / 256) >>> (8 * i) := by
        intro i
        rw [show 8 * (i + 1) = 8 + 8 * i by omega, Nat.shiftRight_add,
          Nat.shiftRight_eq_div_pow x 8]
      rw [List.range_succ_eq_map, List.map_cons, List.map_map]
      simp only [Bytes.value, Function.comp_def, hshift, ih]
      rw [Nat.pow_succ, Nat.mul_comm (256 ^ len) 256, Nat.mod_mul]
      simp

theorem value_toBytesLE (x : Word w) : Bytes.value x.toBytesLE = x.toNat := by
  have hmap : x.toBytesLE =
      (List.range w.bytes).map fun i => BitVec.ofNat 8 (x.toNat >>> (8 * i)) := rfl
  have hlt : x.toNat < 256 ^ w.bytes := by
    have h := x.isLt
    cases w <;> exact h
  rw [hmap, value_map_range, Nat.mod_eq_of_lt hlt]

theorem ofBytesLE_toBytesLE (x : Word w) : ofBytesLE x.toBytesLE = x := by
  simp [ofBytesLE, value_toBytesLE]

/-- Two narrow limbs write the bytes of the wide one that they make up, the low one first. -/
theorem toBytesLE_append (high low : Word32) :
    toBytesLE (w := .w64) (high ++ low) =
      toBytesLE (w := .w32) low ++ toBytesLE (w := .w32) high := by
  have hrange : List.range 8 = List.range 4 ++ (List.range 4).map (4 + ·) := rfl
  simp only [toBytesLE]
  rw [hrange, List.map_append, List.map_map]
  congr 1
  · apply List.map_congr_left
    intro i hi
    have hbelow : 8 * i + 8 ≤ 32 := by
      have hlt := List.mem_range.1 hi
      omega
    exact BitVec.extractLsb'_append_eq_of_add_le hbelow
  · apply List.map_congr_left
    intro i hi
    have habove : 32 ≤ 8 * (4 + i) := by omega
    have hstart : 8 * (4 + i) - 32 = 8 * i := by omega
    calc
      (high ++ low).extractLsb' (8 * (4 + i)) 8
          = high.extractLsb' (8 * (4 + i) - 32) 8 := BitVec.extractLsb'_append_eq_of_le habove
      _ = high.extractLsb' (8 * i) 8 := by rw [hstart]

theorem toBytesLE_low32 (x : Word w) : x.low32.toBytesLE = x.toBytesLE.take 4 := by
  have hwide : 4 ≤ w.bytes := by cases w <;> decide
  simp only [toBytesLE]
  rw [← List.map_take, List.take_range, Nat.min_eq_left hwide]
  apply List.map_congr_left
  intro i hi
  have hbelow : 8 * i + 8 ≤ 32 := by
    have hlt : i < 4 := List.mem_range.1 hi
    omega
  exact BitVec.extractLsb'_setWidth_of_le hbelow

theorem ofBytesBE_toBytesBE (x : Word w) : ofBytesBE x.toBytesBE = x := by
  simp [ofBytesBE, toBytesBE, ofBytesLE_toBytesLE]

end Word
end CounterRng
