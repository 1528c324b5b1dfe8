import Mathlib.Data.List.OfFn
import CounterRng.Block.Codec

/-!
# Codec — reading blocks loses nothing, and both readings agree

A block is read from 32-bit parts or from bytes.  That reading undoes writing is proved beside the
definitions; here are the laws of reading by itself, for every width and every length.

* `Block.extractLsb'_ofParts` — which bits of which limb a part becomes;
* `Block.ofParts_injective` and `Block.toBytes_ofBytes` — no part and no byte is lost;
* `Block.parts_toBytes` — the bytes of a block, four at a time, are its parts, so that it makes no
  difference which of the two it is read from.
-/

namespace CounterRng

/-! ## Bytes -/

namespace Bytes

/-- Four bytes at a time as 32-bit parts, least significant byte first; what is left over at the end is
not read. -/
def parts : List Byte → List Word32
  | a :: b :: c :: d :: rest => Word.ofBytesLE [a, b, c, d] :: parts rest
  | _ => []

theorem eq_of_value_eq {a b : List Byte} (hlength : a.length = b.length)
    (hvalue : value a = value b) : a = b := by
  induction a generalizing b with
  | nil =>
      exact (List.eq_nil_of_length_eq_zero hlength.symm).symm
  | cons x rest ih =>
      cases b with
      | nil =>
          cases hlength
      | cons y rest' =>
          have hx : x.toNat < 256 := x.isLt
          have hy : y.toNat < 256 := y.isLt
          simp only [value] at hvalue
          -- The first bytes are the values modulo 256, and the others what is left of them.
          have hhead : x = y := BitVec.eq_of_toNat_eq (by omega)
          have htail : rest = rest' := ih (Nat.succ.inj hlength) (by omega)
          rw [hhead, htail]

end Bytes

/-! ## Limbs -/

namespace Word

variable {w : Width}

/-- Part `j` of a limb is its bits from `32 * j` on. -/
theorem extractLsb'_ofParts (parts : Vector Word32 w.parts) (j : Fin w.parts) :
    (ofParts parts).extractLsb' (32 * j) 32 = parts.get j := by
  cases w with
  | w32 =>
      obtain rfl : j = 0 := Subsingleton.elim j 0
      exact BitVec.extractLsb'_eq_self
  | w64 =>
      match j with
      | 0 =>
          exact BitVec.extractLsb'_append_eq_right
      | 1 =>
          exact BitVec.extractLsb'_append_eq_left

theorem toBytesLE_ofBytesLE {bytes : List Byte} (h : bytes.length = w.bytes) :
    (ofBytesLE bytes : Word w).toBytesLE = bytes := by
  have hfits : Bytes.value bytes < 2 ^ w.bits := by
    have hlt := Bytes.value_lt bytes
    rw [h] at hlt
    cases w <;> exact hlt
  apply Bytes.eq_of_value_eq
  · rw [length_toBytesLE, h]
  · rw [value_toBytesLE, ofBytesLE, BitVec.toNat_ofNat, Nat.mod_eq_of_lt hfits]

/-- The bytes of a limb make up its parts. -/
theorem parts_toBytesLE_append (x : Word w) (rest : List Byte) :
    Bytes.parts (x.toBytesLE ++ rest) = x.toParts.toList ++ Bytes.parts rest := by
  have hnarrow : ∀ (y : Word32) (rest : List Byte),
      Bytes.parts (toBytesLE (w := .w32) y ++ rest) = y :: Bytes.parts rest := by
    intro y rest
    exact congrArg (· :: Bytes.parts rest) (ofBytesLE_toBytesLE (w := .w32) y)
  cases w with
  | w32 =>
      have hpart : x.toParts.toList = [x] := by
        rw [toParts, Vector.toList_ofFn]
        exact congrArg ([·]) BitVec.extractLsb'_eq_self
      rw [hnarrow, hpart]
      rfl
  | w64 =>
      have hparts : x.toParts.toList = [x.extractLsb' 0 32, x.extractLsb' 32 32] := by
        rw [toParts, Vector.toList_ofFn]
        rfl
      have hsplit : x.extractLsb' 32 32 ++ x.extractLsb' 0 32 = x := ofParts_toParts x
      calc
        Bytes.parts (x.toBytesLE ++ rest)
            = Bytes.parts (toBytesLE (w := .w32) (x.extractLsb' 0 32) ++
                (toBytesLE (w := .w32) (x.extractLsb' 32 32) ++ rest)) := by
              rw [← List.append_assoc, ← toBytesLE_append, hsplit]
        _ = x.toParts.toList ++ Bytes.parts rest := by
              rw [hnarrow, hnarrow, hparts]
              rfl

end Word

/-! ## Blocks -/

theorem flatten_chunks {α : Type u} {k len : Nat} (v : Vector α (k * len)) :
    (List.ofFn fun i => (chunk v i).toList).flatten = v.toList := by
  have hchunk : ∀ i, (chunk v i).toList =
      List.ofFn fun j : Fin len => v.get ⟨i * len + j, chunk_index_lt i j⟩ := by
    intro i
    rw [chunk, Vector.toList_ofFn]
  have hlist : v.toList = List.ofFn v.get := by
    rw [← Vector.toList_ofFn]
    exact congrArg Vector.toList Vector.ofFn_getElem.symm
  simp only [hchunk]
  rw [hlist, List.ofFn_mul]

namespace Block

variable {w : Width} {k : Nat}

/-- Limb `i` takes `w.parts` successive parts, the least significant first. -/
theorem extractLsb'_ofParts (parts : Vector Word32 (k * w.parts)) (i : Fin k) (j : Fin w.parts) :
    ((ofParts parts).get i).extractLsb' (32 * j) 32 =
      parts.get ⟨i * w.parts + j, chunk_index_lt i j⟩ := by
  have hlimb : (ofParts parts).get i = Word.ofParts (chunk parts i) :=
    Vector.getElem_ofFn i.isLt
  rw [hlimb, Word.extractLsb'_ofParts]
  exact Vector.getElem_ofFn j.isLt

theorem ofParts_injective :
    Function.Injective (ofParts : Vector Word32 (k * w.parts) → Block w k) := by
  intro u v h
  apply Vector.ext
  intro m hm
  -- Part `m` is part `m % w.parts` of limb `m / w.parts`.
  have hi : m / w.parts < k := Nat.div_lt_of_lt_mul (Nat.mul_comm k _ ▸ hm)
  have hj : m % w.parts < w.parts := Nat.mod_lt m w.parts_pos
  have hplace : m / w.parts * w.parts + m % w.parts = m := by
    rw [Nat.mul_comm]
    exact Nat.div_add_mod m w.parts
  have hu := extractLsb'_ofParts u ⟨_, hi⟩ ⟨_, hj⟩
  have hv := extractLsb'_ofParts v ⟨_, hi⟩ ⟨_, hj⟩
  simp only [hplace] at hu hv
  rw [h] at hu
  exact hu.symm.trans hv

theorem toBytes_ofBytes (bytes : Vector Byte (k * w.bytes)) :
    (ofBytes bytes : Block w k).toBytes = bytes.toList := by
  have hlimb : ∀ i, Word.toBytesLE (Word.ofBytesLE (chunk bytes i).toList : Word w) =
      (chunk bytes i).toList := by
    intro i
    exact Word.toBytesLE_ofBytesLE (chunk bytes i).length_toList
  rw [toBytes, ofBytes, Vector.toList_ofFn, List.flatMap_def, List.map_ofFn]
  simp only [Function.comp_def, hlimb]
  exact flatten_chunks bytes

theorem parts_toBytes (b : Block w k) : Bytes.parts b.toBytes = b.toParts := by
  rw [toBytes, toParts]
  induction b.toList with
  | nil =>
      rfl
  | cons x rest ih =>
      rw [List.flatMap_cons, List.flatMap_cons, Word.parts_toBytesLE_append, ih]

end Block
end CounterRng
