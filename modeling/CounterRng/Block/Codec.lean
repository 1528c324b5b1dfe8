import CounterRng.Block
import CounterRng.Word.Bytes

/-!
# Codec — blocks as sequences of 32-bit parts and of bytes

A block is written limb by limb, and within a limb least significant first, either as 32-bit parts
or as bytes.

* `chunk` is one of the consecutive pieces, of equal length, that a vector is cut into;
* `Block.ofParts_toParts` and `Block.ofBytes_toBytes`: reading undoes writing.
-/

namespace CounterRng

/-! ## Cutting into pieces -/

theorem chunk_index_lt {k len : Nat} (i : Fin k) (j : Fin len) : i * len + j < k * len :=
  calc
    i * len + j < i * len + len := Nat.add_lt_add_left j.isLt _
    _ = (i + 1) * len := (Nat.succ_mul _ _).symm
    _ ≤ k * len := Nat.mul_le_mul_right len i.isLt

/-- The `i`-th of `k` consecutive pieces of `len` entries. -/
def chunk {α : Type u} {k len : Nat} (v : Vector α (k * len)) (i : Fin k) : Vector α len :=
  Vector.ofFn fun j => v.get ⟨i * len + j, chunk_index_lt i j⟩

theorem length_flatMap_of_length {α : Type u} {β : Type v} {len : Nat} (f : α → List β)
    (h : ∀ x, (f x).length = len) (xs : List α) : (xs.flatMap f).length = xs.length * len := by
  induction xs with
  | nil =>
      simp
  | cons x rest ih =>
      rw [List.flatMap_cons, List.length_append, h, ih, List.length_cons, Nat.succ_mul,
        Nat.add_comm]

/-- Entry `i * len + j` of concatenated lists of length `len` is entry `j` of the `i`-th. -/
theorem getElem?_flatMap_of_length {α : Type u} {β : Type v} {len : Nat} (f : α → List β)
    (h : ∀ x, (f x).length = len) (xs : List α) (i j : Nat) (hj : j < len) :
    (xs.flatMap f)[i * len + j]? = xs[i]?.bind fun x => (f x)[j]? := by
  induction xs generalizing i with
  | nil =>
      simp
  | cons x rest ih =>
      rw [List.flatMap_cons]
      cases i with
      | zero =>
          -- The entry lies within the first list.
          have hlt : 0 * len + j < (f x).length := by rw [h]; omega
          rw [List.getElem?_append_left hlt]
          simp
      | succ i =>
          -- It lies past the first list, from whose end the induction hypothesis counts.
          have hidx : (i + 1) * len + j = len + (i * len + j) := by
            rw [Nat.succ_mul]
            omega
          have hle : (f x).length ≤ len + (i * len + j) := by
            rw [h]
            exact Nat.le_add_right _ _
          rw [hidx, List.getElem?_append_right hle, h, Nat.add_sub_cancel_left, ih]
          simp

/-- The pieces of concatenated lists of equal length are these lists. -/
theorem toList_chunk_flatMap {α : Type u} {β : Type v} {k len : Nat} (f : α → List β)
    (h : ∀ x, (f x).length = len) (xs : Vector α k)
    (hsize : (xs.toList.flatMap f).toArray.size = k * len) (i : Fin k) :
    (chunk ⟨(xs.toList.flatMap f).toArray, hsize⟩ i).toList = f xs[i] := by
  apply List.ext_getElem?
  intro j
  by_cases hj : j < len
  · have hlt : j < (chunk ⟨(xs.toList.flatMap f).toArray, hsize⟩ i).toList.length := by
      simpa using hj
    have hbound : i * len + j < (xs.toList.flatMap f).length := by
      rw [← List.size_toArray, hsize]
      exact chunk_index_lt i ⟨j, hj⟩
    rw [List.getElem?_eq_getElem hlt]
    have hget : (chunk ⟨(xs.toList.flatMap f).toArray, hsize⟩ i).toList[j] =
        (xs.toList.flatMap f)[i * len + j] := by
      simp [chunk, Vector.get]
    rw [hget, ← List.getElem?_eq_getElem hbound, getElem?_flatMap_of_length f h _ _ _ hj]
    simp
  · -- Both lists end before the entry.
    have hle : len ≤ j := Nat.not_lt.mp hj
    rw [List.getElem?_eq_none (by simpa using hle), List.getElem?_eq_none (by rw [h]; exact hle)]

/-! ## Reading and writing blocks -/

namespace Block

variable {w : Width} {k : Nat}

def ofParts (parts : Vector Word32 (k * w.parts)) : Block w k :=
  Vector.ofFn fun i => Word.ofParts (chunk parts i)

def toParts (b : Block w k) : List Word32 := b.toList.flatMap fun x => x.toParts.toList

def ofBytes (bytes : Vector Byte (k * w.bytes)) : Block w k :=
  Vector.ofFn fun i => Word.ofBytesLE (chunk bytes i).toList

def toBytes (b : Block w k) : List Byte := b.toList.flatMap Word.toBytesLE

theorem length_toParts (b : Block w k) : b.toParts.length = k * w.parts := by
  rw [toParts, length_flatMap_of_length _ (fun x => x.toParts.length_toList), Vector.length_toList]

theorem length_toBytes (b : Block w k) : b.toBytes.length = k * w.bytes := by
  rw [toBytes, length_flatMap_of_length _ Word.length_toBytesLE, Vector.length_toList]

theorem ofParts_toParts (b : Block w k) : ofParts ⟨b.toParts.toArray, b.length_toParts⟩ = b := by
  apply Vector.ext
  intro i hi
  have hpiece := toList_chunk_flatMap (fun x : Word w => x.toParts.toList)
    (fun x => x.toParts.length_toList) b b.length_toParts ⟨i, hi⟩
  calc
    (ofParts ⟨b.toParts.toArray, b.length_toParts⟩)[i] = Word.ofParts b[i].toParts := by
      rw [ofParts, Vector.getElem_ofFn]
      exact congrArg Word.ofParts (Vector.toList_inj.mp hpiece)
    _ = b[i] := Word.ofParts_toParts _

theorem ofBytes_toBytes (b : Block w k) : ofBytes ⟨b.toBytes.toArray, b.length_toBytes⟩ = b := by
  apply Vector.ext
  intro i hi
  have hpiece := toList_chunk_flatMap (Word.toBytesLE (w := w)) Word.length_toBytesLE b
    b.length_toBytes ⟨i, hi⟩
  calc
    (ofBytes ⟨b.toBytes.toArray, b.length_toBytes⟩)[i] = Word.ofBytesLE b[i].toBytesLE := by
      rw [ofBytes, Vector.getElem_ofFn]
      exact congrArg Word.ofBytesLE hpiece
    _ = b[i] := Word.ofBytesLE_toBytesLE _

end Block
end CounterRng
