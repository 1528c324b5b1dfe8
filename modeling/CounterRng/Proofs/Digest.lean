import CounterRng.Derivation
import CounterRng.Proofs.Codec

/-!
# Digest — a derivation by the bytes that its digest gives

A derivation has the digest absorb a label, the key and the seed, and reads what comes out as five
words.  Here the same is said by bytes: what goes in are characters and limbs written most significant
byte first, and of the twenty bytes that come out the leading ones write the seed of the child, and the
set bits of all of them number its draws.

* `salt_eq_label` and `Word.toBytesBE_eq_bigEndianBytes` — what goes in;
* `Digest.flatMap_wordsOf` — the five words write the twenty bytes again;
* `digest_eq_wordsOf`, `ofDigest_wordsOf` and `draws_wordsOf` — what is read off.
-/

namespace CounterRng

/-! ## Numbers and bits of a list of bytes -/

namespace Bytes

/-- The number that the bytes write, the most significant first. -/
def bigEndian (bytes : List Byte) : Nat := bytes.foldl (fun n b => 256 * n + b.toNat) 0

theorem value_reverse (bytes : List Byte) : value bytes.reverse = bigEndian bytes := by
  have hvalue : ∀ bytes : List Byte, value bytes = bytes.foldr (fun b n => 256 * n + b.toNat) 0 := by
    intro bytes
    induction bytes with
    | nil =>
        rfl
    | cons b rest ih =>
        rw [value, ih, List.foldr_cons, Nat.add_comm]
  rw [hvalue, List.foldr_reverse, bigEndian]

/-- The bits of a byte, the least significant first. -/
def bits (b : Byte) : List Bool := (List.range 8).map b.getLsbD

def setBits (bytes : List Byte) : Nat := (bytes.flatMap bits).count true

theorem setBits_append (a b : List Byte) : setBits (a ++ b) = setBits a + setBits b := by
  rw [setBits, List.flatMap_append, List.count_append]
  rfl

theorem setBits_reverse (bytes : List Byte) : setBits bytes.reverse = setBits bytes :=
  (bytes.reverse_perm.flatMap_right bits).count_eq true

theorem setBits_le (bytes : List Byte) : setBits bytes ≤ 8 * bytes.length := by
  have hbits : ∀ b, (bits b).length = 8 := by
    intro b
    rw [bits, List.length_map, List.length_range]
  calc
    setBits bytes ≤ (bytes.flatMap bits).length := List.count_le_length
    _ = bytes.length * 8 := length_flatMap_of_length bits hbits bytes
    _ = 8 * bytes.length := Nat.mul_comm _ _

end Bytes

/-! ## Limbs written and read most significant byte first -/

namespace Word

variable {w : Width}

def bigEndianBytes (x : Word w) : List Byte :=
  (List.range w.bytes).map fun i => x.extractLsb' (8 * (w.bytes - 1 - i)) 8

theorem toBytesBE_eq_bigEndianBytes (x : Word w) : x.toBytesBE = x.bigEndianBytes := by
  cases w <;> rfl

theorem length_toBytesBE (x : Word w) : x.toBytesBE.length = w.bytes :=
  List.length_reverse.trans x.length_toBytesLE

theorem toBytesBE_ofBytesBE {bytes : List Byte} (h : bytes.length = w.bytes) :
    (ofBytesBE bytes : Word w).toBytesBE = bytes := by
  rw [toBytesBE, ofBytesBE, toBytesLE_ofBytesLE (List.length_reverse.trans h), List.reverse_reverse]

theorem ofBytesBE_eq_bigEndian (bytes : List Byte) :
    (ofBytesBE bytes : Word w) = BitVec.ofNat w.bits (Bytes.bigEndian bytes) := by
  rw [ofBytesBE, ofBytesLE, Bytes.value_reverse]

theorem flatMap_bits_toBytesLE (x : Word w) :
    x.toBytesLE.flatMap Bytes.bits = (List.range w.bits).map x.getLsbD := by
  have hrange : List.range w.bits =
      (List.range w.bytes).flatMap fun i => (List.range 8).map (8 * i + ·) := by
    cases w <;> rfl
  have hbyte : ∀ i, Bytes.bits (x.extractLsb' (8 * i) 8) =
      ((List.range 8).map (8 * i + ·)).map x.getLsbD := by
    intro i
    rw [Bytes.bits, List.map_map]
    apply List.map_congr_left
    intro j hj
    rw [BitVec.getLsbD_extractLsb', decide_eq_true (List.mem_range.1 hj), Bool.true_and]
    rfl
  rw [hrange, List.map_flatMap, toBytesLE, List.flatMap_map]
  simp only [hbyte]

/-- The set bits of a limb are those of its bytes. -/
theorem popcount_eq_setBits (x : Word w) : x.popcount = Bytes.setBits x.toBytesBE := by
  have hcount : ((List.range w.bits).map x.getLsbD).count true = x.popcount := by
    rw [List.count, List.countP_map, popcount]
    congr 1
    funext i
    exact beq_true (x.getLsbD i)
  rw [toBytesBE, Bytes.setBits_reverse, Bytes.setBits, flatMap_bits_toBytesLE, hcount]

/-- Two narrow limbs write the bytes of the wide one that they make up, the high one first. -/
theorem toBytesBE_append (high low : Word32) :
    toBytesBE (w := .w64) (high ++ low) =
      toBytesBE (w := .w32) high ++ toBytesBE (w := .w32) low := by
  rw [toBytesBE, toBytesLE_append, List.reverse_append]
  rfl

/-- The limb that is read off a digest writes the leading bytes of it. -/
theorem toBytesBE_ofDigest (digest : Vector Word32 5) :
    (ofDigest digest : Word w).toBytesBE = (digest.toList.flatMap toBytesBE).take w.bytes := by
  rcases digest with ⟨⟨words⟩, hsize⟩
  match words, hsize with
  | [x, y, z, u, v], _ =>
      have hlength : (x.toBytesBE ++ y.toBytesBE).length = 8 := by
        rw [List.length_append, length_toBytesBE, length_toBytesBE]
        rfl
      -- A narrow limb is the first word, and a wide one the first two.
      cases w with
      | w32 =>
          exact (List.take_left' (length_toBytesBE x)).symm
      | w64 =>
          have hbytes : ((x.toBytesBE ++ y.toBytesBE) ++ [z, u, v].flatMap toBytesBE).take 8 =
              x.toBytesBE ++ y.toBytesBE := List.take_left' hlength
          rw [List.append_assoc] at hbytes
          exact (toBytesBE_append x y).trans hbytes.symm

end Word

/-! ## The words of a digest -/

namespace Digest

/-- Word `i` is read from the piece `i` of four bytes. -/
theorem wordsOf_eq_chunks (bytes : Vector Byte 20) :
    wordsOf bytes = Vector.ofFn fun i => Word.ofBytesBE (@chunk Byte 5 4 bytes i).toList := by
  rw [wordsOf]
  congr 1
  funext i
  have hplace : i.val * 4 = 4 * i.val := Nat.mul_comm _ _
  rw [chunk, Vector.toList_ofFn]
  simp only [hplace]
  rfl

theorem flatMap_wordsOf (bytes : Vector Byte 20) :
    (wordsOf bytes).toList.flatMap Word.toBytesBE = bytes.toList := by
  have hword : ∀ i, Word.toBytesBE (w := .w32) (Word.ofBytesBE (@chunk Byte 5 4 bytes i).toList) =
      (@chunk Byte 5 4 bytes i).toList := by
    intro i
    exact Word.toBytesBE_ofBytesBE (chunk _ i).length_toList
  rw [wordsOf_eq_chunks, Vector.toList_ofFn, List.flatMap_def, List.map_ofFn]
  simp only [Function.comp_def, hword]
  exact @flatten_chunks Byte 5 4 bytes

end Digest

/-! ## What a derivation feeds in and reads off -/

namespace Derivation

variable {w : Width}

def label : List Byte := "cbrng-derivation".toList.map fun c => BitVec.ofNat 8 c.toNat

theorem salt_eq_label : salt = label := by
  decide

/-- The limb that the leading bytes write. -/
def leading (bytes : List Byte) : Word w :=
  BitVec.ofNat w.bits (Bytes.bigEndian (bytes.take w.bytes))

theorem ofDigest_wordsOf (bytes : Vector Byte 20) :
    (Word.ofDigest (Digest.wordsOf bytes) : Word w) = leading bytes.toList := by
  calc
    (Word.ofDigest (Digest.wordsOf bytes) : Word w)
        = Word.ofBytesBE (Word.ofDigest (Digest.wordsOf bytes) : Word w).toBytesBE :=
          (Word.ofBytesBE_toBytesBE _).symm
    _ = Word.ofBytesBE (bytes.toList.take w.bytes) := by
          rw [Word.toBytesBE_ofDigest, Digest.flatMap_wordsOf]
    _ = leading bytes.toList := Word.ofBytesBE_eq_bigEndian _

theorem foldl_popcount (words : List Word32) (n : Nat) :
    words.foldl (fun n x => n + x.popcount) n =
      n + Bytes.setBits (words.flatMap Word.toBytesBE) := by
  induction words generalizing n with
  | nil =>
      rfl
  | cons x rest ih =>
      rw [List.foldl_cons, ih, List.flatMap_cons, Bytes.setBits_append, x.popcount_eq_setBits,
        Nat.add_assoc]

theorem draws_wordsOf (bytes : Vector Byte 20) :
    draws (Digest.wordsOf bytes) = Bytes.setBits bytes.toList := by
  rw [draws, ← Vector.foldl_toList, foldl_popcount, Nat.zero_add, Digest.flatMap_wordsOf]

/-- What the digest gives of the label, the key and the seed. -/
def hashed (D : Digest) (key seed : Word w) : Vector Byte 20 :=
  let keyed := D.absorb (D.absorb D.init label) key.bigEndianBytes
  D.finish (D.absorb keyed seed.bigEndianBytes)

theorem digest_eq_wordsOf (D : Digest) (seed key : Word w) :
    digest D seed key = Digest.wordsOf (hashed D key seed) := by
  rw [digest, Digest.words, Digest.absorbWord, Digest.absorbWord, salt_eq_label,
    key.toBytesBE_eq_bigEndianBytes, seed.toBytesBE_eq_bigEndianBytes]
  rfl

end Derivation
end CounterRng
