import CounterRng.Keystream.Seeding
import CounterRng.Threefry
import CounterRng.Proofs.Codec

/-!
# Seeding — which key a seed source or seed bytes give

A key is read from the parts that a source fills a blank destination with, if the source reports as many
as the key has.  Whether it does is all that is asked of a source: what it reports beyond that, and what
it fills in, are taken as they are.  So a source that falls short is refused with the two numbers, and a
keystream that was to be seeded from it is left as it was.

* `ofSource_of_lt` and `ofSource_of_le`, `reseedFrom_of_lt` and `reseedFrom_of_le` — the two cases;
* `value_ofSource_eq_error_iff`, `value_reseedFrom_eq_error_iff` — the errors, and when they come;
* `ofSource_toParts_append`, `ofSource_of_leading_parts` — the parts of a key, more of them, and fewer;
* `ofSource_parts` — seed bytes and the parts that they make up give the same keystream;
* `key_material_decodes` — all of it, for keystreams of every shape.
-/

namespace CounterRng

/-- What a source makes of a destination of zeros, and how much of it the source says it did. -/
def SeedSource.fillBlank (source : SeedSource) (n : Nat) : Vector Word32 n × Nat :=
  source.fill (Vector.replicate n 0)

/-- As many words as there is room for are copied. -/
theorem SeedSource.fillBlank_ofWords (words : List Word32) (n : Nat) :
    ((ofWords words).fillBlank n).2 = min words.length n ∧
      ∀ i : Fin n, ((ofWords words).fillBlank n).1.get i = words[i.val]?.getD 0 := by
  refine ⟨rfl, ?_⟩
  intro i
  have hget : ((ofWords words).fillBlank n).1.get i =
      words[i.val]?.getD ((Vector.replicate n (0 : Word32)).get i) := Vector.getElem_ofFn i.isLt
  rw [hget]
  congr 1
  exact Vector.getElem_replicate i.isLt

namespace Keystream

variable {w : Width} {c k : Nat} {F : BlockFunction w c k}

section AnySource

variable {source : SeedSource} {cause : SeedError}

/-! ## Sources that fall short, and sources that suffice -/

theorem ofSource_of_lt (h : (source.fillBlank (k * w.parts)).2 < k * w.parts) :
    (ofSource source : Logged (Except SeedError (Keystream F))) =
      ⟨.error (.short (k * w.parts) (source.fillBlank (k * w.parts)).2),
        [.shortSeed (source.fillBlank (k * w.parts)).2 (k * w.parts)]⟩ :=
  if_pos h

theorem ofSource_of_le (h : k * w.parts ≤ (source.fillBlank (k * w.parts)).2) :
    (ofSource source : Logged (Except SeedError (Keystream F))) =
      ⟨.ok (ofKey (Block.ofParts (source.fillBlank (k * w.parts)).1)), []⟩ :=
  if_neg (Nat.not_lt.2 h)

/-- A source that falls short leaves all of the keystream as it was. -/
theorem reseedFrom_of_lt (h : (source.fillBlank (k * w.parts)).2 < k * w.parts) (e : Keystream F) :
    e.reseedFrom source =
      ⟨(.error (.short (k * w.parts) (source.fillBlank (k * w.parts)).2), e),
        [.shortSeed (source.fillBlank (k * w.parts)).2 (k * w.parts)]⟩ := by
  rw [reseedFrom, ofSource_of_lt h]
  rfl

theorem reseedFrom_of_le (h : k * w.parts ≤ (source.fillBlank (k * w.parts)).2) (e : Keystream F) :
    e.reseedFrom source =
      ⟨(.ok (), ofKey (Block.ofParts (source.fillBlank (k * w.parts)).1)), []⟩ := by
  rw [reseedFrom, ofSource_of_le h]
  rfl

theorem value_ofSource_eq_error_iff :
    (ofSource source : Logged (Except SeedError (Keystream F))).value = .error cause ↔
      (source.fillBlank (k * w.parts)).2 < k * w.parts ∧
        cause = .short (k * w.parts) (source.fillBlank (k * w.parts)).2 := by
  rcases Nat.lt_or_ge (source.fillBlank (k * w.parts)).2 (k * w.parts) with hshort | henough
  · rw [ofSource_of_lt hshort, Except.error.injEq]
    exact ⟨fun h => ⟨hshort, h.symm⟩, fun h => h.2.symm⟩
  · rw [ofSource_of_le henough]
    exact ⟨fun h => (nomatch h), fun h => absurd h.1 (Nat.not_lt.2 henough)⟩

theorem value_reseedFrom_eq_error_iff (e : Keystream F) :
    (e.reseedFrom source).value.1 = .error cause ↔
      (source.fillBlank (k * w.parts)).2 < k * w.parts ∧
        cause = .short (k * w.parts) (source.fillBlank (k * w.parts)).2 := by
  rw [← value_ofSource_eq_error_iff (F := F), reseedFrom, Logged.map]
  -- The answer is an error exactly if there is none but an error to go on with.
  cases (ofSource source : Logged (Except SeedError (Keystream F))).value with
  | error cause' =>
      rw [Except.error.injEq, Except.error.injEq]
  | ok fresh =>
      exact ⟨nofun, nofun⟩

end AnySource

/-! ## Lists of words -/

/-- The parts of a key give that key, whatever comes after them. -/
theorem ofSource_toParts_append (key : Block w k) (extra : List Word32) :
    (ofSource (.ofWords (key.toParts ++ extra)) : Logged (Except SeedError (Keystream F))) =
      ⟨.ok (ofKey key), []⟩ := by
  obtain ⟨hproduced, hget⟩ := SeedSource.fillBlank_ofWords (key.toParts ++ extra) (k * w.parts)
  have henough : k * w.parts ≤
      ((SeedSource.ofWords (key.toParts ++ extra)).fillBlank (k * w.parts)).2 := by
    rw [hproduced, List.length_append, key.length_toParts]
    exact Nat.le_min.2 ⟨Nat.le_add_right _ _, Nat.le_refl _⟩
  have hparts : ((SeedSource.ofWords (key.toParts ++ extra)).fillBlank (k * w.parts)).1 =
      ⟨key.toParts.toArray, key.length_toParts⟩ := by
    apply Vector.ext
    intro i hi
    have hlt : i < key.toParts.length := key.length_toParts.symm ▸ hi
    calc
      ((SeedSource.ofWords (key.toParts ++ extra)).fillBlank (k * w.parts)).1.get ⟨i, hi⟩
          = (key.toParts ++ extra)[i]?.getD 0 := hget ⟨i, hi⟩
      _ = key.toParts[i] := by rw [List.getElem?_append_left hlt, List.getElem?_eq_getElem hlt]; rfl
  rw [ofSource_of_le henough, hparts, Block.ofParts_toParts]

/-- Too few words are refused with their number. -/
theorem ofSource_of_length_lt {words : List Word32} (h : words.length < k * w.parts) :
    (ofSource (.ofWords words) : Logged (Except SeedError (Keystream F))) =
      ⟨.error (.short (k * w.parts) words.length), [.shortSeed words.length (k * w.parts)]⟩ := by
  have hproduced : ((SeedSource.ofWords words).fillBlank (k * w.parts)).2 = words.length :=
    (SeedSource.fillBlank_ofWords words _).1.trans (Nat.min_eq_left (Nat.le_of_lt h))
  have hshort := ofSource_of_lt (F := F) (hproduced.symm ▸ h)
  rwa [hproduced] at hshort

theorem ofSource_of_leading_parts {key : Block w k} {words : List Word32}
    (hbegin : words <+: key.toParts) (hproper : words ≠ key.toParts) :
    (ofSource (.ofWords words) : Logged (Except SeedError (Keystream F))) =
      ⟨.error (.short (k * w.parts) words.length), [.shortSeed words.length (k * w.parts)]⟩ := by
  apply ofSource_of_length_lt
  rw [← key.length_toParts]
  exact Nat.lt_of_le_of_ne hbegin.length_le fun hlength => hproper (hbegin.eq_of_length hlength)

/-! ## Bytes -/

/-- It makes no difference whether seed bytes are read as they are or as the parts that they make up. -/
theorem ofSource_parts (bytes : Vector Byte (k * w.bytes)) :
    (ofSource (.ofWords (Bytes.parts bytes.toList)) : Logged (Except SeedError (Keystream F))) =
      ⟨.ok (ofBytes bytes), []⟩ := by
  have hparts : Bytes.parts bytes.toList = (Block.ofBytes bytes : Block w k).toParts ++ [] := by
    rw [← Block.toBytes_ofBytes (w := w), Block.parts_toBytes, List.append_nil]
  rw [hparts, ofSource_toParts_append]
  rfl

theorem ofBytes_toBytes (key : Block w k) :
    (ofBytes ⟨key.toBytes.toArray, key.length_toBytes⟩ : Keystream F) = ofKey key := by
  rw [ofBytes, Block.ofBytes_toBytes]

/-! ## Keys of every shape -/

/-- A key of `k` limbs takes `k * w.bits / 32` parts.  A source is refused exactly if it reports fewer,
with both numbers, and then a keystream that was to be seeded from it stays as it was; otherwise limb `i`
of the key has part `i * w.parts + j` in the bits from `32 * j` on, and the keystream starts afresh.  The
parts of a key, with anything after them, give that key, and fewer of them are refused with their number.
Seed bytes give what the parts give that they make up, and the bytes of a key give that key. -/
theorem key_material_decodes (F : BlockFunction w c k) :
    k * w.parts = k * w.bits / 32 ∧
    (∀ (source : SeedSource) (e : Keystream F),
      let filled := source.fillBlank (k * w.parts)
      (∀ cause, (ofSource source : Logged (Except SeedError (Keystream F))).value = .error cause ↔
        filled.2 < k * w.parts ∧ cause = .short (k * w.parts) filled.2) ∧
      (∀ cause, (e.reseedFrom source).value.1 = .error cause ↔
        filled.2 < k * w.parts ∧ cause = .short (k * w.parts) filled.2) ∧
      (filled.2 < k * w.parts → (e.reseedFrom source).value.2 = e) ∧
      (k * w.parts ≤ filled.2 → ∃ key : Block w k,
        (ofSource source : Logged (Except SeedError (Keystream F))).value = .ok (ofKey key) ∧
          (e.reseedFrom source).value = (.ok (), ofKey key) ∧
          ∀ (i : Fin k) (j : Fin w.parts),
            (key.get i).extractLsb' (32 * j) 32 =
              filled.1.get ⟨i * w.parts + j, chunk_index_lt i j⟩)) ∧
    (∀ (key : Block w k) (extra : List Word32),
      (ofSource (.ofWords (key.toParts ++ extra)) : Logged (Except SeedError (Keystream F))).value =
        .ok (ofKey key)) ∧
    (∀ (key : Block w k) (words : List Word32), words <+: key.toParts → words ≠ key.toParts →
      (ofSource (.ofWords words) : Logged (Except SeedError (Keystream F))).value =
        .error (.short (k * w.parts) words.length)) ∧
    (∀ bytes : Vector Byte (k * w.bytes),
      (ofSource (.ofWords (Bytes.parts bytes.toList)) :
        Logged (Except SeedError (Keystream F))).value = .ok (ofBytes bytes)) ∧
    ∀ key : Block w k,
      (ofBytes ⟨key.toBytes.toArray, key.length_toBytes⟩ : Keystream F) = ofKey key := by
  have hrequired : k * w.parts = k * w.bits / 32 := by
    rw [w.bits_eq_parts, Nat.mul_left_comm, Nat.mul_div_cancel_left _ (by decide)]
  refine ⟨hrequired, ?_, ?_, ?_, ?_, ofBytes_toBytes⟩
  · intro source e filled
    refine ⟨fun _ => value_ofSource_eq_error_iff, fun _ => value_reseedFrom_eq_error_iff e, ?_, ?_⟩
    · intro hshort
      rw [reseedFrom_of_lt hshort]
    · intro henough
      refine ⟨Block.ofParts filled.1, ?_, ?_, Block.extractLsb'_ofParts filled.1⟩
      · rw [ofSource_of_le henough]
      · rw [reseedFrom_of_le henough]
  · intro key extra
    rw [ofSource_toParts_append]
  · intro key words hbegin hproper
    rw [ofSource_of_leading_parts hbegin hproper]
  · intro bytes
    rw [ofSource_parts]

/-- A keystream within a block, with a key of eight parts. -/
def withinBlock : Keystream (threefry4x64 20) := (ofWord 3).generate.2

/-- Seven words are refused, and leave it within the block; of nine, eight make up its key.  For a wider
key the parts of one limb are too few. -/
theorem key_material_decodes_eight_parts :
    (ofSource (.ofWords [1, 2, 3, 4, 5, 6, 7]) :
        Logged (Except SeedError (Keystream (threefry4x64 20)))).value = .error (.short 8 7) ∧
      (withinBlock.reseedFrom (.ofWords [1, 2, 3, 4, 5, 6, 7])).value.2 = withinBlock ∧
      (∃ key, (withinBlock.reseedFrom (.ofWords [1, 2, 3, 4, 5, 6, 7, 8, 9])).value =
          (.ok (), ofKey key) ∧ (key.get 3).extractLsb' 32 32 = 8) ∧
      (ofSource (.ofWords [7, 0]) :
        Logged (Except SeedError (Keystream (threefry2x64 13)))).value = .error (.short 4 2) := by
  obtain ⟨-, hsources, -, -, -⟩ := key_material_decodes (threefry4x64 20)
  obtain ⟨herror, -, hkept, -⟩ := hsources (.ofWords [1, 2, 3, 4, 5, 6, 7]) withinBlock
  obtain ⟨-, -, -, hseeded⟩ := hsources (.ofWords [1, 2, 3, 4, 5, 6, 7, 8, 9]) withinBlock
  obtain ⟨key, -, hvalue, hparts⟩ := hseeded (by decide)
  obtain ⟨-, -, -, hshort, -⟩ := key_material_decodes (threefry2x64 13)
  refine ⟨(herror _).2 (by decide), hkept (by decide), ⟨key, hvalue, hparts 3 1⟩, ?_⟩
  exact hshort (Block.broadcast 7) [7, 0] (by decide) (by decide)

end Keystream
end CounterRng
