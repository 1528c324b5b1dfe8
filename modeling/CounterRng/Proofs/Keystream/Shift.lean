import Mathlib.Data.Nat.Factorization.Basic
import Mathlib.Data.Nat.Periodic
import Mathlib.Tactic.Ring
import CounterRng.Proofs.Keystream.Position
import CounterRng.Proofs.Threefry.Permutation
import CounterRng.Proofs.WordStream

/-!
# Shift — the words of a stream tell where it is read from

A stream that is read from two places gives the same words if it is the same after a shift.  A shift by
whole blocks would have blocks at different counters equal, which a block function that is one-to-one
rules out.  A shift that cuts through blocks says nothing about any single block.  But then the stream is
also the same after every multiple of that shift; and if a block has a power of two of limbs, so that the
period is a power of two as well, then one of these multiples is half a period, which is a number of whole
blocks.

* `period_dvd_of_periodic` — the shifts that leave a stream as it is;
* `agree_iff_wordAt_eq` — keystreams of one key with the same words to come are equal;
* `words_tell_position` — both, for the two shapes of Threefry.
-/

namespace CounterRng
namespace Keystream

open Generator Function

variable {w : Width} {c k : Nat} {F : BlockFunction w c k} {key : Block w k}

/-! ## Streams and their blocks -/

theorem streamWord_periodic (F : BlockFunction w c k) (key : Block w k) :
    Periodic (streamWord F key) (period w c) := by
  intro i
  have hdiv : (i + period w c) / c = i / c + 2 ^ (w.bits * c) := by
    rw [period, Nat.add_mul_div_left _ _ F.pos]
  have hmod : (i + period w c) % c = i % c := by
    rw [period, Nat.add_mul_mod_self_left]
  -- The counters differ by the number of all blocks.
  have hblock : streamBlock F key (i / c + 2 ^ (w.bits * c)) = streamBlock F key (i / c) := by
    have hcounter : (Block.ofValue (i / c + 2 ^ (w.bits * c) + 1) : Block w c) =
        Block.ofValue (i / c + 1) := by
      apply Block.ofValue_eq_of_mod_eq
      rw [Nat.add_right_comm, Nat.add_mod_right]
    rw [streamBlock, streamBlock, hcounter]
  simp only [streamWord, hdiv, hmod, hblock]

/-- Limb `r` of a block, found in the stream. -/
theorem streamWord_block (i : Nat) {r : Nat} (hr : r < c) :
    streamWord F key (c * i + (c - 1 - r)) = (streamBlock F key i)[r] := by
  have hlt : c - 1 - r < c := by omega
  have hdiv : (c * i + (c - 1 - r)) / c = i := by
    rw [Nat.mul_add_div F.pos, Nat.div_eq_of_lt hlt, Nat.add_zero]
  have hmod : c - 1 - (c * i + (c - 1 - r)) % c = r := by
    rw [Nat.mul_add_mod, Nat.mod_eq_of_lt hlt]
    omega
  simp only [streamWord, hdiv, hmod]
  rfl

/-! ## Shifts by whole blocks -/

theorem streamBlock_add_of_periodic {b : Nat} (h : Periodic (streamWord F key) (c * b)) (i : Nat) :
    streamBlock F key (i + b) = streamBlock F key i := by
  apply Vector.ext
  intro r hr
  calc
    (streamBlock F key (i + b))[r]
        = streamWord F key (c * (i + b) + (c - 1 - r)) := (streamWord_block (i + b) hr).symm
    _ = streamWord F key (c * i + (c - 1 - r) + c * b) := by rw [Nat.mul_add, Nat.add_right_comm]
    _ = streamWord F key (c * i + (c - 1 - r)) := h _
    _ = (streamBlock F key i)[r] := streamWord_block i hr

/-- If no block comes from two counters, then only all blocks together can be skipped unnoticed. -/
theorem dvd_of_periodic_mul (hF : Injective (F.eval key)) {b : Nat}
    (h : Periodic (streamWord F key) (c * b)) : 2 ^ (w.bits * c) ∣ b := by
  have hcounter : (Block.ofValue (0 + b + 1) : Block w c) = Block.ofValue (0 + 1) :=
    hF (streamBlock_add_of_periodic h 0)
  have hvalue : b + 1 ≡ 0 + 1 [MOD 2 ^ (w.bits * c)] := by
    have heq := congrArg Block.value hcounter
    rwa [Block.value_ofValue, Block.value_ofValue, Nat.zero_add] at heq
  exact Nat.modEq_zero_iff_dvd.1 (Nat.ModEq.add_right_cancel' 1 hvalue)

/-! ## Shifts by any number of words -/

/-- A number that `2 ^ (n + 1)` does not divide has a multiple that is `2 ^ n` modulo it. -/
theorem exists_mul_eq_half {n s : Nat} (h : ¬ 2 ^ (n + 1) ∣ s) :
    ∃ m q, m * s = 2 ^ n + q * 2 ^ (n + 1) := by
  have hs : s ≠ 0 := by
    rintro rfl
    exact h (Nat.dvd_zero _)
  -- The multiple makes up for the factors of two that `s` lacks; its odd factor gives the rest.
  obtain ⟨j, odd, ⟨q, rfl⟩, rfl⟩ := Nat.exists_eq_two_pow_mul_odd hs
  have hj : j ≤ n := by
    by_contra hlt
    exact h (Nat.dvd_trans (Nat.pow_dvd_pow 2 (by omega)) (Nat.dvd_mul_right _ _))
  refine ⟨2 ^ (n - j), q, ?_⟩
  calc
    2 ^ (n - j) * (2 ^ j * (2 * q + 1)) = 2 ^ (n - j) * 2 ^ j * (2 * q + 1) := by
      rw [Nat.mul_assoc]
    _ = 2 ^ n * (2 * q + 1) := by rw [← Nat.pow_add, Nat.sub_add_cancel hj]
    _ = 2 ^ n + q * 2 ^ (n + 1) := by rw [Nat.pow_succ]; ring

/-- Only multiples of the period leave a stream of blocks with `2 ^ l` limbs as it is. -/
theorem period_dvd_of_periodic {l s : Nat} (hc : c = 2 ^ l) (hF : Injective (F.eval key))
    (h : Periodic (streamWord F key) s) : period w c ∣ s := by
  obtain ⟨b, hb⟩ : ∃ b, w.bits * c = b + 1 :=
    Nat.exists_eq_add_of_le' (Nat.mul_pos w.bits_pos F.pos)
  have hperiod : period w c = 2 ^ (l + b + 1) := by
    rw [period, hb, hc, ← Nat.pow_add, Nat.add_assoc]
  have hhalved : c * 2 ^ b = 2 ^ (l + b) := by
    rw [hc, ← Nat.pow_add]
  by_contra hndvd
  rw [hperiod] at hndvd
  obtain ⟨m, q, hmultiple⟩ := exists_mul_eq_half hndvd
  -- Some multiple of the shift is half a period, up to whole periods.
  have hhalf : Periodic (streamWord F key) (c * 2 ^ b) := by
    intro i
    calc
      streamWord F key (i + c * 2 ^ b)
          = streamWord F key (i + c * 2 ^ b + q * period w c) :=
            ((streamWord_periodic F key).nat_mul q _).symm
      _ = streamWord F key (i + m * s) := by
            rw [hmultiple, hperiod, hhalved, Nat.add_assoc]
      _ = streamWord F key i := h.nat_mul m i
  -- Half a period is half of all blocks, which cannot be skipped unnoticed.
  have hdvd : 2 ^ (b + 1) ∣ 2 ^ b := hb ▸ dvd_of_periodic_mul hF hhalf
  have hle := Nat.le_of_dvd (Nat.two_pow_pos b) hdvd
  exact absurd hle (Nat.not_le.2 (Nat.pow_lt_pow_right Nat.one_lt_two (Nat.lt_succ_self b)))

/-! ## The words to come -/

theorem wordAt_eq_streamWord {e : Keystream F} (h : Synced e) (i : Nat) :
    wordAt e i = streamWord F e.key (e.position + i) := by
  calc
    wordAt e i = streamWord F (advance i e).key (advance i e).position :=
      generate_fst_eq_streamWord (h.advance i)
    _ = streamWord F e.key ((e.position + i) % period w c) := by
      rw [key_advance, position_advance i h]
    _ = streamWord F e.key (e.position + i) := (streamWord_periodic F e.key).map_mod_nat _

/-- Two keystreams of one key that have the same words to come stand at the same place. -/
theorem agree_iff_wordAt_eq {a b : Keystream F} {l : Nat} (hc : c = 2 ^ l)
    (hF : Injective (F.eval a.key)) (ha : Synced a) (hb : Synced b) (hkey : a.key = b.key) :
    (∀ i, wordAt a i = wordAt b i) ↔ Agree a b := by
  have hpa := a.position_lt
  have hpb := b.position_lt
  constructor
  · intro hwords
    -- From the start of the stream, the words are the same after going on to `a` and round to `b`.
    have hshift : Periodic (streamWord F a.key) (b.position + (period w c - a.position)) := by
      intro i
      have hword := hwords (i + (period w c - a.position))
      rw [wordAt_eq_streamWord ha, wordAt_eq_streamWord hb, ← hkey] at hword
      calc
        streamWord F a.key (i + (b.position + (period w c - a.position)))
            = streamWord F a.key (b.position + (i + (period w c - a.position))) := by
              rw [Nat.add_left_comm]
        _ = streamWord F a.key (a.position + (i + (period w c - a.position))) := hword.symm
        _ = streamWord F a.key (i + period w c) := by
              congr 1
              omega
        _ = streamWord F a.key i := streamWord_periodic F a.key i
    obtain ⟨q, hq⟩ := period_dvd_of_periodic hc hF hshift
    -- Both positions are below the period, so that the shift is one period.
    have hone : q = 1 := by
      have hupper : period w c * q < period w c * 2 := by omega
      have hlower : period w c * 0 < period w c * q := by omega
      have hlt := Nat.lt_of_mul_lt_mul_left hupper
      have hpos := Nat.lt_of_mul_lt_mul_left hlower
      omega
    rw [hone, Nat.mul_one] at hq
    exact agree_of_position_eq ha hb hkey (by omega)
  · intro hagree i
    rw [wordAt_eq_streamWord ha, wordAt_eq_streamWord hb, hkey, position_eq_of_agree hagree]

/-- The stream of a key is the same after a shift exactly by a multiple of the period. -/
theorem wordAt_add_iff {l : Nat} (hc : c = 2 ^ l) (hF : Injective (F.eval key)) (s : Nat) :
    (∀ i, wordAt (ofKey key : Keystream F) (i + s) = wordAt (ofKey key : Keystream F) i) ↔
      period w c ∣ s := by
  have hword : ∀ i, wordAt (ofKey key : Keystream F) i = streamWord F key i := by
    intro i
    rw [wordAt_eq_streamWord (synced_ofKey key), position_ofKey, Nat.zero_add]
    rfl
  simp only [hword]
  constructor
  · exact period_dvd_of_periodic hc hF
  · rintro ⟨q, rfl⟩
    rw [Nat.mul_comm]
    exact (streamWord_periodic F key).nat_mul q

/-! ## Threefry -/

/-- Reachable Threefry keystreams of one key, of either shape and for every number of rounds, have the
same words to come exactly if they are equal; and the stream of a key is the same after a shift exactly by
a multiple of the number of words in all blocks. -/
theorem words_tell_position (rounds : Nat) :
    (∀ {a b : Keystream (threefry2x64 rounds)}, Reachable a → Reachable b → a.key = b.key →
      ((∀ i, wordAt a i = wordAt b i) ↔ (a == b) = true)) ∧
    (∀ {a b : Keystream (threefry4x64 rounds)}, Reachable a → Reachable b → a.key = b.key →
      ((∀ i, wordAt a i = wordAt b i) ↔ (a == b) = true)) ∧
    (∀ (key : Block .w64 2) (s : Nat),
      (∀ i, wordAt (ofKey key : Keystream (threefry2x64 rounds)) (i + s) =
        wordAt (ofKey key : Keystream (threefry2x64 rounds)) i) ↔ 2 * 2 ^ (64 * 2 : Nat) ∣ s) ∧
    (∀ (key : Block .w64 4) (s : Nat),
      (∀ i, wordAt (ofKey key : Keystream (threefry4x64 rounds)) (i + s) =
        wordAt (ofKey key : Keystream (threefry4x64 rounds)) i) ↔ 4 * 2 ^ (64 * 4 : Nat) ∣ s) := by
  have h2 : ∀ key, Injective ((threefry2x64 rounds).eval key) :=
    fun key => (Threefry.encipher_bijective _ rounds key).1
  have h4 : ∀ key, Injective ((threefry4x64 rounds).eval key) :=
    fun key => (Threefry.encipher_bijective _ rounds key).1
  have hl2 : 2 = 2 ^ (1 : Nat) := rfl
  have hl4 : 4 = 2 ^ (2 : Nat) := rfl
  refine ⟨?_, ?_, ?_, ?_⟩
  · intro a b ha hb hkey
    exact (agree_iff_wordAt_eq hl2 (h2 a.key) ha.synced hb.synced hkey).trans beq_iff_agree.symm
  · intro a b ha hb hkey
    exact (agree_iff_wordAt_eq hl4 (h4 a.key) ha.synced hb.synced hkey).trans beq_iff_agree.symm
  · intro key s
    exact wordAt_add_iff hl2 (h2 key) s
  · intro key s
    exact wordAt_add_iff hl4 (h4 key) s

/-- A keystream before its first word, and the same after that word, half a block further on. -/
def atStart : Keystream (threefry2x64 20) := ofWord 5

def halfBlockOn : Keystream (threefry2x64 20) := atStart.generate.2

/-- Two ways past the first block. -/
def blockSkipped : Keystream (threefry4x64 13) := (ofWord 7).setCounter #v[1, 0, 0, 0]

def blockRead : Keystream (threefry4x64 13) := (ofWord 7).generateBlock.2

theorem reachable_atStart : Reachable atStart :=
  .start (.ofWord 5)

theorem reachable_halfBlockOn : Reachable halfBlockOn :=
  .apply (.move .generate) reachable_atStart

theorem reachable_blockSkipped : Reachable blockSkipped :=
  .apply (.move (.setCounter _)) (.start (.ofWord 7))

theorem reachable_blockRead : Reachable blockRead :=
  .apply (.move .generateBlock) (.start (.ofWord 7))

/-- Half a block on, some word to come is different; past the same block, none is. -/
theorem words_tell_position_half_block_on :
    Reachable atStart ∧ Reachable halfBlockOn ∧ atStart.key = halfBlockOn.key ∧
      Reachable blockSkipped ∧ Reachable blockRead ∧ blockSkipped.key = blockRead.key ∧
      (¬ ∀ i, wordAt atStart i = wordAt halfBlockOn i) ∧
      ∀ i, wordAt blockSkipped i = wordAt blockRead i := by
  have hkey : atStart.key = halfBlockOn.key := (key_generate atStart).symm
  have hkey' : blockSkipped.key = blockRead.key := by decide +kernel
  refine ⟨reachable_atStart, reachable_halfBlockOn, hkey, reachable_blockSkipped,
    reachable_blockRead, hkey', ?_, ?_⟩
  · intro hwords
    have hequal := ((words_tell_position 20).1 reachable_atStart reachable_halfBlockOn hkey).1 hwords
    exact absurd hequal (by decide +kernel)
  · have hequal : (blockSkipped == blockRead) = true := by decide +kernel
    exact ((words_tell_position 13).2.1 reachable_blockSkipped reachable_blockRead hkey').2 hequal

end Keystream
end CounterRng
