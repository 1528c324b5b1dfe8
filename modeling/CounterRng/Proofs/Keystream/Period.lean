import CounterRng.Proofs.Keystream.Operation
import CounterRng.Proofs.Keystream.Position
import CounterRng.Proofs.Threefry.Permutation

/-!
# Period — after how many words and blocks a keystream repeats itself

A keystream is back where it was after as many words as all blocks have together, and not before: every
word moves the position by one, and a position belongs to one counter and one cursor.  Read block by
block, it goes through the blocks at all counters before it comes to one of them again.  If the block
function is a permutation under the key, as Threefry is, these are all blocks, each of them once.

* `agree_advance_iff` — the words after which a keystream equals itself;
* `nthBlock_eq_eval` — the counter of a block that is drawn;
* `existsUnique_nthBlock` — where a block comes among as many successive ones as there are blocks;
* `exact_period` — both, for all keystreams and for the two shapes of Threefry.
-/

namespace CounterRng
namespace Keystream

variable {w : Width} {c k : Nat} {F : BlockFunction w c k}

/-! ## Words -/

/-- A keystream is back where it was exactly after the multiples of the period. -/
theorem agree_advance_iff {e : Keystream F} (h : Synced e) (n : Nat) :
    Agree (Generator.advance n e) e ↔ period w c ∣ n := by
  have hmod : e.position = e.position % period w c := (Nat.mod_eq_of_lt e.position_lt).symm
  rw [agree_iff_position_eq (h.advance n) h (key_advance n e), position_advance n h]
  constructor
  · intro hback
    have hsame : e.position + n ≡ e.position [MOD period w c] := hback.trans hmod
    exact Nat.add_modEq_left_iff.1 hsame
  · intro hdvd
    have hsame : e.position + n ≡ e.position [MOD period w c] := Nat.add_modEq_left_iff.2 hdvd
    exact hsame.trans hmod.symm

/-! ## Blocks -/

/-- The keystream after a number of whole blocks. -/
def advanceBlocks : (n : Nat) → Keystream F → Keystream F
  | 0, e => e
  | n + 1, e => advanceBlocks n e.generateBlock.2

/-- The block handed out after `i` whole blocks. -/
def nthBlock (e : Keystream F) (i : Nat) : Block w c := (advanceBlocks i e).generateBlock.1

theorem key_advanceBlocks (n : Nat) : ∀ e : Keystream F, (advanceBlocks n e).key = e.key := by
  induction n with
  | zero =>
      intro e
      rfl
  | succ n ih =>
      intro e
      exact ih e.generateBlock.2

theorem value_counter_advanceBlocks (n : Nat) :
    ∀ e : Keystream F,
      (advanceBlocks n e).counter.value = (e.counter.value + n) % 2 ^ (w.bits * c) := by
  induction n with
  | zero =>
      intro e
      exact (Nat.mod_eq_of_lt e.counter.value_lt).symm
  | succ n ih =>
      intro e
      calc
        (advanceBlocks n e.generateBlock.2).counter.value
            = (e.counter.increment.value + n) % 2 ^ (w.bits * c) := ih e.generateBlock.2
        _ = (e.counter.value + (n + 1)) % 2 ^ (w.bits * c) := by
              rw [Block.value_increment, Nat.mod_add_mod, Nat.add_assoc, Nat.add_comm 1]

/-- After `i` blocks comes the block `i + 1` counters further on. -/
theorem nthBlock_eq_eval (e : Keystream F) (i : Nat) :
    e.nthBlock i = F.eval e.key (Block.ofValue (e.counter.value + 1 + i)) := by
  have hcounter : (advanceBlocks i e).counter.increment =
      Block.ofValue (e.counter.value + 1 + i) := by
    apply Block.eq_of_value_eq
    rw [Block.value_increment, value_counter_advanceBlocks, Block.value_ofValue, Nat.mod_add_mod,
      Nat.add_right_comm]
  rw [nthBlock, generateBlock, hcounter, key_advanceBlocks]

theorem nthBlock_add_size (e : Keystream F) (i : Nat) :
    e.nthBlock (i + 2 ^ (w.bits * c)) = e.nthBlock i := by
  have hcounter : (Block.ofValue (e.counter.value + 1 + (i + 2 ^ (w.bits * c))) : Block w c) =
      Block.ofValue (e.counter.value + 1 + i) := by
    apply Block.ofValue_eq_of_mod_eq
    rw [← Nat.add_assoc, Nat.add_mod_right]
  rw [nthBlock_eq_eval, nthBlock_eq_eval, hcounter]

/-- Among `m` successive numbers exactly one has a given remainder modulo `m`. -/
theorem existsUnique_add_modEq {m : Nat} (hm : 0 < m) (x y : Nat) :
    ∃! i, i < m ∧ x + i ≡ y [MOD m] := by
  have hreached : x + (y + x * (m - 1)) % m ≡ y [MOD m] := by
    -- With `m - 1` times `x`, the sum has `m` times `x` above `y`.
    have hmultiple : x + (y + x * (m - 1)) = y + x * m := by
      obtain ⟨d, rfl⟩ := Nat.exists_eq_add_of_le' hm
      rw [Nat.add_sub_cancel, Nat.mul_succ]
      omega
    calc
      x + (y + x * (m - 1)) % m ≡ x + (y + x * (m - 1)) [MOD m] := (Nat.mod_modEq _ m).add_left x
      _ = y + x * m := hmultiple
      _ ≡ y [MOD m] := Nat.add_modEq_left_iff.2 (Nat.dvd_mul_left m x)
  refine ⟨(y + x * (m - 1)) % m, ⟨Nat.mod_lt _ hm, hreached⟩, ?_⟩
  rintro j ⟨hj, hsum⟩
  have hsame : j ≡ (y + x * (m - 1)) % m [MOD m] :=
    Nat.ModEq.add_left_cancel' x (hsum.trans hreached.symm)
  exact hsame.eq_of_lt_of_lt hj (Nat.mod_lt _ hm)

/-- If the block function permutes the blocks, then every block is one of any successive blocks as many
as there are, and only one. -/
theorem existsUnique_nthBlock {e : Keystream F} (hF : Function.Bijective (F.eval e.key))
    (start : Nat) (b : Block w c) : ∃! i, i < 2 ^ (w.bits * c) ∧ e.nthBlock (start + i) = b := by
  obtain ⟨counter, rfl⟩ := hF.2 b
  -- The block comes when the counter does, and that depends on its value only.
  have hcomes : ∀ i, e.nthBlock (start + i) = F.eval e.key counter ↔
      e.counter.value + 1 + start + i ≡ counter.value [MOD 2 ^ (w.bits * c)] := by
    intro i
    rw [nthBlock_eq_eval, hF.1.eq_iff, ← Nat.add_assoc]
    constructor
    · intro hcounter
      rw [← hcounter, Block.value_ofValue]
      exact (Nat.mod_modEq _ _).symm
    · intro hvalue
      rw [Block.ofValue_eq_of_mod_eq hvalue, Block.ofValue_value]
  simp only [hcomes]
  exact existsUnique_add_modEq (Nat.two_pow_pos _) _ _

/-! ## The exact period -/

/-- A reachable keystream equals itself exactly after the multiples of `c * 2 ^ (w.bits * c)` words.  A
Threefry keystream, for every number of rounds and every key and from whatever state, hands out every
block once among any `2 ^ (64 * c)` successive ones, and then the same again. -/
theorem exact_period :
    (∀ {w : Width} {c k : Nat} {F : BlockFunction w c k} {e : Keystream F}, Reachable e →
      ∀ n, (Generator.advance n e == e) = true ↔ c * 2 ^ (w.bits * c) ∣ n) ∧
    (∀ (rounds : Nat) (e : Keystream (threefry2x64 rounds)) (start : Nat),
      (∀ b, ∃! i, i < 2 ^ (64 * 2 : Nat) ∧ e.nthBlock (start + i) = b) ∧
        e.nthBlock (start + 2 ^ (64 * 2 : Nat)) = e.nthBlock start) ∧
    (∀ (rounds : Nat) (e : Keystream (threefry4x64 rounds)) (start : Nat),
      (∀ b, ∃! i, i < 2 ^ (64 * 4 : Nat) ∧ e.nthBlock (start + i) = b) ∧
        e.nthBlock (start + 2 ^ (64 * 4 : Nat)) = e.nthBlock start) := by
  refine ⟨?_, ?_, ?_⟩
  · intro w c k F e h n
    exact beq_iff_agree.trans (agree_advance_iff h.synced n)
  · intro rounds e start
    exact ⟨existsUnique_nthBlock (Threefry.encipher_bijective _ rounds e.key) start,
      nthBlock_add_size e start⟩
  · intro rounds e start
    exact ⟨existsUnique_nthBlock (Threefry.encipher_bijective _ rounds e.key) start,
      nthBlock_add_size e start⟩

/-- A keystream that has just gone past the greatest counter, within a block. -/
def pastWrap : Keystream (threefry2x64 13) :=
  ((ofWord 3).setCounter (Block.broadcast Word.greatest)).generate.2

theorem reachable_pastWrap : Reachable pastWrap :=
  .apply (.move .generate) (.apply (.move (.setCounter _)) (.start (.ofWord 3)))

/-- The words of all blocks bring it back; half as many do not. -/
theorem exact_period_past_wrap :
    Reachable pastWrap ∧
      (Generator.advance (2 * 2 ^ (64 * 2 : Nat)) pastWrap == pastWrap) = true ∧
      (Generator.advance (2 ^ (64 * 2 : Nat)) pastWrap == pastWrap) = false := by
  have hiff := exact_period.1 reachable_pastWrap
  refine ⟨reachable_pastWrap, (hiff _).2 (by decide), ?_⟩
  exact Bool.eq_false_iff.2 fun hback => absurd ((hiff _).1 hback) (by decide)

end Keystream
end CounterRng
