import Mathlib.Logic.Function.Iterate
import CounterRng.Limbs.Checked
import CounterRng.Proofs.Counting

/-!
# BulkAddition — an amount added at once, and counted up

The bulk addition and counting up one by one are both additions of numbers, modulo the number of values
that so many limbs can have (`Limbs.value_add`, `Limbs.value_increment`).  As neither changes the number of
limbs, they leave the same limbs.

This file proves:

* `Limbs.value_iterate_increment` — any number of increments, by induction on how many;
* `Checked.carryOut_eq` and `Checked.add_eq` — the remaining amount overflows in no step, and hence the
  addition that tests for this never stops;
* `Limbs.add_counts_up` — all of this for one addition.
-/

namespace CounterRng

variable {w : Width}

/-! ## Counting up -/

namespace Limbs

theorem length_iterate_increment (limbs : List (Word w)) (count : Nat) :
    (increment^[count] limbs).length = limbs.length := by
  induction count with
  | zero =>
      rfl
  | succ count ih =>
      rw [Function.iterate_succ_apply', length_increment, ih]

theorem value_iterate_increment (limbs : List (Word w)) (count : Nat) :
    value (increment^[count] limbs) = (value limbs + count) % (2 ^ w.bits) ^ limbs.length := by
  induction count with
  | zero =>
      exact (Nat.mod_eq_of_lt (value_lt limbs)).symm
  | succ count ih =>
      -- The last increment goes on from the value that the others have left.
      rw [Function.iterate_succ_apply', value_increment, length_iterate_increment, ih,
        Nat.mod_add_mod, Nat.add_assoc]

theorem add_eq_iterate_increment (limbs : List (Word w)) (amount : Distance) :
    add limbs amount = increment^[amount.toNat] limbs := by
  apply eq_of_value_eq
  · rw [length_add, length_iterate_increment]
  · rw [value_add, value_iterate_increment]

end Limbs

/-! ## No overflow -/

namespace Checked

theorem carryOut_eq (x : Word w) (amount : Distance) :
    Checked.carryOut x amount = .ok (Limbs.carryOut x amount) := by
  have hhigh : (amount >>> w.bits).toNat + 1 < 2 ^ (128 : Nat) := by
    rw [BitVec.toNat_ushiftRight, Nat.shiftRight_eq_div_pow]
    exact Limbs.high_bits_succ_lt w amount
  have hroom : (amount >>> w.bits).toNat + (if x + Word.truncate amount < x then 1 else 0) ≤
      2 ^ (128 : Nat) - 1 := by
    split <;> omega
  -- Read as a `Distance`, the sum is the one that wraps.
  have hsum : BitVec.ofNat 128 ((amount >>> w.bits).toNat +
      (if x + Word.truncate amount < x then 1 else 0)) = Limbs.carryOut x amount := by
    rw [BitVec.ofNat_add, BitVec.ofNat_toNat, BitVec.setWidth_eq, Limbs.carryOut]
    split <;> rfl
  simp only [Checked.carryOut, sum_eq hroom, ok_bind, hsum]
  rfl

theorem add_eq (limbs : List (Word w)) (amount : Distance) :
    Checked.add limbs amount = .ok (Limbs.add limbs amount) := by
  induction limbs generalizing amount with
  | nil =>
      rfl
  | cons x rest ih =>
      by_cases hdone : amount = 0
      · simp only [Checked.add, Limbs.add, if_pos hdone]
        rfl
      · simp only [Checked.add, Limbs.add, if_neg hdone, carryOut_eq, ih, ok_bind]
        rfl

end Checked

namespace Limbs

/-- Adding an amount at once leaves the limbs that so many increments leave: as many limbs as there were,
which write the sum modulo the number of values they can have.  On the way what remains to be added is never
too large to be counted. -/
theorem add_counts_up (limbs : List (Word w)) (amount : Distance) :
    add limbs amount = increment^[amount.toNat] limbs ∧
      (add limbs amount).length = limbs.length ∧
      value (add limbs amount) = (value limbs + amount.toNat) % 2 ^ (w.bits * limbs.length) ∧
      Checked.add limbs amount = .ok (add limbs amount) := by
  refine ⟨add_eq_iterate_increment limbs amount, length_add limbs amount, ?_,
    Checked.add_eq limbs amount⟩
  rw [value_add, Nat.pow_mul]

/-- A carry out of the first limb goes to the second with the high bits of the amount. -/
example : Checked.add [Word.greatest, 1, 0] (3 * 2 ^ 64 + 2) = .ok [(1 : Word64), 5, 0] := by
  decide +kernel

end Limbs
end CounterRng
