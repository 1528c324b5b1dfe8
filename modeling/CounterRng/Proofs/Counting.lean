import Mathlib.Data.Nat.ModEq
import CounterRng.Block

/-!
# Counting — the additions on limbs are additions of numbers

Both additions on limbs hand a carry from one limb to the next, and drop what passes the last.  Read
as numbers they are addition modulo the number of values that so many limbs can have.

This file proves:

* `Limbs.toNat_carryOut` — the carry of the bulk addition, which is told from a sum below its
  summand, is the quotient that long addition calls for, and never overflows;
* `Limbs.value_increment` and `Limbs.value_add`, by induction over the limbs;
* the same for blocks, that a block is determined by its value (`Block.eq_of_value_eq`), and that
  counting goes through the blocks in one round (`Block.increment_injective`,
  `Block.increment_surjective`).
-/

namespace CounterRng

/-! ## Lists of limbs -/

namespace Limbs

variable {w : Width}

/-- One step of long addition: the low digit of the sum stays, the quotient goes to the rest. -/
theorem long_addition (base : Nat) (hbase : 0 < base) (digit rest amount len : Nat) :
    (digit + base * rest + amount) % base ^ (len + 1) =
      (digit + amount) % base + base * ((rest + (digit + amount) / base) % base ^ len) := by
  have hswap : digit + base * rest + amount = digit + amount + base * rest := by omega
  rw [hswap, Nat.pow_succ, Nat.mul_comm (base ^ len), Nat.mod_mul, Nat.add_mul_mod_self_left,
    Nat.add_mul_div_left _ _ hbase, Nat.add_comm rest]

theorem value_replicate_zero (len : Nat) : value (List.replicate len (0 : Word w)) = 0 := by
  induction len with
  | zero =>
      rfl
  | succ len ih =>
      rw [List.replicate_succ, value, ih]
      rfl

theorem toNat_add_one (x : Word w) : (x + 1).toNat = (x.toNat + 1) % 2 ^ w.bits := by
  cases w <;> exact BitVec.toNat_add x 1

theorem add_one_eq_zero_iff (x : Word w) : x + 1 = 0 ↔ x.toNat + 1 = 2 ^ w.bits := by
  have hx : x.toNat + 1 ≤ 2 ^ w.bits := x.isLt
  constructor
  · intro hzero
    have hmod : (x.toNat + 1) % 2 ^ w.bits = 0 := by
      rw [← toNat_add_one, hzero]
      exact BitVec.toNat_zero
    exact Nat.le_antisymm hx (Nat.le_of_dvd (Nat.succ_pos _) (Nat.dvd_of_mod_eq_zero hmod))
  · intro hfull
    apply BitVec.eq_of_toNat_eq
    rw [toNat_add_one, hfull, Nat.mod_self]
    exact BitVec.toNat_zero.symm

theorem value_increment (limbs : List (Word w)) :
    value (increment limbs) = (value limbs + 1) % (2 ^ w.bits) ^ limbs.length := by
  induction limbs with
  | nil =>
      simp [increment, value]
  | cons x rest ih =>
      have hx : x.toNat + 1 ≤ 2 ^ w.bits := x.isLt
      rw [increment, List.length_cons, value, long_addition _ (Nat.two_pow_pos _)]
      by_cases hcarry : x + 1 = 0
      · -- The limb was full: it turns to zero and the carry goes on.
        have hfull : x.toNat + 1 = 2 ^ w.bits := (add_one_eq_zero_iff x).1 hcarry
        rw [if_pos hcarry, value, ih, hfull, Nat.mod_self, Nat.div_self (Nat.two_pow_pos _)]
        rfl
      · -- There was room: the limb takes the one in, and the rest stays.
        have hroom : x.toNat + 1 < 2 ^ w.bits :=
          Nat.lt_of_le_of_ne hx fun hfull => hcarry ((add_one_eq_zero_iff x).2 hfull)
        rw [if_neg hcarry, value, toNat_add_one, Nat.div_eq_of_lt hroom,
          Nat.add_zero (value rest), Nat.mod_eq_of_lt (value_lt rest)]

/-- The sum of a limb and the low bits of an amount is below the limb exactly if it wrapped. -/
theorem add_truncate_lt_iff (x : Word w) (amount : Distance) :
    x + Word.truncate amount < x ↔ 2 ^ w.bits ≤ x.toNat + amount.toNat % 2 ^ w.bits := by
  have hx : x.toNat < 2 ^ w.bits := x.isLt
  have hlow : amount.toNat % 2 ^ w.bits < 2 ^ w.bits := Nat.mod_lt _ (Nat.two_pow_pos _)
  have hsum : (x + Word.truncate amount).toNat =
      (x.toNat + amount.toNat % 2 ^ w.bits) % 2 ^ w.bits := by
    rw [BitVec.toNat_add, Word.truncate, BitVec.toNat_setWidth]
  rw [BitVec.lt_def, hsum]
  rcases Nat.lt_or_ge (x.toNat + amount.toNat % 2 ^ w.bits) (2 ^ w.bits) with hroom | hwrap
  · -- The sum stands as it is, at or above the limb.
    rw [Nat.mod_eq_of_lt hroom]
    omega
  · -- The sum lost `2 ^ w.bits`, which is more than was added.
    rw [Nat.mod_eq_sub_mod hwrap, Nat.mod_eq_of_lt (by omega)]
    omega

theorem add_div_eq (base : Nat) (hbase : 0 < base) (digit amount : Nat) :
    (digit + amount) / base = amount / base + (digit + amount % base) / base := by
  have hsplit : digit + amount = base * (amount / base) + (digit + amount % base) := by
    have hamount := Nat.div_add_mod amount base
    omega
  rw [hsplit, Nat.mul_add_div hbase]

/-- The bits of an amount above the first limb leave room for a carry. -/
theorem high_bits_succ_lt (w : Width) (amount : Distance) :
    amount.toNat / 2 ^ w.bits + 1 < 2 ^ (128 : Nat) := by
  have hhigh : amount.toNat / 2 ^ w.bits ≤ amount.toNat / 2 :=
    Nat.div_le_div_left (by cases w <;> decide) (by decide)
  have hamount := amount.isLt
  omega

/-- What is left for the higher limbs is the quotient of the sum, although the carry is told only
from the sum being below its summand; the remaining amount never overflows. -/
theorem toNat_carryOut (x : Word w) (amount : Distance) :
    (carryOut x amount).toNat = (x.toNat + amount.toNat) / 2 ^ w.bits := by
  have hx : x.toNat < 2 ^ w.bits := x.isLt
  have hlow : amount.toNat % 2 ^ w.bits < 2 ^ w.bits := Nat.mod_lt _ (Nat.two_pow_pos _)
  have hbound := high_bits_succ_lt w amount
  rw [carryOut, BitVec.toNat_add, BitVec.toNat_ushiftRight, Nat.shiftRight_eq_div_pow,
    add_div_eq _ (Nat.two_pow_pos _)]
  by_cases hcarry : x + Word.truncate amount < x
  · -- The low digits carry one, and less than two.
    have hwrap := (add_truncate_lt_iff x amount).1 hcarry
    have hone : (x.toNat + amount.toNat % 2 ^ w.bits) / 2 ^ w.bits = 1 :=
      Nat.div_eq_of_lt_le (by omega) (by omega)
    rw [if_pos hcarry, hone]
    exact Nat.mod_eq_of_lt hbound
  · have hroom : x.toNat + amount.toNat % 2 ^ w.bits < 2 ^ w.bits :=
      Nat.lt_of_not_le fun hwrap => hcarry ((add_truncate_lt_iff x amount).2 hwrap)
    rw [if_neg hcarry, Nat.div_eq_of_lt hroom]
    exact Nat.mod_eq_of_lt (Nat.lt_of_succ_lt hbound)

theorem value_add (limbs : List (Word w)) (amount : Distance) :
    value (add limbs amount) = (value limbs + amount.toNat) % (2 ^ w.bits) ^ limbs.length := by
  induction limbs generalizing amount with
  | nil =>
      simp [add, value, Nat.mod_one]
  | cons x rest ih =>
      unfold add
      by_cases hdone : amount = 0
      · -- Nothing is left to add: the remaining limbs stay as they are.
        rw [if_pos hdone, hdone]
        exact (Nat.mod_eq_of_lt (value_lt (x :: rest))).symm
      · -- The low digit of the sum stays, and the induction hypothesis adds the quotient.
        rw [if_neg hdone, value, ih, toNat_carryOut, List.length_cons, value,
          long_addition _ (Nat.two_pow_pos _), BitVec.toNat_add, Word.truncate,
          BitVec.toNat_setWidth, Nat.add_mod_mod]

/-- As many limbs that write the same number are the same limbs. -/
theorem eq_of_value_eq {a b : List (Word w)} (hlength : a.length = b.length)
    (hvalue : value a = value b) : a = b := by
  calc
    a = ofValue a.length (value a) := (ofValue_value a).symm
    _ = ofValue b.length (value b) := by rw [hlength, hvalue]
    _ = b := ofValue_value b

end Limbs

/-! ## Blocks -/

namespace Block

variable {w : Width} {n : Nat}

theorem value_lt (b : Block w n) : b.value < 2 ^ (w.bits * n) := by
  have h := Limbs.value_lt b.toList
  rwa [Vector.length_toList, ← Nat.pow_mul] at h

theorem value_ofValue (x : Nat) : (ofValue x : Block w n).value = x % 2 ^ (w.bits * n) := by
  rw [Nat.pow_mul]
  exact Limbs.value_ofValue n x

theorem value_increment (b : Block w n) : b.increment.value = (b.value + 1) % 2 ^ (w.bits * n) := by
  have h := Limbs.value_increment b.toList
  rwa [Vector.length_toList, ← Nat.pow_mul] at h

theorem value_add (b : Block w n) (amount : Distance) :
    (b.add amount).value = (b.value + amount.toNat) % 2 ^ (w.bits * n) := by
  have h := Limbs.value_add b.toList amount
  rwa [Vector.length_toList, ← Nat.pow_mul] at h

theorem value_broadcast_zero : (broadcast 0 : Block w n).value = 0 := by
  rw [value, broadcast, Vector.toList_replicate]
  exact Limbs.value_replicate_zero n

theorem eq_of_value_eq {a b : Block w n} (h : a.value = b.value) : a = b := by
  apply Vector.toList_inj.mp
  apply Limbs.eq_of_value_eq
  · rw [Vector.length_toList, Vector.length_toList]
  · exact h

theorem ofValue_eq_of_mod_eq {x y : Nat} (h : x % 2 ^ (w.bits * n) = y % 2 ^ (w.bits * n)) :
    (ofValue x : Block w n) = ofValue y := by
  apply eq_of_value_eq
  rw [value_ofValue, value_ofValue, h]

theorem ofValue_value (b : Block w n) : ofValue b.value = b := by
  apply eq_of_value_eq
  rw [value_ofValue, Nat.mod_eq_of_lt b.value_lt]

theorem increment_injective : Function.Injective (increment : Block w n → Block w n) := by
  intro a b h
  have hvalue : a.value + 1 ≡ b.value + 1 [MOD 2 ^ (w.bits * n)] := by
    have hsame : a.increment.value = b.increment.value := congrArg value h
    rwa [value_increment, value_increment] at hsame
  apply eq_of_value_eq
  exact (Nat.ModEq.add_right_cancel' 1 hvalue).eq_of_lt_of_lt a.value_lt b.value_lt

/-- Every block comes next after some block, the least one after the greatest. -/
theorem increment_surjective : Function.Surjective (increment : Block w n → Block w n) := by
  intro b
  have hsize : 0 < 2 ^ (w.bits * n) := Nat.two_pow_pos _
  refine ⟨ofValue (b.value + (2 ^ (w.bits * n) - 1)), eq_of_value_eq ?_⟩
  rw [value_increment, value_ofValue, Nat.mod_add_mod, Nat.add_assoc, Nat.sub_add_cancel hsize,
    Nat.add_mod_right, Nat.mod_eq_of_lt b.value_lt]

end Block
end CounterRng
