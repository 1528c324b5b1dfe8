import CounterRng.Word

/-!
# Limbs — numbers written as lists of words

A list of limbs writes a number in base `2 ^ w.bits`, the least significant limb first.

This file defines:

* `Limbs.value` and `Limbs.ofValue`, reading and writing numbers;
* `Limbs.increment`, which adds one and stops at the first limb without carry;
* `Limbs.add`, which adds a `Distance` in one pass, each carry told from a sum below its summand.

Both additions drop what passes the most significant limb.
-/

namespace CounterRng
namespace Limbs

variable {w : Width}

/-! ## Reading and writing numbers -/

def value : List (Word w) → Nat
  | [] => 0
  | x :: rest => x.toNat + 2 ^ w.bits * value rest

/-- The `len` least significant limbs of a number. -/
def ofValue : (len : Nat) → Nat → List (Word w)
  | 0, _ => []
  | len + 1, n => BitVec.ofNat w.bits n :: ofValue len (n / 2 ^ w.bits)

theorem length_ofValue (len n : Nat) : (ofValue len n : List (Word w)).length = len := by
  induction len generalizing n with
  | zero => rfl
  | succ len ih => simp [ofValue, ih]

theorem value_lt (limbs : List (Word w)) : value limbs < (2 ^ w.bits) ^ limbs.length := by
  induction limbs with
  | nil => simp [value]
  | cons x rest ih =>
      have hx : x.toNat < 2 ^ w.bits := x.isLt
      -- The low limb stays below the base, and the induction hypothesis bounds the rest.
      calc
        value (x :: rest) < 2 ^ w.bits + 2 ^ w.bits * value rest := Nat.add_lt_add_right hx _
        _ = 2 ^ w.bits * (value rest + 1) := by rw [Nat.mul_add, Nat.mul_one, Nat.add_comm]
        _ ≤ 2 ^ w.bits * (2 ^ w.bits) ^ rest.length := Nat.mul_le_mul_left _ ih
        _ = (2 ^ w.bits) ^ (x :: rest).length := by
            rw [List.length_cons, Nat.pow_succ, Nat.mul_comm]

theorem ofValue_value (limbs : List (Word w)) : ofValue limbs.length (value limbs) = limbs := by
  induction limbs with
  | nil => rfl
  | cons x rest ih =>
      have hdiv : value (x :: rest) / 2 ^ w.bits = value rest := by
        rw [value, Nat.add_mul_div_left _ _ (Nat.two_pow_pos _), Nat.div_eq_of_lt x.isLt,
          Nat.zero_add]
      have hlow : BitVec.ofNat w.bits (value (x :: rest)) = x := by
        apply BitVec.eq_of_toNat_eq
        rw [BitVec.toNat_ofNat, value, Nat.add_mul_mod_self_left, Nat.mod_eq_of_lt x.isLt]
      rw [List.length_cons, ofValue, hdiv, ih, hlow]

theorem value_ofValue (len n : Nat) :
    value (ofValue len n : List (Word w)) = n % (2 ^ w.bits) ^ len := by
  induction len generalizing n with
  | zero => simp [ofValue, value, Nat.mod_one]
  | succ len ih =>
      rw [ofValue, value, ih, BitVec.toNat_ofNat, Nat.pow_succ,
        Nat.mul_comm ((2 ^ w.bits) ^ len), Nat.mod_mul]

/-! ## Counting -/

/-- Adds one, modulo the size of the list. -/
def increment : List (Word w) → List (Word w)
  | [] => []
  | x :: rest => if x + 1 = 0 then 0 :: increment rest else (x + 1) :: rest

/-- What remains to be added to the higher limbs once the low bits of `amount` went into `x`. -/
def carryOut (x : Word w) (amount : Distance) : Distance :=
  (amount >>> w.bits) + if x + Word.truncate amount < x then 1 else 0

/-- Adds an amount, modulo the size of the list. -/
def add : List (Word w) → Distance → List (Word w)
  | [], _ => []
  | x :: rest, amount =>
      if amount = 0 then x :: rest
      else (x + Word.truncate amount) :: add rest (carryOut x amount)

theorem length_increment (limbs : List (Word w)) : (increment limbs).length = limbs.length := by
  induction limbs with
  | nil => rfl
  | cons x rest ih =>
      unfold increment
      split <;> simp [ih]

theorem length_add (limbs : List (Word w)) (amount : Distance) :
    (add limbs amount).length = limbs.length := by
  induction limbs generalizing amount with
  | nil => rfl
  | cons x rest ih =>
      unfold add
      split <;> simp [ih]

theorem add_zero (limbs : List (Word w)) : add limbs 0 = limbs := by
  cases limbs <;> simp [add]

end Limbs
end CounterRng
