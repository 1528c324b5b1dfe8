import CounterRng.Threefry

/-!
# Decipher — Threefry backwards

Every step of Threefry can be undone, so that a block determines the counter it was enciphered from.
This file defines the inverse of each step, for every wiring and number of rounds, and proves it
two-sided:

* `Mix.undo_apply` and `Mix.apply_undo`, for one mix;
* `decipher_encipher` and `encipher_decipher`, for the whole.
-/

namespace CounterRng
namespace Threefry

variable {n : Nat}

/-! ## Rotations -/

theorem rotateRight_rotateLeft (x : Word64) (r : Nat) : (x.rotateLeft r).rotateRight r = x := by
  apply BitVec.eq_of_getLsbD_eq
  intro i (hi : i < 64)
  have hr : r % 64 < 64 := Nat.mod_lt r (by decide)
  simp only [BitVec.getLsbD_rotateRight, BitVec.getLsbD_rotateLeft]
  by_cases h : i < 64 - r % 64
  · -- The bit moved up without passing the top.
    have h₁ : ¬ r % 64 + i < r % 64 := by omega
    have h₂ : r % 64 + i < 64 := by omega
    simp [h, h₁, h₂]
  · -- The bit went round to the bottom.
    have h₁ : i - (64 - r % 64) < r % 64 := by omega
    have h₂ : 64 - r % 64 + (i - (64 - r % 64)) = i := by omega
    simp [h, h₁, h₂, hi]

theorem rotateLeft_rotateRight (x : Word64) (r : Nat) : (x.rotateRight r).rotateLeft r = x := by
  apply BitVec.eq_of_getLsbD_eq
  intro i (hi : i < 64)
  have hr : r % 64 < 64 := Nat.mod_lt r (by decide)
  simp only [BitVec.getLsbD_rotateRight, BitVec.getLsbD_rotateLeft]
  by_cases h : i < r % 64
  · -- The bit went round to the top.
    have h₁ : ¬ 64 - r % 64 + i < 64 - r % 64 := by omega
    have h₂ : 64 - r % 64 + i < 64 := by omega
    simp [h, h₁, h₂]
  · -- The bit moved down without passing the bottom.
    have h₁ : i - r % 64 < 64 - r % 64 := by omega
    have h₂ : r % 64 + (i - r % 64) = i := by omega
    simp [h, h₁, h₂, hi]

/-! ## Mixes -/

namespace Mix

def undo (m : Mix n) (y : Block .w64 n) : Block .w64 n :=
  let right := (y.get m.right ^^^ y.get m.left).rotateRight m.rotation
  m.put y (y.get m.left - right) right

variable (m : Mix n) (x : Block .w64 n)

theorem left_ne_right : m.left.val ≠ m.right.val :=
  fun h => m.distinct (Fin.ext h)

theorem put_left (left right : Word64) : (m.put x left right).get m.left = left :=
  calc
    (m.put x left right).get m.left = (x.set m.left left m.left_lt).get m.left :=
      Vector.getElem_set_ne _ m.left_lt m.left_ne_right.symm
    _ = left := Vector.getElem_set_self m.left_lt

theorem put_right (left right : Word64) : (m.put x left right).get m.right = right :=
  Vector.getElem_set_self m.right_lt

/-- Two replacements of the limbs that meet restore a block if they restore these limbs. -/
theorem put_put_eq {left right left' right' : Word64}
    (hleft : (m.put (m.put x left right) left' right').get m.left = x.get m.left)
    (hright : (m.put (m.put x left right) left' right').get m.right = x.get m.right) :
    m.put (m.put x left right) left' right' = x := by
  apply Vector.ext
  intro i hi
  by_cases hr : m.right.val = i
  · subst hr
    exact hright
  · by_cases hl : m.left.val = i
    · subst hl
      exact hleft
    · -- Every other limb was left alone both times.
      simp only [put, Vector.getElem_set_ne _ hi hl, Vector.getElem_set_ne _ hi hr]

theorem apply_left : (m.apply x).get m.left = x.get m.left + x.get m.right :=
  m.put_left x _ _

theorem apply_right :
    (m.apply x).get m.right =
      (x.get m.right).rotateLeft m.rotation ^^^ (x.get m.left + x.get m.right) :=
  m.put_right x _ _

theorem undo_left :
    (m.undo x).get m.left =
      x.get m.left - (x.get m.right ^^^ x.get m.left).rotateRight m.rotation :=
  m.put_left x _ _

theorem undo_right :
    (m.undo x).get m.right = (x.get m.right ^^^ x.get m.left).rotateRight m.rotation :=
  m.put_right x _ _

theorem undo_apply : m.undo (m.apply x) = x := by
  -- The sum is still there to be combined out of the right limb, which then comes off the sum.
  have hright : (m.undo (m.apply x)).get m.right = x.get m.right := by
    rw [undo_right, apply_left, apply_right, BitVec.xor_assoc, BitVec.xor_self, BitVec.xor_zero,
      rotateRight_rotateLeft]
  have hleft : (m.undo (m.apply x)).get m.left = x.get m.left := by
    rw [undo_left, ← undo_right, hright, apply_left, BitVec.add_sub_cancel]
  exact m.put_put_eq x hleft hright

theorem apply_undo : m.apply (m.undo x) = x := by
  have hleft : (m.apply (m.undo x)).get m.left = x.get m.left := by
    rw [apply_left, undo_left, undo_right, BitVec.sub_add_cancel]
  have hright : (m.apply (m.undo x)).get m.right = x.get m.right := by
    rw [apply_right, ← apply_left, hleft, undo_right, rotateLeft_rotateRight, BitVec.xor_assoc,
      BitVec.xor_self, BitVec.xor_zero]
  exact m.put_put_eq x hleft hright

end Mix

/-! ## Rounds -/

def unmixAll (mixes : List (Mix n)) (y : Block .w64 n) : Block .w64 n :=
  mixes.foldr (fun m y => m.undo y) y

def subSubkey (keys : Block .w64 (n + 1)) (s : Nat) (y : Block .w64 n) : Block .w64 n :=
  Vector.ofFn fun i => y.get i - subkeyLimb keys s i

def unround (wiring : Wiring n) (keys : Block .w64 (n + 1)) (d : Nat) (y : Block .w64 n) :
    Block .w64 n :=
  unmixAll (wiring d) (if d % 4 = 3 then subSubkey keys ((d + 1) / 4) y else y)

/-- The block that is enciphered to `y` under a key in the given number of rounds. -/
def decipher (wiring : Wiring n) (rounds : Nat) (key y : Block .w64 n) : Block .w64 n :=
  let keys := extendedKey key
  subSubkey keys 0 ((List.range rounds).foldr (unround wiring keys) y)

theorem unmixAll_mixAll (mixes : List (Mix n)) (x : Block .w64 n) :
    unmixAll mixes (mixAll mixes x) = x := by
  induction mixes generalizing x with
  | nil =>
      rfl
  | cons m rest ih =>
      calc
        m.undo (unmixAll rest (mixAll rest (m.apply x))) = m.undo (m.apply x) := by rw [ih]
        _ = x := m.undo_apply x

theorem mixAll_unmixAll (mixes : List (Mix n)) (y : Block .w64 n) :
    mixAll mixes (unmixAll mixes y) = y := by
  induction mixes generalizing y with
  | nil =>
      rfl
  | cons m rest ih =>
      calc
        mixAll rest (m.apply (m.undo (unmixAll rest y))) = mixAll rest (unmixAll rest y) := by
          rw [m.apply_undo]
        _ = y := ih y

variable (wiring : Wiring n) (keys : Block .w64 (n + 1))

theorem get_addSubkey (s : Nat) (x : Block .w64 n) (i : Fin n) :
    (addSubkey keys s x).get i = x.get i + subkeyLimb keys s i :=
  Vector.getElem_ofFn i.isLt

theorem get_subSubkey (s : Nat) (y : Block .w64 n) (i : Fin n) :
    (subSubkey keys s y).get i = y.get i - subkeyLimb keys s i :=
  Vector.getElem_ofFn i.isLt

theorem subSubkey_addSubkey (s : Nat) (x : Block .w64 n) :
    subSubkey keys s (addSubkey keys s x) = x := by
  apply Vector.ext
  intro i hi
  rw [subSubkey, Vector.getElem_ofFn, get_addSubkey]
  exact BitVec.add_sub_cancel _ _

theorem addSubkey_subSubkey (s : Nat) (y : Block .w64 n) :
    addSubkey keys s (subSubkey keys s y) = y := by
  apply Vector.ext
  intro i hi
  rw [addSubkey, Vector.getElem_ofFn, get_subSubkey]
  exact BitVec.sub_add_cancel _ _

theorem unround_round (d : Nat) (x : Block .w64 n) :
    unround wiring keys d (round wiring keys x d) = x := by
  unfold unround round
  by_cases h : d % 4 = 3
  · simp only [h, if_true, subSubkey_addSubkey, unmixAll_mixAll]
  · simp only [h, if_false, unmixAll_mixAll]

theorem round_unround (d : Nat) (y : Block .w64 n) :
    round wiring keys (unround wiring keys d y) d = y := by
  unfold unround round
  by_cases h : d % 4 = 3
  · simp only [h, if_true, mixAll_unmixAll, addSubkey_subSubkey]
  · simp only [h, if_false, mixAll_unmixAll]

theorem unrounds_rounds (ds : List Nat) (x : Block .w64 n) :
    ds.foldr (unround wiring keys) (ds.foldl (round wiring keys) x) = x := by
  induction ds generalizing x with
  | nil =>
      rfl
  | cons d rest ih =>
      rw [List.foldr_cons, List.foldl_cons, ih, unround_round]

theorem rounds_unrounds (ds : List Nat) (y : Block .w64 n) :
    ds.foldl (round wiring keys) (ds.foldr (unround wiring keys) y) = y := by
  induction ds generalizing y with
  | nil =>
      rfl
  | cons d rest ih =>
      rw [List.foldr_cons, List.foldl_cons, round_unround, ih]

/-! ## The whole -/

theorem decipher_encipher (rounds : Nat) (key x : Block .w64 n) :
    decipher wiring rounds key (encipher wiring rounds key x) = x := by
  dsimp only [decipher, encipher]
  rw [unrounds_rounds, subSubkey_addSubkey]

theorem encipher_decipher (rounds : Nat) (key y : Block .w64 n) :
    encipher wiring rounds key (decipher wiring rounds key y) = y := by
  dsimp only [decipher, encipher]
  rw [addSubkey_subSubkey, rounds_unrounds]

end Threefry
end CounterRng
