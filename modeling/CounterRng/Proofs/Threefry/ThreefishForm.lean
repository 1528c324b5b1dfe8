import CounterRng.Threefish
import CounterRng.Threefry

/-!
# ThreefishForm — on four limbs Threefry is Threefish with fewer rounds and no tweak

The two ciphers bring the limbs together in different ways.  Threefish mixes the same two pairs in
every round and then permutes the limbs; Threefry leaves the limbs in their places and alternates
between two ways to pair them.  They also disagree on when a subkey is added: Threefish adds it before
every fourth round, Threefry at the start and after every fourth.

The permutation undoes itself, so that in every second round the two have the limbs in the same order,
and a subkey that is due before a round may as well be added after the round before.  With both taken
into account, one round of the one is one round of the other:

* `addSubkey_eq_zipWith` — the key schedules agree;
* `mixAll_of_even`, `mixAll_of_odd` — the mixes of a round, by the parity of its number;
* `round_inPhase` — one round;
* `threefry4x64_eq_threefish` — any number of rounds.
-/

namespace CounterRng

theorem Threefry.encipher_succ {n : Nat} (wiring : Wiring n) (rounds : Nat) (key x : Block .w64 n) :
    encipher wiring (rounds + 1) key x =
      round wiring (extendedKey key) (encipher wiring rounds key x) rounds := by
  simp only [encipher, List.range_succ, List.foldl_append, List.foldl_cons, List.foldl_nil]

namespace Threefish

/-- The limbs in the order in which Threefry has them before round `d`. -/
def inPhase (d : Nat) (x : Block .w64 4) : Block .w64 4 := if d % 2 = 0 then x else exchange x

theorem eq_limbs (x : Block .w64 4) : x = #v[x.get 0, x.get 1, x.get 2, x.get 3] := by
  apply Vector.ext
  intro i hi
  match i with
  | 0 => rfl
  | 1 => rfl
  | 2 => rfl
  | 3 => rfl

/-! ## The key schedule -/

theorem keyLimb_mod (key : Block .w64 4) (i : Nat) : keyLimb key (i % 5) = keyLimb key i := by
  simp only [keyLimb, Nat.mod_mod]

theorem get_extendedKey (key : Block .w64 4) (j : Fin 5) :
    (Threefry.extendedKey key).get j = keyLimb key j.val := by
  rw [eq_limbs key]
  match j with
  | 0 => rfl
  | 1 => rfl
  | 2 => rfl
  | 3 => rfl
  | 4 => rfl

theorem limb_extendedKey (key : Block .w64 4) (pos : 0 < 5) (i : Nat) :
    Block.limb (Threefry.extendedKey key) pos i = keyLimb key i :=
  (get_extendedKey key _).trans (keyLimb_mod key i)

/-- Threefry adds the subkeys of Threefish. -/
theorem addSubkey_eq_zipWith (key x : Block .w64 4) (s : Nat) :
    Threefry.addSubkey (Threefry.extendedKey key) s x = x.zipWith (· + ·) (subkey key s) := by
  apply Vector.ext
  intro i hi
  rw [Threefry.addSubkey, Vector.getElem_ofFn, Vector.getElem_zipWith, Threefry.subkeyLimb,
    limb_extendedKey]
  match i with
  | 0 => exact congrArg _ (BitVec.add_zero _)
  | 1 => exact congrArg _ (BitVec.add_zero _)
  | 2 => exact congrArg _ (BitVec.add_zero _)
  | 3 => rfl

/-! ## Mixes -/

theorem get_rotations4 (d : Nat) : Threefry.rotations4.get (Fin.ofNat 8 d) = rotations d := by
  have hrow : ∀ j : Fin 8, Threefry.rotations4.get j = rotations j.val := by decide
  have hmod : rotations (d % 8) = rotations d := by simp only [rotations, Nat.mod_mod]
  exact (hrow _).trans hmod

/-- In a round of even number Threefry mixes the pairs of Threefish, and omits the permutation. -/
theorem mixAll_of_even {d : Nat} (h : d % 2 = 0) (key x : Block .w64 4) :
    Threefry.mixAll (Threefry.wiring4 d) (addDue key d x) = exchange (round key x d) := by
  rw [Threefry.wiring4, get_rotations4, if_pos h, round, exchange_exchange]
  rw [eq_limbs (addDue key d x)]
  rfl

/-- In a round of odd number the limbs that the permutation would have put into their places are
paired where they are. -/
theorem mixAll_of_odd {d : Nat} (h : ¬ d % 2 = 0) (key x : Block .w64 4) :
    Threefry.mixAll (Threefry.wiring4 d) (exchange (addDue key d x)) = round key x d := by
  rw [Threefry.wiring4, get_rotations4, if_neg h, round]
  rw [eq_limbs (addDue key d x)]
  rfl

/-- Whatever the parity, the mixes of a Threefry round leave the limbs in phase for the next round. -/
theorem mixAll_inPhase (key x : Block .w64 4) (d : Nat) :
    Threefry.mixAll (Threefry.wiring4 d) (inPhase d (addDue key d x)) =
      inPhase (d + 1) (round key x d) := by
  by_cases h : d % 2 = 0
  · have hnext : ¬ (d + 1) % 2 = 0 := by omega
    rw [inPhase, if_pos h, inPhase, if_neg hnext]
    exact mixAll_of_even h key x
  · have hnext : (d + 1) % 2 = 0 := by omega
    rw [inPhase, if_neg h, inPhase, if_pos hnext]
    exact mixAll_of_odd h key x

/-! ## Rounds -/

/-- One round: the subkey that Threefish adds before the next round is what Threefry adds after this
one. -/
theorem round_inPhase (key x : Block .w64 4) (d : Nat) :
    Threefry.round Threefry.wiring4 (Threefry.extendedKey key) (inPhase d (addDue key d x)) d =
      inPhase (d + 1) (addDue key (d + 1) (round key x d)) := by
  rw [Threefry.round, mixAll_inPhase]
  by_cases hdue : d % 4 = 3
  · -- A subkey is due, and after an odd round both have the limbs in one order.
    have hnext : (d + 1) % 4 = 0 := by omega
    have heven : (d + 1) % 2 = 0 := by omega
    rw [if_pos hdue, addSubkey_eq_zipWith, inPhase, if_pos heven, inPhase, if_pos heven, addDue,
      if_pos hnext]
  · have hnext : ¬ (d + 1) % 4 = 0 := by omega
    rw [if_neg hdue, addDue, if_neg hnext]

theorem encipher_eq_inPhase (rounds : Nat) (key x : Block .w64 4) :
    Threefry.encipher Threefry.wiring4 rounds key x = inPhase rounds (encipher rounds key x) := by
  induction rounds with
  | zero =>
      -- Both start with the subkey of number zero.
      exact addSubkey_eq_zipWith key x 0
  | succ d ih =>
      rw [Threefry.encipher_succ, ih, encipher, round_inPhase, encipher, List.range_succ,
        List.foldl_append]
      rfl

end Threefish

/-- For every number of rounds, key and counter, Threefry on four limbs gives the block of Threefish,
with the second and the fourth limb exchanged if the number of rounds is odd. -/
theorem threefry4x64_eq_threefish (rounds : Nat) (key counter : Block .w64 4) :
    (threefry4x64 rounds).eval key counter =
      if rounds % 2 = 0 then Threefish.encipher rounds key counter
      else Threefish.exchange (Threefish.encipher rounds key counter) :=
  Threefish.encipher_eq_inPhase rounds key counter

end CounterRng
