import CounterRng.Limbs

/-!
# Block — fixed-length arrays of limbs

Counters, keys and output blocks are all blocks: vectors of limbs whose length is part of the type.
As a number a block is read least significant limb first.

This file defines the number view, counting, and the three ways in which a block is laid out anew:
`broadcast`, `rotateLeft` and `cycle`.
-/

namespace CounterRng

abbrev Block (w : Width) (n : Nat) := Vector (Word w) n

namespace Block

variable {w : Width} {n : Nat}

/-! ## A block as a number -/

def value (b : Block w n) : Nat := Limbs.value b.toList

def ofValue (x : Nat) : Block w n :=
  ⟨(Limbs.ofValue n x).toArray, by simp [Limbs.length_ofValue]⟩

def increment (b : Block w n) : Block w n :=
  ⟨(Limbs.increment b.toList).toArray, by simp [Limbs.length_increment]⟩

def add (b : Block w n) (amount : Distance) : Block w n :=
  ⟨(Limbs.add b.toList amount).toArray, by simp [Limbs.length_add]⟩

theorem add_zero (b : Block w n) : b.add 0 = b := by
  apply Vector.toList_inj.mp
  exact Limbs.add_zero b.toList

/-! ## Layout -/

def broadcast (x : Word w) : Block w n := Vector.replicate n x

/-- The limb at an index taken modulo the length. -/
def limb (b : Block w n) (pos : 0 < n) (i : Nat) : Word w := b.get ⟨i % n, Nat.mod_lt i pos⟩

/-- Moves every limb `r` places towards the front, those in front to the end. -/
def rotateLeft (b : Block w n) (r : Nat) : Block w n :=
  Vector.ofFn fun i => b.limb i.pos (i + r)

/-- The limbs of a block over and over, cut to a length. -/
def cycle (b : Block w n) (pos : 0 < n) {len : Nat} : Block w len :=
  Vector.ofFn fun i => b.limb pos i

theorem get_cycle (b : Block w n) (pos : 0 < n) {len : Nat} (i : Fin len) :
    (b.cycle pos : Block w len).get i = b.limb pos i :=
  Vector.getElem_ofFn i.isLt

theorem cycle_self (b : Block w n) (pos : 0 < n) : b.cycle pos = b := by
  apply Vector.ext
  intro i hi
  rw [cycle, Vector.getElem_ofFn, limb]
  simp only [Nat.mod_eq_of_lt hi]
  rfl

theorem get_rotateLeft (b : Block w n) (r : Nat) (i : Fin n) :
    (b.rotateLeft r).get i = b.limb i.pos (i + r) :=
  Vector.getElem_ofFn i.isLt

theorem rotateLeft_broadcast (x : Word w) (r : Nat) :
    (broadcast x : Block w n).rotateLeft r = broadcast x := by
  apply Vector.ext
  intro i hi
  rw [rotateLeft, Vector.getElem_ofFn, limb, broadcast, Vector.getElem_replicate]
  exact Vector.getElem_replicate _

theorem eq_of_rotateLeft_eq {a b : Block w n} {r : Nat} (h : a.rotateLeft r = b.rotateLeft r) :
    a = b := by
  apply Vector.ext
  intro i hi
  have hpos : 0 < n := Nat.zero_lt_of_lt hi
  -- The place that limb `i` was moved to, from where it is read back.
  have hplace : ((i + (n - r % n)) % n + r) % n = i := by
    have hr : r % n < n := Nat.mod_lt r hpos
    rw [Nat.mod_add_mod, ← Nat.add_mod_mod, Nat.add_assoc, Nat.sub_add_cancel (Nat.le_of_lt hr),
      Nat.add_mod_right, Nat.mod_eq_of_lt hi]
  have hlimb : ∀ x : Block w n,
      (x.rotateLeft r).get ⟨(i + (n - r % n)) % n, Nat.mod_lt _ hpos⟩ = x.get ⟨i, hi⟩ := by
    intro x
    rw [get_rotateLeft, limb]
    simp only [hplace]
  calc
    a.get ⟨i, hi⟩ = (a.rotateLeft r).get ⟨(i + (n - r % n)) % n, Nat.mod_lt _ hpos⟩ := (hlimb a).symm
    _ = b.get ⟨i, hi⟩ := by rw [h, hlimb b]

end Block
end CounterRng
