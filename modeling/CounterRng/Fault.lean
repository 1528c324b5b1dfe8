import CounterRng.Block

/-!
# Fault — steps that test what they rely on

Counts are taken from one another and divided, limbs are read and written by their indices, blocks are
rotated, and limbs are assembled from lists.  Each of these makes sense under a condition only.  Here each
comes as a step that tests its condition, and that stops with a `Fault` where it does not hold.

A sum makes sense always, but may come out larger than what is to hold it.  A computation that this can
happen to stops with a `Trap`, which is a fault or an overflow.

Each step has an equation for the case that its condition holds, by which computations are followed that do
not stop.
-/

namespace CounterRng

inductive Fault where
  | negative (count taken : Nat)
  | zeroDivisor
  | outOfBlock (index length : Nat)
  | overRotation (places length : Nat)
  | missingPart (cause : Word.MissingPart)
  deriving DecidableEq, Repr

inductive Trap where
  | fault (cause : Fault)
  | overflow (sum limit : Nat)
  deriving DecidableEq, Repr

instance : MonadLift (Except Fault) (Except Trap) := ⟨Except.mapError .fault⟩

namespace Checked

variable {w : Width} {n : Nat}

/-! ## Steps -/

def subtract (count taken : Nat) : Except Fault Nat :=
  if taken ≤ count then .ok (count - taken) else .error (.negative count taken)

/-- Quotient and remainder. -/
def divide (count divisor : Nat) : Except Fault (Nat × Nat) :=
  if divisor = 0 then .error .zeroDivisor else .ok (count / divisor, count % divisor)

def limb (b : Block w n) (i : Nat) : Except Fault (Word w) :=
  if h : i < n then .ok (b.get ⟨i, h⟩) else .error (.outOfBlock i n)

def setLimb (b : Block w n) (i : Nat) (x : Word w) : Except Fault (Block w n) :=
  if h : i < n then .ok (b.set i x h) else .error (.outOfBlock i n)

def rotateLeft (b : Block w n) (r : Nat) : Except Fault (Block w n) :=
  if r ≤ n then .ok (b.rotateLeft r) else .error (.overRotation r n)

def ofPartList (parts : List Word32) : Except Fault (Word w) :=
  (Word.ofPartList parts).mapError .missingPart

/-- A sum that is to be held where `limit` is the largest count. -/
def sum (limit a b : Nat) : Except Trap Nat :=
  if a + b ≤ limit then .ok (a + b) else .error (.overflow (a + b) limit)

/-! ## Steps whose condition holds -/

theorem ok_bind {ε α β : Type} (x : α) (f : α → Except ε β) : (Except.ok x >>= f) = f x :=
  rfl

theorem exists_of_bind_eq_ok {ε α β : Type} {x : Except ε α} {f : α → Except ε β} {y : β}
    (h : (x >>= f) = .ok y) : ∃ a, x = .ok a ∧ f a = .ok y := by
  cases x with
  | error cause =>
      cases h
  | ok a =>
      exact ⟨a, rfl, h⟩

theorem lift_ok {α : Type} (x : α) :
    (liftM (Except.ok x : Except Fault α) : Except Trap α) = .ok x :=
  rfl

theorem subtract_eq {count taken : Nat} (h : taken ≤ count) :
    subtract count taken = .ok (count - taken) :=
  if_pos h

theorem divide_eq {count divisor : Nat} (h : 0 < divisor) :
    divide count divisor = .ok (count / divisor, count % divisor) :=
  if_neg (Nat.ne_of_gt h)

theorem limb_eq {b : Block w n} {i : Nat} (h : i < n) : limb b i = .ok (b.get ⟨i, h⟩) :=
  dif_pos h

theorem setLimb_eq {b : Block w n} {i : Nat} {x : Word w} (h : i < n) :
    setLimb b i x = .ok (b.set i x h) :=
  dif_pos h

theorem rotateLeft_eq {b : Block w n} {r : Nat} (h : r ≤ n) :
    rotateLeft b r = .ok (b.rotateLeft r) :=
  if_pos h

theorem ofPartList_eq (parts : Vector Word32 w.parts) :
    (ofPartList parts.toList : Except Fault (Word w)) = .ok (Word.ofParts parts) := by
  rcases parts with ⟨⟨parts⟩, hsize⟩
  cases w with
  | w32 =>
      match parts, hsize with
      | [_], _ =>
          rfl
  | w64 =>
      match parts, hsize with
      | [_, _], _ =>
          rfl

theorem sum_eq {limit a b : Nat} (h : a + b ≤ limit) : sum limit a b = .ok (a + b) :=
  if_pos h

theorem sum_eq_ok_iff {limit a b c : Nat} : sum limit a b = .ok c ↔ a + b ≤ limit ∧ a + b = c := by
  unfold sum
  by_cases h : a + b ≤ limit
  · rw [if_pos h, Except.ok.injEq]
    exact ⟨fun heq => ⟨h, heq⟩, And.right⟩
  · rw [if_neg h]
    exact ⟨nofun, fun hand => absurd hand.1 h⟩

end Checked
end CounterRng
