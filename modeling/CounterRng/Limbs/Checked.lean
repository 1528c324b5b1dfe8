import CounterRng.Fault

/-!
# Checked — the bulk addition, with the sum tested that could overflow

In each step of the bulk addition, the carry out of a limb is added to what is left of the amount.  Both
are counted in the width of a `Distance`, where a sum that has no room wraps.  Here the same addition is made
with that sum tested, and stops where it would wrap.
-/

namespace CounterRng
namespace Checked

variable {w : Width}

/-- What remains to be added to the higher limbs, if a `Distance` has room for it. -/
def carryOut (x : Word w) (amount : Distance) : Except Trap Distance := do
  let carry := if x + Word.truncate amount < x then 1 else 0
  let remaining ← sum (2 ^ (128 : Nat) - 1) (amount >>> w.bits).toNat carry
  return BitVec.ofNat 128 remaining

def add : List (Word w) → Distance → Except Trap (List (Word w))
  | [], _ => return []
  | x :: rest, amount => do
      if amount = 0 then
        return x :: rest
      let remaining ← carryOut x amount
      let rest ← add rest remaining
      return (x + Word.truncate amount) :: rest

end Checked
end CounterRng
