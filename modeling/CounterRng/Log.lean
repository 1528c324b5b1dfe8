/-!
# Log — what a computation reports besides its value

Deriving a child and refusing a short seed source are reported.  A reporting function returns a
`Logged` value: the result together with the records it made, the earliest first.
-/

namespace CounterRng

/-! ## Records -/

inductive LogRecord where
  /-- A child was derived by the keystream itself, at the parent's cursor. -/
  | nativeDerivation (blockLength cursor : Nat)
  /-- A child was derived through a digest and advanced by a number of draws. -/
  | digestDerivation (draws : Nat)
  /-- A seed source produced fewer words than a key requires. -/
  | shortSeed (produced required : Nat)
  deriving DecidableEq, Repr

def LogRecord.text : LogRecord → String
  | .nativeDerivation blockLength cursor =>
      s!"derived counter engine (block_len {blockLength}, parent cursor {cursor})"
  | .digestDerivation draws => s!"derived engine through digest ({draws} mixing draws)"
  | .shortSeed produced required => s!"short seed sequence ({produced} of {required} words)"

/-! ## Values with their records -/

structure Logged (α : Type u) where
  value : α
  log : List LogRecord := []

namespace Logged

variable {α : Type u} {β : Type v}

def map (f : α → β) (x : Logged α) : Logged β := ⟨f x.value, x.log⟩

end Logged
end CounterRng
