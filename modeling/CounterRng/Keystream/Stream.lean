import CounterRng.Keystream

/-!
# Stream — the words of a key as a function of a position

What a keystream hands out depends on its key and on one number, its position in the stream of that
key.  The stream starts with the words of the block at counter one and repeats after as many words as
all blocks have together.

This file defines:

* `period`, `streamBlock` and `streamWord`, the stream of a key, without reference to any state;
* `position` and `nextBlock`, where a keystream stands in its stream;
* `Synced`, the invariant that the buffer of a keystream is the block its cursor points into;
* `leap`, the part of a skip that draws no words.
-/

namespace CounterRng
namespace Keystream

variable {w : Width} {c k : Nat}

/-! ## The stream of a key -/

/-- The number of words in all blocks of `c` limbs. -/
def period (w : Width) (c : Nat) : Nat := c * 2 ^ (w.bits * c)

/-- The block that words `i * c` to `i * c + c - 1` of the stream come from. -/
def streamBlock (F : BlockFunction w c k) (key : Block w k) (i : Nat) : Block w c :=
  F.eval key (Block.ofValue (i + 1))

/-- Word `i` of the stream: blocks leave from their last limb to their first. -/
def streamWord (F : BlockFunction w c k) (key : Block w k) (i : Nat) : Word w :=
  (streamBlock F key (i / c)).get ⟨c - 1 - i % c, by have := F.pos; omega⟩

/-! ## Where a keystream stands -/

variable {F : BlockFunction w c k}

/-- The number of stream words before the next one, modulo the period. -/
def position (e : Keystream F) : Nat :=
  (c * e.counter.value + (period w c - e.cursor)) % period w c

/-- The block that the next word comes from. -/
def nextBlock (e : Keystream F) : Block w c :=
  F.eval e.key (if e.cursor = 0 then e.counter.increment else e.counter)

/-- The cursor is within the block, and the buffer holds the block at the counter whenever words of
it are left. -/
structure Synced (e : Keystream F) : Prop where
  cursor_lt : e.cursor < c
  buffer_eq : e.cursor ≠ 0 → e.buffer = F.eval e.key e.counter

theorem synced_ofKey (key : Block w k) : Synced (ofKey key : Keystream F) where
  cursor_lt := F.pos
  buffer_eq h := absurd rfl h

theorem synced_setCounter (e : Keystream F) (counter : Block w c) :
    Synced (e.setCounter counter) where
  cursor_lt := F.pos
  buffer_eq h := absurd rfl h

theorem synced_generateBlock (e : Keystream F) : Synced e.generateBlock.2 where
  cursor_lt := F.pos
  buffer_eq h := absurd rfl h

theorem generate_snd_of_cursor_eq_zero {e : Keystream F} (h : e.cursor = 0) :
    e.generate.2 = { e.refill with cursor := c - 1 } := by
  simp [generate, loaded, h, refill]

theorem generate_snd_of_cursor_ne_zero {e : Keystream F} (h : e.cursor ≠ 0) :
    e.generate.2 = { e with cursor := e.cursor - 1 } := by
  simp [generate, loaded, h]

theorem Synced.generate {e : Keystream F} (h : Synced e) : Synced e.generate.2 := by
  by_cases h0 : e.cursor = 0
  · -- The refill put the block at the new counter into the buffer.
    rw [generate_snd_of_cursor_eq_zero h0]
    refine ⟨?_, fun _ => rfl⟩
    exact Nat.sub_lt F.pos Nat.one_pos
  · -- The buffer stays, and was in step as a word of it was left.
    rw [generate_snd_of_cursor_ne_zero h0]
    refine ⟨?_, fun _ => h.buffer_eq h0⟩
    exact Nat.lt_of_le_of_lt (Nat.sub_le _ _) h.cursor_lt

theorem Synced.advance {e : Keystream F} (h : Synced e) (n : Nat) :
    Synced (Generator.advance n e) := by
  induction n generalizing e with
  | zero =>
      exact h
  | succ n ih =>
      exact ih h.generate

/-- The part of a skip that draws nothing: buffered words are dropped, whole blocks counted over. -/
def leap (e : Keystream F) (n : Distance) : Keystream F :=
  { e with
    counter := e.counter.add (BitVec.ofNat 128 ((n.toNat - min e.cursor n.toNat) / c))
    cursor := e.cursor - min e.cursor n.toNat }

theorem discard_eq_advance_leap (e : Keystream F) (n : Distance) :
    e.discard n = Generator.advance ((n.toNat - min e.cursor n.toNat) % c) (e.leap n) :=
  rfl

theorem Synced.leap {e : Keystream F} (h : Synced e) (n : Distance) : Synced (e.leap n) := by
  constructor
  · exact Nat.lt_of_le_of_lt (Nat.sub_le _ _) h.cursor_lt
  · intro (hleft : e.cursor - min e.cursor n.toNat ≠ 0)
    -- A word of the block is left, so that no block is counted over.
    have hrest : (n.toNat - min e.cursor n.toNat) / c = 0 := by
      rw [show n.toNat - min e.cursor n.toNat = 0 by omega, Nat.zero_div]
    calc
      e.buffer = F.eval e.key e.counter := h.buffer_eq (by omega)
      _ = F.eval e.key (e.counter.add (BitVec.ofNat 128 0)) :=
          congrArg (F.eval e.key) (Block.add_zero _).symm
      _ = F.eval e.key (e.counter.add (BitVec.ofNat 128 _)) := by rw [hrest]

theorem Synced.discard {e : Keystream F} (h : Synced e) (n : Distance) : Synced (e.discard n) :=
  (h.leap n).advance _

/-- Agreeing keystreams differ at most in a buffer that is used up. -/
theorem Agree.buffer_eq {a b : Keystream F} (h : Agree a b) (ha : Synced a) (hb : Synced b)
    (hleft : a.cursor ≠ 0) : a.buffer = b.buffer := by
  rcases h with ⟨hcounter, hcursor, hkey⟩
  rw [ha.buffer_eq hleft, hb.buffer_eq (hcursor ▸ hleft), hcounter, hkey]

end Keystream
end CounterRng
