import CounterRng.Proofs.Keystream.Operation
import CounterRng.Proofs.Keystream.Position

/-!
# Refinement — a keystream reads an indexed stream of words

A place is a key and a number: which stream is read, and how many of its words are passed.  `Place.apply`
says what every move hands out and where it leads in terms of the stream alone; there is no buffer, no
counter and no cursor in it.

* `place_apply` — one move of a keystream is the move of its place;
* `run_moves_eq_run_places` — so are all runs from a fresh keystream, and after them the counter and
  the cursor are the only ones that stand at the place reached.
-/

namespace CounterRng
namespace Keystream

variable {w : Width} {c k : Nat} {F : BlockFunction w c k}

/-! ## Places in streams -/

structure Place (w : Width) (k : Nat) where
  key : Block w k
  position : Nat

/-- The first multiple of `c` that is not below `p`. -/
def roundUp (c p : Nat) : Nat := (p + c - 1) / c * c

/-- Block that the words from a multiple of `c` on make up, which leave it in reverse. -/
def Place.blockFrom (F : BlockFunction w c k) (key : Block w k) (start : Nat) : Block w c :=
  Vector.ofFn fun j => streamWord F key ((start + (c - 1 - j)) % period w c)

def Place.apply (F : BlockFunction w c k) : Move w c k → Place w k → Outcome F × Place w k
  | .generate, p =>
      (.word (streamWord F p.key p.position), ⟨p.key, (p.position + 1) % period w c⟩)
  | .generateBlock, p =>
      (.block (Place.blockFrom F p.key (roundUp c p.position)),
        ⟨p.key, (roundUp c p.position + c) % period w c⟩)
  | .setCounter counter, p => (.done, ⟨p.key, c * counter.value⟩)
  | .rewind, p => (.done, ⟨p.key, 0⟩)
  | .reseed x, _ => (.done, ⟨Block.broadcast x, 0⟩)
  | .rekey key, _ => (.done, ⟨key, 0⟩)

def place (e : Keystream F) : Place w k := ⟨e.key, e.position⟩

/-! ## The end of the current block -/

theorem roundUp_eq {p r : Nat} (hr : r < c) (h : c ∣ p + r) : roundUp c p = p + r := by
  rcases h with ⟨q, hq⟩
  -- Rounding up adds less than `c` to a number that is `r` short of a multiple.
  have hsum : p + c - 1 = c * q + (c - 1 - r) := by omega
  have hquotient : (p + c - 1) / c = q := by
    rw [hsum, Nat.mul_add_div (Nat.zero_lt_of_lt hr), Nat.div_eq_of_lt (by omega), Nat.add_zero]
  rw [roundUp, hquotient, hq, Nat.mul_comm]

theorem roundUp_position {e : Keystream F} (h : Synced e) :
    roundUp c e.position = e.position + e.cursor := by
  refine roundUp_eq h.cursor_lt ?_
  have hzero : c * e.counter.value ≡ 0 [MOD c] :=
    Nat.modEq_zero_iff_dvd.2 (Nat.dvd_mul_right c e.counter.value)
  have hmod : e.position + e.cursor ≡ c * e.counter.value [MOD c] :=
    (position_add_cursor h.cursor_lt).of_mul_right (2 ^ (w.bits * c))
  exact Nat.modEq_zero_iff_dvd.1 (hmod.trans hzero)

/-! ## Moves -/

theorem place_ofKey (key : Block w k) : (ofKey key : Keystream F).place = ⟨key, 0⟩ :=
  congrArg (Place.mk key) (position_ofKey key)

theorem generateBlock_fst_eq_blockFrom {e : Keystream F} (h : Synced e) :
    e.generateBlock.1 = Place.blockFrom F e.key (roundUp c e.position) := by
  apply Vector.ext
  intro j hj
  rw [generateBlock_fst_getElem h j hj, Place.blockFrom, Vector.getElem_ofFn, roundUp_position h]

/-- One move of a keystream hands out what its place says, and leads to the place it says. -/
theorem place_apply {e : Keystream F} (h : Synced e) (m : Move w c k) :
    (m.apply e).1 = (Place.apply F m e.place).1 ∧
      (m.apply e).2.place = (Place.apply F m e.place).2 := by
  cases m with
  | generate =>
      constructor
      · exact congrArg Outcome.word (generate_fst_eq_streamWord h)
      · have hposition := position_generate h
        simp only [Move.apply, Place.apply, place, key_generate, hposition]
  | generateBlock =>
      constructor
      · exact congrArg Outcome.block (generateBlock_fst_eq_blockFrom h)
      · have hposition := position_generateBlock h
        simp only [Move.apply, Place.apply, place, hposition, roundUp_position h]
        rfl
  | setCounter counter =>
      exact ⟨rfl, congrArg (Place.mk e.key) (position_setCounter e counter)⟩
  | rewind =>
      exact ⟨rfl, place_ofKey e.key⟩
  | reseed x =>
      exact ⟨rfl, place_ofKey (Block.broadcast x)⟩
  | rekey key =>
      exact ⟨rfl, place_ofKey key⟩

/-- The invariant that carries the refinement through a run. -/
theorem lockstep_place :
    Lockstep (Move.apply (F := F)) (Place.apply F) fun e p => Synced e ∧ e.place = p where
  answer m h := by
    rcases h with ⟨hsynced, rfl⟩
    exact (place_apply hsynced m).1
  next m h := by
    rcases h with ⟨hsynced, rfl⟩
    exact ⟨hsynced.apply_move m, (place_apply hsynced m).2⟩

/-! ## Runs -/

/-- However a keystream is made and moved, it hands out what the stream holds at the places that the
moves lead to; and its counter and cursor are the only ones, with the cursor below the block length,
that stand at the place reached. -/
theorem run_moves_eq_run_places (start : Start w k) (moves : List (Move w c k)) :
    let read := run (Place.apply F) moves ⟨start.key, 0⟩
    let answers := (run Move.apply moves (start.keystream : Keystream F)).1
    let e := (run Move.apply moves (start.keystream : Keystream F)).2
    answers = read.1 ∧ e.place = read.2 ∧ e.cursor < c ∧
      ∀ (counter : Block w c) (cursor : Nat), cursor < c →
        ({ e with counter, cursor } : Keystream F).position = e.position →
          counter = e.counter ∧ cursor = e.cursor := by
  have hstart : Synced (start.keystream : Keystream F) ∧
      (start.keystream : Keystream F).place = ⟨start.key, 0⟩ := by
    rw [start.keystream_eq]
    exact ⟨synced_ofKey start.key, place_ofKey start.key⟩
  intro read answers e
  -- The run lemma gives answers and place, and that the cursor is still below the block length.
  rcases lockstep_place.run moves hstart with ⟨hanswers, hsynced, hplace⟩
  refine ⟨hanswers, hplace, hsynced.cursor_lt, ?_⟩
  intro counter cursor hlt hposition
  exact counter_cursor_unique hlt hsynced.cursor_lt hposition

end Keystream
end CounterRng
