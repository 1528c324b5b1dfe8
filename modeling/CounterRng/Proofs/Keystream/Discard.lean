import CounterRng.Threefry
import CounterRng.Proofs.Keystream.Operation
import CounterRng.Proofs.Keystream.Position

/-!
# Discard — skipping words is drawing them

A skip drops what is buffered, adds the whole blocks to the counter and draws only the rest.  It comes
to the same state as drawing all the words, because both keep the key, both move the position by the
same amount modulo the period, and a position belongs to one counter and one cursor.

* `agree_discards_advance` — the same for any number of skips, whose words together may be more than a
  single skip can pass over;
* `discard_eq_advance` — one skip of a reachable keystream, in every field.
-/

namespace CounterRng
namespace Keystream

variable {w : Width} {c k : Nat} {F : BlockFunction w c k}

theorem agree_discard_advance {e : Keystream F} (h : Synced e) (n : Distance) :
    Agree (e.discard n) (Generator.advance n.toNat e) := by
  refine agree_of_position_eq (h.discard n) (h.advance n.toNat) ?_ ?_
  · rw [key_discard, key_advance]
  · rw [position_discard h, position_advance n.toNat h]

/-- The number of words that several skips pass over. -/
def skipped (amounts : List Distance) : Nat := amounts.foldr (fun n total => n.toNat + total) 0

/-- One skip after the other comes to the state that drawing all their words comes to. -/
theorem agree_discards_advance (amounts : List Distance) :
    ∀ {e : Keystream F}, Synced e →
      Synced (amounts.foldl discard e) ∧
        Agree (amounts.foldl discard e) (Generator.advance (skipped amounts) e) := by
  induction amounts with
  | nil =>
      intro e h
      exact ⟨h, rfl, rfl, rfl⟩
  | cons n rest ih =>
      intro e h
      rcases ih (h.discard n) with ⟨hsynced, hagree⟩
      refine ⟨hsynced, agree_of_position_eq hsynced (h.advance _) ?_ ?_⟩
      · rw [List.foldl_cons, hagree.2.2, key_advance, key_discard, key_advance]
      · rw [List.foldl_cons, position_eq_of_agree hagree, position_advance _ (h.discard n),
          position_discard h, position_advance _ h, Nat.mod_add_mod, Nat.add_assoc]
        rfl

/-- Skipping `n` words leaves the key, counter and cursor that drawing `n` words leaves, and the same
buffer if any of it is still to be handed out. -/
theorem discard_eq_advance {e : Keystream F} (h : Reachable e) (n : Distance) :
    (e.discard n).key = (Generator.advance n.toNat e).key ∧
      (e.discard n).counter = (Generator.advance n.toNat e).counter ∧
      (e.discard n).cursor = (Generator.advance n.toNat e).cursor ∧
      ((e.discard n).cursor ≠ 0 → (e.discard n).buffer = (Generator.advance n.toNat e).buffer) := by
  have hagree := agree_discard_advance h.synced n
  refine ⟨hagree.2.2, hagree.1, hagree.2.1, ?_⟩
  intro hleft
  exact hagree.buffer_eq (h.synced.discard n) (h.synced.advance n.toNat) hleft

/-- A keystream one word into the block at the greatest counter. -/
def beforeWrap : Keystream (threefry2x64 20) :=
  ((ofWord 7).setCounter #v[0xFFFFFFFFFFFFFFFE, 0xFFFFFFFFFFFFFFFF]).generate.2

theorem reachable_beforeWrap : Reachable beforeWrap :=
  .apply (.move .generate) (.apply (.move (.setCounter _)) (.start (.ofWord 7)))

/-- A skip that wraps the counter, by more words than 64 bits can count. -/
theorem discard_eq_advance_across_wrap :
    Reachable beforeWrap ∧
      (beforeWrap.discard 0x10000000000000000003).key =
        (Generator.advance (0x10000000000000000003 : Distance).toNat beforeWrap).key ∧
      (beforeWrap.discard 0x10000000000000000003).counter =
        (Generator.advance (0x10000000000000000003 : Distance).toNat beforeWrap).counter ∧
      (beforeWrap.discard 0x10000000000000000003).cursor =
        (Generator.advance (0x10000000000000000003 : Distance).toNat beforeWrap).cursor ∧
      ((beforeWrap.discard 0x10000000000000000003).cursor ≠ 0 →
        (beforeWrap.discard 0x10000000000000000003).buffer =
          (Generator.advance (0x10000000000000000003 : Distance).toNat beforeWrap).buffer) :=
  ⟨reachable_beforeWrap, discard_eq_advance reachable_beforeWrap 0x10000000000000000003⟩

end Keystream
end CounterRng
