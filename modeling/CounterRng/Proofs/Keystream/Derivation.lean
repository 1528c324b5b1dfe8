import CounterRng.Proofs.Keystream.Operation
import CounterRng.Proofs.Keystream.Position
import CounterRng.Proofs.Threefry.Permutation

/-!
# Derivation — which parents have the same children

A child is determined by its key, which is enciphered from the block that the parent's next word comes
from, rotated by the parent's cursor.  If the block function is one-to-one under the derivation key,
nothing of the rotated block is lost, so that two parents have the same child under a key exactly if
their rotated blocks are the same; and then they have the same child under every key.

Of one stream, parents at the same cursor are told apart by their blocks.  Parents at different cursors
need not be: a rotation does nothing to a block whose limbs are all equal.

* `value_derive` — the child in terms of the parent's next block, for every block function;
* `derive_beq_iff` — when children are equal;
* `counter_eq_of_nextBlock_eq` — the next block determines the counter;
* `exists_collision` — two positions of every stream that have all their children in common;
* `derive_collisions` — all of it for the two shapes of Threefry.
-/

namespace CounterRng
namespace Keystream

section AnyShape

variable {w : Width} {c k : Nat} {F : BlockFunction w c k}

/-! ## The child of a parent -/

/-- The child reads the parent's next block and cursor, and nothing else of the parent. -/
theorem value_derive {parent : Keystream F} (h : Synced parent) (key : Block w k) :
    (parent.derive key).value =
      ofKey ((F.eval key (parent.nextBlock.rotateLeft parent.cursor)).cycle F.pos) := by
  rw [← buffer_generate_eq_nextBlock h]
  rfl

theorem ofKey_beq_iff {a b : Block w k} : ((ofKey a : Keystream F) == ofKey b) = true ↔ a = b := by
  refine beq_iff_agree.trans ⟨fun hagree => hagree.2.2, ?_⟩
  rintro rfl
  exact Agree.refl _

end AnyShape

/-! ## Block functions that are one-to-one -/

variable {w : Width} {n : Nat} {F : BlockFunction w n n} {p q : Keystream F}

/-- Under a key that keeps blocks apart, children are equal exactly if the rotated blocks are. -/
theorem derive_beq_iff {key : Block w n} (hF : Function.Injective (F.eval key)) (hp : Synced p)
    (hq : Synced q) :
    ((p.derive key).value == (q.derive key).value) = true ↔
      p.nextBlock.rotateLeft p.cursor = q.nextBlock.rotateLeft q.cursor := by
  rw [value_derive hp, value_derive hq, ofKey_beq_iff, Block.cycle_self, Block.cycle_self, hF.eq_iff]

/-- At a known cursor, the next block tells at which counter of its stream a keystream stands. -/
theorem counter_eq_of_nextBlock_eq (hF : Function.Injective (F.eval p.key)) (hkey : p.key = q.key)
    (hcursor : p.cursor = q.cursor) (h : p.nextBlock = q.nextBlock) : p.counter = q.counter := by
  rw [nextBlock, nextBlock, ← hkey, ← hcursor] at h
  have hcounter := hF h
  by_cases hempty : p.cursor = 0
  · rw [if_pos hempty, if_pos hempty] at hcounter
    exact Block.increment_injective hcounter
  · rwa [if_neg hempty, if_neg hempty] at hcounter

theorem derive_ne_of_counter_ne (hF : ∀ key, Function.Injective (F.eval key)) (hp : Synced p)
    (hq : Synced q) (hkey : p.key = q.key) (hcursor : p.cursor = q.cursor)
    (h : p.counter ≠ q.counter) (key : Block w n) :
    ((p.derive key).value == (q.derive key).value) = false := by
  refine Bool.eq_false_iff.2 fun hequal => h ?_
  have hrotated := (derive_beq_iff (hF key) hp hq).1 hequal
  rw [← hcursor] at hrotated
  exact counter_eq_of_nextBlock_eq (hF p.key) hkey hcursor (Block.eq_of_rotateLeft_eq hrotated)

/-! ## Parents before and inside a block -/

/-- If the block function reaches every block, then some keystream of every stream stands before it. -/
theorem exists_before {key : Block w n} (hF : Function.Surjective (F.eval key)) (b : Block w n) :
    ∃ e : Keystream F, Reachable e ∧ e.key = key ∧ e.cursor = 0 ∧ e.nextBlock = b := by
  obtain ⟨target, rfl⟩ := hF b
  obtain ⟨counter, rfl⟩ := Block.increment_surjective target
  exact ⟨(ofKey key).setCounter counter, .apply (.move (.setCounter counter)) (.start (.ofKey key)),
    rfl, rfl, rfl⟩

theorem cursor_generate_of_cursor_eq_zero (h : p.cursor = 0) : p.generate.2.cursor = n - 1 := by
  rw [generate_snd_of_cursor_eq_zero h]

/-- The first word of a block is not its last, if it has more than one: the next comes from it too. -/
theorem nextBlock_generate (hn : 1 < n) (h : p.cursor = 0) :
    p.generate.2.nextBlock = p.nextBlock := by
  have hleft : p.generate.2.cursor ≠ 0 := by
    rw [cursor_generate_of_cursor_eq_zero h]
    omega
  rw [nextBlock, if_neg hleft, key_generate, counter_generate, nextBlock]

/-- A block with the same word in every limb is the same in every rotation, so that the parents before
and inside it have the same children. -/
theorem derive_beq_of_nextBlock_eq_broadcast {x : Word w} {key : Block w n}
    (hF : Function.Injective (F.eval key)) (hp : Synced p) (hq : Synced q)
    (hpx : p.nextBlock = Block.broadcast x) (hqx : q.nextBlock = Block.broadcast x) :
    ((p.derive key).value == (q.derive key).value) = true := by
  refine (derive_beq_iff hF hp hq).2 ?_
  rw [hpx, hqx, Block.rotateLeft_broadcast, Block.rotateLeft_broadcast]

/-- Before and inside such a block are two positions of one stream, whatever its key and the word. -/
theorem exists_collision (hn : 1 < n) (hF : ∀ key, Function.Bijective (F.eval key))
    (parentKey : Block w n) (x : Word w) :
    ∃ before inside : Keystream F, Reachable before ∧ Reachable inside ∧
      before.key = parentKey ∧ inside.key = parentKey ∧
      before.nextBlock = Block.broadcast x ∧ inside.nextBlock = Block.broadcast x ∧
      before.cursor = 0 ∧ inside.cursor = n - 1 ∧ before.position ≠ inside.position ∧
      ∀ key, ((before.derive key).value == (inside.derive key).value) = true := by
  obtain ⟨before, hreach, hkey, hcursor, hblock⟩ :=
    exists_before (hF parentKey).2 (Block.broadcast x)
  -- The first draw leads into the block.
  have hreach' : Reachable before.generate.2 := .apply (.move .generate) hreach
  have hcursor' : before.generate.2.cursor = n - 1 := cursor_generate_of_cursor_eq_zero hcursor
  have hblock' : before.generate.2.nextBlock = Block.broadcast x :=
    (nextBlock_generate hn hcursor).trans hblock
  have hposition : before.position ≠ before.generate.2.position := by
    intro hequal
    have hsame : before.cursor = before.generate.2.cursor :=
      (counter_cursor_unique hreach.synced.cursor_lt hreach'.synced.cursor_lt hequal).2
    rw [hcursor, hcursor'] at hsame
    omega
  refine ⟨before, before.generate.2, hreach, hreach', hkey, (key_generate before).trans hkey, hblock,
    hblock', hcursor, hcursor', hposition, ?_⟩
  intro key
  exact derive_beq_of_nextBlock_eq_broadcast (hF key).1 hreach.synced hreach'.synced hblock hblock'

/-! ## Threefry -/

/-- Children that Threefry keystreams derive natively are equal exactly if the parents' next blocks are
equal after rotation by their cursors.  So parents that differ in the counter alone have no child in
common; but in every stream of two-limb blocks, and for every word, there are the positions before and
inside the block with that word in both limbs, whose children are equal under every key. -/
theorem derive_collisions (rounds : Nat) :
    (∀ {p q : Keystream (threefry2x64 rounds)}, Reachable p → Reachable q → ∀ key,
      ((p.derive key).value == (q.derive key).value) = true ↔
        p.nextBlock.rotateLeft p.cursor = q.nextBlock.rotateLeft q.cursor) ∧
    (∀ {p q : Keystream (threefry4x64 rounds)}, Reachable p → Reachable q → ∀ key,
      ((p.derive key).value == (q.derive key).value) = true ↔
        p.nextBlock.rotateLeft p.cursor = q.nextBlock.rotateLeft q.cursor) ∧
    (∀ {p q : Keystream (threefry2x64 rounds)}, Reachable p → Reachable q → p.key = q.key →
      p.cursor = q.cursor → p.counter ≠ q.counter → ∀ key,
        ((p.derive key).value == (q.derive key).value) = false) ∧
    (∀ {p q : Keystream (threefry4x64 rounds)}, Reachable p → Reachable q → p.key = q.key →
      p.cursor = q.cursor → p.counter ≠ q.counter → ∀ key,
        ((p.derive key).value == (q.derive key).value) = false) ∧
    (∀ (parentKey : Block .w64 2) (x : Word64),
      ∃ before inside : Keystream (threefry2x64 rounds), Reachable before ∧ Reachable inside ∧
        before.key = parentKey ∧ inside.key = parentKey ∧
        before.nextBlock = Block.broadcast x ∧ inside.nextBlock = Block.broadcast x ∧
        before.cursor = 0 ∧ inside.cursor = 1 ∧ before.position ≠ inside.position ∧
        ∀ key, ((before.derive key).value == (inside.derive key).value) = true) := by
  have h2 : ∀ key, Function.Bijective ((threefry2x64 rounds).eval key) :=
    Threefry.encipher_bijective _ rounds
  have h4 : ∀ key, Function.Bijective ((threefry4x64 rounds).eval key) :=
    Threefry.encipher_bijective _ rounds
  refine ⟨?_, ?_, ?_, ?_, exists_collision Nat.one_lt_two h2⟩
  · intro p q hp hq key
    exact derive_beq_iff (h2 key).1 hp.synced hq.synced
  · intro p q hp hq key
    exact derive_beq_iff (h4 key).1 hp.synced hq.synced
  · intro p q hp hq hkey hcursor hcounter
    exact derive_ne_of_counter_ne (fun key => (h2 key).1) hp.synced hq.synced hkey hcursor hcounter
  · intro p q hp hq hkey hcursor hcounter
    exact derive_ne_of_counter_ne (fun key => (h4 key).1) hp.synced hq.synced hkey hcursor hcounter

/-- A keystream before its first block. -/
def unread : Keystream (threefry2x64 20) := ofWord 5

/-- One of another key, inside a block with the same two limbs the other way about. -/
def mirrored : Keystream (threefry2x64 20) :=
  ((ofKey #v[1, 2]).setCounter #v[0x58D1D2D073F6648A, 0xFF2F72856F56C4BA]).generate.2

/-- One that differs from the first in the counter. -/
def elsewhere : Keystream (threefry2x64 20) := (ofWord 5).setCounter (Block.broadcast 9)

theorem reachable_unread : Reachable unread :=
  .start (.ofWord 5)

theorem reachable_mirrored : Reachable mirrored :=
  .apply (.move .generate) (.apply (.move (.setCounter _)) (.start (.ofKey #v[1, 2])))

theorem reachable_elsewhere : Reachable elsewhere :=
  .apply (.move (.setCounter _)) (.start (.ofWord 5))

/-- Parents with different keys can have the same children; parents of one stream at one cursor
cannot. -/
theorem derive_collisions_mirrored :
    Reachable unread ∧ Reachable mirrored ∧ Reachable elsewhere ∧ unread.key ≠ mirrored.key ∧
      unread.counter ≠ elsewhere.counter ∧
      (∀ key, ((unread.derive key).value == (mirrored.derive key).value) = true) ∧
      ∀ key, ((unread.derive key).value == (elsewhere.derive key).value) = false := by
  have hcounter : unread.counter ≠ elsewhere.counter := by decide +kernel
  have hunread : unread.nextBlock = #v[0xA0E63888841355D6, 0x7188E9E34D7382B1] := by decide +kernel
  have hmirrored : mirrored.nextBlock = #v[0x7188E9E34D7382B1, 0xA0E63888841355D6] := by
    decide +kernel
  have hrotated : unread.nextBlock.rotateLeft 0 = mirrored.nextBlock.rotateLeft 1 := by
    rw [hunread, hmirrored]
    rfl
  refine ⟨reachable_unread, reachable_mirrored, reachable_elsewhere, by decide +kernel, hcounter,
    ?_, ?_⟩
  · intro key
    exact ((derive_collisions 20).1 reachable_unread reachable_mirrored key).2 hrotated
  · exact (derive_collisions 20).2.2.1 reachable_unread reachable_elsewhere rfl rfl hcounter

end Keystream
end CounterRng
