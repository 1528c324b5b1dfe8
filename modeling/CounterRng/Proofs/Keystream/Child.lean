import CounterRng.Proofs.Keystream.Congruence
import CounterRng.Proofs.Keystream.Derivation

/-!
# Child — the child of a keystream is read off its stream

A child is made from the block that the parent's next word comes from, and from how many words of it are
left.  Both are told by the parent's place in its stream, so that it makes no difference how the parent came
there.  The key of a child has its own length: it goes round the enciphered block as often as it takes, or
stops short of its end.

* `nextBlock_eq_streamBlock` — the block that the next word comes from, by the position in the stream;
* `get_key_derive` — the limbs of a child's key, for keys of any length;
* `derive_eq_of_nextBlock_eq` and `derive_eq_of_position_eq` — what a child does not depend on;
* `run_without_derivations` — deriving children leaves no trace in what a parent hands out;
* `child_reads_stream` — all of it, for every reachable parent.
-/

namespace CounterRng
namespace Keystream

variable {w : Width} {c k : Nat} {F : BlockFunction w c k} {e p q : Keystream F}

/-! ## The next block -/

theorem nextBlock_eq_streamBlock (h : Synced e) :
    e.nextBlock = streamBlock F e.key (e.position / c) := by
  have hplace := place_of_modEq F.pos h.generate.cursor_lt (generate_modEq h)
  rw [← buffer_generate_eq_nextBlock h, buffer_generate h, streamBlock, hplace.2]

/-- The next word is the limb of that block that the cursor comes to. -/
theorem generate_fst_eq_get (h : Synced e) :
    ∃ i : Fin c, i.val = e.generate.2.cursor ∧ e.generate.1 = e.nextBlock.get i := by
  refine ⟨⟨e.generate.2.cursor, h.generate.cursor_lt⟩, rfl, ?_⟩
  rw [← buffer_generate_eq_nextBlock h, buffer_generate h]
  exact generate_fst_eq_getElem h h.generate.cursor_lt

/-! ## What a child depends on -/

theorem get_key_derive (h : Synced p) (key : Block w k) (i : Fin k) :
    (p.derive key).value.key.get i =
      (F.eval key (p.nextBlock.rotateLeft p.cursor)).get ⟨i % c, Nat.mod_lt i F.pos⟩ := by
  rw [value_derive h]
  exact Block.get_cycle _ F.pos i

theorem derive_eq_of_nextBlock_eq (hp : Synced p) (hq : Synced q) (hblock : p.nextBlock = q.nextBlock)
    (hcursor : p.cursor = q.cursor) (key : Block w k) : p.derive key = q.derive key := by
  have hvalue : (p.derive key).value = (q.derive key).value := by
    rw [value_derive hp, value_derive hq, hblock, hcursor]
  have hlog : (p.derive key).log = (q.derive key).log :=
    congrArg (fun cursor => [LogRecord.nativeDerivation c cursor]) hcursor
  calc
    p.derive key = ⟨(p.derive key).value, (p.derive key).log⟩ := rfl
    _ = q.derive key := by rw [hvalue, hlog]

/-- Parents at one place in one stream have the same children, however they came there. -/
theorem derive_eq_of_position_eq (hp : Synced p) (hq : Synced q) (hkey : p.key = q.key)
    (h : p.position = q.position) (key : Block w k) : p.derive key = q.derive key :=
  (agree_of_position_eq hp hq hkey h).derive_eq hp hq key

/-! ## Ways to one place -/

theorem derive_discard (h : Synced e) (n : Distance) (key : Block w k) :
    (e.discard n).derive key = (Generator.advance n.toNat e).derive key := by
  refine derive_eq_of_position_eq (h.discard n) (h.advance n.toNat) ?_ ?_ key
  · rw [key_discard, key_advance]
  · rw [position_discard h, position_advance _ h]

theorem derive_generateBlock (h : Synced e) (key : Block w k) :
    e.generateBlock.2.derive key = (Generator.advance (e.cursor + c) e).derive key := by
  refine derive_eq_of_position_eq (synced_generateBlock e) (h.advance _) ?_ ?_ key
  · exact (key_advance _ e).symm
  · rw [position_generateBlock h, position_advance _ h, Nat.add_assoc]

theorem derive_setCounter (e : Keystream F) (counter : Block w c) (key : Block w k) :
    (e.setCounter counter).derive key =
      (Generator.advance (c * counter.value) e.rewind).derive key := by
  have hfresh : Synced e.rewind := synced_ofKey e.key
  have hlt : c * counter.value < period w c := Nat.mul_lt_mul_of_pos_left counter.value_lt F.pos
  refine derive_eq_of_position_eq (synced_setCounter e counter) (hfresh.advance _) ?_ ?_ key
  · exact (key_advance _ e.rewind).symm
  · have hstart : e.rewind.position = 0 := position_ofKey e.key
    rw [position_setCounter, position_advance _ hfresh, hstart, Nat.zero_add, Nat.mod_eq_of_lt hlt]

/-! ## Parents after a derivation -/

def Operation.derives : Operation w c k → Bool
  | .derive _ | .deriveWord _ | .deriveStream _ | .deriveVia _ _ => true
  | _ => false

def Outcome.isChild : Outcome F → Bool
  | .child _ => true
  | _ => false

theorem isChild_apply (op : Operation w c k) (e : Keystream F) :
    (op.apply e).1.isChild = op.derives := by
  cases op with
  | move m =>
      cases m <;> rfl
  | _ =>
      rfl

theorem apply_snd_of_derives {op : Operation w c k} (h : op.derives = true) (e : Keystream F) :
    (op.apply e).2 = e := by
  cases op with
  | derive _ | deriveWord _ | deriveStream _ | deriveVia _ _ =>
      rfl
  | _ =>
      cases h

/-- Without its derivations a run has the same other answers, and the same state at its end. -/
theorem run_without_derivations (ops : List (Operation w c k)) :
    ∀ e : Keystream F, run Operation.apply (ops.filter fun op => !op.derives) e =
      ((run Operation.apply ops e).1.filter fun answer => !answer.isChild,
        (run Operation.apply ops e).2) := by
  induction ops with
  | nil =>
      intro e
      rfl
  | cons op rest ih =>
      intro e
      have hanswer : (op.apply e).1.isChild = op.derives := isChild_apply op e
      have hrest := ih (op.apply e).2
      cases hop : op.derives with
      | false =>
          -- The operation is kept, and so is its answer.
          rw [hop] at hanswer
          simp only [List.filter_cons, hop, run, hanswer, hrest, Bool.not_false, if_true]
      | true =>
          -- It is left out, with its answer, and the rest starts from the same state.
          rw [hop] at hanswer
          rw [apply_snd_of_derives hop] at hrest
          simp only [List.filter_cons, hop, run, hanswer, hrest, apply_snd_of_derives hop,
            Bool.not_true, Bool.false_eq_true, if_false]

/-! ## Parents of every shape -/

/-- A reachable parent has a block that its next word comes from, which is the one at its position in the
stream.  Its child under a key is a fresh keystream whose own key goes round that block, rotated by the
parent's cursor and enciphered under the given key.  Parents with the same block to come and the same cursor
have the same child, and so have parents at one place in one stream: after a skip, a number of draws, a
whole block or a change of the counter.  What the parent is asked for besides, it answers as if no child
had been derived from it. -/
theorem child_reads_stream {parent : Keystream F} (h : Reachable parent) (key : Block w k) :
    (∃ i : Fin c, i.val = parent.generate.2.cursor ∧
      parent.generate.1 = parent.nextBlock.get i) ∧
    parent.nextBlock = streamBlock F parent.key (parent.position / c) ∧
    (parent.derive key).value.counter = Block.broadcast 0 ∧
    (parent.derive key).value.cursor = 0 ∧
    (∀ i : Fin k, (parent.derive key).value.key.get i =
      (F.eval key (parent.nextBlock.rotateLeft parent.cursor)).get
        ⟨i % c, Nat.mod_lt i F.pos⟩) ∧
    (∀ {other : Keystream F}, Reachable other → other.nextBlock = parent.nextBlock →
      other.cursor = parent.cursor → other.derive key = parent.derive key) ∧
    (∀ {other : Keystream F}, Reachable other → other.key = parent.key →
      other.position = parent.position → other.derive key = parent.derive key) ∧
    (∀ n : Distance,
      (parent.discard n).derive key = (Generator.advance n.toNat parent).derive key) ∧
    parent.generateBlock.2.derive key =
      (Generator.advance (parent.cursor + c) parent).derive key ∧
    (∀ counter : Block w c, (parent.setCounter counter).derive key =
      (Generator.advance (c * counter.value) parent.rewind).derive key) ∧
    ∀ ops : List (Operation w c k),
      run Operation.apply (ops.filter fun op => !op.derives) parent =
        ((run Operation.apply ops parent).1.filter fun answer => !answer.isChild,
          (run Operation.apply ops parent).2) := by
  have hsynced := h.synced
  refine ⟨generate_fst_eq_get hsynced, nextBlock_eq_streamBlock hsynced, rfl, rfl,
    get_key_derive hsynced key, ?_, ?_, fun n => derive_discard hsynced n key,
    derive_generateBlock hsynced key, fun counter => derive_setCounter parent counter key,
    fun ops => run_without_derivations ops parent⟩
  · intro other hother hblock hcursor
    exact derive_eq_of_nextBlock_eq hother.synced hsynced hblock hcursor key
  · intro other hother hkey hposition
    exact derive_eq_of_position_eq hother.synced hsynced hkey hposition key

/-- A block function whose keys are longer than its blocks. -/
def overlong : BlockFunction .w32 4 6 where
  eval key counter := counter.map fun x => x ^^^ key.get 5
  pos := Nat.succ_pos 3

/-- A keystream that has three limbs left of a block, come to by a draw that carries into the last limb
of the counter. -/
def drawnTo : Keystream overlong :=
  ((ofWord 7).setCounter #v[0xFFFFFFFF, 0xFFFFFFFF, 0xFFFFFFFF, 4]).generate.2

/-- Its stream a block earlier. -/
def blockEarlier : Keystream overlong :=
  (ofWord 7).setCounter #v[0xFFFFFFFE, 0xFFFFFFFF, 0xFFFFFFFF, 4]

/-- The same place in the same stream, come to by a skip. -/
def skippedTo : Keystream overlong := blockEarlier.discard 5

/-- A key for the child, nought but for the limb that `overlong` reads. -/
def lastNine : Block .w32 6 := #v[0, 0, 0, 0, 0, 9]

theorem reachable_drawnTo : Reachable drawnTo :=
  .apply (.move .generate) (.apply (.move (.setCounter _)) (.start (.ofWord 7)))

theorem reachable_blockEarlier : Reachable blockEarlier :=
  .apply (.move (.setCounter _)) (.start (.ofWord 7))

theorem reachable_skippedTo : Reachable skippedTo :=
  .apply (.discard 5) reachable_blockEarlier

/-- Six limbs of key go round four limbs of block, from the one drawn last. -/
theorem child_reads_stream_overlong :
    Reachable drawnTo ∧ Reachable skippedTo ∧
      drawnTo.nextBlock = #v[7, 7, 7, 2] ∧ drawnTo.cursor = 3 ∧
      (drawnTo.derive lastNine).value.key = #v[11, 14, 14, 14, 11, 14] ∧
      skippedTo.derive lastNine = drawnTo.derive lastNine := by
  have hnext : drawnTo.nextBlock = #v[7, 7, 7, 2] := by decide +kernel
  have hcursor : drawnTo.cursor = 3 := by decide +kernel
  have henciphered : overlong.eval lastNine (drawnTo.nextBlock.rotateLeft drawnTo.cursor) =
      #v[11, 14, 14, 14] := by
    rw [hnext, hcursor]
    decide +kernel
  rcases child_reads_stream reachable_drawnTo lastNine with
    ⟨_, _, _, _, hlimb, _, hsame, _⟩
  refine ⟨reachable_drawnTo, reachable_skippedTo, hnext, hcursor, ?_, ?_⟩
  · -- The fifth limb is the first one of the block again, and the sixth the second.
    have hround : ∀ i : Fin 6,
        (#v[11, 14, 14, 14] : Block .w32 4).get ⟨i % 4, Nat.mod_lt i overlong.pos⟩ =
          (#v[11, 14, 14, 14, 11, 14] : Block .w32 6).get i := by
      decide +kernel
    apply Vector.ext
    intro i hi
    have hi' := hlimb ⟨i, hi⟩
    rw [henciphered] at hi'
    exact hi'.trans (hround ⟨i, hi⟩)
  · exact hsame reachable_skippedTo (by decide +kernel) (by decide +kernel)

end Keystream
end CounterRng
