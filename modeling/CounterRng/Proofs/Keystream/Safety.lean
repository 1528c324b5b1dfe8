import CounterRng.Keystream.Checked
import CounterRng.Proofs.Keystream.Operation
import CounterRng.Proofs.Keystream.Position
import CounterRng.Proofs.Simulation

/-!
# Safety — a keystream that can be reached is never stopped

The operations of a keystream rely on conditions that they do not test: that there is a word to hand out
when one is taken, that the cursor points into the buffer, that a rotation is within the block, and that
the block length is not zero.  All of them follow from `Synced`, which every operation keeps.  So the
checked operations never come to a fault, and do what the unchecked ones do.

* `Checked.generate_eq`, `Checked.discard_eq`, `Checked.derive_eq` — one lemma for each checked operation;
* `simulation_checked` — the keystream and the one that may stop, for all that is drawn from generators;
* `Checked.apply`, `Checked.run` — the checked form of every operation, and of runs;
* `reachable_sound` — the invariant and the absence of faults, for every reachable state and every run.
-/

namespace CounterRng

variable {w : Width} {c k : Nat} {F : BlockFunction w c k} {e : Keystream F}

namespace Checked

open Keystream

/-! ## Single operations -/

theorem generate_eq (h : Synced e) : Checked.generate e = .ok e.generate := by
  have hpos := F.pos
  have hlt := h.cursor_lt
  -- There is a word to hand out once the keystream is loaded, and it is one of the block.
  have hloaded : 1 ≤ e.loaded.cursor ∧ e.loaded.cursor ≤ c := by
    unfold loaded
    by_cases h0 : e.cursor = 0
    · rw [if_pos h0]
      exact ⟨hpos, Nat.le_refl c⟩
    · rw [if_neg h0]
      omega
  have hlimb : e.loaded.cursor - 1 < c := by omega
  have hword : e.generate.1 = e.loaded.buffer.get ⟨e.loaded.cursor - 1, hlimb⟩ :=
    getD_eq_getElem _ _ hlimb
  simp only [Checked.generate, subtract_eq hloaded.1, ok_bind, limb_eq hlimb, ← hword]
  rfl

theorem next_ok (h : Synced e) :
    Generator.next (Except.ok e : Except Fault (Keystream F)) =
      (e.generate.1, .ok e.generate.2) := by
  simp only [Generator.next, generate_eq h]

theorem derive_eq (h : Synced e) (key : Block w k) :
    Checked.derive e key = .ok (e.derive key) := by
  have hle : e.cursor ≤ c := Nat.le_of_lt h.cursor_lt
  simp only [Checked.derive, generate_eq h, ok_bind, rotateLeft_eq hle]
  rfl

theorem ofFnM_eq_ok {α : Type} {n : Nat} {f : Fin n → Except Fault α} {g : Fin n → α}
    (h : ∀ i, f i = .ok (g i)) : Vector.ofFnM f = .ok (Vector.ofFn g) := by
  obtain rfl : f = fun i => pure (g i) := funext h
  exact Vector.ofFnM_pure

/-- A seed source is never read beyond the parts that it was given room for. -/
theorem ofSource_eq (source : SeedSource) :
    (Checked.ofSource source : Except Fault (Logged (Except SeedError (Keystream F)))) =
      .ok (Keystream.ofSource source) := by
  simp only [Checked.ofSource, Keystream.ofSource]
  by_cases hshort : (source.fill (Vector.replicate (k * w.parts) (0 : Word32))).2 < k * w.parts
  · simp only [hshort, if_true]
    rfl
  · have hkey := ofFnM_eq_ok fun i : Fin k =>
      ofPartList_eq (chunk (source.fill (Vector.replicate (k * w.parts) (0 : Word32))).1 i)
    simp only [hshort, if_false, hkey, ok_bind]
    rfl

/-- Whatever is drawn from a keystream that may stop comes as if it could not. -/
theorem simulation_checked :
    Generator.Simulation fun (e : Keystream F) (s : Except Fault (Keystream F)) =>
      Synced e ∧ s = .ok e where
  reset := by
    rintro e _ ⟨_, rfl⟩
    exact ⟨synced_ofKey e.key, rfl⟩
  reseed := by
    rintro e _ x ⟨_, rfl⟩
    exact ⟨synced_ofKey (Block.broadcast x), rfl⟩
  seedValue := by
    rintro e _ ⟨_, rfl⟩
    rfl
  word := by
    rintro e _ ⟨h, rfl⟩
    rw [next_ok h]
    rfl
  next := by
    rintro e _ ⟨h, rfl⟩
    rw [next_ok h]
    exact ⟨h.generate, rfl⟩

theorem discard_eq (h : Synced e) (n : Distance) : Checked.discard e n = .ok (e.discard n) := by
  have hcursor : min e.cursor n.toNat ≤ e.cursor := Nat.min_le_left _ _
  have hamount : min e.cursor n.toNat ≤ n.toNat := Nat.min_le_right _ _
  have hdrawn := (simulation_checked.advance ⟨h.leap n, rfl⟩
    ((n.toNat - min e.cursor n.toNat) % c)).2
  -- What is left after the tests is the loop of draws from the keystream after the leap.
  simp only [Checked.discard, subtract_eq hcursor, subtract_eq hamount, divide_eq F.pos, ok_bind]
  exact hdrawn

/-! ## Every operation, and runs -/

/-- The answer made of what was drawn, if the keystream did not stop. -/
def answered {α : Type} (answer : α → Outcome F) (drawn : α × Except Fault (Keystream F)) :
    Except Fault (Outcome F × Keystream F) :=
  drawn.2.map fun e => (answer drawn.1, e)

def apply : Operation w c k → Keystream F → Except Fault (Outcome F × Keystream F)
  | .move .generate, e => do
      let (x, e) ← Checked.generate e
      return (.word x, e)
  | .move m, e => return m.apply e
  | .discard n, e => do
      let e ← Checked.discard e n
      return (.done, e)
  | .reseedFrom source, e => do
      let report ← Checked.ofSource source
      match report.value with
      | .ok fresh => return (.seeded ⟨.ok (), report.log⟩, fresh)
      | .error cause => return (.seeded ⟨.error cause, report.log⟩, e)
  | .blockAt counter, e => return (.block (e.blockAt counter), e)
  | .seedValue, e => return (.word e.seedValue, e)
  | .derive key, e => do
      let child ← Checked.derive e key
      return (.child child, e)
  | .deriveWord x, e => do
      let child ← Checked.derive e (Block.broadcast x)
      return (.child child, e)
  | .deriveStream x, e => do
      let child ← Checked.derive e (Block.broadcast x)
      return (.child child, e)
  | .deriveVia D x, e => do
      let child := Derivation.viaDigest D (Except.ok e : Except Fault (Keystream F)) x
      let value ← child.value
      return (.child ⟨value, child.log⟩, e)
  | .next32, e => answered .number32 (RandomSource.next32 (.ok e : Except Fault (Keystream F)))
  | .next64, e => answered .number64 (RandomSource.next64 (.ok e : Except Fault (Keystream F)))
  | .fillBytes n, e => answered .bytes (RandomSource.fillBytes n (.ok e : Except Fault (Keystream F)))

/-- The answers to a list of operations and the state after them, unless a fault comes first. -/
def run : List (Operation w c k) → Keystream F → Except Fault (List (Outcome F) × Keystream F)
  | [], e => return ([], e)
  | op :: ops, e => do
      let (answer, e) ← Checked.apply op e
      let (answers, e) ← run ops e
      return (answer :: answers, e)

theorem answered_eq {α : Type} (answer : α → Outcome F) {drawn : α × Keystream F}
    {drawn' : α × Except Fault (Keystream F)}
    (h : drawn.1 = drawn'.1 ∧ Synced drawn.2 ∧ drawn'.2 = .ok drawn.2) :
    answered answer drawn' = .ok (answer drawn.1, drawn.2) := by
  rcases h with ⟨hanswer, _, hstate⟩
  rw [answered, hstate, hanswer]
  rfl

theorem apply_eq (h : Synced e) (op : Operation w c k) :
    Checked.apply op e = .ok (op.apply e) := by
  have hrelated : Synced e ∧ (Except.ok e : Except Fault (Keystream F)) = .ok e := ⟨h, rfl⟩
  cases op with
  | move m =>
      cases m with
      | generate =>
          simp only [Checked.apply, generate_eq h, ok_bind]
          rfl
      | _ =>
          rfl
  | discard n =>
      simp only [Checked.apply, discard_eq h, ok_bind]
      rfl
  | reseedFrom source =>
      -- A source that falls short leaves the keystream as it was, checked or not.
      simp only [Checked.apply, ofSource_eq, ok_bind, Operation.apply, Keystream.reseedFrom,
        Logged.map]
      cases (Keystream.ofSource source : Logged (Except SeedError (Keystream F))).value with
      | error cause =>
          rfl
      | ok fresh =>
          rfl
  | derive _ | deriveWord _ | deriveStream _ =>
      simp only [Checked.apply, derive_eq h, ok_bind]
      rfl
  | deriveVia D x =>
      rcases simulation_checked.viaDigest hrelated D x with ⟨hlog, _, hvalue⟩
      simp only [Checked.apply, hvalue, ← hlog, ok_bind]
      rfl
  | next32 =>
      exact answered_eq _ (simulation_checked.next32 hrelated)
  | next64 =>
      exact answered_eq _ (simulation_checked.next64 hrelated)
  | fillBytes n =>
      exact answered_eq _ (simulation_checked.fillBytes hrelated n)
  | _ =>
      rfl

theorem run_eq (ops : List (Operation w c k)) :
    ∀ {e : Keystream F}, Synced e →
      Checked.run ops e = .ok (CounterRng.run Operation.apply ops e) := by
  induction ops with
  | nil =>
      intro e _
      rfl
  | cons op rest ih =>
      intro e h
      -- The operation leaves the keystream in step, so that the rest of the run meets no fault either.
      simp only [Checked.run, apply_eq h, ok_bind, ih (h.apply op)]
      rfl

end Checked

namespace Keystream

/-- In every state that a keystream can come to, the cursor is below the block length, and the buffer is
the block at the counter whenever a word of it is left.  No run of operations from there stops with a
fault, each of them gives what the unchecked operations give, and no seed source leads to a fault. -/
theorem reachable_sound (h : Reachable e) :
    e.cursor < c ∧ (0 < e.cursor → e.buffer = F.eval e.key e.counter) ∧
      (∀ ops : List (Operation w c k),
        Checked.run ops e = .ok (run Operation.apply ops e)) ∧
      ∀ source : SeedSource,
        (Checked.ofSource source : Except Fault (Logged (Except SeedError (Keystream F)))) =
          .ok (ofSource source) := by
  refine ⟨h.synced.cursor_lt, ?_, ?_, Checked.ofSource_eq⟩
  · intro hleft
    exact h.synced.buffer_eq (Nat.ne_of_gt hleft)
  · intro ops
    exact Checked.run_eq ops h.synced

/-- A block function that has no key. -/
def turned : BlockFunction .w64 5 0 where
  eval _ counter := counter.rotateLeft 1
  pos := Nat.succ_pos 4

/-- A keystream with four words left of the block after the greatest counter. -/
def fourLeft : Keystream turned :=
  ((ofWord 5).setCounter (Block.broadcast Word.greatest)).generate.2

theorem reachable_fourLeft : Reachable fourLeft :=
  .apply (.move .generate) (.apply (.move (.setCounter _)) (.start (.ofWord 5)))

/-- Skips within a block and past it, a derivation, a read, and a seed source of which nothing is needed. -/
def withinAndPast : List (Operation .w64 5 0) :=
  [.discard 1, .derive #v[], .discard 100, .fillBytes 5, .reseedFrom (.ofWords [1])]

theorem reachable_sound_four_left :
    Reachable fourLeft ∧ 0 < fourLeft.cursor ∧
      fourLeft.buffer = turned.eval fourLeft.key fourLeft.counter ∧
      Checked.run withinAndPast fourLeft = .ok (run Operation.apply withinAndPast fourLeft) := by
  have hleft : 0 < fourLeft.cursor := by decide +kernel
  rcases reachable_sound reachable_fourLeft with ⟨_, hbuffer, hrun, _⟩
  exact ⟨reachable_fourLeft, hleft, hbuffer hleft, hrun withinAndPast⟩

end Keystream
end CounterRng
