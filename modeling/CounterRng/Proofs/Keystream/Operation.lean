import CounterRng.Keystream.Child
import CounterRng.Keystream.Seeding
import CounterRng.Keystream.Stream
import CounterRng.Proofs.Draws
import CounterRng.Proofs.Lockstep

/-!
# Operation — what can be asked of a keystream, and which states that leads to

An operation answers with an `Outcome` and leaves a next state.  Those that only move within a stream or
to another one are `Move`s; the others look, skip, seed from a source, derive children, or draw numbers
and bytes.

* `Operation.apply` — the answer and the next state, `run Operation.apply` for a list of operations;
* `Reachable` — the states that starting, operating and deriving lead to, in any order;
* `Synced.apply` and `Reachable.synced` — every one of them keeps the buffer in step.

Copying a keystream is no operation of its own, as states are values.
-/

namespace CounterRng
namespace Keystream

/-! ## Operations and their outcomes -/

/-- Going on in a stream, by a word or a block, or to a place in this or another stream. -/
inductive Move (w : Width) (c k : Nat) where
  | generate
  | generateBlock
  | setCounter (counter : Block w c)
  | rewind
  | reseed (x : Word w)
  | rekey (key : Block w k)

inductive Operation (w : Width) (c k : Nat) where
  | move (m : Move w c k)
  | discard (n : Distance)
  | reseedFrom (source : SeedSource)
  | blockAt (counter : Block w c)
  | seedValue
  | derive (key : Block w k)
  | deriveWord (x : Word w)
  /-- The derivation that a keystream has as an engine. -/
  | deriveStream (x : Word w)
  | deriveVia (D : Digest) (x : Word w)
  | next32
  | next64
  | fillBytes (n : Nat)

inductive Outcome {w : Width} {c k : Nat} (F : BlockFunction w c k) where
  | done
  | word (x : Word w)
  | block (b : Block w c)
  | seeded (report : Logged (Except SeedError Unit))
  | child (derived : Logged (Keystream F))
  | number32 (x : Word32)
  | number64 (x : Word64)
  | bytes (bytes : List Byte)

variable {w : Width} {c k : Nat} {F : BlockFunction w c k}

def Move.apply : Move w c k → Keystream F → Outcome F × Keystream F
  | .generate, e => (.word e.generate.1, e.generate.2)
  | .generateBlock, e => (.block e.generateBlock.1, e.generateBlock.2)
  | .setCounter counter, e => (.done, e.setCounter counter)
  | .rewind, e => (.done, e.rewind)
  | .reseed x, _ => (.done, ofWord x)
  | .rekey key, _ => (.done, ofKey key)

def Operation.apply : Operation w c k → Keystream F → Outcome F × Keystream F
  | .move m, e => m.apply e
  | .discard n, e => (.done, e.discard n)
  | .reseedFrom source, e =>
      let report := e.reseedFrom source
      (.seeded (report.map Prod.fst), report.value.2)
  | .blockAt counter, e => (.block (e.blockAt counter), e)
  | .seedValue, e => (.word e.seedValue, e)
  | .derive key, e => (.child (e.derive key), e)
  | .deriveWord x, e => (.child (e.deriveWord x), e)
  | .deriveStream x, e => (.child (Engine.derive e x), e)
  | .deriveVia D x, e => (.child (Derivation.viaDigest D e x), e)
  | .next32, e => (.number32 (RandomSource.next32 e).1, (RandomSource.next32 e).2)
  | .next64, e => (.number64 (RandomSource.next64 e).1, (RandomSource.next64 e).2)
  | .fillBytes n, e => (.bytes (RandomSource.fillBytes n e).1, (RandomSource.fillBytes n e).2)

/-! ## Reachable states -/

/-- How a keystream is made without seed material. -/
inductive Start (w : Width) (k : Nat) where
  | ofKey (key : Block w k)
  | ofWord (x : Word w)
  | default

def Start.key : Start w k → Block w k
  | .ofKey key => key
  | .ofWord x => Block.broadcast x
  | .default => Block.broadcast 0

def Start.keystream : Start w k → Keystream F
  | .ofKey key => Keystream.ofKey key
  | .ofWord x => Keystream.ofWord x
  | .default => Inhabited.default

/-- The states that a keystream can come to, whatever it was made from and asked for. -/
inductive Reachable : Keystream F → Prop where
  | start (s : Start w k) : Reachable s.keystream
  | ofSource {source : SeedSource} {e : Keystream F} :
      (ofSource source).value = .ok e → Reachable e
  | ofBytes (bytes : Vector Byte (k * w.bytes)) : Reachable (ofBytes bytes)
  | ofInteger (seed : Word64) : Reachable (IntegerSeeded.ofInteger seed)
  | apply {e : Keystream F} (op : Operation w c k) : Reachable e → Reachable (op.apply e).2
  | child {e : Keystream F} {derived : Logged (Keystream F)} (op : Operation w c k) :
      Reachable e → (op.apply e).1 = .child derived → Reachable derived.value

/-! ## The invariant -/

theorem Start.keystream_eq (s : Start w k) : (s.keystream : Keystream F) = Keystream.ofKey s.key := by
  cases s <;> rfl

/-- A seed source that suffices gives a fresh keystream. -/
theorem eq_ofKey_of_ofSource {source : SeedSource} {e : Keystream F}
    (h : (ofSource source : Logged (Except SeedError (Keystream F))).value = .ok e) :
    ∃ key, e = Keystream.ofKey key := by
  unfold ofSource at h
  by_cases hshort : (source.fill (Vector.replicate (k * w.parts) (0 : Word32))).2 < k * w.parts
  · simp only [hshort, if_true] at h
    cases h
  · refine ⟨Block.ofParts (source.fill (Vector.replicate (k * w.parts) (0 : Word32))).1, ?_⟩
    simp only [hshort, if_false] at h
    exact (Except.ok.inj h).symm

theorem Synced.reseedFrom {e : Keystream F} (h : Synced e) (source : SeedSource) :
    Synced (e.reseedFrom source).value.2 := by
  unfold Keystream.reseedFrom Logged.map
  cases hsource : (Keystream.ofSource source : Logged (Except SeedError (Keystream F))).value with
  | error cause =>
      -- A source that falls short leaves the keystream as it was.
      exact h
  | ok fresh =>
      rcases eq_ofKey_of_ofSource hsource with ⟨key, rfl⟩
      exact synced_ofKey key

theorem Synced.apply_move {e : Keystream F} (h : Synced e) (m : Move w c k) :
    Synced (m.apply e).2 := by
  cases m with
  | generate =>
      exact h.generate
  | generateBlock =>
      exact synced_generateBlock e
  | setCounter counter =>
      exact synced_setCounter e counter
  | rewind =>
      exact synced_ofKey e.key
  | reseed x =>
      exact synced_ofKey (Block.broadcast x)
  | rekey key =>
      exact synced_ofKey key

theorem Synced.apply {e : Keystream F} (h : Synced e) (op : Operation w c k) :
    Synced (op.apply e).2 := by
  cases op with
  | move m =>
      exact h.apply_move m
  | discard n =>
      exact h.discard n
  | reseedFrom source =>
      exact h.reseedFrom source
  | next32 =>
      exact h.advance 1
  | next64 =>
      simp only [Operation.apply, RandomSource.next64_snd]
      exact h.advance _
  | fillBytes n =>
      simp only [Operation.apply, RandomSource.fillBytes_snd]
      exact h.advance _
  | _ =>
      -- Looking and deriving leave the keystream as it is.
      exact h

/-- A child is a fresh keystream, or one that some words were drawn from. -/
theorem synced_of_apply_eq_child {e : Keystream F} {derived : Logged (Keystream F)}
    (op : Operation w c k) (h : (op.apply e).1 = .child derived) : Synced derived.value := by
  cases op with
  | move m =>
      cases m <;> cases h
  | derive key =>
      cases h
      exact synced_ofKey _
  | deriveWord x =>
      cases h
      exact synced_ofKey _
  | deriveStream x =>
      cases h
      exact synced_ofKey _
  | deriveVia D x =>
      cases h
      -- The child was seeded with a word and then advanced.
      exact (synced_ofKey _).advance _
  | _ =>
      -- No other operation answers with a child.
      cases h

theorem Reachable.synced {e : Keystream F} (h : Reachable e) : Synced e := by
  induction h with
  | start s =>
      rw [s.keystream_eq]
      exact synced_ofKey s.key
  | ofSource hsource =>
      rcases eq_ofKey_of_ofSource hsource with ⟨key, rfl⟩
      exact synced_ofKey key
  | ofBytes bytes =>
      exact synced_ofKey _
  | ofInteger seed =>
      exact synced_ofKey _
  | apply op _ ih =>
      exact ih.apply op
  | child op _ hchild _ =>
      exact synced_of_apply_eq_child op hchild

end Keystream
end CounterRng
