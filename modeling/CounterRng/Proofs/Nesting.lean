import CounterRng.SeededSource
import CounterRng.Threefry
import CounterRng.Proofs.Session

/-!
# Nesting — hiding the type of an engine, however often, changes nothing

An engine can be put behind any number of layers, each of which hides what is inside.  Every operation of
the outermost layer is the operation of the engine at the bottom (`next_nest`, `derive_nest` and the
others, by induction on the layers), so that a nested engine simulates the bare one.  From there a whole
session, with copies and children of every generation, goes the same way on both.

Which derivation is made is settled at the bottom too.  A keystream has one of its own, and a layer around
it takes that one; asked for a derivation through a digest, a layer makes it from the seed at the bottom.

* `simulation_nest` — the nested engine and the bare one;
* `viaDigest_nest` — a child derived through a digest, behind the layers of its parent;
* `nesting_is_transparent` — all sessions, and the two ways to derive from a nested keystream.
-/

namespace CounterRng

universe e

namespace AnyEngine

variable {σ : Type} {w : Width} [Engine σ w]

/-- An engine behind one layer that hides its type, and as many more as are asked for. -/
def nest : (more : Nat) → σ → AnyEngine w
  | 0, s => .of s
  | more + 1, s => .around (nest more s)

/-! ## Operations pass through the layers -/

theorem reset_nest (more : Nat) (s : σ) :
    Generator.reset (nest more s) = nest more (Generator.reset s) := by
  induction more with
  | zero =>
      rfl
  | succ more ih =>
      exact congrArg AnyEngine.around ih

theorem reseed_nest (more : Nat) (s : σ) (x : Word w) :
    Generator.reseed (nest more s) x = nest more (Generator.reseed s x) := by
  induction more with
  | zero =>
      rfl
  | succ more ih =>
      exact congrArg AnyEngine.around ih

theorem seedValue_nest (more : Nat) (s : σ) :
    Generator.seedValue (nest more s) = Generator.seedValue s := by
  induction more with
  | zero =>
      rfl
  | succ more ih =>
      exact ih

theorem next_nest (more : Nat) (s : σ) :
    Generator.next (nest more s) = ((Generator.next s).1, nest more (Generator.next s).2) := by
  induction more with
  | zero =>
      rfl
  | succ more ih =>
      exact congrArg (fun drawn => (drawn.1, AnyEngine.around drawn.2)) ih

/-- The derivation is the one of the engine at the bottom, records included. -/
theorem derive_nest (more : Nat) (s : σ) (key : Word w) :
    Engine.derive (nest more s) key = (Engine.derive s key).map (nest more) := by
  induction more with
  | zero =>
      rfl
  | succ more ih =>
      exact congrArg (Logged.map AnyEngine.around) ih

/-! ## What is built from them -/

theorem simulation_nest (more : Nat) :
    Engine.Simulation fun (s : σ) (m : AnyEngine w) => m = nest more s where
  reset := by
    rintro s _ rfl
    exact reset_nest more s
  reseed := by
    rintro s _ x rfl
    exact reseed_nest more s x
  seedValue := by
    rintro s _ rfl
    exact (seedValue_nest more s).symm
  word := by
    rintro s _ rfl
    rw [next_nest]
  next := by
    rintro s _ rfl
    rw [next_nest]
  log := by
    rintro s _ key rfl
    rw [derive_nest]
    rfl
  child := by
    rintro s _ key rfl
    rw [derive_nest]
    rfl

theorem viaDigest_nest (D : Digest) (more : Nat) (s : σ) (key : Word w) :
    Derivation.viaDigest D (nest more s) key =
      (Derivation.viaDigest D s key).map (nest more) := by
  rcases (simulation_nest more).viaDigest (s := s) rfl D key with ⟨hlog, hvalue⟩
  calc
    Derivation.viaDigest D (nest more s) key
        = ⟨(Derivation.viaDigest D (nest more s) key).value,
            (Derivation.viaDigest D (nest more s) key).log⟩ := rfl
    _ = ⟨nest more (Derivation.viaDigest D s key).value, (Derivation.viaDigest D s key).log⟩ := by
          rw [hvalue, ← hlog]

/-! ## Engines of the library record a derivation once -/

theorem recordsOnce_keystream {c k : Nat} {F : BlockFunction w c k} :
    Session.RecordsOnce (Keystream F) :=
  fun _ _ => rfl

theorem recordsOnce_seededSource {ρ : Type} [RandomSource ρ] [IntegerSeeded ρ] :
    Session.RecordsOnce (SeededSource ρ w) :=
  fun _ _ => rfl

/-! ## Sessions -/

open Session

/-- An engine of any type, behind any number of layers, goes through every session as the bare engine
does: the replies and their records are the same, and every engine of the session is the bare one behind
as many layers.  If the bare engine records its derivations once, as the engines of the library do, then
so do all layers together.  From a nested keystream, the derivation of an engine is the keystream's own,
and the derivation through a digest reseeds from the first limb of its key. -/
theorem nesting_is_transparent {ε : Type e} {w : Width} (more : Nat) :
    (∀ {σ : Type} [Engine σ w] (s : σ) (requests : List (Nat × Request w)),
      (run (step (ε := ε)) requests [nest more s]).1 = (run (step (ε := ε)) requests [s]).1 ∧
        (run (step (ε := ε)) requests [nest more s]).2 =
          (run (step (ε := ε)) requests [s]).2.map (nest more) ∧
        (RecordsOnce σ → ∀ reply ∈ (run (step (ε := ε)) requests [nest more s]).1,
          reply.log.length = reply.value.derivations)) ∧
    (∀ {c k : Nat} {F : BlockFunction w c k} (e : Keystream F) (key : Word w),
      Engine.derive (nest more e) key = (e.derive (Block.broadcast key)).map (nest more) ∧
        ∀ D : Digest,
          let digest := Derivation.digest D (e.key.getD 0 0) key
          Derivation.viaDigest D (nest more e) key =
            ⟨nest more (Generator.advance (Derivation.draws digest)
                (Keystream.ofWord (Word.ofDigest digest) : Keystream F)),
              [.digestDerivation (Derivation.draws digest)]⟩) ∧
    (∀ {c k : Nat} {F : BlockFunction w c k}, RecordsOnce (Keystream F)) ∧
    (∀ {ρ : Type} [RandomSource ρ] [IntegerSeeded ρ], RecordsOnce (SeededSource ρ w)) := by
  refine ⟨?_, ?_, recordsOnce_keystream, recordsOnce_seededSource⟩
  · intro σ _ s requests
    have hstart : List.Forall₂ (fun (s : σ) (m : AnyEngine w) => m = nest more s) [s] [nest more s] :=
      .cons rfl .nil
    rcases (lockstep_step (ε := ε) (simulation_nest more)).run requests hstart with
      ⟨hreplies, hengines⟩
    refine ⟨hreplies.symm, ?_, ?_⟩
    · -- Related lists of engines are the bare ones and these behind the layers.
      have hmap := List.forall₂_map_left_iff.2 (hengines.imp fun _ _ h => h.symm)
      exact (List.forall₂_eq_eq_eq ▸ hmap).symm
    · intro honce
      rw [← hreplies]
      exact length_log_run honce requests [s]
  · intro c k F e key
    refine ⟨derive_nest more e key, ?_⟩
    -- The digest is made at the bottom: a layer has the seed of what is inside, and no seed of its own.
    intro D digest
    rw [viaDigest_nest]
    rfl

/-- Draws, both derivations and a copy, and then the same of a copy and of children; there is no engine
of number nine. -/
def familyRequests : List (Nat × Request .w64) := [
  (0, .draw .next32), (0, .derive 7), (0, .copy), (1, .deriveVia sha1 8), (2, .reseed 5),
  (3, .derive 9), (3, .draw (.fillBytes 13)), (9, .seedValue), (2, .draw .next64)]

/-- A keystream behind three layers goes through these as the bare one, and records its three
derivations. -/
theorem nesting_is_transparent_family :
    let bare : Keystream (threefry2x64 13) := Keystream.ofWord 1234
    (run (step (ε := Empty)) familyRequests [nest 2 bare]).1 =
        (run (step (ε := Empty)) familyRequests [bare]).1 ∧
      (run (step (ε := Empty)) familyRequests [nest 2 bare]).2 =
        (run (step (ε := Empty)) familyRequests [bare]).2.map (nest 2) ∧
      RecordsOnce (Keystream (threefry2x64 13)) ∧
      ∀ reply ∈ (run (step (ε := Empty)) familyRequests [nest 2 bare]).1,
        reply.log.length = reply.value.derivations := by
  intro bare
  rcases (nesting_is_transparent (ε := Empty) 2).1 bare familyRequests with
    ⟨hreplies, hengines, hrecords⟩
  exact ⟨hreplies, hengines, recordsOnce_keystream, hrecords recordsOnce_keystream⟩

end AnyEngine
end CounterRng
