import CounterRng.Threefry
import CounterRng.Proofs.Digest
import CounterRng.Proofs.Keystream.Discard
import CounterRng.Proofs.Nesting

/-!
# Lineage — descendants through a digest go back to a seed and the keys on the way

A child that is derived through a digest is its parent reseeded and drawn from, and the seed is made from
the seed that the parent has on record.  Two things about the parent keep everything else out: drawing
leaves the seed on record, and reseeding leaves nothing of what was before (`SeedOnly`).  Then two parents
with one seed have the same children, whatever was drawn from them, and the same descendants down any line
of keys.  Keystreams and seeded sources are of this kind, and so are they behind any number of layers.

* `SeedOnly.descendant_eq` — two lines of descent under the same keys;
* `descendant_nest` and `SeedOnly.descendant_eq_within` — lines of descent behind layers;
* `value_viaDigest` and `viaDigest_beq_discard` — what a child is made of;
* `hash_descendants` — all of it for the engines of the library.
-/

namespace CounterRng
namespace Derivation

universe u

open Generator

/-! ## Lines of descent -/

/-- A step down a line of descent: words are drawn from the parent, and then a child is derived. -/
structure Generation (w : Width) where
  drawn : Nat
  key : Word w

variable {σ : Type u} {w : Width} [Generator σ w]

def descendant (D : Digest) : List (Generation w) → σ → σ
  | [], s => s
  | g :: rest, s => descendant D rest (viaDigest D (advance g.drawn s) g.key).value

/-- Drawing leaves the seed on record, and reseeding leaves nothing else. -/
structure SeedOnly (σ : Type u) {w : Width} [Generator σ w] : Prop where
  seedValue_next (s : σ) : seedValue (next s).2 = seedValue s
  reseed_eq (s t : σ) (x : Word w) : reseed s x = reseed t x

namespace SeedOnly

theorem seedValue_advance (h : SeedOnly σ) (n : Nat) (s : σ) :
    seedValue (advance n s) = seedValue s := by
  induction n generalizing s with
  | zero =>
      rfl
  | succ n ih =>
      exact (ih (next s).2).trans (h.seedValue_next s)

theorem viaDigest_eq (h : SeedOnly σ) (D : Digest) {s t : σ} (hseed : seedValue s = seedValue t)
    (key : Word w) : viaDigest D s key = viaDigest D t key := by
  simp only [viaDigest, hseed, h.reseed_eq s t]

/-- Under the same keys, two lines of descent from one seed come to the same descendant, however many
words are drawn on the way. -/
theorem descendant_eq (h : SeedOnly σ) (D : Digest) {left right : List (Generation w)} {s t : σ}
    (hne : left ≠ []) (hkeys : left.map Generation.key = right.map Generation.key)
    (hseed : seedValue s = seedValue t) : descendant D left s = descendant D right t := by
  -- By induction on one line for all pairs of ancestors: two children are one and the same, and the
  -- line below them starts from one seed.
  induction left generalizing right s t with
  | nil =>
      exact absurd rfl hne
  | cons g rest ih =>
      cases right with
      | nil =>
          cases hkeys
      | cons g' rest' =>
          rcases List.cons.inj hkeys with ⟨hkey, hrest⟩
          -- The draws before the derivation leave both seeds as they are.
          have hchild : viaDigest D (advance g.drawn s) g.key =
              viaDigest D (advance g'.drawn t) g'.key := by
            rw [hkey]
            apply h.viaDigest_eq
            rw [h.seedValue_advance, h.seedValue_advance, hseed]
          have hvalue := congrArg Logged.value hchild
          -- Below the last child nothing is drawn, so that this step is what `hchild` says.
          cases rest with
          | nil =>
              cases rest' with
              | nil =>
                  exact hvalue
              | cons _ _ =>
                  cases hrest
          | cons next rest =>
              have hbelow : descendant D (next :: rest) (viaDigest D (advance g.drawn s) g.key).value =
                  descendant D rest' (viaDigest D (advance g'.drawn t) g'.key).value :=
                ih (List.cons_ne_nil next rest) hrest (congrArg seedValue hvalue)
              exact hbelow

end SeedOnly

/-! ## The engines of the library -/

theorem seedOnly_keystream {c k : Nat} {F : BlockFunction w c k} : SeedOnly (Keystream F) where
  seedValue_next e := by
    have hkey : e.generate.2.key = e.key := Keystream.key_generate e
    exact congrArg (fun key => Vector.getD key 0 0) hkey
  reseed_eq _ _ _ := rfl

theorem seedOnly_seededSource {ρ : Type u} [RandomSource ρ] [IntegerSeeded ρ] :
    SeedOnly (SeededSource ρ w) where
  seedValue_next _ := rfl
  reseed_eq _ _ _ := rfl

/-- A line of descent from a nested engine is the one from the bare engine, behind the same layers. -/
theorem descendant_nest {σ : Type} [Engine σ w] (D : Digest) (more : Nat)
    (line : List (Generation w)) (s : σ) :
    descendant D line (AnyEngine.nest more s) = AnyEngine.nest more (descendant D line s) := by
  induction line generalizing s with
  | nil =>
      rfl
  | cons g rest ih =>
      have hdrawn : advance g.drawn (AnyEngine.nest more s) =
          AnyEngine.nest more (advance g.drawn s) :=
        (AnyEngine.simulation_nest more).advance (s := s) rfl g.drawn
      rw [descendant, hdrawn, AnyEngine.viaDigest_nest]
      exact ih _

/-- The same behind layers: as many layers around both lines of descent leave them alike. -/
theorem SeedOnly.descendant_eq_within {σ : Type} [Engine σ w] (h : SeedOnly σ) (D : Digest)
    {left right : List (Generation w)} {s t : σ} (hne : left ≠ [])
    (hkeys : left.map Generation.key = right.map Generation.key) (hseed : seedValue s = seedValue t) :
    descendant D left s = descendant D right t ∧
      ∀ more, descendant D left (AnyEngine.nest more s) =
        descendant D right (AnyEngine.nest more t) := by
  have hbare := h.descendant_eq D hne hkeys hseed
  refine ⟨hbare, ?_⟩
  intro more
  calc
    descendant D left (AnyEngine.nest more s)
        = AnyEngine.nest more (descendant D left s) := descendant_nest D more left s
    _ = AnyEngine.nest more (descendant D right t) := congrArg (AnyEngine.nest more) hbare
    _ = descendant D right (AnyEngine.nest more t) := (descendant_nest D more right t).symm

/-! ## What a child is made of -/

theorem value_viaDigest {σ : Type u} [Generator σ w] (D : Digest) (parent : σ) (key : Word w) :
    (viaDigest D parent key).value =
      advance (Bytes.setBits (hashed D key (seedValue parent)).toList)
        (reseed parent (leading (hashed D key (seedValue parent)).toList)) := by
  simp only [viaDigest, digest_eq_wordsOf, draws_wordsOf, ofDigest_wordsOf]

theorem setBits_hashed_le (D : Digest) (key seed : Word w) :
    Bytes.setBits (hashed D key seed).toList ≤ 160 := by
  have hbits := Bytes.setBits_le (hashed D key seed).toList
  rw [Vector.length_toList] at hbits
  exact hbits

/-- A skip by the number of draws comes to where the draws come to. -/
theorem viaDigest_beq_discard {c k : Nat} {F : BlockFunction w c k} (D : Digest) (e : Keystream F)
    (key : Word w) :
    ((viaDigest D e key).value ==
      (Keystream.ofWord (leading (hashed D key (seedValue e)).toList) : Keystream F).discard
        (BitVec.ofNat 128 (Bytes.setBits (hashed D key (seedValue e)).toList))) = true := by
  have hfits : Bytes.setBits (hashed D key (seedValue e)).toList < 2 ^ (128 : Nat) :=
    Nat.lt_of_le_of_lt (setBits_hashed_le D key _) (by decide)
  -- The number of draws is less than the greatest skip, and so is not cut.
  have hagree := Keystream.agree_discard_advance (F := F)
    (Keystream.synced_ofKey (Block.broadcast (leading (hashed D key (seedValue e)).toList)))
    (BitVec.ofNat 128 (Bytes.setBits (hashed D key (seedValue e)).toList))
  rw [BitVec.toNat_ofNat, Nat.mod_eq_of_lt hfits] at hagree
  rw [value_viaDigest]
  exact Keystream.beq_iff_agree.2 hagree.symm

/-- Keystreams of any shape and seeded sources, bare or behind layers, have the same descendants under
the same keys if they have the same seed on record, in whatever states they are and however many words
are drawn from them and from every generation in between.  A child is its parent reseeded with the limb
written by the leading bytes that the digest gives of the label, the key and the recorded seed, and then
advanced by as many words as there are set bits in all twenty bytes, at most 160; from a keystream it is
the fresh keystream of that seed after a skip. -/
theorem hash_descendants (D : Digest) {w : Width} :
    (∀ {left right : List (Generation w)}, left ≠ [] →
      left.map Generation.key = right.map Generation.key →
        (∀ {c k : Nat} {F : BlockFunction w c k} {a b : Keystream F}, seedValue a = seedValue b →
          descendant D left a = descendant D right b ∧
            ∀ more, descendant D left (AnyEngine.nest more a) =
              descendant D right (AnyEngine.nest more b)) ∧
        (∀ {ρ : Type} [RandomSource ρ] [IntegerSeeded ρ] {a b : SeededSource ρ w},
          seedValue a = seedValue b →
            descendant D left a = descendant D right b ∧
              ∀ more, descendant D left (AnyEngine.nest more a) =
                descendant D right (AnyEngine.nest more b))) ∧
    (∀ key seed : Word w,
      let bytes := (hashed D key seed).toList
      Bytes.setBits bytes ≤ 160 ∧
        (∀ {σ : Type u} [Generator σ w] (parent : σ), seedValue parent = seed →
          (viaDigest D parent key).value =
            advance (Bytes.setBits bytes) (reseed parent (leading bytes))) ∧
        (∀ {c k : Nat} {F : BlockFunction w c k} (e : Keystream F), e.key.getD 0 0 = seed →
          ((viaDigest D e key).value ==
            (Keystream.ofWord (leading bytes) : Keystream F).discard
              (BitVec.ofNat 128 (Bytes.setBits bytes))) = true)) := by
  constructor
  · intro left right hne hkeys
    constructor
    · intro c k F a b hseed
      exact seedOnly_keystream.descendant_eq_within D hne hkeys hseed
    · intro ρ _ _ a b hseed
      exact seedOnly_seededSource.descendant_eq_within D hne hkeys hseed
  · intro key seed
    refine ⟨setBits_hashed_le D key seed, ?_, ?_⟩
    · intro σ _ parent hseed
      rw [← hseed]
      exact value_viaDigest D parent key
    · intro c k F e hseed
      rw [← hseed]
      exact viaDigest_beq_discard D e key

/-- Two keystreams with the same first limb in their keys, one of them within a block. -/
def fresh : Keystream (threefry2x64 20) := Keystream.ofKey #v[5, 1]

def advanced : Keystream (threefry2x64 20) :=
  ((Keystream.ofKey #v[5, 9]).setCounter #v[7, 0]).generate.2

/-- Two seeded sources with the same seed, one of them drawn from. -/
def undrawn : SeededSource (Keystream (threefry4x64 13)) .w64 := SeededSource.ofSeed 5

def drawn : SeededSource (Keystream (threefry4x64 13)) .w64 := (next undrawn).2

def patient : List (Generation .w64) := [⟨3, 7⟩, ⟨0, 8⟩]

def hasty : List (Generation .w64) := [⟨0, 7⟩, ⟨11, 8⟩]

/-- A source with narrow words. -/
def narrow : SeededSource (Keystream (threefry2x64 20)) .w32 := SeededSource.ofSeed 5489

/-- Grandchildren of each two, derived under the keys 7 and 8 after different numbers of draws, and two
children under the key 7: of the source with narrow words, whose digest begins with `50d7e83a` and has 79
set bits, and of a keystream. -/
theorem hash_descendants_of_five :
    (patient ≠ [] ∧ patient.map Generation.key = hasty.map Generation.key ∧
      fresh.key ≠ advanced.key ∧ seedValue fresh = seedValue advanced ∧
      seedValue undrawn = seedValue drawn ∧
      descendant sha1 patient fresh = descendant sha1 hasty advanced ∧
      descendant sha1 patient (AnyEngine.nest 2 fresh) =
        descendant sha1 hasty (AnyEngine.nest 2 advanced) ∧
      descendant sha1 patient undrawn = descendant sha1 hasty drawn ∧
      descendant sha1 patient (AnyEngine.nest 2 undrawn) =
        descendant sha1 hasty (AnyEngine.nest 2 drawn)) ∧
    (seedValue narrow = 5489 ∧
      digest sha1 (5489 : Word32) 7 =
        #v[0x50d7e83a, 0x3e6ce489, 0x05a4ec46, 0xbe83a7e5, 0xd5e30392] ∧
      (viaDigest sha1 narrow 7).value = advance 79 (SeededSource.ofSeed 0x50d7e83a)) ∧
    (fresh.key.getD 0 0 = 5 ∧
      ((viaDigest sha1 fresh 7).value ==
        (Keystream.ofWord 0xba0d3c37645131d1 : Keystream (threefry2x64 20)).discard 74) = true) := by
  refine ⟨?_, ?_, ?_⟩
  · have hne : patient ≠ [] := List.cons_ne_nil _ _
    have hkeys : patient.map Generation.key = hasty.map Generation.key := rfl
    have hseeds : seedValue fresh = seedValue advanced := rfl
    have hseeds' : seedValue undrawn = seedValue drawn := rfl
    rcases (hash_descendants.{0} sha1).1 hne hkeys with ⟨hkeystreams, hsources⟩
    rcases hkeystreams hseeds with ⟨hbare, hnested⟩
    rcases hsources hseeds' with ⟨hbare', hnested'⟩
    exact ⟨hne, hkeys, by decide +kernel, hseeds, hseeds', hbare, hnested 2, hbare', hnested' 2⟩
  · have hchild := ((hash_descendants.{0} sha1).2 7 5489).2.1 narrow rfl
    have hdraws : Bytes.setBits (hashed sha1 (7 : Word32) 5489).toList = 79 := by decide +kernel
    have hleading : (leading (hashed sha1 (7 : Word32) 5489).toList : Word32) = 0x50d7e83a := by
      decide +kernel
    rw [hdraws, hleading] at hchild
    exact ⟨rfl, by decide +kernel, hchild⟩
  · have hchild := ((hash_descendants.{0} sha1).2 7 5).2.2 fresh rfl
    have hdraws : Bytes.setBits (hashed sha1 (7 : Word64) 5).toList = 74 := by decide +kernel
    have hleading : (leading (hashed sha1 (7 : Word64) 5).toList : Word64) = 0xba0d3c37645131d1 := by
      decide +kernel
    rw [hdraws, hleading] at hchild
    exact ⟨rfl, hchild⟩

end Derivation
end CounterRng
