import CounterRng.Threefry
import CounterRng.Proofs.Keystream.Operation

/-!
# Congruence — equal keystreams cannot be told apart

Equality of keystreams leaves the buffer out, and equal keystreams do hold different ones: a skip, a
whole block or a change of the counter leaves behind what was there before.  No operation reads such a
buffer.  The one that looks most as if it did is the native derivation, which rotates and enciphers a
buffer; but it draws a word first, and from then on equal keystreams are the same (`Agree.loaded_eq`).

* `Agree.apply` — one operation answers alike and leaves equal keystreams;
* `run_congr_of_beq` — so does every run, from any two reachable states that are equal.
-/

namespace CounterRng
namespace Keystream

variable {w : Width} {c k : Nat} {F : BlockFunction w c k} {a b : Keystream F}

theorem agree_of_eq {α : Type u} {p q : α × Keystream F} (h : p = q) :
    p.1 = q.1 ∧ Agree p.2 q.2 := by
  rw [h]
  exact ⟨rfl, Agree.refl q.2⟩

/-! ## Drawing -/

/-- With a word to hand out, equal keystreams are the same. -/
theorem Agree.loaded_eq (h : Agree a b) (ha : Synced a) (hb : Synced b) : a.loaded = b.loaded := by
  have hbuffer := h.buffer_eq ha hb
  rcases a with ⟨key, counter, buffer, cursor⟩
  rcases b with ⟨key', counter', buffer', cursor'⟩
  obtain ⟨rfl, rfl, rfl⟩ : counter = counter' ∧ cursor = cursor' ∧ key = key' := h
  by_cases hempty : cursor = 0
  · -- Both are refilled, which replaces the buffer.
    simp only [loaded, hempty, if_true]
    rfl
  · -- Both buffers are the block at the counter.
    obtain rfl : buffer = buffer' := hbuffer hempty
    rfl

theorem Agree.generate_eq (h : Agree a b) (ha : Synced a) (hb : Synced b) :
    a.generate = b.generate := by
  simp only [generate, h.loaded_eq ha hb]

theorem Agree.advance (h : Agree a b) (ha : Synced a) (hb : Synced b) (n : Nat) :
    Agree (Generator.advance n a) (Generator.advance n b) := by
  cases n with
  | zero =>
      exact h
  | succ n =>
      -- The first draw makes the two the same, so that no induction is needed.
      have hsame : Generator.advance n a.generate.2 = Generator.advance n b.generate.2 := by
        rw [h.generate_eq ha hb]
      exact hsame ▸ Agree.refl (Generator.advance n a.generate.2)

theorem Agree.leap (h : Agree a b) (n : Distance) : Agree (a.leap n) (b.leap n) := by
  rcases h with ⟨hcounter, hcursor, hkey⟩
  refine ⟨?_, ?_, hkey⟩
  · simp only [Keystream.leap, hcounter, hcursor]
  · simp only [Keystream.leap, hcursor]

theorem Agree.discard (h : Agree a b) (ha : Synced a) (hb : Synced b) (n : Distance) :
    Agree (a.discard n) (b.discard n) := by
  rw [discard_eq_advance_leap, discard_eq_advance_leap, h.2.1]
  exact (h.leap n).advance (ha.leap n) (hb.leap n) _

theorem Agree.fillBytes (h : Agree a b) (ha : Synced a) (hb : Synced b) (n : Nat) :
    (RandomSource.fillBytes n a).1 = (RandomSource.fillBytes n b).1 ∧
      Agree (RandomSource.fillBytes n a).2 (RandomSource.fillBytes n b).2 := by
  rcases Nat.eq_zero_or_pos n with rfl | hpos
  · -- No byte is wanted and no word is drawn, so that the buffers may still differ.
    exact ⟨rfl, h⟩
  · exact agree_of_eq (RandomSource.fillBytes_congr (h.generate_eq ha hb) hpos)

/-! ## Seeding and deriving -/

theorem Agree.reseedFrom (h : Agree a b) (source : SeedSource) :
    (a.reseedFrom source).map Prod.fst = (b.reseedFrom source).map Prod.fst ∧
      Agree (a.reseedFrom source).value.2 (b.reseedFrom source).value.2 := by
  -- What a source gives does not depend on the keystream that is to be seeded.
  unfold Keystream.reseedFrom Logged.map
  cases (Keystream.ofSource source : Logged (Except SeedError (Keystream F))).value with
  | error cause =>
      exact ⟨rfl, h⟩
  | ok fresh =>
      exact ⟨rfl, Agree.refl fresh⟩

theorem Agree.derive_eq (h : Agree a b) (ha : Synced a) (hb : Synced b) (key : Block w k) :
    a.derive key = b.derive key := by
  simp only [derive, h.generate_eq ha hb, h.2.1]
  rfl

theorem Agree.viaDigest_eq (h : Agree a b) (D : Digest) (x : Word w) :
    Derivation.viaDigest D a x = Derivation.viaDigest D b x := by
  have hseed : a.seedValue = b.seedValue := by rw [seedValue, seedValue, h.2.2]
  -- Of the parent the child keeps the seed only, which is read off the key.
  have hvia : ∀ e : Keystream F, Derivation.viaDigest D e x =
      let digest := Derivation.digest D e.seedValue x
      ⟨Generator.advance (Derivation.draws digest) (ofWord (Word.ofDigest digest) : Keystream F),
        [.digestDerivation (Derivation.draws digest)]⟩ := fun _ => rfl
  rw [hvia a, hvia b, hseed]

/-! ## Operations -/

theorem Agree.apply_move (h : Agree a b) (ha : Synced a) (hb : Synced b) (m : Move w c k) :
    (m.apply a).1 = (m.apply b).1 ∧ Agree (m.apply a).2 (m.apply b).2 := by
  have hcounter : a.counter = b.counter := h.1
  have hkey : a.key = b.key := h.2.2
  cases m with
  | generate =>
      refine agree_of_eq ?_
      simp only [Move.apply, h.generate_eq ha hb]
  | generateBlock =>
      refine ⟨?_, ?_, rfl, hkey⟩
      · simp only [Move.apply, generateBlock, hcounter, hkey]
      · exact congrArg Block.increment hcounter
  | setCounter counter =>
      exact ⟨rfl, rfl, rfl, hkey⟩
  | rewind =>
      refine ⟨rfl, ?_⟩
      simp only [Move.apply, rewind, hkey]
      exact Agree.refl _
  | reseed x =>
      exact ⟨rfl, Agree.refl _⟩
  | rekey key =>
      exact ⟨rfl, Agree.refl _⟩

/-- An operation answers equal keystreams alike, even with the same child where it derives one, and
leaves them equal. -/
theorem Agree.apply (h : Agree a b) (ha : Synced a) (hb : Synced b) (op : Operation w c k) :
    (op.apply a).1 = (op.apply b).1 ∧ Agree (op.apply a).2 (op.apply b).2 := by
  cases op with
  | move m =>
      exact h.apply_move ha hb m
  | discard n =>
      exact ⟨rfl, h.discard ha hb n⟩
  | reseedFrom source =>
      rcases h.reseedFrom source with ⟨hreport, hagree⟩
      exact ⟨congrArg Outcome.seeded hreport, hagree⟩
  | blockAt counter =>
      refine ⟨?_, h⟩
      simp only [Operation.apply, blockAt, h.2.2]
  | seedValue =>
      refine ⟨?_, h⟩
      simp only [Operation.apply, seedValue, h.2.2]
  | derive key =>
      exact ⟨congrArg Outcome.child (h.derive_eq ha hb key), h⟩
  | deriveWord x =>
      exact ⟨congrArg Outcome.child (h.derive_eq ha hb (Block.broadcast x)), h⟩
  | deriveStream x =>
      exact ⟨congrArg Outcome.child (h.derive_eq ha hb (Block.broadcast x)), h⟩
  | deriveVia D x =>
      exact ⟨congrArg Outcome.child (h.viaDigest_eq D x), h⟩
  | next32 =>
      refine agree_of_eq ?_
      simp only [Operation.apply, RandomSource.next32_congr (h.generate_eq ha hb)]
  | next64 =>
      refine agree_of_eq ?_
      simp only [Operation.apply, RandomSource.next64_congr (h.generate_eq ha hb)]
  | fillBytes n =>
      rcases h.fillBytes ha hb n with ⟨hbytes, hagree⟩
      exact ⟨congrArg Outcome.bytes hbytes, hagree⟩

theorem lockstep_agree :
    Lockstep (Operation.apply (F := F)) Operation.apply
      fun a b => Synced a ∧ Synced b ∧ Agree a b where
  answer op h := by
    rcases h with ⟨ha, hb, hagree⟩
    exact (hagree.apply ha hb op).1
  next op h := by
    rcases h with ⟨ha, hb, hagree⟩
    exact ⟨ha.apply op, hb.apply op, (hagree.apply ha hb op).2⟩

/-- Whatever their histories, two keystreams that are equal answer every list of operations alike, and
are equal after it. -/
theorem run_congr_of_beq (ha : Reachable a) (hb : Reachable b) (h : a == b)
    (ops : List (Operation w c k)) :
    (run Operation.apply ops a).1 = (run Operation.apply ops b).1 ∧
      (run Operation.apply ops a).2 == (run Operation.apply ops b).2 := by
  have hstart : Synced a ∧ Synced b ∧ Agree a b := ⟨ha.synced, hb.synced, beq_iff_agree.1 h⟩
  rcases lockstep_agree.run ops hstart with ⟨hanswers, _, _, hagree⟩
  exact ⟨hanswers, beq_iff_agree.2 hagree⟩

/-- Two keystreams that came to one counter, the first of them by way of another block. -/
def detour : Keystream (threefry2x64 20) := (ofWord 5).generate.2.setCounter #v[9, 0]

def direct : Keystream (threefry2x64 20) := (ofWord 5).setCounter #v[9, 0]

theorem reachable_detour : Reachable detour :=
  .apply (.move (.setCounter _)) (.apply (.move .generate) (.start (.ofWord 5)))

theorem reachable_direct : Reachable direct :=
  .apply (.move (.setCounter _)) (.start (.ofWord 5))

/-- The two are equal although their buffers differ, and are derived from, skipped and refused a seed
alike. -/
theorem run_congr_of_beq_detour :
    Reachable detour ∧ Reachable direct ∧ (detour == direct) = true ∧
      detour.buffer ≠ direct.buffer ∧
      (run Operation.apply [.derive #v[1, 2], .discard 5, .reseedFrom (.ofWords [3]), .fillBytes 13]
          detour).1 =
        (run Operation.apply [.derive #v[1, 2], .discard 5, .reseedFrom (.ofWords [3]),
          .fillBytes 13] direct).1 ∧
      ((run Operation.apply [.derive #v[1, 2], .discard 5, .reseedFrom (.ofWords [3]),
          .fillBytes 13] detour).2 ==
        (run Operation.apply [.derive #v[1, 2], .discard 5, .reseedFrom (.ofWords [3]),
          .fillBytes 13] direct).2) = true := by
  have hequal : (detour == direct) = true := beq_iff_agree.2 ⟨rfl, rfl, rfl⟩
  refine ⟨reachable_detour, reachable_direct, hequal, by decide +kernel, ?_⟩
  exact run_congr_of_beq reachable_detour reachable_direct hequal _

end Keystream
end CounterRng
