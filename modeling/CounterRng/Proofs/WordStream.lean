import CounterRng.AnyEngine
import CounterRng.Block.Codec
import CounterRng.Proofs.Draws
import CounterRng.Proofs.Keystream.Discard
import CounterRng.Proofs.Lockstep

/-!
# WordStream — every draw takes the next words of the stream, in order

A generator hands out a stream of words.  Whatever is drawn from it, a word, a number or a string of
bytes, takes the next words of that stream, as many as it needs and no more; and if each word is
written in bytes, least significant first, then the bytes drawn are the bytes written.  How the words
are grouped into numbers on the way does not show.

* `Generator.wordAt` and `bytesOf` — the stream in words, and a part of it in bytes;
* `toBytesLE_next64`, `fillBytes_fst` — what a draw hands out, one law for both widths;
* `Call` and `Call.read` — what can be drawn, and how it is read off a stream of words;
* `run_calls` — a run of calls reads on from one word to the next, without a gap;
* `calls_read_stream` — the same for engines and keystreams, and skipping instead of drawing.
-/

namespace CounterRng

/-! ## The stream -/

/-- Word `i` of those that a generator hands out. -/
def Generator.wordAt {σ : Type u} {w : Width} [Generator σ w] (s : σ) (i : Nat) : Word w :=
  (next (advance i s)).1

namespace RandomSource

open Generator

variable {σ : Type u} {w : Width} [Generator σ w]

theorem wordAt_advance (n : Nat) (s : σ) (i : Nat) : wordAt (advance n s) i = wordAt s (n + i) := by
  rw [wordAt, wordAt, advance_add]

/-- Some successive words of a sequence, written in bytes. -/
def bytesOf (word : Nat → Word w) (start count : Nat) : List Byte :=
  (List.range' start count).flatMap fun i => (word i).toBytesLE

theorem length_bytesOf (word : Nat → Word w) (start count : Nat) :
    (bytesOf word start count).length = count * w.bytes := by
  rw [bytesOf, length_flatMap_of_length _ (fun _ => Word.length_toBytesLE _), List.length_range']

theorem bytesOf_one (word : Nat → Word w) (start : Nat) :
    bytesOf word start 1 = (word start).toBytesLE := by
  rw [bytesOf, List.range'_one, List.flatMap_singleton]

theorem bytesOf_add (word : Nat → Word w) (start m n : Nat) :
    bytesOf word start (m + n) = bytesOf word start m ++ bytesOf word (start + m) n := by
  rw [bytesOf, ← List.range'_append_1, List.flatMap_append]
  rfl

/-- The bytes to come after some words are those that many words further on. -/
theorem bytesOf_advance (n : Nat) (s : σ) (start count : Nat) :
    bytesOf (wordAt (advance n s)) start count = bytesOf (wordAt s) (n + start) count := by
  simp only [bytesOf, wordAt_advance]
  rw [← List.map_add_range', List.flatMap_map]

/-! ## What draws hand out -/

/-- A 64-bit number is made of the bytes of its words, whether these are two or one. -/
theorem toBytesLE_next64 (s : σ) :
    (next64 s).1.toBytesLE = bytesOf (wordAt s) 0 (8 / w.bytes) := by
  cases w with
  | w32 =>
      calc
        (next64 s).1.toBytesLE
            = (wordAt s 0).toBytesLE ++ (wordAt s 1).toBytesLE := Word.toBytesLE_append _ _
        _ = bytesOf (wordAt s) 0 (1 + 1) := by rw [bytesOf_add, bytesOf_one, bytesOf_one]
  | w64 =>
      exact (bytesOf_one (wordAt s) 0).symm

theorem next64_fst (s : σ) :
    (next64 s).1 = Word.ofBytesLE (bytesOf (wordAt s) 0 (8 / w.bytes)) := by
  rw [← toBytesLE_next64]
  exact (Word.ofBytesLE_toBytesLE _).symm

/-- The words that `n` bytes are taken from have as many. -/
theorem length_take_bytesOf (word : Nat → Word w) (start n : Nat) :
    ((bytesOf word start (wordCount w n)).take n).length = n := by
  have henough : n ≤ wordCount w n * w.bytes := by
    cases w <;> simp only [wordCount, Width.bytes] <;> omega
  rw [List.length_take, length_bytesOf, Nat.min_eq_left henough]

/-- Bytes are the leading ones of as many words as are needed for them. -/
theorem fillBytes_fst (n : Nat) :
    ∀ s : σ, (fillBytes n s).1 = (bytesOf (wordAt s) 0 (wordCount w n)).take n := by
  induction n using Nat.strongRecOn with
  | _ n ih =>
      intro s
      rcases Nat.lt_or_ge n 8 with hshort | hlong
      · rcases Nat.eq_zero_or_pos n with rfl | hpos
        · rfl
        · -- The front of one more number, which has the words that the bytes left ask for.
          rw [fillBytes_of_lt_eight hpos hshort, wordCount_of_lt_eight hpos hshort]
          by_cases hwide : 4 < n
          · rw [if_pos hwide, if_pos hwide, toBytesLE_next64]
          · rw [if_neg hwide, if_neg hwide, bytesOf_one]
            have hfront : min n 4 = n := Nat.min_eq_left (Nat.le_of_not_lt hwide)
            calc
              (wordAt s 0).low32.toBytesLE.take n = ((wordAt s 0).toBytesLE.take 4).take n := by
                rw [Word.toBytesLE_low32]
              _ = (wordAt s 0).toBytesLE.take n := by rw [List.take_take, hfront]
      · -- One 64-bit number, and the remaining bytes from the words after it.
        obtain ⟨m, rfl⟩ := Nat.exists_eq_add_of_le' hlong
        have hlength : (bytesOf (wordAt s) 0 (8 / w.bytes)).length = 8 := by
          rw [length_bytesOf]
          cases w <;> rfl
        have hsplit : ∀ rest, (bytesOf (wordAt s) 0 (8 / w.bytes) ++ rest).take (m + 8) =
            bytesOf (wordAt s) 0 (8 / w.bytes) ++ rest.take m := by
          intro rest
          rw [List.take_append, hlength, Nat.add_sub_cancel, List.take_of_length_le]
          omega
        rw [fillBytes_add_eight, wordCount_add_eight, bytesOf_add, hsplit, toBytesLE_next64,
          next64_snd, ih m (by omega), bytesOf_advance, Nat.zero_add, Nat.add_zero]

/-- A generator never refuses bytes. -/
theorem tryFillBytes_eq {ε : Type v} (n : Nat) (s : σ) :
    (tryFillBytes n s : Except ε (List Byte) × σ) = (.ok (fillBytes n s).1, (fillBytes n s).2) :=
  rfl

/-! ## Calls -/

/-- What can be drawn from a generator. -/
inductive Call where
  | generate
  | next32
  | next64
  | fillBytes (n : Nat)
  | tryFillBytes (n : Nat)

/-- What a call hands out; one that may fail would do so with an error of type `ε`. -/
inductive Answer (w : Width) (ε : Type v) where
  | word (x : Word w)
  | number32 (x : Word32)
  | number64 (x : Word64)
  | bytes (bytes : List Byte)
  | tried (result : Except ε (List Byte))

namespace Call

variable {ε : Type v}

def apply : Call → σ → Answer w ε × σ
  | .generate, s => (.word (Generator.next s).1, (Generator.next s).2)
  | .next32, s => (.number32 (RandomSource.next32 s).1, (RandomSource.next32 s).2)
  | .next64, s => (.number64 (RandomSource.next64 s).1, (RandomSource.next64 s).2)
  | .fillBytes n, s => (.bytes (RandomSource.fillBytes n s).1, (RandomSource.fillBytes n s).2)
  | .tryFillBytes n, s =>
      (.tried (RandomSource.tryFillBytes n s).1, (RandomSource.tryFillBytes (ε := ε) n s).2)

/-- How many words of the stream a call takes. -/
def words (w : Width) : Call → Nat
  | .generate => 1
  | .next32 => 1
  | .next64 => 8 / w.bytes
  | .fillBytes n => wordCount w n
  | .tryFillBytes n => wordCount w n

/-- What a call makes of the words of a sequence, taken from a start. -/
def answer (word : Nat → Word w) (start : Nat) : Call → Answer w ε
  | .generate => .word (word start)
  | .next32 => .number32 (word start).low32
  | .next64 => .number64 (Word.ofBytesLE (bytesOf word start (8 / w.bytes)))
  | .fillBytes n => .bytes ((bytesOf word start (wordCount w n)).take n)
  | .tryFillBytes n => .tried (.ok ((bytesOf word start (wordCount w n)).take n))

/-- Answers a call from a sequence of words and goes on behind the words it took. -/
def read (word : Nat → Word w) (call : Call) (start : Nat) : Answer w ε × Nat :=
  (call.answer word start, start + call.words w)

/-- How many words some calls take together. -/
def total (w : Width) (calls : List Call) : Nat := calls.foldr (fun call n => call.words w + n) 0

theorem answer_advance (call : Call) (n : Nat) (s : σ) :
    (call.answer (wordAt (advance n s)) 0 : Answer w ε) = call.answer (wordAt s) n := by
  cases call <;> simp only [answer, wordAt_advance, bytesOf_advance, Nat.add_zero]

/-- One call answers from the next words and passes over them. -/
theorem apply_eq (call : Call) (s : σ) :
    (call.apply s : Answer w ε × σ) = (call.answer (wordAt s) 0, advance (call.words w) s) := by
  cases call with
  | generate =>
      rfl
  | next32 =>
      rfl
  | next64 =>
      rw [apply, next64_fst, next64_snd]
      rfl
  | fillBytes n =>
      rw [apply, fillBytes_fst, fillBytes_snd]
      rfl
  | tryFillBytes n =>
      rw [apply, tryFillBytes_eq, fillBytes_fst, fillBytes_snd]
      rfl

/-- A generator stays at the word up to which its stream was read. -/
theorem lockstep_read (s : σ) :
    Lockstep (apply (ε := ε)) (read (wordAt s)) fun t i => t = advance i s where
  answer call h := by
    rw [h, apply_eq]
    exact call.answer_advance _ s
  next call h := by
    rw [h, apply_eq]
    exact (advance_add _ _ s).symm

theorem run_read_snd (word : Nat → Word w) (calls : List Call) :
    ∀ start, (run (read (ε := ε) word) calls start).2 = start + total w calls := by
  induction calls with
  | nil =>
      intro start
      rfl
  | cons call rest ih =>
      intro start
      exact (ih (start + call.words w)).trans (Nat.add_assoc _ _ _)

/-- A run of calls answers from successive words of the stream, and passes over those it took. -/
theorem run_calls (calls : List Call) (s : σ) :
    (run (apply (ε := ε)) calls s).1 = (run (read (wordAt s)) calls 0).1 ∧
      (run (apply (ε := ε)) calls s).2 = advance (total w calls) s := by
  rcases (lockstep_read (ε := ε) s).run calls (s := s) (t := 0) rfl with ⟨hanswers, hstate⟩
  rw [run_read_snd, Nat.zero_add] at hstate
  exact ⟨hanswers, hstate⟩

end Call

/-- Whatever is drawn, from an engine whose type is hidden or from a reachable keystream, of narrow
or of wide words, takes the next words of the stream: one for a word or a 32-bit number, as many as
make up eight bytes for a 64-bit number, and for `n` bytes as few as hold `n`, which are all there.
A keystream is then where it comes to by skipping the words that were taken, in one skip or, as a
skip passes over less than `2 ^ 128` words, in several. -/
theorem calls_read_stream {ε : Type v} {w : Width} (calls : List Call) :
    (∀ m : AnyEngine w,
      (run (Call.apply (ε := ε)) calls m).1 = (run (Call.read (wordAt m)) calls 0).1 ∧
        (run (Call.apply (ε := ε)) calls m).2 = advance (Call.total w calls) m) ∧
    (∀ {c k : Nat} {F : BlockFunction w c k} {e : Keystream F}, Keystream.Reachable e →
      (run (Call.apply (ε := ε)) calls e).1 = (run (Call.read (wordAt e)) calls 0).1 ∧
        (run (Call.apply (ε := ε)) calls e).2 = advance (Call.total w calls) e ∧
        ∀ amounts : List Distance, Keystream.skipped amounts = Call.total w calls →
          ((run (Call.apply (ε := ε)) calls e).2 == amounts.foldl Keystream.discard e) = true) ∧
    ∀ (word : Nat → Word w) (start n : Nat),
      ((bytesOf word start (wordCount w n)).take n).length = n := by
  refine ⟨?_, ?_, length_take_bytesOf⟩
  · intro m
    exact Call.run_calls calls m
  · intro c k F e h
    rcases Call.run_calls (ε := ε) calls e with ⟨hanswers, hstate⟩
    refine ⟨hanswers, hstate, ?_⟩
    intro amounts hamounts
    rw [hstate, ← hamounts]
    exact Keystream.beq_iff_agree.2 (Keystream.agree_discards_advance amounts h.synced).2.symm

/-- A block function on three narrow limbs. -/
def masked : BlockFunction .w32 3 1 where
  eval key counter := counter.map fun x => x ^^^ key.get 0
  pos := Nat.succ_pos 2

/-- A keystream with two words left of its block. -/
def halfRead : Keystream masked := (Keystream.ofWord 7).generate.2

theorem reachable_halfRead : Keystream.Reachable halfRead :=
  .apply (.move .generate) (.start (.ofWord 7))

/-- Of these calls the second draws a number across the end of a block, and the third bytes that end
within a word. -/
def mixedCalls : List Call := [.next32, .next64, .fillBytes 13, .generate, .tryFillBytes 6]

theorem calls_read_stream_across_blocks :
    Keystream.Reachable halfRead ∧ Keystream.skipped [10] = Call.total .w32 mixedCalls ∧
      (run (Call.apply (ε := Empty)) mixedCalls halfRead).1 =
        (run (Call.read (wordAt halfRead)) mixedCalls 0).1 ∧
      ((run (Call.apply (ε := Empty)) mixedCalls halfRead).2 == halfRead.discard 10) = true := by
  have hwords : Keystream.skipped [10] = Call.total .w32 mixedCalls := by decide
  rcases (calls_read_stream (ε := Empty) mixedCalls).2.1 reachable_halfRead with
    ⟨hanswers, _, hskip⟩
  exact ⟨reachable_halfRead, hwords, hanswers, hskip [10] hwords⟩

end RandomSource
end CounterRng
