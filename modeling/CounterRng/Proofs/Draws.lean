import CounterRng.RandomSource

/-!
# Draws — numbers and bytes are made of whole words

Numbers and byte strings are drawn word by word from a generator, so that the state after them is the
state after some number of words:

* `next32_snd`, `next64_snd`, `fillBytes_snd` — which number that is, one law for both widths;
* `next32_congr`, `next64_congr`, `fillBytes_congr` — states with the same next draw are not told
  apart.
-/

namespace CounterRng
namespace RandomSource

open Generator

variable {σ : Type u} {w : Width} [Generator σ w]

/-! ## Filling bytes, by the number of bytes left -/

theorem fillBytes_add_eight (n : Nat) (s : σ) :
    fillBytes (n + 8) s =
      ((next64 s).1.toBytesLE ++ (fillBytes n (next64 s).2).1, (fillBytes n (next64 s).2).2) :=
  rfl

theorem fillBytes_of_lt_eight {n : Nat} (hpos : 0 < n) (hlt : n < 8) (s : σ) :
    fillBytes n s =
      if 4 < n then ((next64 s).1.toBytesLE.take n, (next64 s).2)
      else ((next32 s).1.toBytesLE.take n, (next32 s).2) := by
  match n with
  | 0 => omega
  | 1 | 2 | 3 | 4 | 5 | 6 | 7 => rfl
  | n + 8 => omega

/-! ## How many words are drawn -/

/-- The number of words that a number of bytes is taken from, the last of them perhaps in part. -/
def wordCount (w : Width) (n : Nat) : Nat := (n + w.bytes - 1) / w.bytes

theorem wordCount_zero : wordCount w 0 = 0 := by
  cases w <;> rfl

theorem wordCount_add_eight (n : Nat) : wordCount w (n + 8) = 8 / w.bytes + wordCount w n := by
  cases w <;> simp only [wordCount, Width.bytes] <;> omega

theorem wordCount_of_lt_eight {n : Nat} (hpos : 0 < n) (hlt : n < 8) :
    wordCount w n = if 4 < n then 8 / w.bytes else 1 := by
  cases w <;> simp only [wordCount, Width.bytes] <;> split <;> omega

theorem next32_snd (s : σ) : (next32 s).2 = advance 1 s :=
  rfl

theorem next64_snd (s : σ) : (next64 s).2 = advance (8 / w.bytes) s := by
  cases w
  · rfl
  · rfl

theorem fillBytes_snd (n : Nat) : ∀ s : σ, (fillBytes n s).2 = advance (wordCount w n) s := by
  induction n using Nat.strongRecOn with
  | _ n ih =>
      intro s
      rcases Nat.lt_or_ge n 8 with hshort | hlong
      · rcases Nat.eq_zero_or_pos n with rfl | hpos
        · -- No byte is wanted, and no word is drawn.
          rw [wordCount_zero]
          rfl
        · -- One last number, as wide as the bytes left ask for.
          rw [fillBytes_of_lt_eight hpos hshort, wordCount_of_lt_eight hpos hshort]
          by_cases hwide : 4 < n
          · rw [if_pos hwide, if_pos hwide]
            exact next64_snd s
          · rw [if_neg hwide, if_neg hwide]
            exact next32_snd s
      · -- One 64-bit number, and the remaining bytes after it.
        obtain ⟨m, rfl⟩ := Nat.exists_eq_add_of_le' hlong
        rw [fillBytes_add_eight, wordCount_add_eight, advance_add, ← next64_snd]
        exact ih m (by omega) _

/-! ## States with the same next draw -/

variable {s t : σ}

theorem next32_congr (h : Generator.next s = Generator.next t) : next32 s = next32 t := by
  simp only [next32, h]

theorem next64_congr (h : Generator.next s = Generator.next t) : next64 s = next64 t := by
  cases w
  · -- Two narrow words: the second is drawn from a state that is the same already.
    simp only [next64, Word.drawU64, h]
  · exact h

theorem fillBytes_congr (h : Generator.next s = Generator.next t) {n : Nat} (hn : 0 < n) :
    fillBytes n s = fillBytes n t := by
  rcases Nat.lt_or_ge n 8 with hshort | hlong
  · rw [fillBytes_of_lt_eight hn hshort, fillBytes_of_lt_eight hn hshort, next64_congr h,
      next32_congr h]
  · obtain ⟨m, rfl⟩ := Nat.exists_eq_add_of_le' hlong
    rw [fillBytes_add_eight, fillBytes_add_eight, next64_congr h]

end RandomSource
end CounterRng
