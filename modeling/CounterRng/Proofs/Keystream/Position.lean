import Mathlib.Data.Nat.ModEq
import CounterRng.Keystream.Stream
import CounterRng.Proofs.Counting

/-!
# Position — where the operations of a keystream move it

A keystream with counter value `v` and cursor `r` stands `r` words before the end of block `v`, so
its position `p` satisfies `p + r ≡ c * v` modulo the period.  Every law below is that congruence,
read in one direction or the other:

* `counter_cursor_unique` — a position belongs to one counter and one cursor below `c`;
* `streamWord_eq_getElem` — which limb of which block a word of the stream is;
* `position_generate`, `position_advance`, `position_discard`, `position_generateBlock` — the moves;
* `generate_fst_eq_streamWord`, `generateBlock_fst_getElem` — what is handed out on the way.
-/

namespace CounterRng
namespace Keystream

variable {w : Width} {c k : Nat} {F : BlockFunction w c k} {e : Keystream F}

/-! ## Counters and cursors as digits -/

/-- The number of words before the end of a block, and the block modulo `m`, are determined by a
number of words modulo `c * m`. -/
theorem digits_unique {m p r s a b : Nat} (hr : r < c) (hs : s < c)
    (ha : p + r ≡ c * a [MOD c * m]) (hb : p + s ≡ c * b [MOD c * m]) :
    r = s ∧ a ≡ b [MOD m] := by
  have hzero : ∀ {x y : Nat}, p + x ≡ c * y [MOD c * m] → p + x ≡ 0 [MOD c] := by
    intro x y h
    exact (h.of_mul_right m).trans (Nat.modEq_zero_iff_dvd.2 (Nat.dvd_mul_right c y))
  -- Both numbers complete `p` to a multiple of `c`, and both are below `c`.
  have hrs : r = s := by
    have hmod : r ≡ s [MOD c] := Nat.ModEq.add_left_cancel' p ((hzero ha).trans (hzero hb).symm)
    exact hmod.eq_of_lt_of_lt hr hs
  subst hrs
  exact ⟨rfl, Nat.ModEq.mul_left_cancel' (Nat.ne_of_gt (Nat.zero_lt_of_lt hr)) (ha.symm.trans hb)⟩

theorem period_pos (hc : 0 < c) : 0 < period w c :=
  Nat.mul_pos hc (Nat.two_pow_pos _)

theorem le_period : c ≤ period w c :=
  Nat.le_mul_of_pos_right c (Nat.two_pow_pos _)

theorem mul_mod_modEq (v : Nat) : c * (v % 2 ^ (w.bits * c)) ≡ c * v [MOD period w c] :=
  (Nat.mod_modEq v _).mul_left' c

/-! ## Positions -/

theorem position_lt (e : Keystream F) : e.position < period w c :=
  Nat.mod_lt _ (period_pos F.pos)

/-- A keystream stands its cursor before the end of the block at its counter. -/
theorem position_add_cursor (h : e.cursor < c) :
    e.position + e.cursor ≡ c * e.counter.value [MOD period w c] := by
  have hle : e.cursor ≤ period w c := Nat.le_trans (Nat.le_of_lt h) le_period
  calc
    e.position + e.cursor
        ≡ c * e.counter.value + (period w c - e.cursor) + e.cursor [MOD period w c] :=
          (Nat.mod_modEq _ _).add_right _
    _ = c * e.counter.value + period w c := by rw [Nat.add_assoc, Nat.sub_add_cancel hle]
    _ ≡ c * e.counter.value [MOD period w c] := Nat.add_modEq_right

/-- Whatever number stands the cursor before the end of that block is the position. -/
theorem position_eq_mod {p : Nat} (h : e.cursor < c)
    (hp : p + e.cursor ≡ c * e.counter.value [MOD period w c]) : e.position = p % period w c := by
  have hmod : e.position ≡ p [MOD period w c] :=
    Nat.ModEq.add_right_cancel' e.cursor ((position_add_cursor h).trans hp.symm)
  calc
    e.position = e.position % period w c := (Nat.mod_eq_of_lt e.position_lt).symm
    _ = p % period w c := hmod

/-- A position is held by one counter and one cursor below the block length. -/
theorem counter_cursor_unique {a b : Keystream F} (ha : a.cursor < c) (hb : b.cursor < c)
    (h : a.position = b.position) : a.counter = b.counter ∧ a.cursor = b.cursor := by
  have hpa := position_add_cursor ha
  have hpb := position_add_cursor hb
  rw [← h] at hpb
  -- Modulo `c` the position leaves no choice of the cursor, and then none of the block.
  rcases digits_unique ha hb hpa hpb with ⟨hcursor, hcounter⟩
  refine ⟨Block.eq_of_value_eq ?_, hcursor⟩
  exact hcounter.eq_of_lt_of_lt a.counter.value_lt b.counter.value_lt

theorem position_ofKey (key : Block w k) : (ofKey key : Keystream F).position = 0 := by
  refine (position_eq_mod F.pos (p := 0) ?_).trans (Nat.zero_mod _)
  simp only [ofKey, Block.value_broadcast_zero, Nat.mul_zero]
  rfl

theorem position_setCounter (e : Keystream F) (counter : Block w c) :
    (e.setCounter counter).position = c * counter.value := by
  have hlt : c * counter.value < period w c :=
    Nat.mul_lt_mul_of_pos_left counter.value_lt F.pos
  have hmod : (e.setCounter counter).position = c * counter.value % period w c :=
    position_eq_mod F.pos (Nat.ModEq.refl _)
  rw [hmod, Nat.mod_eq_of_lt hlt]

/-! ## Words of the stream -/

/-- What is `r + 1` places before the end of the block at a counter is in that block, `r` limbs above its
bottom. -/
theorem place_of_modEq {counter : Block w c} {i r : Nat} (pos : 0 < c) (hr : r < c)
    (h : i + 1 + r ≡ c * counter.value [MOD period w c]) :
    r = c - 1 - i % c ∧ Block.ofValue (i / c + 1) = counter := by
  have hlt : i % c < c := Nat.mod_lt i pos
  -- By its index the word stands `c - 1 - i % c` limbs above the bottom of block `i / c + 1`.
  have hend : i + 1 + (c - 1 - i % c) = c * (i / c + 1) := by
    have hsplit := Nat.div_add_mod i c
    rw [Nat.mul_succ]
    omega
  rcases digits_unique (m := 2 ^ (w.bits * c)) hr (s := c - 1 - i % c) (by omega) h
    (by rw [hend]) with ⟨hlimb, hblock⟩
  refine ⟨hlimb, Block.eq_of_value_eq ?_⟩
  rw [Block.value_ofValue]
  calc
    (i / c + 1) % 2 ^ (w.bits * c) = counter.value % 2 ^ (w.bits * c) := hblock.symm
    _ = counter.value := Nat.mod_eq_of_lt counter.value_lt

/-- The word `r + 1` places before the end of the block at a counter is limb `r` of that block. -/
theorem streamWord_eq_getElem {key : Block w k} {counter : Block w c} {i r : Nat} (hr : r < c)
    (h : i + 1 + r ≡ c * counter.value [MOD period w c]) :
    streamWord F key i = (F.eval key counter)[r] := by
  obtain ⟨hlimb, hcounter⟩ := place_of_modEq F.pos hr h
  subst hlimb
  rw [streamWord, streamBlock, hcounter]
  rfl

/-! ## One draw -/

theorem key_generate (e : Keystream F) : e.generate.2.key = e.key := by
  by_cases h : e.cursor = 0
  · rw [generate_snd_of_cursor_eq_zero h]
    rfl
  · rw [generate_snd_of_cursor_ne_zero h]

/-- One block further on, the cursor stands before the end of the block at the next counter. -/
theorem position_add_cursor_add (h : e.cursor < c) :
    e.position + e.cursor + c ≡ c * e.counter.increment.value [MOD period w c] := by
  rw [Block.value_increment]
  calc
    e.position + e.cursor + c
        ≡ c * e.counter.value + c [MOD period w c] := (position_add_cursor h).add_right c
    _ = c * (e.counter.value + 1) := (Nat.mul_succ c _).symm
    _ ≡ c * ((e.counter.value + 1) % 2 ^ (w.bits * c)) [MOD period w c] := (mul_mod_modEq _).symm

/-- After a draw the keystream stands one word further on. -/
theorem generate_modEq (h : Synced e) :
    e.position + 1 + e.generate.2.cursor ≡ c * e.generate.2.counter.value [MOD period w c] := by
  have hpos := F.pos
  by_cases h0 : e.cursor = 0
  · -- The buffer was empty: the cursor turns from zero to the top of the next block.
    rw [generate_snd_of_cursor_eq_zero h0]
    calc
      e.position + 1 + (c - 1) = e.position + e.cursor + c := by omega
      _ ≡ c * e.counter.increment.value [MOD period w c] := position_add_cursor_add h.cursor_lt
  · -- A word was left: only the cursor moves.
    rw [generate_snd_of_cursor_ne_zero h0]
    calc
      e.position + 1 + (e.cursor - 1) = e.position + e.cursor := by omega
      _ ≡ c * e.counter.value [MOD period w c] := position_add_cursor h.cursor_lt

theorem position_generate (h : Synced e) :
    e.generate.2.position = (e.position + 1) % period w c :=
  position_eq_mod h.generate.cursor_lt (generate_modEq h)

/-- A draw leaves the block that the word came from in the buffer, even if no word is left of it. -/
theorem buffer_generate (h : Synced e) :
    e.generate.2.buffer = F.eval e.key e.generate.2.counter := by
  by_cases h0 : e.cursor = 0
  · rw [generate_snd_of_cursor_eq_zero h0]
    rfl
  · rw [generate_snd_of_cursor_ne_zero h0]
    exact h.buffer_eq h0

theorem counter_generate (e : Keystream F) :
    e.generate.2.counter = if e.cursor = 0 then e.counter.increment else e.counter := by
  by_cases h : e.cursor = 0
  · rw [generate_snd_of_cursor_eq_zero h, if_pos h]
    rfl
  · rw [generate_snd_of_cursor_ne_zero h, if_neg h]

theorem buffer_generate_eq_nextBlock (h : Synced e) : e.generate.2.buffer = e.nextBlock := by
  rw [buffer_generate h, counter_generate, nextBlock]

theorem getD_eq_getElem (b : Block w c) (i : Nat) (hi : i < c) : b.getD i 0 = b[i] := by
  simp [Vector.getD, Array.getD, hi]

/-- The word handed out is the limb that the cursor comes to, of the block at the counter. -/
theorem generate_fst_eq_getElem (h : Synced e) (hlimb : e.generate.2.cursor < c) :
    e.generate.1 = (F.eval e.key e.generate.2.counter)[e.generate.2.cursor] := by
  calc
    e.generate.1 = e.generate.2.buffer.getD e.generate.2.cursor 0 := rfl
    _ = (F.eval e.key e.generate.2.counter).getD e.generate.2.cursor 0 := by rw [buffer_generate h]
    _ = _ := getD_eq_getElem _ _ hlimb

/-- The word handed out is the one at the position. -/
theorem generate_fst_eq_streamWord (h : Synced e) :
    e.generate.1 = streamWord F e.key e.position := by
  have hlimb := h.generate.cursor_lt
  rw [generate_fst_eq_getElem h hlimb, streamWord_eq_getElem hlimb (generate_modEq h)]

/-! ## Many draws -/

theorem key_advance (n : Nat) : ∀ e : Keystream F, (Generator.advance n e).key = e.key := by
  induction n with
  | zero =>
      intro e
      rfl
  | succ n ih =>
      intro e
      exact (ih e.generate.2).trans (key_generate e)

theorem position_advance (n : Nat) :
    ∀ {e : Keystream F}, Synced e →
      (Generator.advance n e).position = (e.position + n) % period w c := by
  induction n with
  | zero =>
      intro e _
      exact (Nat.mod_eq_of_lt e.position_lt).symm
  | succ n ih =>
      intro e h
      calc
        (Generator.advance n e.generate.2).position
            = (e.generate.2.position + n) % period w c := ih h.generate
        _ = ((e.position + 1) % period w c + n) % period w c := by rw [position_generate h]
        _ = (e.position + (n + 1)) % period w c := by
              rw [Nat.mod_add_mod, Nat.add_assoc, Nat.add_comm 1]

/-! ## Whole blocks -/

theorem position_generateBlock (h : Synced e) :
    e.generateBlock.2.position = (e.position + e.cursor + c) % period w c :=
  position_eq_mod F.pos (position_add_cursor_add h.cursor_lt)

/-- Limb `j` of the block is the word `c - 1 - j` places after the end of the current block. -/
theorem generateBlock_fst_getElem (h : Synced e) (j : Nat) (hj : j < c) :
    e.generateBlock.1[j] =
      streamWord F e.key ((e.position + e.cursor + (c - 1 - j)) % period w c) := by
  refine (streamWord_eq_getElem hj ?_).symm
  calc
    (e.position + e.cursor + (c - 1 - j)) % period w c + 1 + j
        ≡ e.position + e.cursor + (c - 1 - j) + 1 + j [MOD period w c] :=
          ((Nat.mod_modEq _ _).add_right 1).add_right j
    _ = e.position + e.cursor + c := by omega
    _ ≡ c * e.counter.increment.value [MOD period w c] := position_add_cursor_add h.cursor_lt

/-! ## Skipping -/

theorem position_leap (h : Synced e) (n : Distance) :
    (e.leap n).position =
      (e.position + min e.cursor n.toNat +
        c * ((n.toNat - min e.cursor n.toNat) / c)) % period w c := by
  have hdropped : min e.cursor n.toNat ≤ e.cursor := Nat.min_le_left _ _
  -- The number of whole blocks is no larger than the skip, so that it fits.
  have hblocks : (n.toNat - min e.cursor n.toNat) / c < 2 ^ 128 :=
    Nat.lt_of_le_of_lt (Nat.le_trans (Nat.div_le_self _ _) (Nat.sub_le _ _)) n.isLt
  have hvalue : (e.leap n).counter.value =
      (e.counter.value + (n.toNat - min e.cursor n.toNat) / c) % 2 ^ (w.bits * c) := by
    rw [leap, Block.value_add, BitVec.toNat_ofNat, Nat.mod_eq_of_lt hblocks]
  refine position_eq_mod (h.leap n).cursor_lt ?_
  rw [hvalue]
  -- How many blocks they are does not matter from here on.
  generalize (n.toNat - min e.cursor n.toNat) / c = blocks
  calc
    e.position + min e.cursor n.toNat + c * blocks + (e.cursor - min e.cursor n.toNat)
        = e.position + e.cursor + c * blocks := by omega
    _ ≡ c * e.counter.value + c * blocks [MOD period w c] :=
          (position_add_cursor h.cursor_lt).add_right _
    _ = c * (e.counter.value + blocks) := (Nat.mul_add c _ _).symm
    _ ≡ c * ((e.counter.value + blocks) % 2 ^ (w.bits * c)) [MOD period w c] :=
          (mul_mod_modEq _).symm

theorem key_discard (e : Keystream F) (n : Distance) : (e.discard n).key = e.key := by
  rw [discard_eq_advance_leap, key_advance]
  rfl

theorem position_discard (h : Synced e) (n : Distance) :
    (e.discard n).position = (e.position + n.toNat) % period w c := by
  -- What was dropped, the whole blocks and the words drawn at the end make up the skip.
  have hsplit := Nat.div_add_mod (n.toNat - min e.cursor n.toNat) c
  have hdropped : min e.cursor n.toNat ≤ n.toNat := Nat.min_le_right _ _
  rw [discard_eq_advance_leap, position_advance _ (h.leap n), position_leap h, Nat.mod_add_mod]
  congr 1
  omega

/-! ## Keystreams at the same place -/

theorem agree_of_position_eq {a b : Keystream F} (ha : Synced a) (hb : Synced b)
    (hkey : a.key = b.key) (h : a.position = b.position) : Agree a b := by
  rcases counter_cursor_unique ha.cursor_lt hb.cursor_lt h with ⟨hcounter, hcursor⟩
  exact ⟨hcounter, hcursor, hkey⟩

theorem position_eq_of_agree {a b : Keystream F} (h : Agree a b) : a.position = b.position := by
  rw [position, position, h.1, h.2.1]

theorem agree_iff_position_eq {a b : Keystream F} (ha : Synced a) (hb : Synced b)
    (hkey : a.key = b.key) : Agree a b ↔ a.position = b.position :=
  ⟨position_eq_of_agree, agree_of_position_eq ha hb hkey⟩

end Keystream
end CounterRng
