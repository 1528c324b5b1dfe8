import Mathlib.Data.FinEnum
import Mathlib.Data.Fintype.EquivFin
import Mathlib.Data.Nat.ModEq
import CounterRng.SeedSource.EntropyPool
import CounterRng.Proofs.Keystream.Seeding

/-!
# Stirring — a pool loses none of its words

Every step of stirring draws a word from three cells, combines it with the two further ones and
overwrites the current one with it, turned in a way that depends on the step.  Whether the cells lie
apart depends on the length of the ring: in a ring of one they are all the same, in a ring of two both
further cells are the one before.  A step can be undone all the same.  The overwritten cell tells the
word that was drawn, which can be taken out of the further cells again; and then, as the cells drawn from
are known but for the current one, so is that.

What a pool takes in shows in the cell overwritten last.  Two pools that differ in one word are stirred
alike up to the step that takes it in, to different destinations by this step, and from there by steps
that are the same for both and can be undone.

* `Blend` and `Lossless` — a step in general, and what is asked of it;
* `Lossless.step_injective` — in a ring of any length, no two destinations are stirred to one;
* `stir_bijective` — both passes together;
* `stir_ne_of_differ_once` — different words lead to different destinations;
* `pool_loses_no_word` — the same for the keys that destinations are read as.
-/

namespace CounterRng
namespace EntropyPool

open Function

variable {n : Nat}

/-! ## Words -/

/-- Shifted out twice, nothing is left of a word. -/
theorem temper_involutive : Involutive temper := by
  intro x
  have hgone : (x >>> 27) >>> 27 = 0#32 := by
    rw [← BitVec.shiftRight_add]
    exact BitVec.ushiftRight_eq_zero (by decide)
  rw [temper, temper, BitVec.ushiftRight_xor_distrib, hgone, BitVec.xor_assoc, BitVec.xor_zero,
    BitVec.xor_self, BitVec.xor_zero]

theorem mul_injective_of_inverse {a inverse : Word32} (h : inverse * a = 1) :
    Injective fun x => a * x := by
  have hundo : LeftInverse (fun y => inverse * y) fun x => a * x := by
    intro x
    calc
      inverse * (a * x) = inverse * a * x := (BitVec.mul_assoc _ _ _).symm
      _ = x := by rw [h]; exact BitVec.one_mul x
  exact hundo.injective

/-! ## Cells of a ring -/

theorem near_pos (hn : 1 < n) : 0 < near n := by
  unfold near gap
  repeat' split
  all_goals omega

theorem near_lt (hn : 0 < n) : near n < n := by
  unfold near
  omega

/-- A cell further on by less than a round is another one. -/
theorem cell_add_ne (pos : 0 < n) (i : Nat) {d : Nat} (hd : 0 < d) (hlt : d < n) :
    cell pos (i + d) ≠ cell pos i := by
  intro hcell
  have hmod : i + d ≡ i [MOD n] := congrArg Fin.val hcell
  exact absurd (Nat.le_of_dvd hd (Nat.add_modEq_left_iff.1 hmod)) (Nat.not_le.2 hlt)

theorem near_ne_here (pos : 0 < n) (hn : 1 < n) (i : Nat) :
    (cells pos i).near ≠ (cells pos i).here :=
  cell_add_ne pos i (near_pos hn) (near_lt pos)

theorem previous_ne_here (pos : 0 < n) (hn : 1 < n) (i : Nat) :
    (cells pos i).previous ≠ (cells pos i).here := by
  have hstep : i + n - 1 = i + (n - 1) := by omega
  rw [cells, hstep]
  exact cell_add_ne pos i (by omega) (by omega)

/-! ## Steps in general -/

/-- How a step draws a word from three cells, combines words with the further cells, and turns the word
drawn into the one that the current cell is overwritten with. -/
structure Blend where
  draw : (here near previous : Word32) → Word32
  combine : Word32 → Word32 → Word32
  turn : Word32 → Word32

namespace Blend

def drawn (b : Blend) (c : Cells n) (dest : Vector Word32 n) : Word32 :=
  b.draw (dest.get c.here) (dest.get c.near) (dest.get c.previous)

/-- The two further cells may be one, which is then combined with twice. -/
def spread (b : Blend) (c : Cells n) (x : Word32) (dest : Vector Word32 n) : Vector Word32 n :=
  let dest := dest.set c.near (b.combine (dest.get c.near) x) c.near.isLt
  dest.set c.far (b.combine (dest.get c.far) (b.turn x)) c.far.isLt

def step (b : Blend) (c : Cells n) (dest : Vector Word32 n) : Vector Word32 n :=
  (b.spread c (b.drawn c dest) dest).set c.here (b.turn (b.drawn c dest)) c.here.isLt

/-- From what a step puts into a cell, and all else it depends on, the word that it comes from is known.
In a ring of one, all cells drawn from are the same. -/
structure Lossless (b : Blend) : Prop where
  draw (near previous : Word32) : Injective fun here => b.draw here near previous
  drawSame : Injective fun x => b.draw x x x
  combine (x : Word32) : Injective fun z => b.combine z x
  turn : Injective b.turn

variable {b : Blend} {c : Cells n} {u v : Vector Word32 n}

theorem get_step_here (b : Blend) (c : Cells n) (dest : Vector Word32 n) :
    (b.step c dest).get c.here = b.turn (b.drawn c dest) :=
  Vector.getElem_set_self c.here.isLt

theorem get_set (dest : Vector Word32 n) (i j : Fin n) (x : Word32) :
    (dest.set i x i.isLt).get j = if i = j then x else dest.get j := by
  simp only [Fin.ext_iff]
  exact Vector.getElem_set i.isLt j.isLt

/-- Combining one word into a cell keeps destinations apart that differ anywhere. -/
theorem Lossless.get_eq_of_set_eq (h : b.Lossless) {i j : Fin n} {x : Word32}
    (hset : (u.set i (b.combine (u.get i) x) i.isLt).get j =
      (v.set i (b.combine (v.get i) x) i.isLt).get j) : u.get j = v.get j := by
  rw [get_set, get_set] at hset
  by_cases hij : i = j
  · rw [if_pos hij, if_pos hij] at hset
    exact hij ▸ h.combine x hset
  · rwa [if_neg hij, if_neg hij] at hset

theorem Lossless.get_eq_of_spread_eq (h : b.Lossless) {x : Word32} {j : Fin n}
    (hspread : (b.spread c x u).get j = (b.spread c x v).get j) : u.get j = v.get j :=
  h.get_eq_of_set_eq (h.get_eq_of_set_eq hspread)

/-- Destinations that a step takes to one have the same word drawn, and are the same but for the current
cell. -/
theorem Lossless.eq_of_step_eq (h : b.Lossless) (hstep : b.step c u = b.step c v) :
    b.drawn c u = b.drawn c v ∧ ∀ j, j ≠ c.here → u.get j = v.get j := by
  have hdrawn : b.drawn c u = b.drawn c v := by
    apply h.turn
    rw [← get_step_here, ← get_step_here, hstep]
  refine ⟨hdrawn, ?_⟩
  intro j hj
  have hcell : (b.step c u).get j = (b.step c v).get j := by rw [hstep]
  rw [step, step, get_set, get_set, if_neg (Ne.symm hj), if_neg (Ne.symm hj), hdrawn] at hcell
  exact h.get_eq_of_spread_eq hcell

theorem Lossless.step_injective (h : b.Lossless) (pos : 0 < n) (i : Nat) :
    Injective (b.step (cells pos i)) := by
  intro u v hstep
  obtain ⟨hdrawn, hothers⟩ := h.eq_of_step_eq hstep
  have hhere : u.get (cells pos i).here = v.get (cells pos i).here := by
    rcases Nat.eq_or_lt_of_le (Nat.succ_le_of_lt pos) with hone | hmore
    · -- In a ring of one the word is drawn from the current cell alone.
      subst hone
      have hsame : ∀ j : Fin 1, j = (cells pos i).here := fun j => Subsingleton.elim j _
      rw [drawn, drawn, hsame (cells pos i).near, hsame (cells pos i).previous] at hdrawn
      exact h.drawSame hdrawn
    · -- In a larger one the other cells that it is drawn from are known.
      rw [drawn, drawn, hothers _ (near_ne_here pos hmore i),
        hothers _ (previous_ne_here pos hmore i)] at hdrawn
      exact h.draw _ _ hdrawn
  apply Vector.ext
  intro j hj
  by_cases hcell : ⟨j, hj⟩ = (cells pos i).here
  · have hget : u.get ⟨j, hj⟩ = v.get ⟨j, hj⟩ := hcell ▸ hhere
    exact hget
  · exact hothers ⟨j, hj⟩ hcell

end Blend

/-! ## The steps of both passes -/

def absorbing (pool : EntropyPool) (i here : Nat) : Blend where
  draw here near previous := 1664525 * temper (here ^^^ near ^^^ previous)
  combine z x := z + x
  turn x := x + pool.intake i here

def finishing (here : Nat) : Blend where
  draw here near previous := 1566083941 * temper (here + near + previous)
  combine z x := z ^^^ x
  turn x := x - BitVec.ofNat 32 here

theorem absorbStep_eq (pool : EntropyPool) (pos : 0 < n) (dest : Vector Word32 n) (i : Nat) :
    pool.absorbStep pos dest i = (pool.absorbing i (cell pos i)).step (cells pos i) dest :=
  rfl

theorem finishStep_eq (pos : 0 < n) (dest : Vector Word32 n) (i : Nat) :
    finishStep pos dest i = (finishing (cell pos i)).step (cells pos i) dest :=
  rfl

/-- The multiplier is odd, and of three equal words the exclusive-or is that word. -/
theorem lossless_absorbing (pool : EntropyPool) (i here : Nat) :
    (pool.absorbing i here).Lossless := by
  have hodd : (4276115653 : Word32) * 1664525 = 1 := by decide
  have hmixed : Injective fun x : Word32 => 1664525 * temper x :=
    (mul_injective_of_inverse hodd).comp temper_involutive.injective
  constructor
  · intro near previous x y h
    have hsum : x ^^^ near ^^^ previous = y ^^^ near ^^^ previous := hmixed h
    rwa [BitVec.xor_left_inj, BitVec.xor_left_inj] at hsum
  · intro x y h
    have hsum : x ^^^ x ^^^ x = y ^^^ y ^^^ y := hmixed h
    rwa [BitVec.xor_self, BitVec.xor_self, BitVec.zero_xor, BitVec.zero_xor] at hsum
  · intro x y z h
    exact (BitVec.add_left_inj x).1 h
  · intro x y h
    exact (BitVec.add_left_inj _).1 h

/-- The multiplier is odd, and so is three. -/
theorem lossless_finishing (here : Nat) : (finishing here).Lossless := by
  have hodd : (1786162797 : Word32) * 1566083941 = 1 := by decide
  have hthree : (2863311531 : Word32) * 3 = 1 := by decide
  have hmixed : Injective fun x : Word32 => 1566083941 * temper x :=
    (mul_injective_of_inverse hodd).comp temper_involutive.injective
  constructor
  · intro near previous x y h
    have hsum : x + near + previous = y + near + previous := hmixed h
    rwa [BitVec.add_left_inj, BitVec.add_left_inj] at hsum
  · intro x y h
    have hsum : x + x + x = y + y + y := hmixed h
    have htriple : ∀ z : BitVec 32, z + z + z = 3 * z := by
      intro z
      bv_omega
    rw [htriple, htriple] at hsum
    exact mul_injective_of_inverse hthree hsum
  · intro x y z h
    exact (BitVec.xor_left_inj x).1 h
  · intro x y h
    exact (BitVec.sub_left_inj _).1 h

/-! ## Passes -/

section Fold

variable {α : Type u} {ι : Type v} {f g : α → ι → α}

theorem foldl_injective (hf : ∀ i, Injective fun s => f s i) (l : List ι) :
    Injective fun s => l.foldl f s := by
  induction l with
  | nil =>
      exact fun _ _ h => h
  | cons i rest ih =>
      intro s t h
      exact hf i (ih h)

/-- Two runs of steps that can be undone, and that differ in a single one, end in different states. -/
theorem foldl_ne_of_differ_once {j : ι} (hf : ∀ i, Injective fun s => f s i)
    (hsame : ∀ i, i ≠ j → ∀ s, f s i = g s i) (hdiffer : ∀ s, f s j ≠ g s j) {l : List ι}
    (honce : l.Nodup) (hj : j ∈ l) (s : α) : l.foldl f s ≠ l.foldl g s := by
  -- Up to the step in question the two runs are in one state, which is arbitrary in the induction.
  induction l generalizing s with
  | nil =>
      cases hj
  | cons i rest ih =>
      obtain ⟨hi, hrest⟩ := List.nodup_cons.1 honce
      by_cases hij : i = j
      · -- From here on both take the same steps, which keep their states apart.
        subst hij
        have hafter : rest.foldl f (g s i) = rest.foldl g (g s i) := by
          apply List.foldl_ext
          intro t m hm
          exact hsame m (fun heq => hi (heq ▸ hm)) t
        intro hend
        exact hdiffer s (foldl_injective hf rest (hend.trans hafter.symm))
      · have hlater : j ∈ rest := (List.mem_cons.1 hj).resolve_left (Ne.symm hij)
        rw [List.foldl_cons, List.foldl_cons, hsame i hij]
        exact ih hrest hlater _

end Fold

theorem absorbStep_injective (pool : EntropyPool) (pos : 0 < n) (i : Nat) :
    Injective fun dest => pool.absorbStep pos dest i := by
  simp only [absorbStep_eq]
  exact (lossless_absorbing pool i (cell pos i)).step_injective pos i

theorem finishStep_injective (pos : 0 < n) (i : Nat) :
    Injective fun dest => finishStep pos dest i := by
  simp only [finishStep_eq]
  exact (lossless_finishing (cell pos i)).step_injective pos i

/-- The first pass, and the second. -/
theorem stir_eq (pool : EntropyPool) (pos : 0 < n) (dest : Vector Word32 n) :
    pool.stir dest = (List.range' (pool.absorbSteps n) n).foldl (finishStep pos)
      ((List.range (pool.absorbSteps n)).foldl (pool.absorbStep pos) dest) :=
  dif_pos pos

theorem stir_injective (pool : EntropyPool) (pos : 0 < n) :
    Injective (pool.stir : Vector Word32 n → Vector Word32 n) := by
  intro u v h
  rw [stir_eq pool pos, stir_eq pool pos] at h
  exact foldl_injective (pool.absorbStep_injective pos) _
    (foldl_injective (finishStep_injective pos) _ h)

theorem finite_destinations (n : Nat) : Finite (Vector Word32 n) := by
  have hread : Injective fun (v : Vector Word32 n) (i : Fin n) => v.get i := by
    intro u v h
    exact Vector.ext fun i hi => congrFun h ⟨i, hi⟩
  exact Finite.of_injective _ hread

/-- There are as many destinations as there are, so that stirring reaches all of them. -/
theorem stir_bijective (pool : EntropyPool) (pos : 0 < n) :
    Bijective (pool.stir : Vector Word32 n → Vector Word32 n) := by
  have := finite_destinations n
  exact Finite.injective_iff_bijective.1 (pool.stir_injective pos)

/-! ## Pools that differ in one word -/

section Pools

variable {p q : EntropyPool} {i : Nat}

/-- What is taken in at another step is the same for both pools. -/
theorem intake_eq (hlength : p.words.length = q.words.length)
    (hothers : ∀ j, j ≠ i → p.words[j]? = q.words[j]?) {step : Nat} (hstep : step ≠ i + 1)
    (here : Nat) : p.intake step here = q.intake step here := by
  have hsize : p.size = q.size := hlength
  unfold intake
  by_cases hfirst : step = 0
  · rw [if_pos hfirst, if_pos hfirst, hsize]
  · rw [if_neg hfirst, if_neg hfirst, hsize, hothers (step - 1) (by omega)]

theorem lt_length_of_getElem?_ne (hlength : p.words.length = q.words.length)
    (hdiffer : p.words[i]? ≠ q.words[i]?) : i < p.words.length := by
  by_contra hge
  rw [Nat.not_lt] at hge
  exact hdiffer ((List.getElem?_eq_none hge).trans (List.getElem?_eq_none (hlength ▸ hge)).symm)

theorem intake_ne (hlength : p.words.length = q.words.length) (hdiffer : p.words[i]? ≠ q.words[i]?)
    (here : Nat) : p.intake (i + 1) here ≠ q.intake (i + 1) here := by
  have hlt := lt_length_of_getElem?_ne hlength hdiffer
  have hlt' : i < q.words.length := hlength ▸ hlt
  rw [List.getElem?_eq_getElem hlt, List.getElem?_eq_getElem hlt'] at hdiffer
  have hword : ∀ pool : EntropyPool, ∀ h : i < pool.words.length,
      pool.intake (i + 1) here = BitVec.ofNat 32 here + pool.words[i] := by
    intro pool h
    rw [intake, if_neg (Nat.succ_ne_zero i), if_pos (show i + 1 ≤ pool.size from h),
      Nat.add_sub_cancel, List.getElem?_eq_getElem h]
    rfl
  rw [hword p hlt, hword q hlt']
  exact fun h => hdiffer (congrArg some ((BitVec.add_right_inj _).1 h))

/-- The step that takes the word in overwrites the current cell with what it took in. -/
theorem absorbStep_ne (hlength : p.words.length = q.words.length)
    (hdiffer : p.words[i]? ≠ q.words[i]?) (pos : 0 < n) (dest : Vector Word32 n) :
    p.absorbStep pos dest (i + 1) ≠ q.absorbStep pos dest (i + 1) := by
  intro h
  have hcell : (p.absorbStep pos dest (i + 1)).get (cells pos (i + 1)).here =
      (q.absorbStep pos dest (i + 1)).get (cells pos (i + 1)).here := by
    rw [h]
  rw [absorbStep_eq, absorbStep_eq, Blend.get_step_here, Blend.get_step_here] at hcell
  exact intake_ne hlength hdiffer _ ((BitVec.add_right_inj _).1 hcell)

theorem stir_ne_of_differ_once (hlength : p.words.length = q.words.length)
    (honce : ∃! i : Nat, p.words[i]? ≠ q.words[i]?) (pos : 0 < n) (dest : Vector Word32 n) :
    p.stir dest ≠ q.stir dest := by
  obtain ⟨i, hdiffer, honly⟩ := honce
  have hothers : ∀ j, j ≠ i → p.words[j]? = q.words[j]? := by
    intro j hj
    by_contra hne
    exact hj (honly j hne)
  have hsteps : p.absorbSteps n = q.absorbSteps n := congrArg (fun s => max (s + 1) n) hlength
  -- The word is taken in before the first pass ends.
  have htaken : i + 1 ∈ List.range (q.absorbSteps n) := by
    have hlt : i < q.size := lt_length_of_getElem?_ne hlength.symm (Ne.symm hdiffer)
    rw [List.mem_range, absorbSteps]
    omega
  have habsorbed : (List.range (q.absorbSteps n)).foldl (p.absorbStep pos) dest ≠
      (List.range (q.absorbSteps n)).foldl (q.absorbStep pos) dest := by
    refine foldl_ne_of_differ_once (p.absorbStep_injective pos) ?_
      (absorbStep_ne hlength hdiffer pos) List.nodup_range htaken dest
    intro step hstep dest
    simp only [absorbStep, intake_eq hlength hothers hstep]
  rw [stir_eq p pos, stir_eq q pos, hsteps]
  exact fun h => habsorbed (foldl_injective (finishStep_injective pos) _ h)

end Pools

/-! ## Destinations and keys -/

theorem fill_fst (pool : EntropyPool) (dest : Vector Word32 n) :
    (pool.fill dest).1 = pool.stir (Vector.replicate n blank) := by
  have hblank : (dest.map fun _ => blank) = Vector.replicate n blank := by
    apply Vector.ext
    intro i hi
    rw [Vector.getElem_map, Vector.getElem_replicate]
  rw [fill, hblank]

section Keys

open Keystream

/-- A pool has as many words for a key as are asked for. -/
theorem ofSource_toSource {w : Width} {c k : Nat} {F : BlockFunction w c k} (pool : EntropyPool) :
    (ofSource pool.toSource : Logged (Except SeedError (Keystream F))) =
      ⟨.ok (ofKey (Block.ofParts (pool.fill (Vector.replicate (k * w.parts) 0)).1)), []⟩ :=
  ofSource_of_le (Nat.le_refl _)

/-- For every pool and every length of the ring, stirring is a bijection on what the ring holds.  Two pools
of one size that differ in one word, wherever it is and however many there are, fill destinations of every
length differently, whatever these held before, and so give different keys of every length but zero. -/
theorem pool_loses_no_word :
    (∀ (pool : EntropyPool) {n : Nat}, 0 < n →
      Bijective (pool.stir : Vector Word32 n → Vector Word32 n)) ∧
    ∀ {p q : EntropyPool}, p.words.length = q.words.length →
      (∃! i : Nat, p.words[i]? ≠ q.words[i]?) →
        (∀ {n : Nat}, 0 < n → ∀ dest dest' : Vector Word32 n,
          (p.fill dest).1 ≠ (q.fill dest').1) ∧
        ∀ {w : Width} {c k : Nat} (F : BlockFunction w c k), 0 < k → ∃ key key' : Block w k,
          (ofSource p.toSource : Logged (Except SeedError (Keystream F))).value = .ok (ofKey key) ∧
            (ofSource q.toSource : Logged (Except SeedError (Keystream F))).value =
              .ok (ofKey key') ∧
            key ≠ key' := by
  refine ⟨fun pool _ pos => pool.stir_bijective pos, ?_⟩
  intro p q hlength honce
  have hfill : ∀ {n : Nat}, 0 < n → ∀ dest dest' : Vector Word32 n,
      (p.fill dest).1 ≠ (q.fill dest').1 := by
    intro n pos dest dest'
    rw [fill_fst, fill_fst]
    exact stir_ne_of_differ_once hlength honce pos _
  refine ⟨hfill, ?_⟩
  intro w c k F hk
  refine ⟨_, _, congrArg Logged.value (ofSource_toSource p),
    congrArg Logged.value (ofSource_toSource q), ?_⟩
  intro hkeys
  exact hfill (Nat.mul_pos hk w.parts_pos) _ _ (Block.ofParts_injective hkeys)

/-- Five words, and the same but for the last. -/
def fiveWords : EntropyPool := ⟨[3, 1, 4, 1, 5]⟩

def lastChanged : EntropyPool := ⟨[3, 1, 4, 1, 6]⟩

/-- The last word shows in a ring that has fewer cells than there are words, and even in a single cell. -/
theorem pool_loses_no_word_of_five :
    0 < 1 ∧ fiveWords.words.length = lastChanged.words.length ∧
      (∃! i : Nat, fiveWords.words[i]? ≠ lastChanged.words[i]?) ∧
      Bijective (fiveWords.stir : Vector Word32 1 → Vector Word32 1) ∧
      (fiveWords.fill #v[0]).1 ≠ (lastChanged.fill #v[7]).1 ∧
      (fiveWords.fill #v[0, 0]).1 ≠ (lastChanged.fill #v[0, 0]).1 ∧
      ∃ key key' : Block .w64 2,
        (ofSource fiveWords.toSource :
            Logged (Except SeedError (Keystream (threefry2x64 20)))).value = .ok (ofKey key) ∧
          (ofSource lastChanged.toSource :
            Logged (Except SeedError (Keystream (threefry2x64 20)))).value = .ok (ofKey key') ∧
          key ≠ key' := by
  have hlength : fiveWords.words.length = lastChanged.words.length := rfl
  have honce : ∃! i : Nat, fiveWords.words[i]? ≠ lastChanged.words[i]? := by
    refine ⟨4, by decide, ?_⟩
    intro i hdiffer
    match i with
    | 0 | 1 | 2 | 3 =>
        exact absurd rfl hdiffer
    | 4 =>
        rfl
    | _ + 5 =>
        exact absurd rfl hdiffer
  obtain ⟨hbijective, hpools⟩ := pool_loses_no_word
  obtain ⟨hfill, hkeys⟩ := hpools hlength honce
  exact ⟨Nat.one_pos, hlength, honce, hbijective fiveWords Nat.one_pos,
    hfill Nat.one_pos _ _, hfill Nat.two_pos _ _, hkeys (threefry2x64 20) Nat.two_pos⟩

end Keys

end EntropyPool
end CounterRng
