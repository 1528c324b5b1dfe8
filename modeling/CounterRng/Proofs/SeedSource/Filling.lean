import CounterRng.Proofs.SeedSource.Stirring
import CounterRng.SeedSource.Checked

/-!
# Filling — a pool fills every destination, whatever it held

The places that a step works on are remainders of sums by the length of the ring, and so are places in it; and
the steps of the first pass that look for a word are those from the first to the last that there is.  None of
this depends on how the length of the ring compares with the number of words, nor on the size class that
decides about the distances.  What is left is that sums have room, the largest being that in the last step of
the second pass.

* `Checked.places_eq`, `Checked.intake_eq` — the places of cells and of words, for every step;
* `Checked.absorbStep_eq`, `Checked.finishStep_eq` — a tested step is the step, if its sums have room;
* `Checked.absorbPass_eq`, `Checked.finishPass_eq` — the same for the passes, the first of which takes in
  every word once, in order;
* `Checked.room_of_fill_eq_ok` — a filling that comes to its end has had room for every sum;
* `fill_sound` — the filling of a destination of any length from a pool of any size;
* `empty_destination_takes_no_word` — why the words are taken in only if there is a cell to be filled.
-/

namespace CounterRng

/-! ## Distances and words -/

namespace EntropyPool

variable {n : Nat}

theorem gap_lt (pos : 0 < n) : gap n < n := by
  unfold gap
  repeat' split
  all_goals omega

theorem far_lt (pos : 0 < n) : far n < n := by
  have hgap := gap_lt pos
  unfold far near
  omega

/-- The place of the word that step `i` of the first pass takes in, if it takes one. -/
def takenAt (pool : EntropyPool) (i : Nat) : List Nat :=
  if 0 < i ∧ i ≤ pool.size then [i - 1] else []

theorem flatMap_takenAt (pool : EntropyPool) (steps : Nat) :
    (List.range steps).flatMap pool.takenAt = List.range (min (steps - 1) pool.size) := by
  induction steps with
  | zero =>
      rw [Nat.zero_sub, Nat.zero_min]
      rfl
  | succ i ih =>
      rw [List.range_succ, List.flatMap_append, ih, List.flatMap_singleton, takenAt]
      by_cases htakes : 0 < i ∧ i ≤ pool.size
      · have hbefore : min (i - 1) pool.size = i - 1 := by omega
        have hafter : min (i + 1 - 1) pool.size = i - 1 + 1 := by omega
        rw [if_pos htakes, hbefore, hafter, List.range_succ]
      · -- The first step takes the size, and those after the last word take none.
        have hsame : min (i - 1) pool.size = min (i + 1 - 1) pool.size := by omega
        rw [if_neg htakes, hsame, List.append_nil]

/-- The first pass is long enough for every word, however few cells there are. -/
theorem flatMap_takenAt_absorbSteps (pool : EntropyPool) (n : Nat) :
    (List.range (pool.absorbSteps n)).flatMap pool.takenAt = List.range pool.size := by
  have hall : min (pool.absorbSteps n - 1) pool.size = pool.size := by
    unfold absorbSteps
    omega
  rw [flatMap_takenAt, hall]

end EntropyPool

namespace Checked

open EntropyPool (Cells cells near far takenAt absorbSteps)

variable {n limit i : Nat}

/-! ## The ring of cells -/

theorem gap_eq (pos : 0 < n) : Checked.gap n = .ok (EntropyPool.gap n) := by
  have hothers : subtract n 1 = .ok (n - 1) := subtract_eq pos
  simp only [Checked.gap, EntropyPool.gap, hothers, ok_bind]
  split_ifs <;> rfl

theorem reach_eq (pos : 0 < n) (h : n ≤ limit) : reach limit n = .ok ⟨near n, far n⟩ := by
  have hgap : EntropyPool.gap n ≤ n := Nat.le_of_lt (EntropyPool.gap_lt pos)
  have hfar : near n + EntropyPool.gap n ≤ limit :=
    Nat.le_trans (Nat.le_of_lt (EntropyPool.far_lt pos)) h
  simp only [reach, gap_eq pos, subtract_eq hgap, lift_ok, ok_bind]
  rw [← near, sum_eq hfar]
  rfl

def placesOf (c : Cells n) : Places := ⟨c.here, c.near, c.far, c.previous⟩

theorem places_eq (pos : 0 < n) (h : i + n ≤ limit) :
    places limit n ⟨near n, far n⟩ i = .ok (placesOf (cells pos i)) := by
  have hnear : i + near n ≤ limit := by
    have hlt := EntropyPool.near_lt pos
    omega
  have hfar : i + far n ≤ limit := by
    have hlt := EntropyPool.far_lt pos
    omega
  have hprevious : 1 ≤ i + n := by omega
  simp only [places, divide_eq pos, sum_eq hnear, sum_eq hfar, sum_eq h, subtract_eq hprevious,
    lift_ok, ok_bind]
  rfl

theorem room_of_places_eq_ok {reach : Reach} {p : Places} (h : places limit n reach i = .ok p) :
    i + n ≤ limit := by
  -- The sum in question is the last one that the places are made of.
  obtain ⟨⟨_, here⟩, -, h⟩ := exists_of_bind_eq_ok h
  obtain ⟨toNear, -, h⟩ := exists_of_bind_eq_ok h
  obtain ⟨⟨_, near⟩, -, h⟩ := exists_of_bind_eq_ok h
  obtain ⟨toFar, -, h⟩ := exists_of_bind_eq_ok h
  obtain ⟨⟨_, far⟩, -, h⟩ := exists_of_bind_eq_ok h
  obtain ⟨round, hround, -⟩ := exists_of_bind_eq_ok h
  exact (sum_eq_ok_iff.1 hround).1

/-! ## Steps -/

theorem limb_fin (dest : Block .w32 n) (j : Fin n) : limb dest j = .ok (dest.get j) :=
  limb_eq j.isLt

theorem setLimb_fin (dest : Block .w32 n) (j : Fin n) (x : Word32) :
    setLimb dest j x = .ok (dest.set j x j.isLt) :=
  setLimb_eq j.isLt

theorem draw_eq (mix : Word32 → Word32 → Word32 → Word32) (dest : Block .w32 n) (c : Cells n) :
    draw mix dest (placesOf c) = .ok (mix dest[c.here] dest[c.near] dest[c.previous]) := by
  simp only [draw, placesOf, limb_fin, ok_bind]
  rfl

theorem spread_eq (combine : Word32 → Word32 → Word32) (dest : Block .w32 n) (c : Cells n)
    (x y : Word32) :
    spread combine dest (placesOf c) x y =
      .ok (let dest := dest.set c.near (combine dest[c.near] x)
        let dest := dest.set c.far (combine dest[c.far] y)
        dest.set c.here y) := by
  simp only [spread, placesOf, limb_fin, setLimb_fin, ok_bind]
  rfl

theorem intake_eq (pool : EntropyPool) (i here : Nat) :
    Checked.intake pool i here = .ok (pool.intake i here, takenAt pool i) := by
  unfold Checked.intake EntropyPool.intake takenAt
  by_cases hfirst : i = 0
  · subst hfirst
    rfl
  · have hpos : 0 < i := Nat.pos_of_ne_zero hfirst
    by_cases hword : i ≤ pool.size
    · have hplace : i - 1 < pool.words.length := by
        have hsize : pool.size = pool.words.length := rfl
        omega
      rw [if_neg hfirst, if_neg hfirst, if_pos hword, if_pos hword, if_pos ⟨hpos, hword⟩,
        subtract_eq hpos, ok_bind, limb_eq hplace, List.getElem?_eq_getElem hplace]
      rfl
    · rw [if_neg hfirst, if_neg hfirst, if_neg hword, if_neg hword, if_neg fun h => hword h.2]
      rfl

theorem absorbStep_eq (pool : EntropyPool) (pos : 0 < n) (h : i + n ≤ limit) (s : Filling n) :
    Checked.absorbStep limit pool ⟨near n, far n⟩ s i =
      .ok ⟨pool.absorbStep pos s.dest i, s.taken ++ takenAt pool i⟩ := by
  simp only [Checked.absorbStep, places_eq pos h, draw_eq, intake_eq, spread_eq, lift_ok, ok_bind]
  rfl

theorem finishStep_eq (pos : 0 < n) (h : i + n ≤ limit) (dest : Block .w32 n) :
    Checked.finishStep limit ⟨near n, far n⟩ dest i = .ok (EntropyPool.finishStep pos dest i) := by
  simp only [Checked.finishStep, places_eq pos h, draw_eq, spread_eq, lift_ok, ok_bind]
  rfl

theorem room_of_finishStep_eq_ok {reach : Reach} {dest filled : Block .w32 n}
    (h : Checked.finishStep limit reach dest i = .ok filled) : i + n ≤ limit := by
  obtain ⟨p, hp, -⟩ := exists_of_bind_eq_ok h
  exact room_of_places_eq_ok hp

/-! ## Passes -/

section Fold

variable {α ι : Type} {f : α → ι → Except Trap α} {g : α → ι → α} {l : List ι}

theorem foldlM_eq_ok (h : ∀ i ∈ l, ∀ s, f s i = .ok (g s i)) (s : α) :
    l.foldlM f s = .ok (l.foldl g s) := by
  induction l generalizing s with
  | nil =>
      rfl
  | cons i rest ih =>
      have hrest : ∀ j ∈ rest, ∀ s, f s j = .ok (g s j) := fun j hj =>
        h j (List.mem_cons_of_mem i hj)
      rw [List.foldlM_cons, h i List.mem_cons_self, ok_bind, ih hrest, List.foldl_cons]

/-- A run that comes to its end has taken each of its steps. -/
theorem exists_step_of_foldlM_eq_ok {s t : α} (h : l.foldlM f s = .ok t) {i : ι} (hi : i ∈ l) :
    ∃ s' t', f s' i = .ok t' := by
  induction l generalizing s with
  | nil =>
      cases hi
  | cons j rest ih =>
      rw [List.foldlM_cons] at h
      obtain ⟨next, hstep, hrest⟩ := exists_of_bind_eq_ok h
      rcases List.mem_cons.1 hi with rfl | hlater
      · exact ⟨s, next, hstep⟩
      · exact ih hrest hlater

end Fold

/-- The cells do not depend on the record of the words taken in. -/
theorem foldl_filling (step : Block .w32 n → Nat → Block .w32 n) (taken : Nat → List Nat)
    (l : List Nat) (s : Filling n) :
    l.foldl (fun s i => ⟨step s.dest i, s.taken ++ taken i⟩) s =
      ⟨l.foldl step s.dest, s.taken ++ l.flatMap taken⟩ := by
  induction l generalizing s with
  | nil =>
      rw [List.flatMap_nil, List.append_nil]
      rfl
  | cons i rest ih =>
      rw [List.foldl_cons, ih, List.foldl_cons, List.flatMap_cons, List.append_assoc]

theorem absorbPass_eq (pool : EntropyPool) (pos : 0 < n) (h : pool.absorbSteps n + n ≤ limit + 1)
    (s : Filling n) :
    (List.range (pool.absorbSteps n)).foldlM (Checked.absorbStep limit pool ⟨near n, far n⟩) s =
      .ok ⟨(List.range (pool.absorbSteps n)).foldl (pool.absorbStep pos) s.dest,
        s.taken ++ List.range pool.size⟩ := by
  have hsteps : ∀ i ∈ List.range (pool.absorbSteps n), ∀ s : Filling n,
      Checked.absorbStep limit pool ⟨near n, far n⟩ s i =
        .ok ⟨pool.absorbStep pos s.dest i, s.taken ++ takenAt pool i⟩ := by
    intro i hi s
    have hlt := List.mem_range.1 hi
    have hroom : i + n ≤ limit := by omega
    exact absorbStep_eq pool pos hroom s
  rw [foldlM_eq_ok hsteps, foldl_filling, EntropyPool.flatMap_takenAt_absorbSteps]

theorem finishPass_eq (pos : 0 < n) {start : Nat} (h : start + 2 * n ≤ limit + 1)
    (dest : Block .w32 n) :
    (List.range' start n).foldlM (Checked.finishStep limit ⟨near n, far n⟩) dest =
      .ok ((List.range' start n).foldl (EntropyPool.finishStep pos) dest) := by
  refine foldlM_eq_ok ?_ dest
  intro i hi dest
  have hlt := (List.mem_range'_1.1 hi).2
  have hroom : i + n ≤ limit := by omega
  exact finishStep_eq pos hroom dest

theorem fill_eq (pool : EntropyPool) (pos : 0 < n)
    (h : max (pool.size + 1) n + 2 * n ≤ limit + 1) (dest : Block .w32 n) :
    Checked.fill limit pool dest = .ok (⟨(pool.fill dest).1, List.range pool.size⟩, n) := by
  have hne : n ≠ 0 := Nat.ne_of_gt pos
  have hlength : n ≤ limit := by omega
  have hsize : pool.size + 1 ≤ limit := by omega
  have hsteps : pool.absorbSteps n + 2 * n ≤ limit + 1 := h
  have hend : pool.absorbSteps n + n ≤ limit := by omega
  simp only [Checked.fill, if_neg hne, reach_eq pos hlength, sum_eq hsize, ok_bind]
  rw [← absorbSteps, absorbPass_eq pool pos (Nat.le_succ_of_le hend), ok_bind, sum_eq hend, ok_bind,
    Nat.add_sub_cancel_left, finishPass_eq pos hsteps, EntropyPool.fill, EntropyPool.stir_eq pool pos]
  rfl

theorem room_of_fill_eq_ok {pool : EntropyPool} {dest : Block .w32 n} {filled : Filling n × Nat}
    (pos : 0 < n) (h : Checked.fill limit pool dest = .ok filled) :
    max (pool.size + 1) n + 2 * n ≤ limit + 1 := by
  rw [Checked.fill, if_neg (Nat.ne_of_gt pos)] at h
  obtain ⟨reach, -, h⟩ := exists_of_bind_eq_ok h
  obtain ⟨succ, hsucc, h⟩ := exists_of_bind_eq_ok h
  obtain ⟨absorbed, -, h⟩ := exists_of_bind_eq_ok h
  obtain ⟨last, hlast, h⟩ := exists_of_bind_eq_ok h
  obtain ⟨finished, hfinished, -⟩ := exists_of_bind_eq_ok h
  obtain ⟨-, rfl⟩ := sum_eq_ok_iff.1 hsucc
  obtain ⟨-, rfl⟩ := sum_eq_ok_iff.1 hlast
  rw [Nat.add_sub_cancel_left] at hfinished
  -- The second pass has come past its last step.
  have hmem : max (pool.size + 1) n + (n - 1) ∈ List.range' (max (pool.size + 1) n) n :=
    List.mem_range'_1.2 (by omega)
  obtain ⟨_, _, hstep⟩ := exists_step_of_foldlM_eq_ok hfinished hmem
  have hroom := room_of_finishStep_eq_ok hstep
  omega

end Checked

/-! ## Fillings -/

namespace EntropyPool

/-- A pool of any size fills a destination that is not empty with words that are the same whatever it held,
and reports its length.  No difference on the way is negative, no divisor is zero, and every cell and every
word is where it is looked for; and the words of the pool are taken in one after the other, each of them
once.  All of this holds as soon as counts go far enough for the sums that are made of them, and not before.
An empty destination is filled without a step, and so without a word. -/
theorem fill_sound (pool : EntropyPool) :
    (∀ {n : Nat}, 0 < n → ∃ filled : Vector Word32 n, ∀ dest : Vector Word32 n,
      pool.fill dest = (filled, n) ∧
        ∀ limit : Nat,
          Checked.fill limit pool dest = .ok (⟨filled, List.range pool.size⟩, n) ↔
            max (pool.size + 1) n + 2 * n ≤ limit + 1) ∧
    ∀ dest : Vector Word32 0,
      pool.fill dest = (#v[], 0) ∧
        ∀ limit : Nat, Checked.fill limit pool dest = .ok (⟨#v[], []⟩, 0) := by
  constructor
  · intro n pos
    refine ⟨pool.stir (Vector.replicate n blank), ?_⟩
    intro dest
    have hfill : pool.fill dest = (pool.stir (Vector.replicate n blank), n) :=
      Prod.ext (fill_fst pool dest) rfl
    refine ⟨hfill, ?_⟩
    intro limit
    constructor
    · intro h
      exact Checked.room_of_fill_eq_ok pos h
    · intro hroom
      rw [Checked.fill_eq pool pos hroom, hfill]
  · intro dest
    obtain rfl : dest = #v[] := Vector.eq_empty
    exact ⟨Prod.ext Vector.eq_empty rfl, fun _ => rfl⟩

def threeInEight : Vector Word32 8 :=
  #v[0xc33f57f7, 0xc84d3765, 0x94b29995, 0x81ed299a, 0xb72d5919, 0xba8bc946, 0x613ec571, 0xcfd1f5ff]

/-- Three words in eight cells, for which counts have to go up to twenty-three. -/
theorem fill_sound_three_in_eight :
    0 < 8 ∧
      Checked.fill 23 ⟨[1, 2, 3]⟩ (Vector.replicate 8 7) = .ok (⟨threeInEight, [0, 1, 2]⟩, 8) ∧
      Checked.fill 22 ⟨[1, 2, 3]⟩ (Vector.replicate 8 7) ≠ .ok (⟨threeInEight, [0, 1, 2]⟩, 8) := by
  have hpos : 0 < 8 := by decide
  rcases (fill_sound ⟨[1, 2, 3]⟩).1 hpos with ⟨filled, hfilled⟩
  rcases hfilled (Vector.replicate 8 7) with ⟨hfill, hrun⟩
  have hwords : filled = threeInEight :=
    calc
      filled = (EntropyPool.fill ⟨[1, 2, 3]⟩ (Vector.replicate 8 7)).1 :=
        (congrArg Prod.fst hfill).symm
      _ = threeInEight := by decide +kernel
  subst hwords
  exact ⟨hpos, (hrun 23).2 (by decide), fun h => absurd ((hrun 22).1 h) (by decide)⟩

/-- A pool of one word fills an empty destination without fault, and does not take its word in. -/
theorem empty_destination_takes_no_word :
    Checked.fill (2 ^ (64 : Nat) - 1) ⟨[9]⟩ (#v[] : Vector Word32 0) = .ok (⟨#v[], []⟩, 0) ∧
      ¬ ∃ filling : Checked.Filling 0,
        Checked.fill (2 ^ (64 : Nat) - 1) ⟨[9]⟩ (#v[] : Vector Word32 0) = .ok (filling, 0) ∧
          ∀ place < 1, filling.taken.count place = 1 := by
  have hrun : Checked.fill (2 ^ (64 : Nat) - 1) ⟨[9]⟩ (#v[] : Vector Word32 0) =
      .ok (⟨#v[], []⟩, 0) := rfl
  refine ⟨hrun, ?_⟩
  rintro ⟨filling, hfilled, honce⟩
  rw [hrun] at hfilled
  cases hfilled
  exact absurd (honce 0 Nat.zero_lt_one) (by decide)

end EntropyPool
end CounterRng
