import ScriptLexer.Binary64.Shortest
import ScriptLexer.Proofs.Decimals

/-!
# The search for the shortest decimal

On each grid of multiples of a power of ten a number stands between two neighbours. The decimals that round to it
make an interval around it, so if any of them is not strictly between the two, one of the two is in the interval
and no farther away. A decimal with `n` digits is a multiple of the spacing of the grid on which the number itself
has `n` digits in front of the point, or less than the leading digit of the number is worth. Hence the first grid
with a neighbour that rounds back tells how many digits are needed, and that neighbour is the best of them.
-/

namespace ScriptLexer.Binary64

variable {x : Binary64} {w : ℚ}

/-- The absolute value of a number in the units in which its decimals are counted. -/
def decimalUnits (x : Binary64) : ℚ := x.units * 10 ^ places / 2 ^ 1074

/-- Whether so many of these units are rounded to the absolute value of `x`. -/
def RoundsBack (x : Binary64) (w : ℚ) : Prop := NearestUnits (w * 2 ^ 1074 / 10 ^ places) x.magnitude

lemma roundsTo_iff (hx : x.isFinite) (decimal : ℕ) : x.roundsTo decimal ↔ x.RoundsBack decimal := by
  unfold roundsTo RoundsBack
  generalize places = n
  have hpower : 0 < Nat.pow 10 n := Nat.pow_pos (by decide)
  rw [decide_eq_true_iff, nearestMagnitude_eq_iff decimal hpower (x.isFinite_iff.mp hx), Nat.pow_eq, Nat.cast_pow,
    Nat.cast_ofNat]

lemma unit_pos : 0 < Nat.pow 2 1074 := by decide +kernel

lemma decimalUnits_eq_div (x : Binary64) : x.decimalUnits = (x.scaled : ℚ) / (Nat.pow 2 1074 : ℕ) := by
  rw [decimalUnits, scaled]
  simp only [Nat.pow_eq, Nat.cast_mul, Nat.cast_pow, Nat.cast_ofNat]

/-- Distances are counted in both units. -/
lemma abs_units_sub (x : Binary64) (w : ℚ) :
    |(x.units : ℚ) - w * 2 ^ 1074 / 10 ^ places| = |w - x.decimalUnits| * (2 ^ 1074 / 10 ^ places) := by
  have hfactor : (0 : ℚ) < 2 ^ 1074 / 10 ^ places := by positivity
  have hscaled : w * 2 ^ 1074 / 10 ^ places - x.units = (w - x.decimalUnits) * (2 ^ 1074 / 10 ^ places) := by
    unfold decimalUnits
    field_simp
  rw [abs_sub_comm, hscaled, abs_mul, abs_of_pos hfactor]

/-- The unit of decimals is less than half the unit of numbers. -/
lemma roundsBack_of_lt (h : |w - x.decimalUnits| < 1) : x.RoundsBack w := by
  have hunit : (2 : ℚ) ^ 1074 / 10 ^ places ≤ 1 / 2 := by
    rw [div_le_div_iff₀ (by positivity) two_pos]
    have hpowers : 2 ^ 1074 * 2 ≤ 1 * 10 ^ places := by decide +kernel
    exact_mod_cast hpowers
  have hfactor : (0 : ℚ) < 2 ^ 1074 / 10 ^ places := by positivity
  apply nearestUnits_of_lt
  rw [← units, abs_units_sub]
  exact ((mul_lt_iff_lt_one_left hfactor).mpr h).trans_le hunit

lemma roundsBack_decimalUnits (x : Binary64) : x.RoundsBack x.decimalUnits :=
  roundsBack_of_lt (by rw [sub_self, abs_zero]; exact one_pos)

lemma RoundsBack.of_between {a b : ℚ} (ha : x.RoundsBack a) (hb : x.RoundsBack b) (haw : a ≤ w) (hwb : w ≤ b)
    (hw : 0 ≤ w) : x.RoundsBack w := by
  have hfactor : (0 : ℚ) ≤ 2 ^ 1074 / 10 ^ places := by positivity
  unfold RoundsBack at *
  simp only [mul_div_assoc] at *
  exact ha.of_between hb (mul_le_mul_of_nonneg_right haw hfactor) (mul_le_mul_of_nonneg_right hwb hfactor)
    (mul_nonneg hw hfactor)

/-! ### The neighbours on a grid -/

/-- The multiples of `spacing` around a fraction, and how far it is above the lower one. -/
lemma exists_excess (num : ℕ) {den spacing : ℕ} (hden : 0 < den) (hspacing : 0 < spacing) :
    ∃ excess : ℚ, (num : ℚ) / den = (num / (spacing * den) * spacing : ℕ) + excess ∧ 0 ≤ excess ∧ excess < spacing ∧
      (2 * (num % (spacing * den)) < spacing * den ↔ 2 * excess < spacing) := by
  have hpos : (0 : ℚ) < den := by exact_mod_cast hden
  refine ⟨(num % (spacing * den) : ℕ) / den, ?_, by positivity, ?_, ?_⟩
  · have hsplit := congrArg (Nat.cast (R := ℚ)) (Nat.div_add_mod num (spacing * den))
    rw [← hsplit]
    push_cast
    field_simp
  · rw [div_lt_iff₀ hpos]
    exact_mod_cast Nat.mod_lt num (Nat.mul_pos hspacing hden)
  · rw [← mul_div_assoc, div_lt_iff₀ hpos]
    norm_cast

section Grid

variable (x) (j : ℕ)

/-- A number is between its neighbours, and the nearer one is told by the middle between them. -/
lemma decimalUnits_mem : x.below j ≤ x.decimalUnits ∧ x.decimalUnits < x.above j ∧
    (2 * (x.scaled % spacing j) < spacing j ↔ x.decimalUnits < (x.below j + x.above j) / 2) := by
  have hspacing : 0 < Nat.pow 10 j := Nat.pow_pos (by decide)
  obtain ⟨excess, hvalue, hnonneg, hlt, hhalf⟩ := exists_excess x.scaled unit_pos hspacing
  have hunits : x.decimalUnits = x.below j + excess := by
    rw [decimalUnits_eq_div, hvalue, below, spacing]
  have habove : (x.above j : ℚ) = x.below j + Nat.pow 10 j := Nat.cast_add _ _
  rw [spacing, hhalf, hunits, habove]
  generalize (Nat.pow 10 j : ℚ) = spacing at *
  exact ⟨by linarith, by linarith, ⟨fun h => by linarith, fun h => by linarith⟩⟩

lemma abs_below_sub : |(x.below j : ℚ) - x.decimalUnits| = x.decimalUnits - x.below j := by
  rw [abs_sub_comm, abs_of_nonneg (sub_nonneg.mpr (x.decimalUnits_mem j).1)]

lemma abs_above_sub : |(x.above j : ℚ) - x.decimalUnits| = x.above j - x.decimalUnits :=
  abs_of_nonneg (sub_nonneg.mpr (x.decimalUnits_mem j).2.1.le)

variable {x j} {c : ℕ}

/-- The neighbour that is taken rounds back, and the other one does not or is no nearer. -/
theorem neighbour?_eq_some (hx : x.isFinite) (h : x.neighbour? j = some c) :
    (c = x.below j ∨ c = x.above j) ∧ x.RoundsBack c ∧ ∀ b, b = x.below j ∨ b = x.above j → x.RoundsBack b →
      |(c : ℚ) - x.decimalUnits| ≤ |(b : ℚ) - x.decimalUnits| := by
  obtain ⟨-, -, hnearer⟩ := x.decimalUnits_mem j
  unfold neighbour? at h
  simp only [← roundsTo_iff hx]
  split_ifs at h with hlow hhigh hlt hhigh <;> obtain rfl := Option.some.inj h
  · refine ⟨.inl rfl, hlow, ?_⟩
    rintro b (rfl | rfl) -
    · exact le_rfl
    · have hmiddle := hnearer.mp hlt
      rw [abs_below_sub, abs_above_sub]
      linarith
  · refine ⟨.inr rfl, hhigh, ?_⟩
    rintro b (rfl | rfl) -
    · have hmiddle := not_lt.mp (hnearer.not.mp hlt)
      rw [abs_below_sub, abs_above_sub]
      linarith
    · exact le_rfl
  · refine ⟨.inl rfl, hlow, ?_⟩
    rintro b (rfl | rfl) hb
    · exact le_rfl
    · exact absurd hb hhigh
  · refine ⟨.inr rfl, hhigh, ?_⟩
    rintro b (rfl | rfl) hb
    · exact absurd hb hlow
    · exact le_rfl

theorem neighbour?_eq_none (hx : x.isFinite) (h : x.neighbour? j = none) :
    ∀ b, b = x.below j ∨ b = x.above j → ¬x.RoundsBack b := by
  unfold neighbour? at h
  simp only [← roundsTo_iff hx]
  split_ifs at h with hlow hhigh hhigh
  rintro b (rfl | rfl)
  · exact hlow
  · exact hhigh

/-- A decimal that rounds back and is not strictly between the neighbours is no nearer than the one that is taken. -/
theorem exists_neighbour (hx : x.isFinite) (hw : x.RoundsBack w) (hside : w ≤ x.below j ∨ x.above j ≤ w) :
    ∃ c, x.neighbour? j = some c ∧ |(c : ℚ) - x.decimalUnits| ≤ |w - x.decimalUnits| := by
  obtain ⟨hbelow, habove, -⟩ := x.decimalUnits_mem j
  -- the neighbour on the side of the decimal is between it and the number
  obtain ⟨b, hb, hback, hnearer⟩ : ∃ b, (b = x.below j ∨ b = x.above j) ∧ x.RoundsBack b ∧
      |(b : ℚ) - x.decimalUnits| ≤ |w - x.decimalUnits| := by
    rcases hside with hle | hge
    · refine ⟨_, .inl rfl, hw.of_between x.roundsBack_decimalUnits hle hbelow (Nat.cast_nonneg _), ?_⟩
      rw [abs_below_sub, abs_sub_comm, abs_of_nonneg (by linarith)]
      linarith
    · refine ⟨_, .inr rfl, x.roundsBack_decimalUnits.of_between hw habove.le hge (Nat.cast_nonneg _), ?_⟩
      rw [abs_above_sub, abs_of_nonneg (by linarith)]
      linarith
  cases hc : x.neighbour? j with
  | none => exact absurd hback (neighbour?_eq_none hx hc b hb)
  | some c => exact ⟨c, rfl, ((neighbour?_eq_some hx hc).2.2 b hb hback).trans hnearer⟩

end Grid

/-! ### The first grid with a neighbour that rounds back -/

/-- On the finest grid there always is one. -/
lemma exists_neighbour_zero (hx : x.isFinite) : ∃ c, x.neighbour? 0 = some c := by
  obtain ⟨hbelow, habove, -⟩ := x.decimalUnits_mem 0
  have hstep : (x.above 0 : ℚ) = x.below 0 + 1 := Nat.cast_succ _
  have hback : x.RoundsBack (x.below 0) := by
    apply roundsBack_of_lt
    rw [abs_below_sub]
    linarith
  obtain ⟨c, hc, -⟩ := exists_neighbour hx hback (.inl le_rfl)
  exact ⟨c, hc⟩

/-- The search ends on the coarsest grid that has one. -/
theorem exists_grid (hx : x.isFinite) (top : ℕ) : ∃ j ≤ top, x.neighbour? j = some (x.firstNeighbour top) ∧
    ∀ i, j < i → i ≤ top → x.neighbour? i = none := by
  induction top with
  | zero =>
    obtain ⟨c, hc⟩ := exists_neighbour_zero hx
    exact ⟨0, le_rfl, by rw [firstNeighbour, hc, Option.getD_some], by omega⟩
  | succ top ih =>
    cases hc : x.neighbour? (top + 1) with
    | some c => exact ⟨top + 1, le_rfl, by rw [firstNeighbour, hc, Option.getD_some], by omega⟩
    | none =>
      obtain ⟨j, hj, hfirst, hnone⟩ := ih
      refine ⟨j, by omega, by rw [firstNeighbour, hc, Option.getD_none, hfirst], ?_⟩
      intro i hji hi
      rcases Nat.lt_or_eq_of_le hi with hlt | rfl
      · exact hnone i hji (Nat.le_of_lt_succ hlt)
      · exact hc

/-! ### Digits and grids -/

/-- The grid on which a number has one digit in front of the point. -/
def topGrid (x : Binary64) : ℕ := (Text.numeral (x.scaled / Nat.pow 2 1074)).length - 1

/-- The leading digit of a number is at the place of that grid. -/
lemma decimalUnits_mem_topGrid (h : x.magnitude ≠ 0) :
    ((10 ^ x.topGrid : ℕ) : ℚ) ≤ x.decimalUnits ∧ x.decimalUnits < (10 ^ (x.topGrid + 1) : ℕ) := by
  have hpos : (0 : ℚ) < (Nat.pow 2 1074 : ℕ) := Nat.cast_pos.mpr unit_pos
  have hone : 0 < x.scaled / Nat.pow 2 1074 := by
    have hunits : 0 < x.units := Nat.zero_lt_of_lt (unitsOf_strictMono (Nat.pos_of_ne_zero h))
    have hpowers : Nat.pow 2 1074 ≤ Nat.pow 10 places := by decide +kernel
    exact Nat.div_pos (hpowers.trans (Nat.le_mul_of_pos_left _ hunits)) unit_pos
  have hlow := (Nat.le_div_iff_mul_le unit_pos).mp (Text.pow_le_of_length_numeral hone)
  have hhigh := (Nat.div_lt_iff_lt_mul unit_pos).mp (Text.lt_pow_length_numeral (x.scaled / Nat.pow 2 1074))
  rw [decimalUnits_eq_div, le_div_iff₀ hpos, div_lt_iff₀ hpos, ← Nat.cast_mul, ← Nat.cast_mul]
  exact ⟨Nat.cast_le.mpr hlow, Nat.cast_lt.mpr hhigh⟩

section Digits

variable {j c n : ℕ}

lemma dvd_below (x : Binary64) (j : ℕ) : 10 ^ j ∣ x.below j := Nat.dvd_mul_left _ _

lemma dvd_above (x : Binary64) (j : ℕ) : 10 ^ j ∣ x.above j := (x.dvd_below j).add (dvd_refl _)

/-- Multiples of the spacing are not strictly between two neighbours. -/
lemma le_below_or_above_le (x : Binary64) {b : ℕ} (hb : 10 ^ j ∣ b) : b ≤ x.below j ∨ x.above j ≤ b := by
  rcases Nat.lt_or_ge b (x.above j) with hlt | hge
  · exact .inl (Nat.le_of_lt_add_of_dvd hlt hb (x.dvd_below j))
  · exact .inr hge

/-- The place of the leading digit is on all grids that are finer. -/
lemma pow_topGrid_le_below (h : x.magnitude ≠ 0) (hj : j ≤ x.topGrid) : 10 ^ x.topGrid ≤ x.below j := by
  have hlt := (decimalUnits_mem_topGrid h).1.trans_lt (x.decimalUnits_mem j).2.1
  exact (x.le_below_or_above_le (pow_dvd_pow 10 hj)).resolve_right (not_le.mpr (Nat.cast_lt.mp hlt))

lemma above_le_pow_topGrid (h : x.magnitude ≠ 0) (hj : j ≤ x.topGrid) : x.above j ≤ 10 ^ (x.topGrid + 1) := by
  have hlt := (x.decimalUnits_mem j).1.trans_lt (decimalUnits_mem_topGrid h).2
  exact (x.le_below_or_above_le (pow_dvd_pow 10 (Nat.le_succ_of_le hj))).resolve_left (not_le.mpr (Nat.cast_lt.mp hlt))

/-- A decimal with as many digits as the number has on a grid is not strictly between the neighbours there: its
digits end on the grid, or it is less than the leading digit is worth. -/
lemma beside_of_hasDigits (h : x.magnitude ≠ 0) (hw : HasDigits n w) (hn : 0 < n) (hj : j + n = x.topGrid + 1) :
    w ≤ x.below j ∨ x.above j ≤ w := by
  obtain ⟨m, e, hm, rfl⟩ := hw
  rcases le_or_gt (j : ℤ) e with hge | hlt
  · obtain ⟨k, rfl⟩ : ∃ k : ℕ, e = j + k := ⟨(e - j).toNat, by omega⟩
    have hvalue : (m : ℚ) * 10 ^ (j + k : ℤ) = (10 ^ j * (10 ^ k * m) : ℕ) := by
      rw [zpow_add₀ (by norm_num), zpow_natCast, zpow_natCast]
      push_cast
      ring
    rw [hvalue, Nat.cast_le, Nat.cast_le]
    exact x.le_below_or_above_le (Nat.dvd_mul_right _ _)
  · have hsmall : (m : ℚ) * 10 ^ e ≤ (10 ^ x.topGrid : ℕ) := by
      calc (m : ℚ) * 10 ^ e ≤ 10 ^ (n : ℤ) * 10 ^ e :=
            mul_le_mul_of_nonneg_right (by rw [zpow_natCast]; exact_mod_cast hm.le) (zpow_nonneg (by norm_num) e)
        _ = 10 ^ (n + e) := (zpow_add₀ (by norm_num) _ _).symm
        _ ≤ 10 ^ (x.topGrid : ℤ) := zpow_le_zpow_right₀ (by norm_num) (by omega)
        _ = (10 ^ x.topGrid : ℕ) := by rw [zpow_natCast]; push_cast; rfl
    exact .inl (hsmall.trans (Nat.cast_le.mpr (pow_topGrid_le_below h (by omega))))

/-- A neighbour on a grid has no more digits than that leaves. -/
lemma hasDigits_of_dvd (hc : 10 ^ j ∣ c) (hle : c ≤ 10 ^ (j + n)) (hn : 0 < n) : HasDigits n c := by
  obtain ⟨k, rfl⟩ := hc
  rcases Nat.lt_or_eq_of_le hle with hlt | heq
  · refine ⟨k, j, ?_, ?_⟩
    · rw [pow_add] at hlt
      exact Nat.lt_of_mul_lt_mul_left hlt
    · rw [zpow_natCast]
      push_cast
      ring
  · exact ⟨1, (j + n : ℕ), Nat.one_lt_pow hn.ne' (by decide), by rw [heq, zpow_natCast]; push_cast; ring⟩

/-- Zero has no digits and is what no other number is rounded to. -/
lemma RoundsBack.pos (h : x.magnitude ≠ 0) (hn : HasDigits n w) (hw : x.RoundsBack w) : 0 < n := by
  by_contra hnone
  obtain ⟨m, e, hm, rfl⟩ := hn
  obtain rfl : m = 0 := by
    rw [Nat.eq_zero_of_not_pos hnone, pow_zero] at hm
    exact Nat.lt_one_iff.mp hm
  rw [RoundsBack, Nat.cast_zero, zero_mul, zero_mul, zero_div] at hw
  exact h (hw.eq_zero_iff.mpr (by norm_num))

end Digits

/-- The decimal that is found rounds back, no decimal with fewer digits does, and none with as many that does is
nearer to the number. -/
theorem exists_hasDigits_shortest (hx : x.isFinite) :
    x.RoundsBack x.shortest ∧ ∃ n, HasDigits n x.shortest ∧ ∀ m w, HasDigits m w → x.RoundsBack w →
      n ≤ m ∧ (m = n → |(x.shortest : ℚ) - x.decimalUnits| ≤ |w - x.decimalUnits|) := by
  obtain ⟨j, hj, hfound, hnone⟩ := exists_grid hx x.topGrid
  change x.neighbour? j = some x.shortest at hfound
  obtain ⟨hneighbour, hback, -⟩ := neighbour?_eq_some hx hfound
  have hnearest : ∀ w, x.RoundsBack w → w ≤ x.below j ∨ x.above j ≤ w →
      |(x.shortest : ℚ) - x.decimalUnits| ≤ |w - x.decimalUnits| := by
    intro w hw hside
    obtain ⟨c, hc, hle⟩ := exists_neighbour hx hw hside
    rwa [← Option.some.inj (hfound.symm.trans hc)] at hle
  refine ⟨hback, ?_⟩
  by_cases hzero : x.magnitude = 0
  · have hunits : x.decimalUnits = 0 := by
      rw [decimalUnits, units, hzero]
      simp [unitsOf]
    have hexact := hnearest 0 (hunits ▸ x.roundsBack_decimalUnits) (.inl (Nat.cast_nonneg _))
    rw [hunits, sub_zero, sub_zero, abs_zero, abs_nonpos_iff] at hexact
    refine ⟨0, ⟨0, 0, Nat.one_pos, by rw [hexact, Nat.cast_zero, zero_mul]⟩, ?_⟩
    intro m w _ _
    rw [hexact, hunits, sub_zero, abs_zero]
    exact ⟨Nat.zero_le m, fun _ => abs_nonneg _⟩
  · obtain ⟨n, hn⟩ : ∃ n, j + n = x.topGrid + 1 := ⟨_, Nat.add_sub_cancel' (by omega)⟩
    refine ⟨n, ?_, ?_⟩
    · have habove := above_le_pow_topGrid hzero hj
      rw [← hn] at habove
      rcases hneighbour with h | h <;> rw [h]
      · exact hasDigits_of_dvd (x.dvd_below j) ((Nat.le_add_right _ _).trans habove) (by omega)
      · exact hasDigits_of_dvd (x.dvd_above j) habove (by omega)
    · intro m w hw hwback
      have hm := hwback.pos hzero hw
      constructor
      · by_contra! hfewer
        -- on the coarser grid of such a decimal the search would have ended
        have hcoarser : (x.topGrid + 1 - m) + m = x.topGrid + 1 := by omega
        obtain ⟨c, hc, -⟩ := exists_neighbour hx hwback (beside_of_hasDigits hzero hw hm hcoarser)
        cases (hnone _ (by omega) (by omega)).symm.trans hc
      · rintro rfl
        exact hnearest w hwback (beside_of_hasDigits hzero hw hm hn)

end ScriptLexer.Binary64
