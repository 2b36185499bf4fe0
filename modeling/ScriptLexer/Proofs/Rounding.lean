import Mathlib.Algebra.Order.Field.Rat
import Mathlib.Algebra.Order.Ring.Abs
import Mathlib.Algebra.Ring.Parity
import Mathlib.Tactic.FieldSimp
import Mathlib.Tactic.Linarith
import Mathlib.Tactic.NormNum
import Mathlib.Tactic.Positivity
import Mathlib.Tactic.Ring
import ScriptLexer.Binary64.Nearest

/-!
# The nearest magnitude

Rounding a fraction gives the magnitude that encodes the nearest number, and of two equally near ones that of
the even one. Between two powers of two all numbers are multiples of one spacing, and below them there is no
number nearer than the lower power, so it is enough to round the quotient by the spacing to the nearest integer.
Magnitudes increase with the numbers that they encode, so where the nearest one lies is told by the midpoints
between neighbours; the midpoint in front of infinity is where numbers become too large.
-/

namespace ScriptLexer.Binary64

/-! ### What magnitudes encode -/

/-- A significand of at most 53 bits, its leading bit included, is scaled by its exponent. The least significand
with 54 bits is the same number as the least one of the next exponent. -/
lemma unitsOf_scaled {k m : ℕ} (hm : m ≤ 2 ^ 53) (hk : k = 0 ∨ 2 ^ 52 ≤ m) :
    unitsOf (k * 2 ^ 52 + m) = m * 2 ^ k := by
  unfold unitsOf
  simp only [Nat.pow_eq]
  rcases Nat.lt_or_ge m (2 ^ 52) with hsmall | hlarge
  · obtain rfl : k = 0 := by omega
    rw [if_pos (by omega)]
    omega
  · rw [if_neg (by omega)]
    rcases Nat.lt_or_ge m (2 ^ 53) with hlt | hge
    · have hexponent : (k * 2 ^ 52 + m) / 2 ^ 52 - 1 = k := by omega
      have hfraction : 2 ^ 52 + (k * 2 ^ 52 + m) % 2 ^ 52 = m := by omega
      rw [hexponent, hfraction]
    · have hexponent : (k * 2 ^ 52 + m) / 2 ^ 52 - 1 = k + 1 := by omega
      have hfraction : 2 ^ 52 + (k * 2 ^ 52 + m) % 2 ^ 52 = 2 ^ 52 := by omega
      obtain rfl : m = 2 ^ 53 := by omega
      rw [hexponent, hfraction, ← pow_add, ← pow_add]
      exact congrArg (2 ^ ·) (by omega)

/-- Every magnitude has a significand of 53 bits, or of less bits with the least exponent. -/
lemma exists_scaled (n : ℕ) : ∃ k m, n = k * 2 ^ 52 + m ∧ m < 2 ^ 53 ∧ (k = 0 ∨ 2 ^ 52 ≤ m) :=
  ⟨n / 2 ^ 52 - 1, n - (n / 2 ^ 52 - 1) * 2 ^ 52, by omega, by omega, by omega⟩

theorem unitsOf_strictMono : StrictMono unitsOf := by
  apply strictMono_nat_of_lt_succ
  intro n
  obtain ⟨k, m, rfl, hm, hk⟩ := exists_scaled n
  rw [unitsOf_scaled hm.le hk, Nat.add_assoc, unitsOf_scaled (by omega) (by omega)]
  exact Nat.mul_lt_mul_of_pos_right (Nat.lt_succ_self m) (Nat.two_pow_pos k)

/-- All numbers from some power of two on are multiples of the spacing there. -/
lemma unitsOf_grid (k n : ℕ) : (∃ j, unitsOf n = j * 2 ^ k) ∨ 0 < k ∧ unitsOf n < 2 ^ 52 * 2 ^ k := by
  obtain ⟨e, m, rfl, hm, he⟩ := exists_scaled n
  rw [unitsOf_scaled hm.le he]
  rcases Nat.lt_or_ge e k with hlt | hge
  · refine .inr ⟨by omega, ?_⟩
    calc m * 2 ^ e < 2 ^ 53 * 2 ^ e := Nat.mul_lt_mul_of_pos_right hm (Nat.two_pow_pos e)
      _ = 2 ^ 52 * 2 ^ (e + 1) := by rw [← pow_add, ← pow_add]; congr 1; omega
      _ ≤ 2 ^ 52 * 2 ^ k := Nat.mul_le_mul_left _ (Nat.pow_le_pow_right (by decide) hlt)
  · refine .inl ⟨m * 2 ^ (e - k), ?_⟩
    rw [Nat.mul_assoc, ← pow_add, Nat.sub_add_cancel hge]

/-! ### The nearest integer -/

/-- A quotient is rounded by half a unit at most, and by half a unit to an even number only. -/
lemma divideToEven_error (num : ℕ) {den : ℕ} (hden : 0 < den) :
    |(divideToEven num den : ℚ) - num / den| ≤ 1 / 2 ∧
      (|(divideToEven num den : ℚ) - num / den| = 1 / 2 → Even (divideToEven num den)) := by
  have hpos : (0 : ℚ) < den := by exact_mod_cast hden
  have hquotient : (num : ℚ) / den = (num / den : ℕ) + ((num % den : ℕ) : ℚ) / den := by
    have hsplit : ((den * (num / den) + num % den : ℕ) : ℚ) = num := by rw [Nat.div_add_mod]
    rw [← hsplit]
    push_cast
    field_simp
  have hnonneg : (0 : ℚ) ≤ ((num % den : ℕ) : ℚ) / den := by positivity
  have hlt : ((num % den : ℕ) : ℚ) / den < 1 := by
    rw [div_lt_one hpos]
    exact_mod_cast Nat.mod_lt num hden
  have hbelow : ((num % den : ℕ) : ℚ) / den ≤ 1 / 2 ↔ num % den * 2 ≤ 1 * den := by
    rw [div_le_div_iff₀ hpos two_pos]
    norm_cast
  have habove : 1 / 2 ≤ ((num % den : ℕ) : ℚ) / den ↔ 1 * den ≤ num % den * 2 := by
    rw [div_le_div_iff₀ two_pos hpos]
    norm_cast
  unfold divideToEven
  simp only
  rw [hquotient]
  split
  · next h =>
    rw [sub_add_cancel_left, abs_neg, abs_of_nonneg hnonneg]
    refine ⟨hbelow.mpr (by omega), fun hhalf => ?_⟩
    have htie := habove.mp hhalf.ge
    exact Nat.even_iff.mpr (by omega)
  · next h =>
    have hge := habove.mpr (by omega)
    have hdistance : ((num / den + 1 : ℕ) : ℚ) - ((num / den : ℕ) + ((num % den : ℕ) : ℚ) / den) =
        1 - ((num % den : ℕ) : ℚ) / den := by
      push_cast
      ring
    rw [hdistance, abs_of_nonneg (by linarith)]
    refine ⟨by linarith, fun hhalf => ?_⟩
    have htie := hbelow.mp (by linarith)
    exact Nat.even_iff.mpr (by omega)

/-- Any other integer is at least half a unit away. -/
lemma half_le_of_ne {x : ℚ} {m j : ℕ} (hm : |(m : ℚ) - x| ≤ 1 / 2) (hne : j ≠ m) :
    1 / 2 ≤ |(j : ℚ) - x| := by
  have hone : (1 : ℚ) ≤ |(m : ℚ) - j| := by
    have hint : (1 : ℤ) ≤ |(m : ℤ) - j| := Int.one_le_abs (by omega)
    exact_mod_cast hint
  have htriangle := abs_sub_le (m : ℚ) x j
  rw [abs_sub_comm x] at htriangle
  linarith

/-- Of two numbers the lower one is no farther away up to their midpoint, the upper one from there on. -/
lemma abs_sub_le_iff {a b v : ℚ} (hab : a < b) :
    (|a - v| ≤ |b - v| ↔ v ≤ (a + b) / 2) ∧ (|b - v| ≤ |a - v| ↔ (a + b) / 2 ≤ v) := by
  have hpos := sub_pos.mpr hab
  have hlower : (b - v) ^ 2 - (a - v) ^ 2 = (b - a) * (a + b - 2 * v) := by ring
  have hupper : (a - v) ^ 2 - (b - v) ^ 2 = (b - a) * (2 * v - (a + b)) := by ring
  rw [← sq_le_sq, ← sq_le_sq, ← sub_nonneg, hlower, ← sub_nonneg (b := (b - v) ^ 2), hupper,
    mul_nonneg_iff_of_pos_left hpos, mul_nonneg_iff_of_pos_left hpos]
  constructor <;> constructor <;> intro h <;> linarith

lemma abs_sub_lt_of_lt {a b v : ℚ} (hab : a < b) (hb : b ≤ v) : |b - v| < |a - v| := by
  rw [← not_le, (abs_sub_le_iff hab).1]
  linarith

/-! ### The nearest number -/

/-- Whether a magnitude encodes the number nearest to `v` units among those of all magnitudes, as if there were
no infinity, and is even if another one is equally near. -/
structure NearestUnits (v : ℚ) (n : ℕ) : Prop where
  le : ∀ m : ℕ, |(unitsOf n : ℚ) - v| ≤ |(unitsOf m : ℚ) - v|
  even : ∀ m : ℕ, m ≠ n → |(unitsOf m : ℚ) - v| = |(unitsOf n : ℚ) - v| → Even n

section Spacing

variable {v : ℚ} {k m : ℕ}

lemma abs_mul_sub (j k : ℕ) (v : ℚ) : |((j * 2 ^ k : ℕ) : ℚ) - v| = |(j : ℚ) - v / 2 ^ k| * 2 ^ k := by
  have hspacing : (0 : ℚ) < 2 ^ k := by positivity
  rw [← abs_of_pos hspacing, ← abs_mul, abs_of_pos hspacing, sub_mul, div_mul_cancel₀ v hspacing.ne']
  push_cast
  rfl

/-- The quotient by the spacing is rounded to a significand. -/
lemma significand_of_quotient (hm : |(m : ℚ) - v / 2 ^ k| ≤ 1 / 2) (hlow : k = 0 ∨ 2 ^ 52 * 2 ^ k ≤ v)
    (hhigh : v < 2 ^ 53 * 2 ^ k) : m ≤ 2 ^ 53 ∧ (k = 0 ∨ 2 ^ 52 ≤ m) := by
  have hspacing : (0 : ℚ) < 2 ^ k := by positivity
  have habs := abs_le.mp hm
  constructor
  · have hquotient : v / 2 ^ k < 2 ^ 53 := (div_lt_iff₀ hspacing).mpr hhigh
    have hlt : (m : ℚ) < (2 ^ 53 + 1 : ℕ) := by
      push_cast
      linarith [habs.2]
    have := Nat.cast_lt.mp hlt
    omega
  · apply hlow.imp_right
    intro hv
    have hquotient : 2 ^ 52 ≤ v / 2 ^ k := (le_div_iff₀ hspacing).mpr hv
    have hlt : ((2 ^ 52 : ℕ) : ℚ) < (m + 1 : ℕ) := by
      push_cast
      linarith [habs.1]
    have := Nat.cast_lt.mp hlt
    omega

/-- Rounding by the spacing between the two powers of two around a number gives the nearest number. -/
theorem nearestUnits_scaled (hm : |(m : ℚ) - v / 2 ^ k| ≤ 1 / 2)
    (heven : |(m : ℚ) - v / 2 ^ k| = 1 / 2 → Even m) (hlow : k = 0 ∨ 2 ^ 52 * 2 ^ k ≤ v)
    (hhigh : v < 2 ^ 53 * 2 ^ k) : NearestUnits v (k * 2 ^ 52 + m) := by
  have hspacing : (0 : ℚ) < 2 ^ k := by positivity
  obtain ⟨hmhigh, hmlow⟩ := significand_of_quotient hm hlow hhigh
  have hunits := unitsOf_scaled hmhigh hmlow
  have hgrid : ∀ j : ℕ, |((m * 2 ^ k : ℕ) : ℚ) - v| ≤ |((j * 2 ^ k : ℕ) : ℚ) - v| := by
    intro j
    rw [abs_mul_sub, abs_mul_sub]
    apply mul_le_mul_of_nonneg_right _ hspacing.le
    by_cases hj : j = m
    · rw [hj]
    · exact hm.trans (half_le_of_ne hm hj)
  -- below the lower power of two a number is farther away than that power
  have hfar : 0 < k → ∀ n, unitsOf n < 2 ^ 52 * 2 ^ k →
      |((m * 2 ^ k : ℕ) : ℚ) - v| < |(unitsOf n : ℚ) - v| := by
    intro hk n hn
    have hv : ((2 ^ 52 * 2 ^ k : ℕ) : ℚ) ≤ v := by
      rw [Nat.cast_mul, Nat.cast_pow, Nat.cast_pow, Nat.cast_ofNat]
      exact hlow.resolve_left hk.ne'
    exact (hgrid (2 ^ 52)).trans_lt (abs_sub_lt_of_lt (Nat.cast_lt.mpr hn) hv)
  constructor
  · intro n
    rw [hunits]
    rcases unitsOf_grid k n with ⟨j, hj⟩ | ⟨hk, hn⟩
    · rw [hj]
      exact hgrid j
    · exact (hfar hk n hn).le
  · intro n hne htie
    rw [hunits] at htie
    rcases unitsOf_grid k n with ⟨j, hj⟩ | ⟨hk, hn⟩
    · have hjm : j ≠ m := by
        rintro rfl
        exact hne (unitsOf_strictMono.injective (hj.trans hunits.symm))
      rw [hj, abs_mul_sub, abs_mul_sub, mul_left_inj' hspacing.ne'] at htie
      have hm' := heven (hm.antisymm (htie ▸ half_le_of_ne hm hjm))
      exact (Nat.even_iff.mpr (by omega)).add hm'
    · exact absurd htie.symm (hfar hk n hn).ne

end Spacing

/-- Rounding a fraction gives the nearest magnitude, or infinity if that is beyond the finite ones. -/
theorem exists_nearestUnits (num : ℕ) {den : ℕ} (hden : 0 < den) :
    ∃ n, NearestUnits ((num : ℚ) * 2 ^ 1074 / den) n ∧ nearestMagnitude num den = min n infinite := by
  unfold nearestMagnitude
  -- the unit does not matter
  generalize 1074 = places
  simp only [Nat.pow_eq]
  have hscaled : (num : ℚ) * 2 ^ places = (num * 2 ^ places : ℕ) := by
    rw [Nat.cast_mul, Nat.cast_pow, Nat.cast_ofNat]
  rw [hscaled]
  generalize num * 2 ^ places = scaled
  let k := (scaled / den).log2 - 52
  have hpos : (0 : ℚ) < den := by exact_mod_cast hden
  refine ⟨k * 2 ^ 52 + divideToEven scaled (den * 2 ^ k), ?_, rfl⟩
  have herror := divideToEven_error scaled (Nat.mul_pos hden (Nat.two_pow_pos k))
  rw [Nat.cast_mul, Nat.cast_pow, Nat.cast_ofNat, ← div_div] at herror
  apply nearestUnits_scaled herror.1 herror.2
  · rcases Nat.eq_zero_or_pos k with hk | hk
    · exact .inl hk
    · have hne : scaled / den ≠ 0 := by
        intro h
        simp [k, h] at hk
      have hpower : 2 ^ 52 * 2 ^ k ≤ scaled / den := by
        rw [← pow_add, show 52 + k = (scaled / den).log2 by omega]
        exact Nat.log2_self_le hne
      refine .inr ((le_div_iff₀ hpos).mpr ?_)
      exact_mod_cast (Nat.le_div_iff_mul_le hden).mp hpower
  · have hpower : scaled / den < 2 ^ 53 * 2 ^ k := by
      rw [← pow_add]
      exact Nat.lt_log2_self.trans_le (Nat.pow_le_pow_right two_pos (by omega))
    rw [div_lt_iff₀ hpos]
    exact_mod_cast (Nat.div_lt_iff_lt_mul hden).mp hpower

/-- Every number that is not negative is a fraction of natural numbers. -/
lemma exists_fraction {q : ℚ} (hq : 0 ≤ q) : ∃ num den : ℕ, 0 < den ∧ (num : ℚ) / den = q := by
  have hnum : (q.num.toNat : ℚ) = q.num := by
    exact_mod_cast congrArg (Int.cast (R := ℚ)) (Int.toNat_of_nonneg (Rat.num_nonneg.mpr hq))
  exact ⟨q.num.toNat, q.den, q.den_pos, by rw [hnum, Rat.num_div_den]⟩

lemma exists_nearestUnits_of_nonneg {v : ℚ} (hv : 0 ≤ v) : ∃ n, NearestUnits v n := by
  have hpos : (0 : ℚ) < 2 ^ 1074 := pow_pos two_pos 1074
  obtain ⟨num, den, hden, hfraction⟩ := exists_fraction (div_nonneg hv hpos.le)
  obtain ⟨n, hn, -⟩ := exists_nearestUnits num hden
  rw [mul_div_right_comm, hfraction, div_mul_cancel₀ v hpos.ne'] at hn
  exact ⟨n, hn⟩

/-- What is nearer to the number of a magnitude than half a unit has no other number as near. -/
lemma nearestUnits_of_lt {v : ℚ} {n : ℕ} (h : |(unitsOf n : ℚ) - v| < 1 / 2) : NearestUnits v n := by
  have hfar : ∀ m, m ≠ n → 1 / 2 ≤ |(unitsOf m : ℚ) - v| := fun m hm =>
    half_le_of_ne h.le fun hunits => hm (unitsOf_strictMono.injective hunits)
  constructor
  · intro m
    by_cases hm : m = n
    · rw [hm]
    · exact h.le.trans (hfar m hm)
  · exact fun m hm htie => absurd (htie ▸ hfar m hm) h.not_ge

namespace NearestUnits

variable {v : ℚ} {n : ℕ}

/-- The nearest magnitude is found by comparing with the midpoint between two neighbours. -/
theorem le_iff (h : NearestUnits v n) (m : ℕ) :
    n ≤ m ↔ v < ((unitsOf m : ℚ) + unitsOf (m + 1)) / 2 ∨
      v = ((unitsOf m : ℚ) + unitsOf (m + 1)) / 2 ∧ Even m := by
  have hunits : ∀ {i j}, i < j → (unitsOf i : ℚ) < unitsOf j := fun hij => Nat.cast_lt.mpr (unitsOf_strictMono hij)
  constructor
  · intro hle
    have hmiddle := (abs_sub_le_iff (hunits (Nat.lt_succ_of_le hle))).1.mp (h.le (m + 1))
    rcases hle.lt_or_eq with hlt | rfl
    · have hn := hunits hlt
      exact .inl (by linarith)
    · apply hmiddle.lt_or_eq.imp_right
      intro hv
      have htie := (abs_sub_le_iff (hunits (Nat.lt_succ_self n))).2.mpr hv.ge
      exact ⟨hv, h.even (n + 1) (by omega) (htie.antisymm (h.le (n + 1)))⟩
  · intro hv
    by_contra! hlt
    have hmiddle := (abs_sub_le_iff (hunits hlt)).2.mp (h.le m)
    rcases (Nat.succ_le_of_lt hlt).lt_or_eq with hfar | rfl
    · have hn := hunits hfar
      rcases hv with hv | ⟨hv, _⟩ <;> linarith
    · obtain ⟨hv, hm⟩ := hv.resolve_left (by linarith)
      have htie := (abs_sub_le_iff (hunits hlt)).1.mpr hv.le
      have heven := h.even m (by omega) (htie.antisymm (h.le m))
      exact absurd hm (Nat.even_add_one.mp heven)

/-- Greater numbers have greater nearest magnitudes. -/
theorem mono {u : ℚ} {m : ℕ} (hm : NearestUnits u m) (hn : NearestUnits v n) (huv : u ≤ v) : m ≤ n := by
  rw [hm.le_iff]
  rcases (hn.le_iff n).mp le_rfl with hlt | ⟨heq, heven⟩
  · exact .inl (huv.trans_lt hlt)
  · exact (huv.trans_eq heq).lt_or_eq.imp_right fun h => ⟨h, heven⟩

theorem eq {m : ℕ} (hm : NearestUnits v m) (hn : NearestUnits v n) : m = n :=
  (hm.mono hn le_rfl).antisymm (hn.mono hm le_rfl)

/-- What is at most half a unit is rounded to zero. -/
theorem eq_zero_iff (h : NearestUnits v n) : n = 0 ↔ v ≤ 1 / 2 := by
  have hmiddle : ((unitsOf 0 : ℚ) + unitsOf (0 + 1)) / 2 = 1 / 2 := by norm_num [unitsOf]
  have hle := h.le_iff 0
  rw [hmiddle, Nat.le_zero] at hle
  rw [hle, le_iff_lt_or_eq]
  simp

/-- The numbers of finite magnitudes are those that are not rounded up to the magnitude of infinity. -/
theorem lt_infinite_iff (h : NearestUnits v n) : n < infinite ↔ v < (2 ^ 54 - 1) * 2 ^ 2044 := by
  have hinfinite : infinite = 2045 * 2 ^ 52 + (2 ^ 53 - 1) + 1 := by simp [infinite]
  have hlast : unitsOf (2045 * 2 ^ 52 + (2 ^ 53 - 1)) = (2 ^ 53 - 1) * 2 ^ 2045 :=
    unitsOf_scaled (by omega) (by omega)
  have hnext : unitsOf (2045 * 2 ^ 52 + (2 ^ 53 - 1) + 1) = 2 ^ 53 * 2 ^ 2045 := by
    rw [Nat.add_assoc, Nat.sub_add_cancel (by decide), unitsOf_scaled le_rfl (by omega)]
  have hodd : ¬Even (2045 * 2 ^ 52 + (2 ^ 53 - 1)) := by decide
  have hmiddle : (((2 ^ 53 - 1) * 2 ^ 2045 : ℕ) + (2 ^ 53 * 2 ^ 2045 : ℕ) : ℚ) / 2 = (2 ^ 54 - 1) * 2 ^ 2044 := by
    rw [Nat.cast_mul, Nat.cast_mul, Nat.cast_pow 2 2045, Nat.cast_ofNat, pow_succ (2 : ℚ) 2044]
    generalize (2 : ℚ) ^ 2044 = w
    norm_num
    ring
  rw [hinfinite, Nat.lt_succ_iff, h.le_iff, hlast, hnext, hmiddle]
  simp only [hodd, and_false, or_false]

/-- The numbers with one nearest magnitude make an interval. -/
theorem of_between {a b : ℚ} (ha : NearestUnits a n) (hb : NearestUnits b n) (hav : a ≤ v) (hvb : v ≤ b) (hv : 0 ≤ v) :
    NearestUnits v n := by
  obtain ⟨m, hm⟩ := exists_nearestUnits_of_nonneg hv
  obtain rfl : m = n := (hm.mono hb hvb).antisymm (ha.mono hm hav)
  exact hm

end NearestUnits

/-- A fraction is rounded to a finite magnitude if and only if that is the nearest one. -/
theorem nearestMagnitude_eq_iff (num : ℕ) {den n : ℕ} (hden : 0 < den) (hn : n < infinite) :
    nearestMagnitude num den = n ↔ NearestUnits ((num : ℚ) * 2 ^ 1074 / den) n := by
  obtain ⟨m, hm, hmagnitude⟩ := exists_nearestUnits num hden
  rw [hmagnitude]
  constructor
  · intro h
    obtain rfl : m = n := by omega
    exact hm
  · intro h
    rw [hm.eq h, Nat.min_eq_left hn.le]

end ScriptLexer.Binary64
