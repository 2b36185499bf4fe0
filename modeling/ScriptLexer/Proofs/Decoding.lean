import ScriptLexer.Proofs.Rounding

/-!
# What the bits of a number encode

Behind the sign stand eleven bits of the exponent and 52 bits of the fraction. Magnitudes count both in one, so
that their units are those of the significand and the exponent, and rounding to the nearest magnitude is rounding
to the nearest of all finite numbers. There is no more than one of each sign, for of two numbers that are equally
near one is odd, or another one between them is nearer.
-/

namespace ScriptLexer.Binary64

def exponentField (x : Binary64) : ℕ := x.bits.toNat / 2 ^ 52 % 2 ^ 11

def fractionField (x : Binary64) : ℕ := x.bits.toNat % 2 ^ 52

/-- The fraction and the leading bit in front of it, which is zero if the exponent is. -/
def significand (x : Binary64) : ℕ := if x.exponentField = 0 then x.fractionField else 2 ^ 52 + x.fractionField

/-- The number that finite bits encode. The exponent zero scales like the exponent one. -/
def toRat (x : Binary64) : ℚ :=
  (if x.isNegative then -1 else 1) * x.significand * 2 ^ (max (x.exponentField : ℤ) 1 - 1075)

/-- Whether no finite number is nearer to `q` than `x`, and the significand of `x` is even if another number is
equally near. -/
structure IsNearest (x : Binary64) (q : ℚ) : Prop where
  finite : x.isFinite
  le : ∀ y : Binary64, y.isFinite → |x.toRat - q| ≤ |y.toRat - q|
  even : ∀ y : Binary64, y.isFinite → y.toRat ≠ x.toRat → |y.toRat - q| = |x.toRat - q| → Even x.significand

/-- Whether `x` is what a number `q` that is not negative is rounded to: the nearest finite number, or infinity from
half a spacing above the largest one on. -/
structure IsRounding (x : Binary64) (q : ℚ) : Prop where
  isNaN : x.isNaN = false
  isNegative : x.isNegative = false
  zero_iff : x.bits = 0 ↔ q ≤ 2 ^ (-1075 : ℤ)
  infinite_iff : x.bits = 0x7ff0000000000000 ↔ 2 ^ 1024 - 2 ^ 970 ≤ q
  nearest : q < 2 ^ 1024 - 2 ^ 970 → x.IsNearest q

section Fields

variable (x : Binary64)

lemma magnitude_eq : x.magnitude = (x.exponentField - 1) * 2 ^ 52 + x.significand := by
  have hfields : x.magnitude = x.exponentField * 2 ^ 52 + x.fractionField := by
    rw [magnitude, exponentField, fractionField, Nat.pow_eq]
    omega
  rw [hfields, significand]
  split <;> omega

lemma units_eq : x.units = x.significand * 2 ^ (x.exponentField - 1) := by
  have hsignificand : x.significand ≤ 2 ^ 53 ∧ (x.exponentField - 1 = 0 ∨ 2 ^ 52 ≤ x.significand) := by
    have hfraction : x.fractionField < 2 ^ 52 := Nat.mod_lt _ (by decide)
    unfold significand
    split <;> omega
  rw [units, magnitude_eq, unitsOf_scaled hsignificand.1 hsignificand.2]

lemma even_significand_iff : Even x.significand ↔ Even x.magnitude := by
  rw [magnitude_eq, Nat.even_iff, Nat.even_iff]
  omega

lemma isFinite_iff : x.isFinite ↔ x.magnitude < infinite := decide_eq_true_iff

lemma toRat_eq : x.toRat = (if x.isNegative then -1 else 1) * x.units / 2 ^ 1074 := by
  have hexponent : max (x.exponentField : ℤ) 1 - 1075 = (x.exponentField - 1 : ℕ) - (1074 : ℕ) := by omega
  rw [toRat, hexponent, zpow_sub₀ two_ne_zero, zpow_natCast, zpow_natCast, units_eq]
  generalize (2 : ℚ) ^ 1074 = unit
  push_cast
  ring

end Fields

/-! ### The nearest number -/

variable {x y : Binary64} {q : ℚ}

/-- Distances are counted in units too. -/
lemma abs_toRat_sub_mul (x : Binary64) (q : ℚ) :
    |x.toRat - q| * 2 ^ 1074 = |(if x.isNegative then -1 else 1) * (x.units : ℚ) - q * 2 ^ 1074| := by
  have hpos : (0 : ℚ) < 2 ^ 1074 := pow_pos two_pos 1074
  rw [← abs_of_pos hpos, ← abs_mul, abs_of_pos hpos, toRat_eq, sub_mul, div_mul_cancel₀ _ hpos.ne']

lemma abs_toRat_sub (h : x.isNegative = false) (q : ℚ) :
    |x.toRat - q| * 2 ^ 1074 = |(x.units : ℚ) - q * 2 ^ 1074| := by
  rw [abs_toRat_sub_mul, h, if_neg Bool.false_ne_true, one_mul]

lemma abs_toRat_sub_of_neg (h : x.isNegative) (hq : 0 ≤ q) :
    |x.toRat - q| * 2 ^ 1074 = x.units + q * 2 ^ 1074 := by
  have hsum : 0 ≤ (x.units : ℚ) + q * 2 ^ 1074 :=
    add_nonneg (Nat.cast_nonneg _) (mul_nonneg hq (pow_pos two_pos 1074).le)
  rw [abs_toRat_sub_mul, if_pos h, neg_one_mul, ← neg_add', abs_neg, abs_of_nonneg hsum]

/-- A negative number is no nearer than its negation. -/
lemma le_abs_toRat_sub (x : Binary64) (hq : 0 ≤ q) :
    |(x.units : ℚ) - q * 2 ^ 1074| ≤ |x.toRat - q| * 2 ^ 1074 := by
  cases h : x.isNegative with
  | false => exact (abs_toRat_sub h q).ge
  | true =>
    have hv : 0 ≤ q * 2 ^ 1074 := mul_nonneg hq (pow_pos two_pos 1074).le
    have hunits : (0 : ℚ) ≤ x.units := Nat.cast_nonneg _
    rw [abs_toRat_sub_of_neg h hq]
    generalize q * 2 ^ 1074 = v at hv ⊢
    exact abs_le.mpr ⟨by linarith, by linarith⟩

/-- The number of the nearest magnitude is the nearest one also among negative numbers. -/
theorem isNearest_of_nearestUnits (hx : x.isNegative = false) (hfinite : x.isFinite) (hq : 0 ≤ q)
    (h : NearestUnits (q * 2 ^ 1074) x.magnitude) : x.IsNearest q where
  finite := hfinite
  le y _ := by
    rw [← mul_le_mul_iff_of_pos_right (pow_pos two_pos 1074), abs_toRat_sub hx]
    exact (h.le y.magnitude).trans (le_abs_toRat_sub y hq)
  even y _ hne htie := by
    have hle := le_abs_toRat_sub y hq
    rw [htie, abs_toRat_sub hx] at hle
    rw [even_significand_iff]
    apply h.even y.magnitude _ (hle.antisymm (h.le y.magnitude))
    intro hmagnitude
    have hunits : y.units = x.units := congrArg unitsOf hmagnitude
    cases hy : y.isNegative with
    | false => exact hne (by rw [toRat_eq, toRat_eq, hx, hy, hunits])
    | true =>
      -- a number and its negation are equally near to zero only, and nearest is zero then
      have hzero := h.le 0
      have hv : 0 ≤ q * 2 ^ 1074 := mul_nonneg hq (pow_pos two_pos 1074).le
      have hsame := abs_toRat_sub_of_neg hy hq
      rw [htie, abs_toRat_sub hx, hunits] at hsame
      rw [← units, hsame, unitsOf, if_pos (by decide), Nat.cast_zero, zero_sub, abs_neg, abs_of_nonneg hv] at hzero
      have hnone : x.units = 0 := Nat.le_zero.mp (by exact_mod_cast add_le_iff_nonpos_left.mp hzero)
      exact hne (by rw [toRat_eq, toRat_eq, hunits, hnone, Nat.cast_zero, mul_zero, mul_zero])

/-- What stands between two equally near numbers is nearer. -/
lemma abs_sub_lt_of_between {a b c : ℚ} (hab : a < b) (hbc : b < c) (h : |a - q| = |c - q|) :
    |b - q| < |a - q| := by
  have hmiddle := (abs_sub_le_iff (hab.trans hbc)).2.mp h.ge
  rw [← not_le, (abs_sub_le_iff hab).1]
  linarith

lemma toRat_lt_of_magnitude_lt (hsign : x.isNegative = y.isNegative) (h : x.magnitude < y.magnitude) :
    (x.isNegative = false ∧ x.toRat < y.toRat) ∨ (x.isNegative = true ∧ y.toRat < x.toRat) := by
  have hunits : (x.units : ℚ) < y.units := by exact_mod_cast unitsOf_strictMono h
  have hpos : (0 : ℚ) < 2 ^ 1074 := pow_pos two_pos 1074
  rw [toRat_eq, toRat_eq, ← hsign, div_lt_div_iff_of_pos_right hpos, div_lt_div_iff_of_pos_right hpos]
  cases x.isNegative with
  | false => exact .inl ⟨rfl, by simpa using hunits⟩
  | true => exact .inr ⟨rfl, by simpa using hunits⟩

lemma eq_of_magnitude (hsign : x.isNegative = y.isNegative) (h : x.magnitude = y.magnitude) : x = y := by
  rw [← ofMagnitude_magnitude x, ← ofMagnitude_magnitude y, hsign, h]

/-- The nearest number is the only one with its sign. -/
theorem IsNearest.eq (hx : x.IsNearest q) (hy : y.IsNearest q) (hsign : x.isNegative = y.isNegative) : x = y := by
  by_contra hne
  wlog hlt : x.magnitude < y.magnitude generalizing x y
  · have hmagnitude : y.magnitude ≠ x.magnitude := fun h => hne (eq_of_magnitude hsign h.symm)
    exact this hy hx hsign.symm (Ne.symm hne) (by omega)
  have hdistance := (hx.le y hy.finite).antisymm (hy.le x hx.finite)
  have hdistinct : y.toRat ≠ x.toRat := by
    rcases toRat_lt_of_magnitude_lt hsign hlt with ⟨_, h⟩ | ⟨_, h⟩
    · exact h.ne'
    · exact h.ne
  have hxeven := x.even_significand_iff.mp (hx.even y hy.finite hdistinct hdistance.symm)
  have hyeven := y.even_significand_iff.mp (hy.even x hx.finite hdistinct.symm hdistance)
  have hgap : x.magnitude + 1 < y.magnitude := by
    rw [Nat.even_iff] at hxeven hyeven
    omega
  -- the number behind `x` is nearer than both
  have hbound := hgap.trans y.magnitude_lt
  let z := ofMagnitude x.isNegative (x.magnitude + 1)
  have hzmagnitude : z.magnitude = x.magnitude + 1 := magnitude_ofMagnitude _ hbound
  have hzsign : z.isNegative = x.isNegative := isNegative_ofMagnitude _ hbound
  have hzfinite : z.isFinite := by
    have hyfinite := y.isFinite_iff.mp hy.finite
    rw [isFinite_iff, hzmagnitude]
    omega
  have hxz := toRat_lt_of_magnitude_lt hzsign.symm (by omega)
  have hzy := toRat_lt_of_magnitude_lt (hzsign.trans hsign) (by omega)
  have hnearer : |z.toRat - q| < |x.toRat - q| := by
    rcases hxz with ⟨hpositive, hxz⟩ | ⟨hnegative, hxz⟩
    · have hzy := hzy.resolve_right (by simp [hzsign, hpositive])
      exact abs_sub_lt_of_between hxz hzy.2 hdistance
    · have hzy := hzy.resolve_left (by simp [hzsign, hnegative])
      exact (abs_sub_lt_of_between hzy.2 hxz hdistance.symm).trans_eq hdistance.symm
  exact absurd (hx.le z hzfinite) hnearer.not_ge

/-! ### Rounding a fraction -/

lemma scaled_le_half_iff : q * 2 ^ 1074 ≤ 1 / 2 ↔ q ≤ 2 ^ (-1075 : ℤ) := by
  have hhalf : (2 : ℚ) ^ (-1075 : ℤ) = 1 / 2 / 2 ^ 1074 := by
    rw [div_div, ← pow_succ', one_div, zpow_neg]
    rfl
  rw [hhalf, le_div_iff₀ (pow_pos two_pos 1074)]

lemma scaled_lt_limit_iff : q * 2 ^ 1074 < (2 ^ 54 - 1) * 2 ^ 2044 ↔ q < 2 ^ 1024 - 2 ^ 970 := by
  have hlimit : ((2 : ℚ) ^ 54 - 1) * 2 ^ 2044 = (2 ^ 1024 - 2 ^ 970) * 2 ^ 1074 := by
    rw [sub_mul, sub_mul, one_mul, ← pow_add, ← pow_add, ← pow_add]
  rw [hlimit, mul_lt_mul_iff_of_pos_right (pow_pos two_pos 1074)]

theorem isRounding_nearest (num : ℕ) {den : ℕ} (hden : 0 < den) : (nearest num den).IsRounding (num / den) := by
  obtain ⟨n, hn, hmagnitude⟩ := exists_nearestUnits num hden
  rw [mul_div_right_comm] at hn
  have hbits : (nearest num den).bits.toNat = min n infinite := by
    rw [bits_toNat, isNegative_nearest, magnitude_nearest, hmagnitude, if_neg Bool.false_ne_true, Nat.zero_add]
  constructor
  · exact isNaN_nearest num den
  · exact isNegative_nearest num den
  · have hzero : min n infinite = 0 ↔ n = 0 := by
      have : infinite ≠ 0 := by decide
      omega
    rw [← UInt64.toNat_inj, hbits, ← scaled_le_half_iff, ← hn.eq_zero_iff]
    exact hzero
  · have hinfinite : min n infinite = infinite ↔ ¬n < infinite := by omega
    rw [← UInt64.toNat_inj, hbits, ← not_lt, ← scaled_lt_limit_iff, ← hn.lt_infinite_iff]
    exact hinfinite
  · intro hq
    have hfinite := hn.lt_infinite_iff.mpr (scaled_lt_limit_iff.mpr hq)
    have hx : (nearest num den).magnitude = n := by
      rw [magnitude_nearest, hmagnitude, Nat.min_eq_left hfinite.le]
    apply isNearest_of_nearestUnits (isNegative_nearest num den) _ (by positivity) (hx.symm ▸ hn)
    rwa [isFinite_iff, hx]

-- halfway between two numbers, of which the even one is taken
example : nearest (2 ^ 53 + 1) 1 = ⟨0x4340000000000000⟩ := by decide +kernel

/-- There is one number only that a number is rounded to. -/
theorem IsRounding.eq (hx : x.IsRounding q) (hy : y.IsRounding q) : x = y := by
  rcases lt_or_ge q (2 ^ 1024 - 2 ^ 970) with hlt | hge
  · exact (hx.nearest hlt).eq (hy.nearest hlt) (hx.isNegative.trans hy.isNegative.symm)
  · have hbits := (hx.infinite_iff.mpr hge).trans (hy.infinite_iff.mpr hge).symm
    cases x
    cases y
    exact congrArg Binary64.mk hbits

/-- A finite number is what a number is rounded to if and only if its magnitude is the nearest one. -/
theorem isRounding_iff (hfinite : x.isFinite) (hsign : x.isNegative = false) (hq : 0 ≤ q) :
    x.IsRounding q ↔ NearestUnits (q * 2 ^ 1074) x.magnitude := by
  obtain ⟨num, den, hden, rfl⟩ := exists_fraction hq
  rw [← mul_div_right_comm, ← nearestMagnitude_eq_iff num hden (x.isFinite_iff.mp hfinite)]
  constructor
  · intro hx
    rw [hx.eq (isRounding_nearest num hden), magnitude_nearest]
  · intro h
    have hx : x = nearest num den := by rw [nearest, h, ← hsign, ofMagnitude_magnitude]
    exact hx ▸ isRounding_nearest num hden

end ScriptLexer.Binary64
