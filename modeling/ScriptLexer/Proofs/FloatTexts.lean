import ScriptLexer.Proofs.Shortest
import ScriptLexer.Token.Basic

/-!
# The texts of floats

The text of a finite number is a decimal without an exponent and without idle zeros. Reading it keeps the sign and
rounds the digits, and gives the number back, zeros with their signs included. No shorter decimal would, and no
other one of the same length is nearer to the number.
-/

namespace ScriptLexer

open Binary64

/-! ### Positional texts -/

section Positional

variable {units width : ℕ}

/-- The digits behind the point are those of the rest by a power of ten, without the zeros at their end. -/
lemma exists_fractionDigits (units : ℕ) (hwidth : 0 < width) :
    ∃ zeros, (fractionDigits units width).length + zeros = width ∧
      Text.value (fractionDigits units width) * 10 ^ zeros = units % Nat.pow 10 width := by
  have hrest : units % Nat.pow 10 width < Nat.pow 10 width := Nat.mod_lt _ (Nat.pow_pos (by decide))
  unfold fractionDigits
  generalize units % Nat.pow 10 width = rest at *
  let padded := List.replicate (width - (Text.numeral rest).length) '0' ++ Text.numeral rest
  have hlength : padded.length = width := by
    have hnumeral := (Text.length_numeral_le_iff hwidth).mpr hrest
    rw [List.length_append, List.length_replicate]
    omega
  have hvalue : Text.value padded = rest := by
    rw [Text.value_replicate_zero_append, Text.value_numeral]
  obtain ⟨zeros, hzeros⟩ := Text.exists_rdropWhile padded
  refine ⟨zeros, ?_, ?_⟩
  · rw [hzeros, List.length_append, List.length_replicate] at hlength
    exact hlength
  · rw [hzeros, Text.value_append_replicate_zero] at hvalue
    exact hvalue

lemma getLast_fractionDigits (units width : ℕ) : (fractionDigits units width).getLast? ≠ some '0' := by
  intro h
  obtain ⟨front, hfront⟩ := List.getLast?_eq_some_iff.mp h
  exact Text.ne_zero_of_rdropWhile hfront rfl

lemma isDigit_of_mem_fractionDigits {c : Char} (hc : c ∈ fractionDigits units width) : c.isDigit := by
  have hpadded := (List.rdropWhile_prefix (· == '0') _).subset hc
  rcases List.mem_append.mp hpadded with hzero | hdigit
  · rw [List.eq_of_mem_replicate hzero]
    rfl
  · exact Text.isDigit_of_mem_numeral hdigit

/-- The decimal of so many units of `10 ^ (-width)`. -/
def Decimal.ofUnits (isNegative : Bool) (units width : ℕ) : Decimal where
  isNegative := isNegative
  whole := Text.numeral (units / Nat.pow 10 width)
  fraction := fractionDigits units width
  whole_ne_nil := Nat.toDigits_ne_nil
  isDigit_whole _ := Text.isDigit_of_mem_numeral
  isDigit_fraction _ := isDigit_of_mem_fractionDigits

lemma positional_eq (units width : ℕ) : positional units width = Text.numeral (units / Nat.pow 10 width) ++
    (if fractionDigits units width = [] then [] else '.' :: fractionDigits units width) := by
  unfold positional
  dsimp only
  split
  · next hnone => rw [if_pos hnone, List.append_nil]
  · next hsome => rw [if_neg hsome]

lemma text_ofUnits (isNegative : Bool) (units width : ℕ) :
    (Decimal.ofUnits isNegative units width).text = (if isNegative then ['-'] else []) ++ positional units width := by
  rw [positional_eq, ← List.append_assoc]
  rfl

lemma isPlain_ofUnits (isNegative : Bool) (units width : ℕ) : (Decimal.ofUnits isNegative units width).IsPlain where
  whole := Text.numeral_eq_of_head
  fraction := getLast_fractionDigits units width

lemma magnitude_ofUnits (isNegative : Bool) (units : ℕ) (hwidth : 0 < width) :
    (Decimal.ofUnits isNegative units width).magnitude * 10 ^ width = units := by
  obtain ⟨zeros, hlength, hvalue⟩ := exists_fractionDigits units hwidth
  have hpower : (10 : ℚ) ^ width = 10 ^ (fractionDigits units width).length * 10 ^ zeros := by
    rw [← pow_add, hlength]
  have hne : (10 : ℚ) ^ (fractionDigits units width).length ≠ 0 := pow_ne_zero _ (by norm_num)
  have hsplit := congrArg (Nat.cast (R := ℚ)) (Nat.div_add_mod units (Nat.pow 10 width))
  rw [← hvalue, Nat.pow_eq] at hsplit
  push_cast at hsplit
  rw [Decimal.magnitude, decimalValue]
  dsimp only [Decimal.ofUnits]
  rw [Text.value_numeral, Nat.pow_eq, ← hsplit, add_mul, mul_comm]
  congr 1
  rw [hpower]
  field_simp

end Positional

/-! ### Reading a decimal -/

/-- The number of the same magnitude that is not negative. -/
def Binary64.abs (x : Binary64) : Binary64 := ofMagnitude false x.magnitude

/-- Whether a decimal is read as `x`: a minus sign sets the sign bit, and the digits are rounded. -/
structure Decimal.ReadsAs (d : Decimal) (x : Binary64) : Prop where
  isNegative : x.isNegative = d.isNegative
  isRounding : x.abs.IsRounding d.magnitude

namespace Decimal

variable {d : Decimal} {x y : Binary64}

lemma magnitude_abs (x : Binary64) : x.abs.magnitude = x.magnitude := magnitude_ofMagnitude _ x.magnitude_lt

lemma isNegative_abs (x : Binary64) : x.abs.isNegative = false := isNegative_ofMagnitude _ x.magnitude_lt

/-- A decimal is read as one number only. -/
theorem ReadsAs.eq (hx : d.ReadsAs x) (hy : d.ReadsAs y) : x = y := by
  have hmagnitude := congrArg Binary64.magnitude (hx.isRounding.eq hy.isRounding)
  rw [magnitude_abs, magnitude_abs] at hmagnitude
  rw [← ofMagnitude_magnitude x, ← ofMagnitude_magnitude y, hx.isNegative, hy.isNegative, hmagnitude]

/-- A finite number is read from the decimals with its sign that round back. -/
theorem readsAs_iff (hx : x.isFinite) :
    d.ReadsAs x ↔ x.isNegative = d.isNegative ∧ x.RoundsBack (d.magnitude * 10 ^ places) := by
  have hfinite : x.abs.isFinite := by rwa [isFinite, magnitude_abs]
  have hscaled : d.magnitude * 10 ^ places * 2 ^ 1074 / 10 ^ places = d.magnitude * 2 ^ 1074 := by
    have hpower : (10 : ℚ) ^ places ≠ 0 := pow_ne_zero _ (by norm_num)
    rw [mul_right_comm, mul_div_assoc, div_self hpower, mul_one]
  have hrounding := isRounding_iff hfinite (isNegative_abs x) d.magnitude_nonneg
  rw [magnitude_abs, ← hscaled] at hrounding
  exact ⟨fun h => ⟨h.isNegative, hrounding.mp h.isRounding⟩, fun h => ⟨h.1, hrounding.mpr h.2⟩⟩

/-- Distances between numbers of one sign are counted in units too. -/
lemma abs_toRat_sub (h : x.isNegative = d.isNegative) :
    |d.toRat - x.toRat| * 10 ^ places = |d.magnitude * 10 ^ places - x.decimalUnits| := by
  have hpower : (0 : ℚ) < 10 ^ places := pow_pos (by norm_num) _
  have hsign : |(if d.isNegative then -1 else 1 : ℚ)| = 1 := by
    split_ifs
    · rw [abs_neg, abs_one]
    · exact abs_one
  have hvalue : d.toRat - x.toRat = (if d.isNegative then -1 else 1) * (d.magnitude - x.units / 2 ^ 1074) := by
    rw [toRat, toRat_eq, h, mul_sub, mul_div_assoc]
  rw [hvalue, abs_mul, hsign, one_mul, ← abs_of_pos hpower, ← abs_mul, abs_of_pos hpower, sub_mul, decimalUnits,
    div_mul_eq_mul_div]

lemma hasDigits_units_iff {n : ℕ} : HasDigits n (d.magnitude * 10 ^ places) ↔ d.significantDigits ≤ n := by
  rw [← zpow_natCast, hasDigits_mul_zpow_iff, hasDigits_magnitude_iff]

end Decimal

lemma Binary64.render_of_isFinite {x : Binary64} (hx : x.isFinite) :
    x.render = (if x.isNegative then ['-'] else []) ++ positional x.shortest places := by
  have hmagnitude := x.isFinite_iff.mp hx
  have hnumber : x.isNaN = false := decide_eq_false (by omega)
  have hbounded : x.isInfinite = false := decide_eq_false (by omega)
  rw [render, hnumber, hbounded, if_neg Bool.false_ne_true, if_neg Bool.false_ne_true]

/-- The text of a finite number is the shortest decimal that is read as the number, and of the shortest ones none is
nearer to it. -/
theorem exists_shortest_decimal (x : Binary64) (hx : x.isFinite) :
    ∃ d : Decimal, (Literal.float x).render = d.text ∧ d.IsPlain ∧ (∀ y, d.ReadsAs y ↔ y = x) ∧
      ∀ d' : Decimal, d'.ReadsAs x → d.significantDigits ≤ d'.significantDigits ∧
        (d'.significantDigits = d.significantDigits → |d.toRat - x.toRat| ≤ |d'.toRat - x.toRat|) := by
  obtain ⟨hback, n, hdigits, hbest⟩ := exists_hasDigits_shortest hx
  have hplaces : 0 < places := by decide
  have hunits := magnitude_ofUnits x.isNegative x.shortest hplaces
  rw [← hunits] at hback hdigits hbest
  generalize hd : Decimal.ofUnits x.isNegative x.shortest places = d at *
  have hsign : x.isNegative = d.isNegative := by rw [← hd]; rfl
  have hreads : d.ReadsAs x := (Decimal.readsAs_iff hx).mpr ⟨hsign, hback⟩
  have hlength : d.significantDigits = n :=
    (Decimal.hasDigits_units_iff.mp hdigits).antisymm (hbest _ _ (Decimal.hasDigits_units_iff.mpr le_rfl) hback).1
  refine ⟨d, ?_, hd ▸ isPlain_ofUnits _ _ _, ?_, ?_⟩
  · rw [← hd, text_ofUnits]
    exact render_of_isFinite hx
  · intro y
    exact ⟨fun hy => hy.eq hreads, fun hy => hy ▸ hreads⟩
  · intro d' hd'
    obtain ⟨hsign', hback'⟩ := (Decimal.readsAs_iff hx).mp hd'
    obtain ⟨hle, hnearest⟩ := hbest _ _ (Decimal.hasDigits_units_iff.mpr le_rfl) hback'
    have hpower : (0 : ℚ) < 10 ^ places := pow_pos (by norm_num) _
    rw [hlength, ← mul_le_mul_iff_of_pos_right hpower, Decimal.abs_toRat_sub hsign, Decimal.abs_toRat_sub hsign']
    exact ⟨hle, hnearest⟩

-- the number is a little greater than its text
example : (Literal.float ⟨0x3fb999999999999a⟩).render = "0.1".toList := by decide +kernel

theorem exists_shortest_decimal_of_subnormal :
    let x : Binary64 := ⟨0x8000000000000001⟩
    x.isFinite ∧ ∃ d : Decimal, (Literal.float x).render = d.text ∧ d.IsPlain ∧ (∀ y, d.ReadsAs y ↔ y = x) ∧
      ∀ d' : Decimal, d'.ReadsAs x → d.significantDigits ≤ d'.significantDigits ∧
        (d'.significantDigits = d.significantDigits → |d.toRat - x.toRat| ≤ |d'.toRat - x.toRat|) := by
  intro x
  have hx : x.isFinite := by decide
  exact ⟨hx, exists_shortest_decimal x hx⟩

end ScriptLexer
