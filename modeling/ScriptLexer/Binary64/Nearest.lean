import ScriptLexer.Binary64.Basic

/-!
# Rounding to the nearest binary64 number

A fraction of natural numbers is rounded to the nearest magnitude, ties to the even one. The fraction
is measured in units of `2 ^ (-1074)`; the place of its leading bit gives the spacing of the numbers
around it, and one integer division by that spacing rounds it. What exceeds all finite numbers by half
a spacing or more is infinite.
-/

namespace ScriptLexer.Binary64

/-- The quotient rounded to the nearest natural number, ties to the even one. -/
def divideToEven (num den : Nat) : Nat :=
  let q := num / den
  let twice := 2 * (num % den)
  if twice < den ∨ twice = den ∧ q % 2 = 0 then q else q + 1

/-- The magnitude nearest to `num / den`, for a positive denominator. With `2 ^ k` units between the
numbers in reach, `m` of these spacings make the significand, its leading bit included, so that
`k * 2 ^ 52 + m` is the magnitude even where rounding carries into the next exponent. -/
def nearestMagnitude (num den : Nat) : Nat :=
  let scaled := num * Nat.pow 2 1074
  let k := (scaled / den).log2 - 52
  let m := divideToEven scaled (den * Nat.pow 2 k)
  min (k * Nat.pow 2 52 + m) infinite

/-- The nonnegative number nearest to `num / den`, for a positive denominator. -/
def nearest (num den : Nat) : Binary64 := ofMagnitude false (nearestMagnitude num den)

theorem nearestMagnitude_le (num den : Nat) : nearestMagnitude num den ≤ infinite :=
  Nat.min_le_right _ _

theorem magnitude_nearest (num den : Nat) :
    (nearest num den).magnitude = nearestMagnitude num den :=
  magnitude_ofMagnitude _ (Nat.lt_of_le_of_lt (nearestMagnitude_le num den) (by decide))

theorem isNegative_nearest (num den : Nat) : (nearest num den).isNegative = false :=
  isNegative_ofMagnitude _ (Nat.lt_of_le_of_lt (nearestMagnitude_le num den) (by decide))

/-- Rounding always gives a number. -/
theorem isNaN_nearest (num den : Nat) : (nearest num den).isNaN = false := by
  have := nearestMagnitude_le num den
  rw [isNaN, magnitude_nearest]
  exact decide_eq_false (by omega)

end ScriptLexer.Binary64
