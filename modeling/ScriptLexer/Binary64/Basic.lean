/-!
# Binary64 numbers

A binary64 number is its 64 bits: a sign, and below it a magnitude of 63 bits. Magnitudes are ordered
like the absolute values they stand for, so rounding and comparing work on them as natural numbers.
Every finite absolute value is a whole number of units of `2 ^ (-1074)`.

Powers are written with `Nat.pow`, which means the same whatever is imported; `Nat.pow_eq` turns it into `^`.
-/

namespace ScriptLexer

/-- A number in the 64-bit binary interchange format, given by its bits. -/
structure Binary64 where
  bits : UInt64
  deriving DecidableEq, Repr

namespace Binary64

/-- The magnitude that encodes infinity; all above it encode no number. -/
def infinite : Nat := 2047 * Nat.pow 2 52

/-- The absolute value, in units of `2 ^ (-1074)`, that a finite magnitude encodes: the low 52 bits
with a leading one, scaled by the exponent above them, or the bits alone where the exponent is zero. -/
def unitsOf (magnitude : Nat) : Nat :=
  if magnitude < Nat.pow 2 52 then magnitude
  else (Nat.pow 2 52 + magnitude % Nat.pow 2 52) * Nat.pow 2 (magnitude / Nat.pow 2 52 - 1)

def ofMagnitude (negative : Bool) (magnitude : Nat) : Binary64 :=
  ⟨UInt64.ofNat ((if negative then Nat.pow 2 63 else 0) + magnitude)⟩

def isNegative (x : Binary64) : Bool := Nat.pow 2 63 ≤ x.bits.toNat

def magnitude (x : Binary64) : Nat := x.bits.toNat % Nat.pow 2 63

/-- The absolute value in units of `2 ^ (-1074)`. -/
def units (x : Binary64) : Nat := unitsOf x.magnitude

def isNaN (x : Binary64) : Bool := infinite < x.magnitude

def isInfinite (x : Binary64) : Bool := x.magnitude = infinite

def isFinite (x : Binary64) : Bool := x.magnitude < infinite

def isZero (x : Binary64) : Bool := x.magnitude = 0

/-- Equality of numbers: the two zeros are equal, and what is not a number equals nothing. -/
def numericallyEqual (x y : Binary64) : Bool :=
  !x.isNaN && !y.isNaN && (x == y || x.isZero && y.isZero)

theorem magnitude_lt (x : Binary64) : x.magnitude < Nat.pow 2 63 := Nat.mod_lt _ (by decide)

theorem bits_toNat (x : Binary64) :
    x.bits.toNat = (if x.isNegative then Nat.pow 2 63 else 0) + x.magnitude := by
  have := x.bits.toNat_lt
  simp only [isNegative, magnitude, decide_eq_true_eq, Nat.pow_eq]
  split <;> omega

/-- A number is its sign and its magnitude. -/
theorem ofMagnitude_magnitude (x : Binary64) : ofMagnitude x.isNegative x.magnitude = x := by
  rw [ofMagnitude, ← bits_toNat, UInt64.ofNat_toNat]

theorem magnitude_ofMagnitude (negative : Bool) {m : Nat} (h : m < Nat.pow 2 63) :
    (ofMagnitude negative m).magnitude = m := by
  rw [Nat.pow_eq] at h
  cases negative <;> simp [ofMagnitude, magnitude] <;> omega

theorem isNegative_ofMagnitude (negative : Bool) {m : Nat} (h : m < Nat.pow 2 63) :
    (ofMagnitude negative m).isNegative = negative := by
  rw [Nat.pow_eq] at h
  cases negative <;> simp [ofMagnitude, isNegative] <;> omega

end Binary64

end ScriptLexer
