import ScriptLexer.Text
import ScriptLexer.Binary64.Nearest

/-!
# The shortest decimal of a binary64 number

A finite number is written with the fewest digits that round back to it. Grids of multiples of a power
of ten are tried from the coarsest on; the first grid on which one of the two neighbours of the number
rounds back to it gives the decimal, of two such neighbours the nearer, of two equally near ones the
larger. Decimals are counted in units of `10 ^ (-324)`: half the least spacing of binary64 numbers is
more than one such unit, so the finest grid always has a neighbour that rounds back.

The decimal is written positionally: an integer part, and behind a point the fraction if there is one.
-/

namespace ScriptLexer.Binary64

/-- The number of decimal places of the finest grid. -/
def places : Nat := 324

/-- Whether the decimal of that many units of `10 ^ (-324)` rounds to the absolute value of `x`. -/
def roundsTo (x : Binary64) (decimal : Nat) : Bool :=
  nearestMagnitude decimal (Nat.pow 10 places) = x.magnitude

/-- The absolute value of `x` in units that are `2 ^ 1074` times finer. -/
def scaled (x : Binary64) : Nat := x.units * Nat.pow 10 places

/-- The spacing of multiples of `10 ^ j` units, in these finer units. -/
def spacing (j : Nat) : Nat := Nat.pow 10 j * Nat.pow 2 1074

/-- The lower neighbour of `x` on the grid of multiples of `10 ^ j` units: `x` itself if it is one of them. -/
def below (x : Binary64) (j : Nat) : Nat := x.scaled / spacing j * Nat.pow 10 j

/-- The upper neighbour of `x`. -/
def above (x : Binary64) (j : Nat) : Nat := x.below j + Nat.pow 10 j

/-- The neighbour of `x` on the grid of multiples of `10 ^ j` units that rounds back to `x`; the
nearer one if both do, and the larger one if they are equally near. -/
def neighbour? (x : Binary64) (j : Nat) : Option Nat :=
  if x.roundsTo (x.below j) then
    if x.roundsTo (x.above j) then
      some (if 2 * (x.scaled % spacing j) < spacing j then x.below j else x.above j)
    else some (x.below j)
  else if x.roundsTo (x.above j) then some (x.above j)
  else none

/-- The first neighbour that rounds back, from the grid of `10 ^ j` units to finer ones. -/
def firstNeighbour (x : Binary64) : Nat → Nat
  | 0 => (x.neighbour? 0).getD 0
  | j + 1 => (x.neighbour? (j + 1)).getD (firstNeighbour x j)

/-- The shortest decimal of a finite number, without its sign, in units of `10 ^ (-324)`. The search
starts at the grid on which the number has one digit. -/
def shortest (x : Binary64) : Nat :=
  firstNeighbour x ((Text.numeral (x.scaled / Nat.pow 2 1074)).length - 1)

/-- The digits of the first `width` places behind the point, without trailing zeros, of a decimal
counted in units of the last of these places. -/
def fractionDigits (decimal width : Nat) : Text :=
  let digits := Text.numeral (decimal % Nat.pow 10 width)
  ((List.replicate (width - digits.length) '0' ++ digits).reverse.dropWhile (· == '0')).reverse

/-- A decimal counted in units of `10 ^ (-width)`, written positionally. -/
def positional (decimal width : Nat) : Text :=
  let whole := Text.numeral (decimal / Nat.pow 10 width)
  match fractionDigits decimal width with
  | [] => whole
  | fraction => whole ++ '.' :: fraction

/-- The text of a number: a minus sign if the sign bit is set, then the shortest decimal, or the name
of infinity. What is not a number has no sign. -/
def render (x : Binary64) : Text :=
  if x.isNaN then "NaN".toList
  else (if x.isNegative then ['-'] else []) ++
    (if x.isInfinite then "inf".toList else positional x.shortest places)

end ScriptLexer.Binary64
