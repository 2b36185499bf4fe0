import ScriptLexer.Binary64.Nearest
import ScriptLexer.Text

/-!
# Reading numerals

A numeral is read digit by digit, and reading fails where no digit stands or the value has grown too large. Signs
and exponents, which no lexeme has, are refused.
-/

namespace ScriptLexer.Numeral

/-- Why a text is not read as an integer. -/
inductive Error
  | empty
  | invalidDigit
  | overflow
  deriving DecidableEq, Repr

/-- Reads digits behind a number that has been read already. -/
def readDigits (n : Nat) : Text → Except Error Nat
  | [] => .ok n
  | c :: text =>
    if c.isDigit then
      let next := 10 * n + (c.toNat - '0'.toNat)
      if next < Nat.pow 2 63 then readDigits next text else .error .overflow
    else .error .invalidDigit

/-- Reads digits as a signed integer of 64 bits. -/
def readInteger (text : Text) : Except Error Int64 :=
  if text.isEmpty then .error .empty else (readDigits 0 text).map Int64.ofNat

/-- Reads digits with a point between them as the nearest floating-point number. -/
def readDecimal? (text : Text) : Option Binary64 :=
  let whole := text.takeWhile Char.isDigit
  match text.dropWhile Char.isDigit with
  | '.' :: fraction =>
    if whole ≠ [] ∧ fraction ≠ [] ∧ fraction.all Char.isDigit then
      some (Binary64.nearest (Text.value (whole ++ fraction)) (Nat.pow 10 fraction.length))
    else none
  | _ => none

end ScriptLexer.Numeral
