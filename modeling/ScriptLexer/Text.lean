/-!
# Text

Scripts, lexemes and everything that is printed are sequences of characters. This file holds the
measures taken of them: how many bytes they occupy in UTF-8 and how many line feeds they contain,
and the decimal numerals that occur in them.
-/

namespace ScriptLexer

/-- A sequence of Unicode characters. -/
abbrev Text := List Char

namespace Text

/-- The number of bytes of a text in UTF-8. -/
def utf8Length (text : Text) : Nat := text.foldr (fun c bytes => c.utf8Size + bytes) 0

def lineFeeds (text : Text) : Nat := text.count '\n'

/-- The decimal numeral of a natural number, without leading zeros. -/
def numeral (n : Nat) : Text := Nat.toDigits 10 n

/-- The number that a run of decimal digits denotes; leading zeros are allowed. -/
def value (digits : Text) : Nat := Nat.ofDigitChars 10 digits 0

/-- The decimal numeral of an integer, with a minus sign in front of a negative one. -/
def signedNumeral (i : Int) : Text :=
  if i < 0 then '-' :: numeral i.natAbs else numeral i.natAbs

def line (text : Text) : Text := text ++ ['\n']

@[simp] theorem utf8Length_nil : utf8Length [] = 0 := rfl

@[simp] theorem utf8Length_cons (c : Char) (text : Text) :
    utf8Length (c :: text) = c.utf8Size + utf8Length text := rfl

@[simp] theorem utf8Length_append (a b : Text) :
    utf8Length (a ++ b) = utf8Length a + utf8Length b := by
  induction a with
  | nil => rw [List.nil_append, utf8Length_nil, Nat.zero_add]
  | cons c a ih => rw [List.cons_append, utf8Length_cons, utf8Length_cons, ih, Nat.add_assoc]

@[simp] theorem lineFeeds_append (a b : Text) : lineFeeds (a ++ b) = lineFeeds a + lineFeeds b :=
  List.count_append

@[simp] theorem value_numeral (n : Nat) : value (numeral n) = n := Nat.ofDigitChars_ten_toDigits

end Text

end ScriptLexer
