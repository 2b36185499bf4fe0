import ScriptLexer.Diagnostic
import ScriptLexer.Token.Basic

/-!
# Pieces of a script

A script is divided into pieces: blanks, comments, lexemes of each sort, and faulty pieces that are no
lexeme. A piece keeps all of its characters, so that its text can be given back, and its meaning says
whether it contributes nothing, a token or a fault.
-/

namespace ScriptLexer

inductive Piece
  /-- one character of white space -/
  | blank (c : Char)
  /-- two slashes and the rest of the line, without the line feed -/
  | comment (body : Text)
  /-- a punctuator or an operator -/
  | symbol (s : Symbol)
  /-- a run of letters, digits and underscores -/
  | word (letters : Text)
  /-- what stands between two quotes -/
  | string (body : Text)
  /-- a run of digits -/
  | integer (digits : Text)
  /-- two runs of digits with a point between them -/
  | decimal (whole fraction : Text)
  /-- a character that begins no other piece -/
  | stray (c : Char)
  /-- a quote that no other quote follows, with all that stands behind it -/
  | unclosed (body : Text)
  deriving DecidableEq, Repr

/-- What a piece contributes. -/
inductive Piece.Meaning
  | nothing
  | lexeme (kind : Token.Kind) (literal : Option Literal)
  | fault (cause : Fault.Cause)
  deriving DecidableEq, Repr

namespace Piece

def text : Piece → Text
  | blank c => [c]
  | comment body => '/' :: '/' :: body
  | symbol s => s.text
  | word letters => letters
  | string body => quote :: body ++ [quote]
  | integer digits => digits
  | decimal whole fraction => whole ++ '.' :: fraction
  | stray c => [c]
  | unclosed body => quote :: body

/-- A word is a reserved word or an identifier. -/
def wordKind (letters : Text) : Token.Kind :=
  match Keyword.ofWord? letters with
  | some k => .keyword k
  | none => .identifier

/-- The meaning of a piece. A run of digits is a number if its value fits a signed integer of 64 bits;
digits with a fraction stand for the nearest floating-point number. -/
def meaning : Piece → Meaning
  | blank _ => .nothing
  | comment _ => .nothing
  | symbol s => .lexeme (.symbol s) none
  | word letters => .lexeme (wordKind letters) none
  | string body => .lexeme .string (some (.text body))
  | integer digits =>
    if Text.value digits < Nat.pow 2 63 then
      .lexeme .number (some (.integer (Int64.ofNat (Text.value digits))))
    else .fault (.integerOverflow digits)
  | decimal whole fraction =>
    .lexeme .number
      (some (.float (Binary64.nearest (Text.value (whole ++ fraction)) (Nat.pow 10 fraction.length))))
  | stray c => .fault (.unexpectedCharacter c)
  | unclosed _ => .fault .unterminatedString

end Piece

end ScriptLexer
