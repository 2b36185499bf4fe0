import ScriptLexer.Text

/-!
# Faults and diagnostics

A fault is a piece of a script that is no lexeme, with the line on which it starts. A diagnostic is what
is reported: a line, a location and a message. Every fault has its diagnostic.
-/

namespace ScriptLexer

/-- Why a piece of a script is no lexeme. -/
inductive Fault.Cause
  | unexpectedCharacter (c : Char)
  | unterminatedString
  | integerOverflow (digits : Text)
  deriving DecidableEq, Repr

/-- A cause, and the line on which the faulty piece starts. -/
structure Fault where
  cause : Fault.Cause
  line : Nat
  deriving DecidableEq, Repr

structure Diagnostic where
  line : Nat
  location : Text
  message : Text
  deriving DecidableEq, Repr

def Fault.Cause.message : Cause → Text
  | unexpectedCharacter c => "Unexpected character: '".toList ++ [c] ++ "'".toList
  | unterminatedString => "Unterminated string.".toList
  | integerOverflow digits =>
    "Integer literal '".toList ++ digits ++ "' does not fit in 64 bits.".toList

/-- A fault is reported with its line and no further location. -/
def Fault.diagnostic (f : Fault) : Diagnostic := ⟨f.line, [], f.cause.message⟩

def Diagnostic.render (d : Diagnostic) : Text :=
  "[line ".toList ++ Text.numeral d.line ++ "] Error".toList ++ d.location ++ ": ".toList ++ d.message

end ScriptLexer
