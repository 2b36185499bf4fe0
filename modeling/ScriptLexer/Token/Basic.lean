import ScriptLexer.Binary64.Shortest
import ScriptLexer.Token.Keyword
import ScriptLexer.Token.Symbol

/-!
# Tokens

A token is a kind, the lexeme it was read from, the value of that lexeme if it has one, and the line on
which the lexeme starts. This file gives tokens their printed form and says which are equal.
-/

namespace ScriptLexer

/-- What a lexeme is: a symbol, a name, a value or a reserved word; `eof` stands for the end. -/
inductive Token.Kind
  | symbol (s : Symbol)
  | identifier
  | string
  | number
  | keyword (k : Keyword)
  | eof
  deriving DecidableEq, Repr

inductive Literal
  | integer (value : Int64)
  | float (value : Binary64)
  | text (value : Text)
  deriving DecidableEq, Repr

structure Token where
  kind : Token.Kind
  lexeme : Text
  literal : Option Literal
  line : Nat
  deriving DecidableEq, Repr

/-- A token of a script, with the offset of its lexeme in UTF-8 bytes. -/
structure Token.Located where
  token : Token
  offset : Nat
  deriving DecidableEq, Repr

/-- Strings stand between two of these characters. -/
def quote : Char := '\x27'

namespace Token.Kind

/-- The printed form of a kind: its name, and for a reserved word also its spelling. -/
def render : Kind → Text
  | symbol s => s.name
  | identifier => "Identifier".toList
  | string => "String".toList
  | number => "Number".toList
  | keyword k => "Keyword(".toList ++ k.word ++ ")".toList
  | eof => "Eof".toList

def isKeyword : Kind → Bool
  | keyword _ => true
  | _ => false

end Token.Kind

namespace Literal

/-- The printed form of a value; a text is printed as it is. -/
def render : Literal → Text
  | integer i => Text.signedNumeral i.toInt
  | float x => x.render
  | text t => t

/-- The printed form of a value within that of a token, where a text stands between quotes. -/
def renderQuoted : Literal → Text
  | text t => quote :: t ++ [quote]
  | number => number.render

/-- Equality of values: those of different types differ, and floating-point numbers compare
numerically. -/
def equal : Literal → Literal → Bool
  | integer i, integer j => i == j
  | float x, float y => x.numericallyEqual y
  | text s, text t => s == t
  | _, _ => false

end Literal

namespace Token

def eof (line : Nat) : Token := ⟨.eof, [], none, line⟩

def render (t : Token) : Text :=
  "Token ".toList ++ t.kind.render ++ " '".toList ++ t.lexeme ++ "' on line ".toList ++
    Text.numeral t.line ++
    match t.literal with
    | none => []
    | some l => " -> ".toList ++ l.renderQuoted

/-- Equality of tokens: the same kind, lexeme and line, and equal values or none. -/
def equal (a b : Token) : Bool :=
  a.kind == b.kind && a.lexeme == b.lexeme && a.line == b.line &&
    match a.literal, b.literal with
    | none, none => true
    | some l, some m => l.equal m
    | _, _ => false

end Token

end ScriptLexer
