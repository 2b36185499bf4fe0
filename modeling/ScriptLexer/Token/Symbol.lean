import ScriptLexer.Text

/-!
# Symbols

Punctuators and operators. Eleven are single characters for good; four may be lengthened by an equals
sign, which gives the other four.
-/

namespace ScriptLexer

/-- A punctuator or an operator. -/
inductive Symbol
  | leftParen | rightParen | leftBrace | rightBrace
  | comma | dot | minus | plus | semicolon | slash | star
  | bang | bangEqual | equal | equalEqual
  | greater | greaterEqual | less | lessEqual
  deriving DecidableEq, Repr

namespace Symbol

/-- All symbols, the single characters before the two-character operators they begin. -/
def all : List Symbol :=
  [leftParen, rightParen, leftBrace, rightBrace, comma, dot, minus, plus, semicolon, slash, star,
    bang, bangEqual, equal, equalEqual, greater, greaterEqual, less, lessEqual]

def text : Symbol → Text
  | leftParen => ['(']
  | rightParen => [')']
  | leftBrace => ['\x7b']
  | rightBrace => ['\x7d']
  | comma => [',']
  | dot => ['.']
  | minus => ['-']
  | plus => ['+']
  | semicolon => [';']
  | slash => ['/']
  | star => ['*']
  | bang => ['!']
  | bangEqual => ['!', '=']
  | equal => ['=']
  | equalEqual => ['=', '=']
  | greater => ['>']
  | greaterEqual => ['>', '=']
  | less => ['<']
  | lessEqual => ['<', '=']

/-- The name under which a symbol is printed. -/
def name : Symbol → Text
  | leftParen => "LeftParen".toList
  | rightParen => "RightParen".toList
  | leftBrace => "LeftBrace".toList
  | rightBrace => "RightBrace".toList
  | comma => "Comma".toList
  | dot => "Dot".toList
  | minus => "Minus".toList
  | plus => "Plus".toList
  | semicolon => "Semicolon".toList
  | slash => "Slash".toList
  | star => "Star".toList
  | bang => "Bang".toList
  | bangEqual => "BangEqual".toList
  | equal => "Equal".toList
  | equalEqual => "EqualEqual".toList
  | greater => "Greater".toList
  | greaterEqual => "GreaterEqual".toList
  | less => "Less".toList
  | lessEqual => "LessEqual".toList

/-- The symbol that consists of one given character. -/
def single? (c : Char) : Option Symbol := all.find? (·.text == [c])

/-- The symbol that a directly following equals sign makes of a symbol. -/
def withEqual? : Symbol → Option Symbol
  | bang => some bangEqual
  | equal => some equalEqual
  | greater => some greaterEqual
  | less => some lessEqual
  | _ => none

/-- The symbol that `single` begins in front of `rest`, and what is left of `rest` behind it. An equals
sign is taken into the symbol where that gives one. -/
def lengthen (single : Symbol) (rest : Text) : Symbol × Text :=
  match single.withEqual?, rest with
  | some double, '=' :: rest => (double, rest)
  | _, _ => (single, rest)

theorem mem_all (s : Symbol) : s ∈ all := by cases s <;> decide

theorem text_ne_nil (s : Symbol) : s.text ≠ [] := by cases s <;> simp [text]

theorem single?_eq_some_iff {c : Char} {s : Symbol} : single? c = some s ↔ s.text = [c] := by
  constructor
  · intro h
    have := List.find?_some h
    simpa using this
  · intro h
    cases s <;> simp [text] at h <;> subst h <;> rfl

theorem text_of_withEqual? {s t : Symbol} (h : s.withEqual? = some t) : t.text = s.text ++ ['='] := by
  cases s <;> simp [withEqual?] at h <;> subst h <;> rfl

/-- Lengthening a symbol loses no text. -/
theorem text_lengthen (s : Symbol) (rest : Text) :
    (s.lengthen rest).1.text ++ (s.lengthen rest).2 = s.text ++ rest := by
  unfold lengthen
  split
  · next h => simp [text_of_withEqual? h]
  · rfl

end Symbol

end ScriptLexer
