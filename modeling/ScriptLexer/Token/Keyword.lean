import ScriptLexer.Text

/-!
# Keywords

The reserved words of the language. A word is a keyword exactly when it is spelled like one, in lower
case letters throughout.
-/

namespace ScriptLexer

inductive Keyword
  | and_ | class_ | else_ | for_ | fun_ | if_ | nil_ | or_
  | print_ | return_ | super_ | this_ | var_ | while_
  deriving DecidableEq, Repr

namespace Keyword

def all : List Keyword :=
  [and_, class_, else_, for_, fun_, if_, nil_, or_, print_, return_, super_, this_, var_, while_]

def word : Keyword → Text
  | and_ => "and".toList
  | class_ => "class".toList
  | else_ => "else".toList
  | for_ => "for".toList
  | fun_ => "fun".toList
  | if_ => "if".toList
  | nil_ => "nil".toList
  | or_ => "or".toList
  | print_ => "print".toList
  | return_ => "return".toList
  | super_ => "super".toList
  | this_ => "this".toList
  | var_ => "var".toList
  | while_ => "while".toList

/-- The reserved word that is spelled so, if there is one. -/
def ofWord? (text : Text) : Option Keyword := all.find? (·.word == text)

theorem mem_all (k : Keyword) : k ∈ all := by cases k <;> decide

theorem ofWord?_word (k : Keyword) : ofWord? k.word = some k := by cases k <;> decide

theorem ofWord?_eq_some_iff {text : Text} {k : Keyword} : ofWord? text = some k ↔ k.word = text := by
  constructor
  · intro h
    have := List.find?_some h
    simpa using this
  · rintro rfl
    exact ofWord?_word k

end Keyword

end ScriptLexer
