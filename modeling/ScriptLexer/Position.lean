import ScriptLexer.Text

/-!
# Positions

A position in a script is a line, counted from one, and an offset in UTF-8 bytes, counted from zero.
Passing a text moves both, and passing two texts in turn is passing them joined.
-/

namespace ScriptLexer

/-- A place between two characters of a script. -/
structure Position where
  line : Nat
  offset : Nat
  deriving DecidableEq, Repr

namespace Position

def start : Position := ⟨1, 0⟩

/-- The place reached from `p` by passing `text`. -/
def advance (p : Position) (text : Text) : Position :=
  ⟨p.line + text.lineFeeds, p.offset + text.utf8Length⟩

theorem advance_append (p : Position) (a b : Text) :
    p.advance (a ++ b) = (p.advance a).advance b := by
  simp [advance, Nat.add_assoc]

end Position

end ScriptLexer
