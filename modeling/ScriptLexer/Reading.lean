import ScriptLexer.Lines

/-!
# Reading

What is read, a file or a line of input, is a sequence of bytes. It is a text if it is valid UTF-8, and
an error otherwise. Lines are split before they are decoded, so an invalid line leaves the others as
they are.
-/

namespace ScriptLexer

/-- Why there is nothing to read. -/
inductive ReadError
  | notFound
  | invalidUtf8
  deriving DecidableEq, Repr

def ReadError.message : ReadError → Text
  | notFound => "No such file or directory (os error 2)".toList
  | invalidUtf8 => "stream did not contain valid UTF-8".toList

/-- A text, or the reason why it could not be read. -/
abbrev Reading := Except ReadError Text

namespace Reading

def ofBytes (bytes : List UInt8) : Reading :=
  match String.fromUTF8? bytes.toByteArray with
  | some s => .ok s.toList
  | none => .error .invalidUtf8

/-- The lines of a text, each of them readable. -/
def linesOfText (text : Text) : List Reading := (Lines.ofText text).map .ok

/-- The lines of a byte sequence, each decoded on its own. -/
def linesOfBytes (bytes : List UInt8) : List Reading := (Lines.ofBytes bytes).map ofBytes

end Reading

end ScriptLexer
