import ScriptLexer.Text

/-!
# Text for a terminal

A terminal obeys some control characters instead of showing them: those that ring, move back or feed a
page, escape and delete, and the 32 characters from U+0080 on. In a visible text each of them is written
as its number behind a backslash. All other characters, line breaks and backslashes among them, stay, so
a text without such controls is visible as it is.
-/

namespace ScriptLexer.Terminal

/-- The controls of one byte: bell, backspace, form feed, escape and delete. -/
def byteControls : List Char := ['\x07', '\x08', '\x0c', '\x1b', '\x7f']

/-- The controls from U+0080 on. -/
def isHighControl (c : Char) : Bool := 0x80 ≤ c.toNat && c.toNat ≤ 0x9f

/-- The two hexadecimal digits of a number below 256, in lower case. -/
def hexPair (n : Nat) : Text := [Nat.digitChar (n / 16), Nat.digitChar (n % 16)]

/-- A character as it is shown: a control is shown by its number. -/
def visibleChar (c : Char) : Text :=
  if byteControls.contains c then '\\' :: 'x' :: hexPair c.toNat
  else if isHighControl c then '\\' :: 'u' :: '\x7b' :: hexPair c.toNat ++ ['\x7d']
  else [c]

/-- A text in which every control is shown by its number. -/
def visible (text : Text) : Text := text.flatMap visibleChar

end ScriptLexer.Terminal
