import ScriptLexer.Checked
import ScriptLexer.Numeral
import ScriptLexer.Piece.Basic
import ScriptLexer.Piece.Division
import ScriptLexer.Slice

/-!
# Cursors

A script can be read by a cursor that keeps the offset at which a piece begins and the offset of the next unread
character, and sees the script only through slices between such offsets. Nothing prevents an offset from being a
wrong one, a numeral from not being read, nor a loop from making no progress; where that happens, reading ends with a
defect.
-/

namespace ScriptLexer

/-- The offset at which a piece begins and that of the next unread character, with their lines. -/
structure Cursor where
  start : Nat
  current : Nat
  line : Nat
  startLine : Nat
  deriving DecidableEq, Repr

/-- What is read at a cursor. -/
inductive Cursor.Found
  | nothing
  | lexeme (kind : Token.Kind) (literal : Option Literal)
  | fault (f : Fault)
  deriving DecidableEq, Repr

namespace Cursor

def Found.ofLiteral (kind : Token.Kind) : Except Fault Literal → Found
  | .ok literal => .lexeme kind (some literal)
  | .error f => .fault f

/-- Whether the offsets come in order, do not exceed the script and are places between characters. -/
def InOrder (source : Text) (c : Cursor) : Prop :=
  c.start ≤ c.current ∧ c.current ≤ source.utf8Length ∧ source.IsBoundary c.start ∧ source.IsBoundary c.current

instance (source : Text) (c : Cursor) : Decidable (c.InOrder source) := inferInstanceAs (Decidable (_ ∧ _))

/-- The script from one offset up to another. Taking it is a defect unless the cursor is in order. -/
def slice (source : Text) (c : Cursor) (i j : Nat) : Checked Text :=
  if c.InOrder source then
    match source.slice? i j with
    | some t => pure t
    | none => throw .slice
  else throw .disorder

/-- The next unread character, if there is one. -/
def peek (source : Text) (c : Cursor) : Checked (Option Char) := do
  let rest ← c.slice source c.current source.utf8Length
  pure rest.head?

/-- The unread character behind the next one. -/
def peekNext (source : Text) (c : Cursor) : Checked (Option Char) := do
  let rest ← c.slice source c.current source.utf8Length
  pure rest[1]?

/-- The cursor behind a character. -/
def behind (ch : Char) (c : Cursor) : Cursor := { c with current := c.current + ch.utf8Size }

def countLine (c : Cursor) : Cursor := { c with line := c.line + 1 }

/-- Passes the next character. -/
def advance (source : Text) (c : Cursor) : Checked (Option Char × Cursor) := do
  match ← c.peek source with
  | none => pure (none, c)
  | some ch => pure (some ch, c.behind ch)

/-- Passes the next character if it is the expected one, and tells whether it was. -/
def matchOne (source : Text) (expected : Char) (c : Cursor) : Checked (Bool × Cursor) := do
  if (← c.peek source) = some expected then pure (true, c.behind expected) else pure (false, c)

/-- How many bytes of the script are left. -/
def left (source : Text) (c : Cursor) : Nat := source.utf8Length - c.current

/-- Passes characters as long as they have a property. -/
def skipWhile (p : Char → Bool) (source : Text) : Cursor → Checked Cursor :=
  Checked.loop (fun c => do
    match ← c.peek source with
    | none => pure none
    | some ch => pure (if p ch then some (c.behind ch) else none)) (left source)

/-- Passes characters up to the next quote, and counts lines on the way. -/
def skipString (source : Text) : Cursor → Checked Cursor :=
  Checked.loop (fun c => do
    match ← c.peek source with
    | none => pure none
    | some ch =>
      if ch = quote then pure none
      else pure (some ((if ch = '\n' then c.countLine else c).behind ch))) (left source)

/-- Reads a string behind its opening quote. -/
def readString (source : Text) (c : Cursor) : Checked (Except Fault Literal × Cursor) := do
  let c ← c.skipString source
  if source.utf8Length ≤ c.current then
    pure (.error ⟨.unterminatedString, c.startLine⟩, c)
  else
    let (_, c) ← c.advance source
    let body ← c.slice source (c.start + quote.utf8Size) (c.current - quote.utf8Size)
    pure (.ok (.text body), c)

/-- Whether a point and a digit come next. -/
def seesFraction (source : Text) (c : Cursor) : Checked Bool := do
  if (← c.peek source) = some '.' then
    pure ((← c.peekNext source).any Char.isDigit)
  else pure false

/-- Reads a number behind its first digit. -/
def readNumber (source : Text) (c : Cursor) : Checked (Except Fault Literal × Cursor) := do
  let c ← c.skipWhile Char.isDigit source
  if ← c.seesFraction source then
    let (_, c) ← c.advance source
    let c ← c.skipWhile Char.isDigit source
    match Numeral.readDecimal? (← c.slice source c.start c.current) with
    | some x => pure (.ok (.float x), c)
    | none => throw .numeral
  else
    let digits ← c.slice source c.start c.current
    match Numeral.readInteger digits with
    | .ok i => pure (.ok (.integer i), c)
    | .error .overflow => pure (.error ⟨.integerOverflow digits, c.startLine⟩, c)
    | .error _ => throw .numeral

/-- Reads a piece that begins with a symbol, behind its first character. -/
def readSymbol (source : Text) (s : Symbol) (c : Cursor) : Checked (Found × Cursor) := do
  if s = .slash then
    let (isComment, c) ← c.matchOne source '/'
    if isComment then
      -- the line feed is left for the next piece
      let c ← c.skipWhile (· != '\n') source
      pure (.nothing, c)
    else pure (.lexeme (.symbol s) none, c)
  else
    match s.withEqual? with
    | some double =>
      let (isEqual, c) ← c.matchOne source '='
      pure (.lexeme (.symbol (if isEqual then double else s)) none, c)
    | none => pure (.lexeme (.symbol s) none, c)

/-- Reads a piece that begins with the character `ch`, behind it. -/
def readBehind (source : Text) (ch : Char) (c : Cursor) : Checked (Found × Cursor) :=
  match Symbol.single? ch with
  | some s => c.readSymbol source s
  | none =>
    if ch = ' ' ∨ ch = '\r' ∨ ch = '\t' then pure (.nothing, c)
    else if ch = '\n' then pure (.nothing, c.countLine)
    else if ch = quote then do
      let (result, c) ← c.readString source
      pure (Found.ofLiteral .string result, c)
    else if ch.isDigit then do
      let (result, c) ← c.readNumber source
      pure (Found.ofLiteral .number result, c)
    else if Piece.beginsWord ch then do
      let c ← c.skipWhile Piece.continuesWord source
      let letters ← c.slice source c.start c.current
      pure (.lexeme (Piece.wordKind letters) none, c)
    else pure (.fault ⟨.unexpectedCharacter ch, c.line⟩, c)

/-- Reads one piece, if there is another character. -/
def read (source : Text) (c : Cursor) : Checked (Found × Cursor) := do
  match ← c.advance source with
  | (none, c) => pure (.nothing, c)
  | (some ch, c) => c.readBehind source ch

end Cursor

end ScriptLexer
