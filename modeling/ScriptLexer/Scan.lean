import ScriptLexer.Piece.Division
import ScriptLexer.Position

/-!
# Scanning

A scan places the pieces of a script one behind the other from a position on. Each placed piece gives a
token, a fault or nothing, at the place where it starts; the token that ends every script stands at the
place where the last piece ends.
-/

namespace ScriptLexer

/-- A piece and the position of its first character. -/
structure Placed where
  position : Position
  piece : Piece
  deriving DecidableEq, Repr

namespace Placed

/-- The token of a placed piece that is a lexeme, with its offset. -/
def located? (x : Placed) : Option Token.Located :=
  match x.piece.meaning with
  | .lexeme kind literal =>
    some ⟨⟨kind, x.piece.text, literal, x.position.line⟩, x.position.offset⟩
  | _ => none

def token? (x : Placed) : Option Token := x.located?.map (·.token)

def fault? (x : Placed) : Option Fault :=
  match x.piece.meaning with
  | .fault cause => some ⟨cause, x.position.line⟩
  | _ => none

end Placed

/-- Pieces placed one behind the other from a position on. -/
def place : Position → List Piece → List Placed
  | _, [] => []
  | p, x :: xs => ⟨p, x⟩ :: place (p.advance x.text) xs

/-- The position behind pieces that are placed from a position on. -/
def positionAfter : Position → List Piece → Position
  | p, [] => p
  | p, x :: xs => positionAfter (p.advance x.text) xs

structure Scan where
  placed : List Placed
  finish : Position
  deriving DecidableEq, Repr

def scanFrom (p : Position) (source : Text) : Scan :=
  ⟨place p (pieces source), positionAfter p (pieces source)⟩

def scan (source : Text) : Scan := scanFrom Position.start source

namespace Scan

def located (s : Scan) : List Token.Located := s.placed.filterMap Placed.located?

def eof (s : Scan) : Token := Token.eof s.finish.line

/-- All tokens of a script, the ending one included. -/
def tokens (s : Scan) : List Token := s.placed.filterMap Placed.token? ++ [s.eof]

def faults (s : Scan) : List Fault := s.placed.filterMap Placed.fault?

def diagnostics (s : Scan) : List Diagnostic := s.faults.map Fault.diagnostic

end Scan

theorem place_append (p : Position) (xs ys : List Piece) :
    place p (xs ++ ys) = place p xs ++ place (positionAfter p xs) ys := by
  induction xs generalizing p with
  | nil => rfl
  | cons x xs ih => simp [place, positionAfter, ih]

theorem positionAfter_append (p : Position) (xs ys : List Piece) :
    positionAfter p (xs ++ ys) = positionAfter (positionAfter p xs) ys := by
  induction xs generalizing p with
  | nil => rfl
  | cons x xs ih => simp [positionAfter, ih]

/-- Placing pieces one behind the other passes their text. -/
theorem positionAfter_eq_advance (p : Position) (xs : List Piece) :
    positionAfter p xs = p.advance (xs.flatMap Piece.text) := by
  induction xs generalizing p with
  | nil => rfl
  | cons x xs ih => rw [positionAfter, ih, List.flatMap_cons, Position.advance_append]

/-- The end of a scan is behind the whole script. -/
theorem finish_scanFrom (p : Position) (source : Text) :
    (scanFrom p source).finish = p.advance source := by
  simp [scanFrom, positionAfter_eq_advance, flatMap_text_pieces]

theorem Scan.tokens_eq (s : Scan) : s.tokens = s.located.map (·.token) ++ [s.eof] := by
  simp only [tokens, located, List.map_filterMap]
  rfl

end ScriptLexer
