import ScriptLexer.Cursor
import ScriptLexer.Log
import ScriptLexer.Report

/-!
# Passes over a script

A pass reads a script from its beginning to its end with one cursor, piece by piece. On its way it collects the
tokens, reports what is wrong, counts it, and writes the events that a threshold admits to the log. What is wrong is
counted in 32 bits, and a pass that finds too much of it depends on what becomes of a counter that overflows.
-/

namespace ScriptLexer

/-- How far a script has been read, and what has come of it. -/
structure Pass where
  cursor : Cursor
  tokens : List Token
  report : Report
  errors : Int32
  events : List Log.Event
  deriving DecidableEq, Repr

namespace Pass

/-- Nothing is read, and the report holds what was reported before. -/
def start (report : Report) : Pass := ⟨⟨0, 0, 1, 1⟩, [], report, 0, []⟩

def log (threshold : Option Log.Level) (e : Log.Event) (p : Pass) : Pass :=
  if Log.admits threshold e.level then { p with events := p.events ++ [e] } else p

/-- The next piece begins at the next unread character. -/
def begin (p : Pass) : Pass :=
  { p with cursor := { p.cursor with start := p.cursor.current, startLine := p.cursor.line } }

def addToken (threshold : Option Log.Level) (source : Text) (kind : Token.Kind) (literal : Option Literal)
    (p : Pass) : Checked Pass := do
  let lexeme ← p.cursor.slice source p.cursor.start p.cursor.current
  let t : Token := ⟨kind, lexeme, literal, p.cursor.startLine⟩
  let p := p.log threshold (.token t)
  pure { p with tokens := p.tokens ++ [t] }

def addFault (o : Overflow) (threshold : Option Log.Level) (f : Fault) (p : Pass) : Checked Pass := do
  let errors ← o.up p.errors
  let p := { p with errors := errors }
  let p := p.log threshold (.diagnostic ⟨f.line, [], f.cause.message⟩)
  pure { p with report := p.report.addError f.line f.cause.message }

/-- Reads one piece. -/
def step (o : Overflow) (threshold : Option Log.Level) (source : Text) (p : Pass) : Checked Pass := do
  let p := p.begin
  let (found, c) ← p.cursor.read source
  let p := { p with cursor := c }
  match found with
  | .nothing => pure p
  | .lexeme kind literal => p.addToken threshold source kind literal
  | .fault f => p.addFault o threshold f

/-- Reads piece by piece as long as the next unread character is within the script. -/
def loop (o : Overflow) (threshold : Option Log.Level) (source : Text) : Pass → Checked Pass :=
  Checked.loop (fun p => do
    if p.cursor.current < source.utf8Length then pure (some (← p.step o threshold source)) else pure none)
    fun p => p.cursor.left source

/-- Adds the token that ends a script, and tells the counts. -/
def finish (threshold : Option Log.Level) (p : Pass) : Pass :=
  let p := { p with tokens := p.tokens ++ [Token.eof p.cursor.line] }
  p.log threshold (.finished p.tokens.length p.errors p.cursor.line)

/-- A whole pass over a script. -/
def run (o : Overflow) (threshold : Option Log.Level) (report : Report) (source : Text) : Checked Pass := do
  let p ← (start report).loop o threshold source
  pure (p.finish threshold)

end Pass

end ScriptLexer
