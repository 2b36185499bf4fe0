import ScriptLexer.Checked
import ScriptLexer.Reading
import ScriptLexer.Scan

/-!
# Gathering prompt lines

At the prompt, lines are gathered until they make up a complete input. After each line the text gathered
so far is probed for completeness; a complete text is submitted, and so is an incomplete one when an
empty line or the end of the input comes. A line that cannot be read drops what has been gathered.
Brackets are counted in 32 bits, and lines are gathered here with counters that wrap.
-/

namespace ScriptLexer.Prompt

/-- A counter that goes up at each token of one kind and down at each token of another. -/
def balance (o : Overflow) (opening closing : Symbol) (n : Int32) (tokens : List Token) : Checked Int32 :=
  tokens.foldlM (fun n t =>
    if t.kind = .symbol opening then o.up n
    else if t.kind = .symbol closing then o.down n
    else pure n) n

/-- Tests whether an input is complete: all of its strings are closed and no more parentheses and no more braces
are opened than closed. Only tokens count, not what stands in strings and comments. The scan for it counts faults. -/
def testComplete (o : Overflow) (text : Text) : Checked Bool := do
  let s := scan text
  let _ ← o.count s.faults
  if s.faults.any (·.cause = .unterminatedString) then pure false
  else
    let braces ← balance o .leftBrace .rightBrace 0 s.tokens
    let parens ← balance o .leftParen .rightParen 0 s.tokens
    pure (braces ≤ 0 && parens ≤ 0)

/-- The outcome of the test with counters that wrap, which has no defect. -/
def isComplete (text : Text) : Bool :=
  match testComplete .wraps text with
  | .ok b => b
  | .error _ => false

inductive Action
  /-- a gathered text is tested for completeness -/
  | probe (text : Text)
  /-- an input is submitted -/
  | submit (text : Text)
  /-- a line could not be read -/
  | fail (error : ReadError)
  deriving DecidableEq, Repr

def gather (pending line : Text) : Text :=
  if pending.isEmpty then line else pending ++ '\n' :: line

/-- What a line does at the prompt, and the text gathered after it. -/
def feed (pending : Text) : Reading → List Action × Text
  | .error e => ([.fail e], [])
  | .ok line =>
    if line.isEmpty then
      if pending.isEmpty then ([], []) else ([.submit pending], [])
    else
      let text := gather pending line
      if isComplete text then ([.probe text, .submit text], []) else ([.probe text], text)

/-- What the end of the input does at the prompt. -/
def close (pending : Text) : List Action :=
  if pending.isEmpty then [] else [.submit pending]

/-- What lines do at the prompt, up to the end of the input. -/
def actions (pending : Text) : List Reading → List Action
  | [] => close pending
  | line :: lines => (feed pending line).1 ++ actions (feed pending line).2 lines

/-- The input or the error that an action gives; a probe gives none. -/
def Action.reading? : Action → Option Reading
  | probe _ => none
  | submit text => some (.ok text)
  | fail error => some (.error error)

/-- The inputs that are submitted while lines are gathered, and the errors between them. -/
def inputs (lines : List Reading) : List Reading := (actions [] lines).filterMap Action.reading?

end ScriptLexer.Prompt
