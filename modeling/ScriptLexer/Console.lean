import ScriptLexer.Report
import ScriptLexer.Session

/-!
# The console

A console runs a session step by step. It keeps what has been written so far and one report for all that is
scanned: whatever is in the report is written behind the tokens of a scan, and the prompt clears the report behind
each input. Testing whether an input is complete has a report of its own, of which only the log can be seen.
-/

namespace ScriptLexer

/-- The lines of a report, one for each diagnostic. -/
def Report.lines (r : Report) : Text := r.diagnostics.flatMap fun d => Text.line d.render

/-- What a session has written, and the report that it keeps. -/
structure Console where
  stdout : Text
  stderr : Text
  report : Report
  deriving DecidableEq, Repr

namespace Console

/-- Nothing is written and nothing reported. -/
def blank : Console := ⟨[], [], Report.empty⟩

/-- Asks for an input. -/
def ask (c : Console) : Console := { c with stdout := c.stdout ++ Session.promptSign }

def log (threshold : Option Log.Level) (events : List Log.Event) (c : Console) : Console :=
  { c with stderr := c.stderr ++ Log.printed threshold events }

/-- Scans a text. Its tokens are written, and then all that the report holds. -/
def run (threshold : Option Log.Level) (source : Text) (c : Console) : Console :=
  let s := scan source
  let logged := c.log threshold s.events
  let report := c.report.addScan s
  ⟨logged.stdout ++ s.tokenLines, logged.stderr ++ report.lines, report⟩

/-- Forgets what is reported. -/
def clear (c : Console) : Console := { c with report := Report.empty }

/-- Does what the prompt does for an action. -/
def act (threshold : Option Log.Level) (c : Console) : Prompt.Action → Console
  | .probe text => c.log threshold (scan text).events
  | .submit text => (c.run threshold text).clear.ask
  | .fail _ => c

/-- Does one action after the other, up to the first that fails. -/
def perform (threshold : Option Log.Level) (c : Console) : List Prompt.Action → Console × Ending
  | [] => (c, .success)
  | .fail e :: _ => (c, .failure [e.message])
  | a :: actions => perform threshold (c.act threshold a) actions

/-- The outcome of a session that ends now. -/
def ended (c : Console) (ending : Ending) : Outcome := ⟨c.stdout, c.stderr, ending⟩

/-- Runs a script that was read from a file of the given path. -/
def script (threshold : Option Log.Level) (path : Text) : Reading → Outcome
  | .error e =>
    blank.ended (.failure ["unable to read ".toList ++ path ++ ": ".toList ++ e.message, e.message])
  | .ok source =>
    let c := (blank.log threshold [.reading path source.utf8Length]).run threshold source
    c.ended (if c.report.hasErrors then .faulty else .success)

/-- Runs the inputs that the prompt makes of lines. -/
def prompt (threshold : Option Log.Level) (lines : List Reading) : Outcome :=
  let (c, ending) := blank.ask.perform threshold (Prompt.actions [] lines)
  c.ended ending

end Console

end ScriptLexer
