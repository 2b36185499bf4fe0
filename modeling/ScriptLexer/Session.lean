import ScriptLexer.Log
import ScriptLexer.Prompt

/-!
# Sessions

A session runs one script file, or the inputs of a prompt one after the other. Its outcome is what it
writes and how it ends. Tokens are written to the standard output; to the standard error go the log and,
behind it, the diagnostics of each script or input.
-/

namespace ScriptLexer

/-- How a session ends. -/
inductive Ending
  | success
  /-- a script with diagnostics -/
  | faulty
  /-- a session that could not read on, with the messages of the error from the outermost one on -/
  | failure (chain : List Text)
  deriving DecidableEq, Repr

/-- What a session writes and how it ends. -/
structure Outcome where
  stdout : Text
  stderr : Text
  ending : Ending
  deriving DecidableEq, Repr

def Ending.exitCode : Ending → Nat
  | success => 0
  | faulty => 65
  | failure _ => 1

/-- A session that first writes something more. -/
def Outcome.after (stdout stderr : Text) (o : Outcome) : Outcome :=
  ⟨stdout ++ o.stdout, stderr ++ o.stderr, o.ending⟩

def Scan.tokenLines (s : Scan) : Text := s.tokens.flatMap fun t => Text.line t.render

def Scan.diagnosticLines (s : Scan) : Text := s.diagnostics.flatMap fun d => Text.line d.render

namespace Session

/-- Runs a script that was read from a file of the given path. -/
def script (threshold : Option Log.Level) (path : Text) : Reading → Outcome
  | .error e =>
    ⟨[], [], .failure ["unable to read ".toList ++ path ++ ": ".toList ++ e.message, e.message]⟩
  | .ok source =>
    let s := scan source
    ⟨s.tokenLines,
      Log.printed threshold (.reading path source.utf8Length :: s.events) ++ s.diagnosticLines,
      if s.diagnostics.isEmpty then .success else .faulty⟩

/-- The text that asks for an input. -/
def promptSign : Text := "> ".toList

/-- What an action at the prompt writes to the standard output. -/
def actionStdout : Prompt.Action → Text
  | .probe _ => []
  | .submit text => (scan text).tokenLines ++ promptSign
  | .fail _ => []

/-- What an action at the prompt writes to the standard error. -/
def actionStderr (threshold : Option Log.Level) : Prompt.Action → Text
  | .probe text => Log.printed threshold (scan text).events
  | .submit text => Log.printed threshold (scan text).events ++ (scan text).diagnosticLines
  | .fail _ => []

/-- Runs the actions at the prompt up to the first line that could not be read. -/
def perform (threshold : Option Log.Level) : List Prompt.Action → Outcome
  | [] => ⟨[], [], .success⟩
  | .fail e :: _ => ⟨[], [], .failure [e.message]⟩
  | a :: actions => (perform threshold actions).after (actionStdout a) (actionStderr threshold a)

def prompt (threshold : Option Log.Level) (lines : List Reading) : Outcome :=
  (perform threshold (Prompt.actions [] lines)).after promptSign []

end Session

end ScriptLexer
