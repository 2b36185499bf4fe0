import ScriptLexer.Console

/-!
# The command line

With a path as its argument the program scans that file; without one it reads inputs from the standard
input and answers each of them before it reads on. An environment variable sets the threshold of the log.
-/

namespace ScriptLexer

def write (stream : IO.FS.Stream) (text : Text) : IO Unit := do
  stream.putStr (String.ofList text)
  stream.flush

def writeChain (stream : IO.FS.Stream) : List Text → IO Unit
  | [] => pure ()
  | message :: causes => do
    write stream (Text.line ("Error: ".toList ++ message))
    for cause in causes do
      write stream (Text.line ("Caused by: ".toList ++ cause))

/-- Reads the bytes of a line up to its feed, or up to the end of the input. -/
partial def readLineBytes (stream : IO.FS.Stream) (read : Array UInt8) : IO (List UInt8) := do
  let bytes ← stream.read 1
  match bytes.data.toList with
  | [] => pure read.toList
  | b :: _ => if b = 10 then pure (read.push b).toList else readLineBytes stream (read.push b)

/-- Performs actions at the prompt, up to the first that fails. The result is the report behind them, and how
the session ends if one fails. -/
def performActions (threshold : Option Log.Level) (stdout stderr : IO.FS.Stream) (report : Report) :
    List Prompt.Action → IO (Report × Option Ending)
  | [] => pure (report, none)
  | a :: actions => do
    let (c, ending) := Console.perform threshold ⟨[], [], report⟩ [a]
    write stdout c.stdout
    write stderr c.stderr
    match ending with
    | .failure chain => pure (c.report, some (.failure chain))
    | _ => performActions threshold stdout stderr c.report actions

/-- Answers lines of input until they end. -/
partial def answerLines (threshold : Option Log.Level) (stdin stdout stderr : IO.FS.Stream) (report : Report)
    (pending : Text) : IO Ending := do
  let bytes ← readLineBytes stdin #[]
  match Reading.linesOfBytes bytes with
  | [] =>
    let (_, ended) ← performActions threshold stdout stderr report (Prompt.close pending)
    pure (ended.getD .success)
  | line :: _ =>
    let (actions, pending) := Prompt.feed pending line
    match ← performActions threshold stdout stderr report actions with
    | (_, some ended) => pure ended
    | (report, none) => answerLines threshold stdin stdout stderr report pending

def readScript (path : String) : IO Reading := do
  try
    let bytes ← IO.FS.readBinFile path
    pure (Reading.ofBytes bytes.data.toList)
  catch
    | .noFileOrDirectory .. => pure (.error .notFound)
    | e => throw e

def exitAs (ending : Ending) : IO UInt32 := do
  match ending with
  | .failure chain => writeChain (← IO.getStderr) chain
  | _ => pure ()
  pure ending.exitCode.toUInt32

end ScriptLexer

open ScriptLexer in
/-- Scans the file that the argument names, or runs the prompt if there is none. -/
def main (args : List String) : IO UInt32 := do
  let stdout ← IO.getStdout
  let stderr ← IO.getStderr
  let setting := (← IO.getEnv "RUST_LOG").getD "off"
  let threshold := (Log.threshold? setting.toList).getD none
  match args with
  | path :: _ =>
    let outcome := Console.script threshold path.toList (← readScript path)
    write stdout outcome.stdout
    write stderr outcome.stderr
    exitAs outcome.ending
  | [] =>
    write stdout Session.promptSign
    exitAs (← answerLines threshold (← IO.getStdin) stdout stderr Report.empty [])
