import ScriptLexer.Scan
import ScriptLexer.Terminal

/-!
# The log

A scan can be followed in a log of events: one for each token and each diagnostic, in the order in which
their pieces stand in the script, and one at the end with the counts. Each event has a level, and a
threshold admits the events that are at least as severe. This file also gives the log its printed form.
-/

namespace ScriptLexer.Log

inductive Level
  | error | warn | info | debug | trace
  deriving DecidableEq, Repr

inductive Event
  /-- a script file was read -/
  | reading (path : Text) (bytes : Nat)
  /-- a token was read -/
  | token (t : Token)
  /-- a diagnostic was made -/
  | diagnostic (d : Diagnostic)
  /-- the end was reached, with the number of tokens, the counter of the diagnostics and the last line -/
  | finished (tokens : Nat) (errors : Int32) (lines : Nat)
  deriving DecidableEq, Repr

/-- The value of a field of an event. -/
inductive Value
  | number (n : Nat)
  /-- the printed form of something -/
  | shown (text : Text)
  /-- a text of its own, printed between quotation marks -/
  | quoted (text : Text)
  deriving DecidableEq, Repr

namespace Level

/-- Levels count up from the most severe one. -/
def rank : Level → Nat
  | error => 0
  | warn => 1
  | info => 2
  | debug => 3
  | trace => 4

def name : Level → Text
  | error => "ERROR".toList
  | warn => "WARN".toList
  | info => "INFO".toList
  | debug => "DEBUG".toList
  | trace => "TRACE".toList

/-- The name of a level at the right end of five columns. -/
def render (l : Level) : Text := List.replicate (5 - l.name.length) ' ' ++ l.name

def all : List Level := [error, warn, info, debug, trace]

end Level

/-- Whether a threshold, or none for no logging at all, admits a level. -/
def admits (threshold : Option Level) (level : Level) : Bool :=
  match threshold with
  | none => false
  | some t => level.rank ≤ t.rank

/-- The threshold of a given name: a level in lower case, or `off` for no logging. -/
def threshold? (name : Text) : Option (Option Level) :=
  if name = "off".toList then some none
  else (Level.all.find? fun l => l.name.map Char.toLower == name).map some

namespace Value

/-- The value of a counter, which is shown with its sign if it is negative. -/
def counter (n : Int32) : Value :=
  if n < 0 then .shown (Text.signedNumeral n.toInt) else .number n.toNatClampNeg

def text : Value → Text
  | number n => Text.numeral n
  | shown t => t
  | quoted t => t

def render : Value → Text
  | quoted t => '"' :: t ++ ['"']
  | value => value.text

end Value

/-- The printed form of a field: its name and its value, or, of a message, its text alone with the
controls of a terminal made visible. -/
def renderField (name : Text) (value : Value) : Text :=
  if name = "message".toList then Terminal.visible value.text else name ++ '=' :: value.render

namespace Event

def level : Event → Level
  | reading _ _ => .info
  | token _ => .trace
  | diagnostic _ => .debug
  | finished _ _ _ => .debug

def target : Event → Text
  | reading _ _ => "zoof".toList
  | token _ => "zoof::scanner".toList
  | diagnostic _ => "zoof::reporter".toList
  | finished _ _ _ => "zoof::scanner".toList

def message : Event → Text
  | reading _ _ => "scanning file".toList
  | token _ => "token".toList
  | diagnostic _ => "lexical error reported".toList
  | finished _ _ _ => "scan finished".toList

def details : Event → List (Text × Value)
  | reading path bytes => [("path".toList, .shown path), ("bytes".toList, .number bytes)]
  | token t => [("token".toList, .shown t.render)]
  | diagnostic d =>
    [("line".toList, .number d.line), ("location".toList, .quoted d.location),
      ("message".toList, .quoted d.message)]
  | finished tokens errors lines =>
    [("tokens".toList, .number tokens), ("errors".toList, .counter errors),
      ("lines".toList, .number lines)]

/-- The fields of an event: its message, then its named values. -/
def fields (e : Event) : List (Text × Value) := ("message".toList, .shown e.message) :: e.details

def render (e : Event) : Text :=
  e.level.render ++ " ".toList ++ e.target ++ ": ".toList ++
    List.intercalate [' '] (e.fields.map fun (name, value) => renderField name value)

end Event

/-- The printed log: a line for each event that a threshold admits. -/
def printed (threshold : Option Level) (events : List Event) : Text :=
  (events.filter fun e => admits threshold e.level).flatMap fun e => Text.line e.render

end ScriptLexer.Log

namespace ScriptLexer

open Log (Event)

def Placed.event? (x : Placed) : Option Event :=
  match x.piece.meaning with
  | .nothing => none
  | .lexeme kind literal => some (.token ⟨kind, x.piece.text, literal, x.position.line⟩)
  | .fault cause => some (.diagnostic (Fault.diagnostic ⟨cause, x.position.line⟩))

/-- The events of a scan, with a counter that wraps. -/
def Scan.events (s : Scan) : List Event :=
  s.placed.filterMap Placed.event? ++
    [.finished s.tokens.length (Int32.ofNat s.diagnostics.length) s.finish.line]

end ScriptLexer
