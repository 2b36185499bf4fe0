import ScriptLexer.Scan

/-!
# Reports

A report collects diagnostics in the order in which they are made, over any number of scans, until it
is cleared. A history of steps shows the report after each of them.
-/

namespace ScriptLexer

structure Report where
  diagnostics : List Diagnostic
  deriving DecidableEq, Repr

inductive Report.Step
  /-- add a diagnostic -/
  | report (d : Diagnostic)
  /-- add a diagnostic without location -/
  | error (line : Nat) (message : Text)
  /-- forget all diagnostics -/
  | reset
  /-- scan a script and add what is wrong with it -/
  | scan (source : Text)
  deriving DecidableEq, Repr

namespace Report

def empty : Report := ⟨[]⟩

def add (r : Report) (d : Diagnostic) : Report := ⟨r.diagnostics ++ [d]⟩

def addError (r : Report) (line : Nat) (message : Text) : Report := r.add ⟨line, [], message⟩

/-- Adds the faults of a scan, one after the other. -/
def addScan (r : Report) (s : Scan) : Report :=
  s.faults.foldl (fun r f => r.addError f.line f.cause.message) r

def hasErrors (r : Report) : Bool := !r.diagnostics.isEmpty

/-- Does one step, and gives the scan if the step is one. -/
def apply (r : Report) : Step → Report × Option Scan
  | .report d => (r.add d, none)
  | .error line message => (r.addError line message, none)
  | .reset => (empty, none)
  | .scan source => (r.addScan (ScriptLexer.scan source), some (ScriptLexer.scan source))

/-- What each of the steps gives, done one after the other. -/
def history (r : Report) : List Step → List (Report × Option Scan)
  | [] => []
  | s :: steps => r.apply s :: history (r.apply s).1 steps

/-- Adding a scan appends its diagnostics. -/
theorem diagnostics_addScan (r : Report) (s : Scan) :
    (r.addScan s).diagnostics = r.diagnostics ++ s.diagnostics := by
  unfold addScan Scan.diagnostics
  generalize s.faults = faults
  induction faults generalizing r with
  | nil => simp
  | cons f faults ih =>
    rw [List.foldl_cons, ih]
    simp [addError, add, Fault.diagnostic]

end Report

end ScriptLexer
