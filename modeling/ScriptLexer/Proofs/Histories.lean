import Mathlib.Data.List.DropRight
import Mathlib.Data.List.Forall2
import ScriptLexer.Proofs.Passes

/-!
# Histories of a report

One report can be kept over any number of scans, with other steps between them. A pass only adds to the report that
it is given, and what it finds does not depend on it. So behind each step the report holds what the steps since the
last reset have contributed, each for itself, and a scan gives the tokens that it gives with a report of its own. This
is so with counters that wrap, and with others unless a script has too many faults for them.
-/

namespace ScriptLexer

namespace Report

/-- What a step leaves: the report, and the tokens if a script was scanned. -/
structure Stage where
  report : Report
  tokens : Option (List Token)
  deriving DecidableEq, Repr

/-- Does one step. A script is read by a pass that adds to the report. -/
def perform (o : Overflow) (threshold : Option Log.Level) (r : Report) : Step → Checked Stage
  | .report d => pure ⟨r.add d, none⟩
  | .error line message => pure ⟨r.addError line message, none⟩
  | .reset => pure ⟨empty, none⟩
  | .scan source => do
    let p ← Pass.run o threshold r source
    pure ⟨p.report, some p.tokens⟩

/-- What each of the steps leaves, done one after the other. -/
def stages (o : Overflow) (threshold : Option Log.Level) (r : Report) : List Step → Checked (List Stage)
  | [] => pure []
  | s :: steps => do
    let stage ← r.perform o threshold s
    let later ← stage.report.stages o threshold steps
    pure (stage :: later)

/-- Whether a step contributes the diagnostics. A scan contributes those that it gives with a fresh report. -/
inductive Step.Contributes (threshold : Option Log.Level) : Step → List Diagnostic → Prop
  | report {d : Diagnostic} : Contributes threshold (.report d) [d]
  | error {line : Nat} {message : Text} : Contributes threshold (.error line message) [⟨line, [], message⟩]
  | scan {source : Text} {p : Pass} (h : Pass.run .wraps threshold empty source = pure p) :
      Contributes threshold (.scan source) p.report.diagnostics

/-- The steps since the last reset, or all steps if there is none. -/
def sinceReset (steps : List Step) : List Step := steps.rtakeWhile (· ≠ .reset)

/-- Whether a report holds, one behind the other, what the steps since the last reset contribute. -/
def HoldsSinceReset (threshold : Option Log.Level) (steps : List Step) (r : Report) : Prop :=
  ∃ parts, List.Forall₂ (Step.Contributes threshold) (sinceReset steps) parts ∧ r.diagnostics = parts.flatten

/-- Whether the tokens of a step that scans a script are those of the script alone. -/
def ScansAlone (threshold : Option Log.Level) (s : Step) (stage : Stage) : Prop :=
  ∀ source, s = .scan source → ∃ p, Pass.run .wraps threshold empty source = pure p ∧ stage.tokens = some p.tokens

end Report

/-- A pass gives the same with any report, to which it adds what it adds to a fresh one. -/
theorem Pass.exists_run_empty (threshold : Option Log.Level) (r : Report) (source : Text) :
    ∃ p q, run .wraps threshold Report.empty source = pure p ∧ run .wraps threshold r source = pure q ∧
      q.tokens = p.tokens ∧ q.errors = p.errors ∧ q.events = p.events ∧
      q.report.diagnostics = r.diagnostics ++ p.report.diagnostics := by
  obtain ⟨c, hfresh⟩ := run_eq threshold Report.empty source (Overflow.reaches_wraps _)
  obtain ⟨d, hrun⟩ := run_eq threshold r source (Overflow.reaches_wraps _)
  refine ⟨_, _, hfresh, hrun, rfl, rfl, rfl, ?_⟩
  rw [Report.diagnostics_addScan, Report.diagnostics_addScan]
  rfl

namespace Report

variable {o : Overflow} {threshold : Option Log.Level} {r : Report} {done : List Step}

/-! ### One step -/

lemma sinceReset_concat {s : Step} (hs : s ≠ .reset) : sinceReset (done ++ [s]) = sinceReset done ++ [s] :=
  List.rtakeWhile_concat_pos _ _ _ (decide_eq_true hs)

lemma sinceReset_concat_reset (done : List Step) : sinceReset (done ++ [.reset]) = [] :=
  List.rtakeWhile_concat_neg _ _ _ (by simp)

lemma holdsSinceReset_nil : empty.HoldsSinceReset threshold [] := ⟨[], .nil, rfl⟩

/-- A step that is not a reset adds what it contributes. -/
lemma HoldsSinceReset.concat (h : r.HoldsSinceReset threshold done) {s : Step} {ds : List Diagnostic} {r' : Report}
    (hs : s.Contributes threshold ds) (hr : r'.diagnostics = r.diagnostics ++ ds) :
    r'.HoldsSinceReset threshold (done ++ [s]) := by
  obtain ⟨parts, hparts, hdiagnostics⟩ := h
  have hreset : s ≠ .reset := by
    rintro rfl
    cases hs
  refine ⟨parts ++ [ds], ?_, ?_⟩
  · rw [sinceReset_concat hreset]
    exact List.rel_append hparts (.cons hs .nil)
  · rw [hr, hdiagnostics, List.flatten_append, List.flatten_singleton]

/-- A step goes on from what is held to what is held behind it, and its tokens do not depend on what was held. -/
theorem perform_of_holdsSinceReset (h : r.HoldsSinceReset threshold done) (s : Step) : ∃ stage,
    r.perform .wraps threshold s = pure stage ∧ stage.report.HoldsSinceReset threshold (done ++ [s]) ∧
      ScansAlone threshold s stage := by
  cases s with
  | report d => exact ⟨_, rfl, h.concat .report rfl, nofun⟩
  | error line message => exact ⟨_, rfl, h.concat .error rfl, nofun⟩
  | reset =>
    refine ⟨_, rfl, ⟨[], ?_, rfl⟩, nofun⟩
    rw [sinceReset_concat_reset]
    exact .nil
  | scan source =>
    obtain ⟨p, q, hfresh, hrun, htokens, -, -, hdiagnostics⟩ := Pass.exists_run_empty threshold r source
    refine ⟨⟨q.report, some q.tokens⟩, ?_, h.concat (.scan hfresh) hdiagnostics, ?_⟩
    · rw [perform, hrun, pure_bind]
    · rintro _ ⟨⟩
      exact ⟨p, hfresh, congrArg some htokens⟩

lemma perform_eq (threshold : Option Log.Level) (r : Report) (s : Step)
    (hreach : ∀ source, s = .scan source → o.Reaches (scan source).diagnostics.length) :
    r.perform o threshold s = pure ⟨(r.apply s).1, (r.apply s).2.map Scan.tokens⟩ := by
  cases s with
  | scan source =>
    obtain ⟨c, hrun⟩ := Pass.run_eq threshold r source (hreach source rfl)
    rw [perform, hrun, pure_bind]
    rfl
  | _ => rfl

/-! ### All steps -/

lemma stages_cons {s : Step} {stage : Stage} {steps : List Step} {later : List Stage}
    (hstage : r.perform o threshold s = pure stage) (hlater : stage.report.stages o threshold steps = pure later) :
    r.stages o threshold (s :: steps) = pure (stage :: later) := by
  rw [stages, hstage, pure_bind, hlater, pure_bind]

/-- Passes leave what scans leave, if their faults can be counted. -/
theorem stages_eq_history (threshold : Option Log.Level) (r : Report) (steps : List Step)
    (hreach : ∀ source, .scan source ∈ steps → o.Reaches (scan source).diagnostics.length) :
    r.stages o threshold steps = pure ((r.history steps).map fun (r', s) => ⟨r', s.map Scan.tokens⟩) := by
  induction steps generalizing r with
  | nil => rfl
  | cons s steps ih =>
    have hfirst : ∀ source, s = .scan source → o.Reaches (scan source).diagnostics.length :=
      fun source hs => hreach source (List.mem_cons.mpr (.inl hs.symm))
    have hlater : ∀ source, .scan source ∈ steps → o.Reaches (scan source).diagnostics.length :=
      fun source hs => hreach source (List.mem_cons_of_mem s hs)
    exact stages_cons (perform_eq threshold r s hfirst) (ih _ hlater)

/-- Whatever steps have been done, behind each of the next ones the report holds what it should. -/
theorem stages_of_holdsSinceReset (h : r.HoldsSinceReset threshold done) (steps : List Step) : ∃ stages,
    r.stages .wraps threshold steps = pure stages ∧ stages.length = steps.length ∧
      ∀ before s after, steps = before ++ s :: after → ∃ stage, stages[before.length]? = some stage ∧
        stage.report.HoldsSinceReset threshold (done ++ before ++ [s]) ∧ ScansAlone threshold s stage := by
  induction steps generalizing r done with
  | nil =>
    refine ⟨[], rfl, rfl, ?_⟩
    intro before s after hsteps
    exact absurd hsteps.symm (List.append_ne_nil_of_right_ne_nil before (List.cons_ne_nil s after))
  | cons s steps ih =>
    obtain ⟨stage, hstage, hholds, htokens⟩ := perform_of_holdsSinceReset h s
    obtain ⟨later, hlater, hlength, hall⟩ := ih hholds
    refine ⟨stage :: later, stages_cons hstage hlater, congrArg (· + 1) hlength, ?_⟩
    intro before t after hsteps
    cases before with
    | nil =>
      obtain ⟨rfl, -⟩ := List.cons.inj hsteps
      refine ⟨stage, rfl, ?_, htokens⟩
      rwa [List.append_nil]
    | cons u before =>
      obtain ⟨rfl, hrest⟩ := List.cons.inj hsteps
      obtain ⟨last, hlast, hlastholds, hlasttokens⟩ := hall before t after hrest
      refine ⟨last, hlast, ?_, hlasttokens⟩
      rwa [List.append_assoc done, List.singleton_append] at hlastholds

/-- Behind each step of a history, the report holds the contributions of the steps since the last reset, in their
order, and there are errors exactly if there are such contributions. A scan gives the tokens that it gives with a
fresh report, whatever came before. Counters that do not wrap leave the same if none of them overflows. -/
theorem stages_since_reset (threshold : Option Log.Level) (steps : List Step) : ∃ stages,
    empty.stages .wraps threshold steps = pure stages ∧ stages.length = steps.length ∧
    stages = ((empty.history steps).map fun (r, s) => ⟨r, s.map Scan.tokens⟩) ∧
    ((∀ source, .scan source ∈ steps → (scan source).diagnostics.length < 2 ^ 31) →
      empty.stages .fails threshold steps = pure stages) ∧
    ∀ before s after, steps = before ++ s :: after → ∃ stage parts, stages[before.length]? = some stage ∧
      List.Forall₂ (Step.Contributes threshold) (sinceReset (before ++ [s])) parts ∧
      stage.report.diagnostics = parts.flatten ∧ (stage.report.hasErrors ↔ parts.flatten ≠ []) ∧
      ∀ source, s = .scan source →
        ∃ p, Pass.run .wraps threshold empty source = pure p ∧ stage.tokens = some p.tokens := by
  obtain ⟨stages, hstages, hlength, hall⟩ := stages_of_holdsSinceReset holdsSinceReset_nil steps
  have hhistory : stages = ((empty.history steps).map fun (r, s) => ⟨r, s.map Scan.tokens⟩) := by
    have heq := stages_eq_history threshold empty steps fun source _ => Overflow.reaches_wraps _
    exact Except.ok.inj (hstages.symm.trans heq)
  refine ⟨stages, hstages, hlength, hhistory, ?_, ?_⟩
  · intro hreach
    rw [hhistory]
    exact stages_eq_history threshold empty steps fun source hs _ => hreach source hs
  · intro before s after hsteps
    obtain ⟨stage, hstage, ⟨parts, hparts, hdiagnostics⟩, htokens⟩ := hall before s after hsteps
    refine ⟨stage, parts, hstage, hparts, hdiagnostics, ?_, htokens⟩
    rw [← hdiagnostics, hasErrors, Bool.not_eq_true', List.isEmpty_eq_false_iff]

end Report

end ScriptLexer
