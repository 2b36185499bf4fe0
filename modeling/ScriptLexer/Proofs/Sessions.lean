import ScriptLexer.Console
import ScriptLexer.Proofs.Encoding
import ScriptLexer.Proofs.PrintedTokens
import ScriptLexer.Proofs.Probes

/-!
# Sessions at the console

The report of a console is empty whenever the prompt does its next action, for the prompt clears it behind each input.
So no diagnostic is written twice, and an input is answered as if it were a script of its own. A line that cannot be
read ends the session behind the inputs in front of it; there is one exactly if the bytes of all lines together
encode no text.
-/

namespace ScriptLexer

/-- The log of a scan. -/
def scanLog (threshold : Option Log.Level) (text : Text) : Text := Log.printed threshold (scan text).events

/-- The text that is gathered where a line cannot be read, which drops it. -/
def Prompt.dropped (lines : List Reading) : Text :=
  if lines.all (·.isOk) then [] else (feedAll [] (lines.takeWhile (·.isOk))).2

open Prompt (dropped gathering inputs parts submitted)

/-! ### The report of a console -/

namespace Console

variable (threshold : Option Log.Level)

lemma lines_addScan_empty (s : Scan) : (Report.empty.addScan s).lines = s.diagnosticLines := by
  rw [Report.lines, Report.diagnostics_addScan]
  rfl

/-- An action finds the report empty and leaves it so, and writes what it would write alone. -/
theorem act_of_empty {c : Console} (h : c.report = Report.empty) (a : Prompt.Action) :
    c.act threshold a =
      ⟨c.stdout ++ Session.actionStdout a, c.stderr ++ Session.actionStderr threshold a, Report.empty⟩ := by
  cases a with
  | probe text =>
    rw [act, log, h, Session.actionStdout, List.append_nil]
    rfl
  | submit text =>
    rw [act, run, h, lines_addScan_empty]
    simp [log, clear, ask, Session.actionStdout, Session.actionStderr]
  | fail e =>
    rw [act, Session.actionStdout, Session.actionStderr, List.append_nil, List.append_nil, ← h]

/-- Actions one after the other write what they would write alone. -/
theorem ended_perform {c : Console} (h : c.report = Report.empty) (actions : List Prompt.Action) :
    (c.perform threshold actions).1.ended (c.perform threshold actions).2 =
      (Session.perform threshold actions).after c.stdout c.stderr := by
  induction actions generalizing c with
  | nil => simp [perform, ended, Session.perform, Outcome.after]
  | cons a actions ih =>
    cases a with
    | fail e => simp [perform, ended, Session.perform, Outcome.after]
    | _ =>
      rw [perform, act_of_empty threshold h, ih rfl]
      · simp [Session.perform, Outcome.after]
      · nofun

theorem prompt_eq (lines : List Reading) : prompt threshold lines = Session.prompt threshold lines :=
  ended_perform threshold (c := blank.ask) rfl _

theorem script_eq (path : Text) (reading : Reading) :
    script threshold path reading = Session.script threshold path reading := by
  cases reading with
  | error e => rfl
  | ok source =>
    have hreport : (Report.empty.addScan (scan source)).hasErrors = !(scan source).diagnostics.isEmpty := by
      rw [Report.hasErrors, Report.diagnostics_addScan]
      rfl
    have hlog (events : List Log.Event) (e : Log.Event) :
        Log.printed threshold (e :: events) = Log.printed threshold [e] ++ Log.printed threshold events := by
      rw [← List.singleton_append, Log.printed, List.filter_append, List.flatMap_append]
      rfl
    simp only [script, run, log, ended, blank, Session.script, lines_addScan_empty, hreport, hlog (scan source).events,
      List.nil_append]
    cases (scan source).diagnostics.isEmpty <;> rfl

end Console

/-! ### Sessions -/

namespace Session

variable (threshold : Option Log.Level)

/-- Actions that do not fail are done before those behind them. -/
theorem perform_append {first : List Prompt.Action} (h : ∀ e, .fail e ∉ first) (rest : List Prompt.Action) :
    perform threshold (first ++ rest) =
      (perform threshold rest).after (first.flatMap actionStdout) (first.flatMap (actionStderr threshold)) := by
  induction first with
  | nil => rfl
  | cons a first ih =>
    have htail := ih fun e he => h e (List.mem_cons_of_mem a he)
    cases a with
    | fail e => exact absurd List.mem_cons_self (h e)
    | _ => simp [perform, htail, Outcome.after]

lemma stdout_probes (texts : List Text) : (texts.map Prompt.Action.probe).flatMap actionStdout = [] := by
  simp [actionStdout]

lemma stderr_probes (texts : List Text) :
    (texts.map Prompt.Action.probe).flatMap (actionStderr threshold) = texts.flatMap (scanLog threshold) := by
  rw [List.flatMap_map]
  rfl

lemma stdout_gathering (text : Text) :
    (gathering text).flatMap actionStdout = (scan text).tokenLines ++ promptSign := by
  rw [gathering, List.flatMap_append, stdout_probes, List.nil_append, List.flatMap_singleton, actionStdout]

lemma stderr_gathering (text : Text) :
    (gathering text).flatMap (actionStderr threshold) =
      (parts text).flatMap (scanLog threshold) ++ scanLog threshold text ++ (scan text).diagnosticLines := by
  rw [gathering, List.flatMap_append, stderr_probes, List.flatMap_singleton, List.append_assoc]
  rfl

lemma submitted_append (texts : List Text) (items : List Reading) :
    submitted (texts.map .ok ++ items) = texts ++ submitted items := by
  induction texts with
  | nil => rfl
  | cons text texts ih => rw [List.map_cons, List.cons_append, submitted, ih, List.cons_append]

section Lines

variable {lines : List Text} (hlines : ∀ line ∈ lines, '\n' ∉ line)

include hlines

/-- A session that can read all of its lines answers all inputs. -/
theorem perform_readable : ∃ texts : List Text, inputs (lines.map .ok) = texts.map .ok ∧
    perform threshold (Prompt.actions [] (lines.map .ok)) =
      ⟨texts.flatMap fun text => (scan text).tokenLines ++ promptSign,
        texts.flatMap fun text =>
          (parts text).flatMap (scanLog threshold) ++ scanLog threshold text ++ (scan text).diagnosticLines,
        .success⟩ := by
  obtain ⟨texts, hinputs, hactions⟩ := Prompt.actions_readable hlines
  refine ⟨texts, hinputs, ?_⟩
  have hfail : ∀ e, .fail e ∉ texts.flatMap gathering := by simp [gathering]
  rw [hactions, ← List.append_nil (texts.flatMap gathering), perform_append threshold hfail, List.flatMap_assoc,
    List.flatMap_assoc]
  simp only [stdout_gathering, stderr_gathering]
  simp [perform, Outcome.after]

/-- A session that cannot read a line answers the inputs in front of it. -/
theorem perform_unreadable (e : ReadError) (back : List Reading) :
    ∃ (texts : List Text) (items : List Reading),
      inputs (lines.map .ok ++ .error e :: back) = texts.map .ok ++ .error e :: items ∧
      perform threshold (Prompt.actions [] (lines.map .ok ++ .error e :: back)) =
        ⟨texts.flatMap fun text => (scan text).tokenLines ++ promptSign,
          (texts.flatMap fun text =>
              (parts text).flatMap (scanLog threshold) ++ scanLog threshold text ++ (scan text).diagnosticLines) ++
            (parts (Prompt.feedAll [] (lines.map .ok)).2).flatMap (scanLog threshold),
          .failure [e.message]⟩ := by
  obtain ⟨texts, hitems, hactions⟩ := Prompt.actions_unreadable hlines e back
  refine ⟨texts, inputs back, ?_, ?_⟩
  · rw [inputs, Prompt.actions_append, List.filterMap_append, hitems]
    rfl
  · have hfail : ∀ e, .fail e ∉ texts.flatMap gathering ++
        (parts (Prompt.feedAll [] (lines.map .ok)).2).map .probe := by simp [gathering]
    rw [hactions, perform_append threshold hfail, List.flatMap_append, List.flatMap_append, List.flatMap_assoc,
      List.flatMap_assoc, stdout_probes, stderr_probes]
    simp only [stdout_gathering, stderr_gathering]
    simp [perform, Outcome.after]

end Lines

end Session

/-- Either all lines can be read, or there is a first one that cannot. -/
lemma Prompt.exists_readable (lines : List Reading) :
    (∃ texts : List Text, lines = texts.map .ok) ∨
      ∃ (texts : List Text) (e : ReadError) (back : List Reading), lines = texts.map .ok ++ .error e :: back := by
  induction lines with
  | nil => exact .inl ⟨[], rfl⟩
  | cons line lines ih =>
    cases line with
    | error e => exact .inr ⟨[], e, lines, rfl⟩
    | ok text =>
      rcases ih with ⟨texts, rfl⟩ | ⟨texts, e, back, rfl⟩
      · exact .inl ⟨text :: texts, rfl⟩
      · exact .inr ⟨text :: texts, e, back, rfl⟩

/-- What a session at the console does, line breaks aside. The inputs are those in front of the first line that
cannot be read; without such a line they are all inputs, and the session ends well. -/
theorem Console.prompt_eq_answers (threshold : Option Log.Level) {lines : List Reading}
    (hfeeds : ∀ text, .ok text ∈ lines → '\n' ∉ text) (herrors : ∀ e, .error e ∈ lines → e = .invalidUtf8) :
    (inputs lines = (submitted (inputs lines)).map .ok ↔ lines.all (·.isOk)) ∧
      Console.prompt threshold lines =
        ⟨Session.promptSign ++
            (submitted (inputs lines)).flatMap fun text => (scan text).tokenLines ++ Session.promptSign,
          ((submitted (inputs lines)).flatMap fun text =>
              (parts text).flatMap (scanLog threshold) ++ scanLog threshold text ++ (scan text).diagnosticLines) ++
            (parts (dropped lines)).flatMap (scanLog threshold),
          if lines.all (·.isOk) then .success else .failure [ReadError.invalidUtf8.message]⟩ := by
  rw [prompt_eq, Session.prompt]
  rcases Prompt.exists_readable lines with ⟨run, rfl⟩ | ⟨run, e, back, rfl⟩
  · obtain ⟨texts, hinputs, hperform⟩ :=
      Session.perform_readable threshold fun line hline => hfeeds line (List.mem_map_of_mem hline)
    have hall : (run.map Except.ok : List Reading).all (·.isOk) := by simp [Except.isOk, Except.toBool]
    have htexts : submitted (inputs (run.map .ok)) = texts := by
      rw [hinputs, ← List.append_nil (texts.map _), Session.submitted_append]
      exact List.append_nil texts
    refine ⟨iff_of_true (by rw [htexts, hinputs]) hall, ?_⟩
    rw [htexts, hperform, dropped, if_pos hall, if_pos hall, Prompt.parts_nil, List.flatMap_nil, List.append_nil]
    rfl
  · obtain ⟨texts, items, hinputs, hperform⟩ := Session.perform_unreadable threshold
      (fun line hline => hfeeds line (List.mem_append_left _ (List.mem_map_of_mem hline))) e back
    have hall : ¬(run.map Except.ok ++ .error e :: back : List Reading).all (·.isOk) := by
      simp [Except.isOk, Except.toBool]
    have hfront : (run.map Except.ok ++ .error e :: back : List Reading).takeWhile (·.isOk) = run.map .ok := by
      rw [List.takeWhile_append_of_pos (by simp [Except.isOk, Except.toBool])]
      exact List.append_nil _
    have htexts : submitted (inputs (run.map .ok ++ .error e :: back)) = texts := by
      rw [hinputs, Session.submitted_append]
      exact List.append_nil texts
    obtain rfl := herrors e (List.mem_append_right _ List.mem_cons_self)
    refine ⟨iff_of_false ?_ hall, ?_⟩
    · rw [htexts, hinputs]
      simp
    · rw [htexts, hperform, dropped, if_neg hall, if_neg hall, hfront]
      rfl

/-- The log changes neither the standard output nor the ending. A script is logged as it is read and scanned, and its
diagnostics come behind. At the prompt, each input is logged as often as it is scanned: for each of its parts from the
first line on, and once more as a whole in front of its diagnostics. Of a text that is dropped only the parts are
logged, and an empty line is no reason to test anything. -/
theorem outcome_of_threshold (threshold : Option Log.Level) (path : Text) :
    (∀ reading, (Console.script threshold path reading).stdout = (Console.script none path reading).stdout ∧
      (Console.script threshold path reading).ending = (Console.script none path reading).ending) ∧
    (∀ source, (Console.script threshold path (.ok source)).stderr =
      Log.printed threshold (.reading path source.utf8Length :: (scan source).events) ++
        (scan source).diagnosticLines) ∧
    (∀ bytes, let lines := Reading.linesOfBytes bytes
      (Console.prompt threshold lines).stdout = (Console.prompt none lines).stdout ∧
      (Console.prompt threshold lines).ending = (Console.prompt none lines).ending ∧
      (Console.prompt threshold lines).stderr =
        ((submitted (inputs lines)).flatMap fun text =>
            (parts text).flatMap (scanLog threshold) ++ scanLog threshold text ++ (scan text).diagnosticLines) ++
          (parts (dropped lines)).flatMap (scanLog threshold)) ∧
    ∀ pending text, .probe text ∉ (Prompt.feed pending (.ok [])).1 := by
  refine ⟨fun reading => ?_, fun source => ?_, fun bytes => ?_, fun pending text => ?_⟩
  · rw [Console.script_eq, Console.script_eq]
    cases reading <;> exact ⟨rfl, rfl⟩
  · rw [Console.script_eq]
    rfl
  · have hanswers (limit : Option Log.Level) := (Console.prompt_eq_answers limit
      (Reading.lineFeed_not_mem_of_mem bytes) (Reading.eq_invalidUtf8_of_mem bytes)).2
    intro lines
    rw [hanswers threshold, hanswers none]
    exact ⟨rfl, rfl, rfl⟩
  · by_cases hpending : pending = []
    · rw [hpending]
      exact List.not_mem_nil
    · rw [Prompt.feed_empty hpending]
      simp

/-! ### Bytes that encode no text -/

/-- The errors that the prompt gives are those at its lines. -/
lemma Prompt.error_mem_items_iff {e : ReadError} (pending : Text) (lines : List Reading) :
    .error e ∈ (actions pending lines).filterMap Action.reading? ↔ .error e ∈ lines := by
  induction lines generalizing pending with
  | nil =>
    rw [actions, close]
    split <;> simp [Action.reading?]
  | cons line lines ih =>
    have hline : .error e ∈ (feed pending line).1.filterMap Action.reading? ↔ .error e = line := by
      unfold feed
      split
      · simp [Action.reading?]
      · split
        · split <;> simp [Action.reading?]
        · dsimp only
          split <;> simp [Action.reading?]
    rw [actions, List.filterMap_append, List.mem_append, ih, hline, List.mem_cons]

lemma Console.exitCode_prompt_eq_one_iff (threshold : Option Log.Level) (bytes : List UInt8) :
    (prompt threshold (Reading.linesOfBytes bytes)).ending.exitCode = 1 ↔ ¬Encoded bytes := by
  rw [(prompt_eq_answers threshold (Reading.lineFeed_not_mem_of_mem bytes) (Reading.eq_invalidUtf8_of_mem bytes)).2]
  by_cases hbytes : Encoded bytes
  · have hending : Ending.success.exitCode ≠ 1 := by decide
    rw [if_pos (Reading.all_isOk_linesOfBytes_iff.mpr hbytes)]
    exact iff_of_false hending (not_not_intro hbytes)
  · rw [if_neg (Reading.all_isOk_linesOfBytes_iff.not.mpr hbytes)]
    exact iff_of_true rfl hbytes

lemma Console.exitCode_script_eq_one_iff (threshold : Option Log.Level) (path : Text) (bytes : List UInt8) :
    (script threshold path (Reading.ofBytes bytes)).ending.exitCode = 1 ↔ ¬Encoded bytes := by
  by_cases hbytes : Encoded bytes
  · have hending : ∀ b : Bool, (if b then Ending.success else Ending.faulty).exitCode ≠ 1 := by decide
    obtain ⟨text, rfl⟩ := hbytes
    rw [Reading.ofBytes_utf8, script_eq]
    exact iff_of_false (hending _) (not_not_intro ⟨text, rfl⟩)
  · rw [Reading.ofBytes_of_not_encoded hbytes]
    exact iff_of_true rfl hbytes

/-- The prompt gives the same for a text and for its bytes, and no error. For any bytes it gives an error exactly if
they do not encode a text, which is when a script with these bytes cannot be read, and then both end with the same exit
code and otherwise neither does. -/
theorem inputs_linesOfBytes :
    (∀ text : Text, inputs (Reading.linesOfBytes text.utf8) = inputs (Reading.linesOfText text) ∧
      ∀ e, .error e ∉ inputs (Reading.linesOfBytes text.utf8)) ∧
    ∀ bytes : List UInt8, (.error .invalidUtf8 ∈ inputs (Reading.linesOfBytes bytes) ↔ ¬Encoded bytes) ∧
      ∀ threshold path,
        ((Console.prompt threshold (Reading.linesOfBytes bytes)).ending.exitCode = 1 ↔
          (Console.script threshold path (Reading.ofBytes bytes)).ending.exitCode = 1) ∧
        ((Console.prompt threshold (Reading.linesOfBytes bytes)).ending.exitCode = 1 ↔ ¬Encoded bytes) ∧
        ((Console.script threshold path (Reading.ofBytes bytes)).ending.exitCode = 1 ↔ ¬Encoded bytes) := by
  have herror : ∀ (bytes : List UInt8) (e : ReadError), .error e ∈ inputs (Reading.linesOfBytes bytes) ↔
      ¬Encoded bytes ∧ e = .invalidUtf8 := by
    intro bytes e
    rw [inputs, Prompt.error_mem_items_iff, Reading.error_mem_linesOfBytes_iff]
  constructor
  · intro text
    refine ⟨by rw [Reading.linesOfBytes_utf8], fun e he => ?_⟩
    exact ((herror text.utf8 e).mp he).1 ⟨text, rfl⟩
  · intro bytes
    refine ⟨(herror bytes .invalidUtf8).trans (and_iff_left rfl), fun threshold path => ?_⟩
    have hprompt := Console.exitCode_prompt_eq_one_iff threshold bytes
    have hscript := Console.exitCode_script_eq_one_iff threshold path bytes
    exact ⟨hprompt.trans hscript.symm, hprompt, hscript⟩

end ScriptLexer
