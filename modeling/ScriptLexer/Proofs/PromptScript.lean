import ScriptLexer.Proofs.Composition
import ScriptLexer.Proofs.PromptLines

/-!
# Prompt and script

A script of the same lines is scanned like the inputs of a prompt in turn, as long as none but the last
input leaves a string open: each cut between two inputs falls behind a line feed that ends a piece.
-/

namespace ScriptLexer

/-! ### Lines of a text -/

lemma lineFeeds_joined {run : List Text} (hne : run ≠ []) (hrun : ∀ line ∈ run, '\n' ∉ line) :
    (joined run ++ ['\n']).lineFeeds = run.length := by
  induction run with
  | nil => exact absurd rfl hne
  | cons line run ih =>
    have hline : line.lineFeeds = 0 := List.count_eq_zero.mpr (hrun line List.mem_cons_self)
    have hfeed : Text.lineFeeds ['\n'] = 1 := rfl
    by_cases hempty : run = []
    · rw [hempty, joined_singleton, Text.lineFeeds_append, hline, hfeed]
      rfl
    · have htail := ih hempty fun l hl => hrun l (List.mem_cons_of_mem line hl)
      rw [joined_cons line hempty, List.append_assoc, List.cons_append, Text.lineFeeds_append, hline,
        ← List.singleton_append, Text.lineFeeds_append, hfeed, htail, List.length_cons]
      omega

/-- Empty lines add line feeds only. -/
lemma joined_cons_of_empty {lines : List Text} (h : ∀ line ∈ lines, line = []) (line : Text) :
    ∃ t, joined (line :: lines) = line ++ t ∧ quote ∉ t := by
  induction lines generalizing line with
  | nil => exact ⟨[], by rw [joined_singleton, List.append_nil], List.not_mem_nil⟩
  | cons first lines ih =>
    have hfirst : first = [] := h first List.mem_cons_self
    obtain ⟨t, ht, hquote⟩ := ih (fun l hl => h l (List.mem_cons_of_mem first hl)) first
    refine ⟨'\n' :: t, ?_, ?_⟩
    · rw [joined_cons line (List.cons_ne_nil _ _), ht, hfirst, List.nil_append]
    · rw [List.mem_cons]
      exact not_or.mpr ⟨by decide, hquote⟩

lemma findings_joined_cons {line : Text} (hline : Closed line) (p : Position) (lines : List Text) :
    (scanFrom p (joined (line :: lines))).findings =
      (scanFrom p line).findings ++ (scanFrom (p.advance (line ++ ['\n'])) (joined lines)).findings := by
  by_cases hne : lines = []
  · rw [hne, joined_singleton, joined_nil, findings_scanFrom_nil, List.append_nil]
  · rw [joined_cons line hne, findings_append_lineFeed p hline]

lemma line_advance {p : Position} {k : Nat} (hp : p.line = 1 + k) (t : Text) :
    (p.advance t).line = 1 + (k + t.lineFeeds) := by
  rw [Position.advance, hp, Nat.add_assoc]

/-! ### What is selected from the findings -/

section Select

/- Tokens without their offsets and diagnostics are selected from findings in the same way: what is selected
depends on the place of a finding by its line only. -/
variable {α : Type} {select : Finding → Option α} {raise : Nat → α → α}
  (hraise : ∀ lines bytes f, select (f.shift lines bytes) = (select f).map (raise lines))

include hraise

lemma filterMap_findings_scanFrom {p : Position} {k : Nat} (hp : p.line = 1 + k) (source : Text) :
    (scanFrom p source).findings.filterMap select =
      ((scan source).findings.filterMap select).map (raise k) := by
  have hshift : p = Position.start.shift k p.offset := by
    rw [Position.shift, Position.start, Nat.zero_add, ← hp]
  rw [hshift, findings_scanFrom, findingsFrom_shift, filterMap_map_shift (hraise k p.offset)]
  rfl

/-- A text of joined lines is scanned like the inputs that lie in the lines. -/
theorem filterMap_findings_joined {k : Nat} {lines : List Text} {is : List Prompt.Input}
    (h : Prompt.LiesIn k lines is) (hlines : ∀ line ∈ lines, '\n' ∉ line)
    (hclosed : ∀ i ∈ is.dropLast, Closed i.text) {p : Position} (hp : p.line = 1 + k) :
    (scanFrom p (joined lines)).findings.filterMap select =
      is.flatMap fun i => ((scan i.text).findings.filterMap select).map (raise i.before) := by
  induction h generalizing p with
  | done => rw [joined_nil, findings_scanFrom_nil]; rfl
  | @empty k lines is tail ih =>
    have hnil : Closed [] := by
      intro body
      rw [pieces_nil]
      exact List.not_mem_nil
    have hline : (p.advance ['\n']).line = 1 + (k + 1) := line_advance hp ['\n']
    rw [findings_joined_cons hnil, findings_scanFrom_nil, List.nil_append]
    exact ih (fun l hl => hlines l (List.mem_cons_of_mem [] hl)) hclosed hline
  | @input k run lines is hne hrun tail ih =>
    have hline := line_advance hp (joined run ++ ['\n'])
    rw [lineFeeds_joined hne fun l hl => hlines l (List.mem_append_left lines hl)] at hline
    rw [joined_append hne, List.flatMap_cons]
    by_cases hrunclosed : Closed (joined run)
    · have hrest : ∀ i ∈ is.dropLast, Closed i.text := by
        intro i hi
        cases is with
        | nil => exact absurd hi List.not_mem_nil
        | cons j is => exact hclosed i (List.mem_cons_of_mem _ hi)
      rw [findings_joined_cons hrunclosed, List.filterMap_append, filterMap_findings_scanFrom hraise hp]
      congr 1
      exact ih (fun l hl => hlines l (List.mem_append_right run hl)) hrest hline
    · -- an open string is in the last input, which only empty lines follow
      cases is with
      | cons j is => exact absurd (hclosed _ List.mem_cons_self) hrunclosed
      | nil =>
        obtain ⟨t, ht, hquote⟩ := joined_cons_of_empty tail.forall_eq_nil (joined run)
        rw [ht, findings_append_open p hrunclosed hquote, filterMap_findings_scanFrom hraise hp,
          List.flatMap_nil, List.append_nil]

end Select

/-- The tokens and the diagnostics of a script are those of the inputs that a prompt makes of its lines, each
input moved by the number of lines in front of it. -/
theorem scan_joined_of_inputs (lines : List Text) (hlines : ∀ line ∈ lines, '\n' ∉ line)
    (hclosed : ∀ text, .ok text ∈ (Prompt.inputs (lines.map .ok)).dropLast →
      ¬(scan text).ReportsUnterminated) :
    (∃ is, Prompt.LiesIn 0 lines is ∧ is.map (fun i => .ok i.text) = Prompt.inputs (lines.map .ok)) ∧
      ∀ is, Prompt.LiesIn 0 lines is →
        is.map (fun i => .ok i.text) = Prompt.inputs (lines.map .ok) →
          (scan (joined lines)).tokens.dropLast =
              is.flatMap (fun i => (scan i.text).tokens.dropLast.map (Token.raise i.before)) ∧
            (scan (joined lines)).diagnostics =
              is.flatMap fun i => (scan i.text).diagnostics.map (Diagnostic.raise i.before) := by
  refine ⟨Prompt.exists_liesIn 0 [] lines (by simp), ?_⟩
  intro is his htexts
  have hinputs : ∀ i ∈ is.dropLast, Closed i.text := by
    intro i hi
    have htext : .ok i.text ∈ (is.map fun i => (.ok i.text : Reading)).dropLast := by
      rw [← List.map_dropLast]
      exact List.mem_map_of_mem hi
    rw [htexts] at htext
    have hreport := hclosed i.text htext
    rwa [reportsUnterminated_iff, Classical.not_not] at hreport
  have hline : Position.start.line = 1 + 0 := rfl
  constructor
  · simp only [Scan.dropLast_tokens]
    exact filterMap_findings_joined Finding.token?_shift his hlines hinputs hline
  · simp only [Scan.diagnostics_eq]
    exact filterMap_findings_joined Finding.diagnostic?_shift his hlines hinputs hline

theorem scan_joined_of_forced_inputs :
    let lines : List Text := ["f(".toList, [], "'a".toList, "b' @".toList, [], "'c".toList, []]
    let is : List Prompt.Input := [⟨0, "f(".toList⟩, ⟨2, "'a\nb' @".toList⟩, ⟨5, "'c".toList⟩]
    (∀ line ∈ lines, '\n' ∉ line) ∧ Prompt.LiesIn 0 lines is ∧
      is.map (fun i => .ok i.text) = Prompt.inputs (lines.map .ok) ∧
      (∀ text, .ok text ∈ (Prompt.inputs (lines.map .ok)).dropLast → ¬(scan text).ReportsUnterminated) ∧
      (scan (joined lines)).tokens.dropLast =
        is.flatMap (fun i => (scan i.text).tokens.dropLast.map (Token.raise i.before)) ∧
      (scan (joined lines)).diagnostics =
        is.flatMap fun i => (scan i.text).diagnostics.map (Diagnostic.raise i.before) := by
  intro lines is
  have hlines : ∀ line ∈ lines, '\n' ∉ line := by decide
  have hforced : Prompt.isComplete ['f', '('] = false := by decide +kernel
  have hfirst : Prompt.isComplete ['\x27', 'a'] = false := by decide +kernel
  have hboth : Prompt.isComplete ['\x27', 'a', '\n', 'b', '\x27', ' ', '@'] = true := by decide +kernel
  have hopen : Prompt.isComplete ['\x27', 'c'] = false := by decide +kernel
  have hactions : Prompt.actions [] (lines.map .ok) =
      [.probe "f(".toList, .submit "f(".toList, .probe "'a".toList, .probe "'a\nb' @".toList,
        .submit "'a\nb' @".toList, .probe "'c".toList, .submit "'c".toList] := by
    simp [lines, Prompt.actions, Prompt.feed, Prompt.gather, Prompt.close, hforced, hfirst, hboth, hopen]
  have hinputs : Prompt.inputs (lines.map .ok) =
      [.ok "f(".toList, .ok "'a\nb' @".toList, .ok "'c".toList] := by
    rw [Prompt.inputs, hactions]
    rfl
  have hlies : Prompt.LiesIn 0 lines is :=
    @Prompt.LiesIn.input 0 ["f(".toList] _ _ (by decide) (by decide) <| .empty <|
      @Prompt.LiesIn.input 2 ["'a".toList, "b' @".toList] _ _ (by decide) (by decide) <| .empty <|
        @Prompt.LiesIn.input 5 ["'c".toList] _ _ (by decide) (by decide) <| .empty .done
  have hclosed : ∀ text, .ok text ∈ (Prompt.inputs (lines.map .ok)).dropLast →
      ¬(scan text).ReportsUnterminated := by
    intro text htext
    rw [hinputs] at htext
    simp only [List.dropLast, List.mem_cons, Except.ok.injEq, List.not_mem_nil, or_false] at htext
    rcases htext with rfl | rfl <;> decide +kernel
  have htexts : is.map (fun i => .ok i.text) = Prompt.inputs (lines.map .ok) := hinputs.symm
  exact ⟨hlines, hlies, htexts, hclosed, (scan_joined_of_inputs lines hlines hclosed).2 is hlies htexts⟩

end ScriptLexer
