import ScriptLexer.Proofs.PromptConservation

/-!
# Inputs of a prompt entered again

The lines of an input are cut again where they were cut before, whatever made the first cut. A complete input is cut
behind its last line, and an empty line behind it is skipped. An incomplete one, which was forced by an empty line or
by the end of the lines, is cut by the empty line or by the end of the lines that follows it now.
-/

namespace ScriptLexer.Prompt

/-- Whether a prompt may cut behind a run of lines and not before: no line is empty, and no shorter part of the run
from its first line on is complete. -/
structure FirstCut (run : List Text) : Prop where
  run_ne_nil : run ≠ []
  line_ne_nil : ∀ line ∈ run, line ≠ []
  incomplete : ∀ part, part <+: run → part ≠ [] → part ≠ run → ¬isComplete (joined part)

/-- The lines of texts with an empty line behind each of them. -/
def spaced (texts : List Text) : List Text := texts.flatMap fun text => text.splitOn '\n' ++ [[]]

/-- The lines of texts with an empty line between any two of them. -/
def separated (texts : List Text) : List Text := List.intercalate [[]] (texts.map (List.splitOn '\n'))

lemma CutFrom.firstCut {run : List Text} {after : List Reading} {text : Text}
    (h : CutFrom (isComplete ·) run after text) : FirstCut run where
  run_ne_nil := h.run_ne_nil
  line_ne_nil := h.line_ne_nil
  incomplete := h.parts

section Again

variable {run : List Text} (h : FirstCut run)

include h

/-- A run up to its first cut is unfinished, or its last line completes it. -/
theorem FirstCut.unfinished_or : Unfinished run ∨
    ∃ front line, run = front ++ [line] ∧ Unfinished front ∧ line ≠ [] ∧ isComplete (joined (front ++ [line])) := by
  obtain ⟨front, line, rfl⟩ : ∃ front line, run = front ++ [line] :=
    ⟨_, _, (List.dropLast_concat_getLast h.run_ne_nil).symm⟩
  have hline : line ≠ [] := h.line_ne_nil line (List.mem_append_right front List.mem_cons_self)
  have hfront : Unfinished front := by
    constructor
    · exact fun l hl => h.line_ne_nil l (List.mem_append_left [line] hl)
    · intro part hpart hne
      apply h.incomplete part (hpart.trans (List.prefix_append front [line])) hne
      rintro rfl
      have hlength := hpart.length_le
      rw [List.length_append, List.length_singleton] at hlength
      omega
  by_cases hcomplete : isComplete (joined (front ++ [line]))
  · exact .inr ⟨front, line, rfl, hfront, hline, hcomplete⟩
  · exact .inl (hfront.concat hline hcomplete)

/-- Alone, the lines up to a first cut give one input. -/
theorem inputs_firstCut : inputs (run.map .ok) = [.ok (joined run)] := by
  rcases h.unfinished_or with hrun | ⟨front, line, rfl, hfront, hline, hcomplete⟩
  · exact inputs_last h.run_ne_nil hrun
  · have hcut := inputs_cut_append (.completed hfront hline hcomplete) []
    rwa [List.append_nil] at hcut

/-- With an empty line behind them, the lines up to a first cut give one input, and a new prompt goes on. -/
theorem inputs_firstCut_append (lines : List Reading) :
    inputs (run.map .ok ++ .ok [] :: lines) = .ok (joined run) :: inputs lines := by
  rcases h.unfinished_or with hrun | ⟨front, line, rfl, hfront, hline, hcomplete⟩
  · have hcut := inputs_cut_append (.forced h.run_ne_nil hrun) lines
    rwa [List.append_assoc] at hcut
  · have hempty : inputs (.ok [] :: lines) = inputs lines := inputs_cut_append .empty lines
    rw [inputs_cut_append (.completed hfront hline hcomplete), hempty]
    rfl

end Again

/-! ### Texts that are split into lines again -/

/-- Whether the lines of a text are cut behind its last line first. -/
def IsFirstCut (text : Text) : Prop := FirstCut (text.splitOn '\n')

lemma joined_splitOn (text : Text) : joined (text.splitOn '\n') = text := List.intercalate_splitOn '\n'

/-- The inputs that a prompt makes of lines are first cuts. -/
theorem isFirstCut_of_mem {lines : List Text} (hlines : ∀ line ∈ lines, '\n' ∉ line) {text : Text}
    (htext : .ok text ∈ inputs (lines.map .ok)) : IsFirstCut text := by
  obtain ⟨front, back, hinputs⟩ := List.append_of_mem htext
  have hcuts := cuts_inputs (lines.map .ok)
  rw [hinputs] at hcuts
  obtain ⟨before, after, run, hall, -, -, hcut⟩ := hcuts.exists_cutFrom
  obtain rfl := hcut.text_eq
  have hfeeds : ∀ line ∈ run, '\n' ∉ line := by
    intro line hline
    have hmem : (.ok line : Reading) ∈ lines.map .ok := by
      rw [hall]
      exact List.mem_append_left after (List.mem_append_right before (List.mem_map_of_mem hline))
    obtain ⟨l, hl, heq⟩ := List.mem_map.mp hmem
    rw [← Except.ok.inj heq]
    exact hlines l hl
  rw [IsFirstCut, splitOn_joined hcut.run_ne_nil hfeeds]
  exact hcut.firstCut

section Texts

variable {texts : List Text} (h : ∀ text ∈ texts, IsFirstCut text)

include h

lemma inputs_spaced : inputs ((spaced texts).map .ok) = texts.map .ok := by
  induction texts with
  | nil => rfl
  | cons text texts ih =>
    obtain ⟨htext, htexts⟩ := List.forall_mem_cons.mp h
    have hfirst := inputs_firstCut_append htext ((spaced texts).map .ok)
    rw [joined_splitOn, ih htexts] at hfirst
    rw [spaced, List.flatMap_cons, List.map_append, List.map_append, List.append_assoc]
    exact hfirst

lemma inputs_separated : inputs ((separated texts).map .ok) = texts.map .ok := by
  induction texts with
  | nil => rfl
  | cons text texts ih =>
    obtain ⟨htext, htexts⟩ := List.forall_mem_cons.mp h
    by_cases hne : texts = []
    · have halone := inputs_firstCut htext
      rw [joined_splitOn] at halone
      rw [hne, separated, List.map_singleton, List.intercalate_singleton]
      exact halone
    · have hfirst := inputs_firstCut_append htext ((separated texts).map .ok)
      have hblocks : texts.map (List.splitOn '\n') ≠ [] := by simpa using hne
      rw [joined_splitOn, ih htexts] at hfirst
      rw [separated, List.map_cons, List.intercalate_cons_of_ne_nil hblocks, List.append_assoc, List.map_append]
      exact hfirst

end Texts

/-- The inputs that a prompt makes of lines come out again if their lines are entered with empty lines between them
or behind them, and each comes out alone if its lines are entered alone. -/
theorem inputs_entered_again (lines : List Text) (hlines : ∀ line ∈ lines, '\n' ∉ line) :
    ∃ texts : List Text, inputs (lines.map .ok) = texts.map .ok ∧
      inputs ((spaced texts).map .ok) = texts.map .ok ∧ inputs ((separated texts).map .ok) = texts.map .ok ∧
      ∀ text ∈ texts, inputs ((text.splitOn '\n').map .ok) = [.ok text] := by
  obtain ⟨is, -, htexts⟩ := exists_liesIn 0 [] lines (by simp)
  have hinputs : inputs (lines.map .ok) = (is.map Input.text).map .ok := by
    rw [List.map_map]
    exact htexts.symm
  have hcuts : ∀ text ∈ is.map Input.text, IsFirstCut text := by
    intro text htext
    apply isFirstCut_of_mem hlines
    rw [hinputs]
    exact List.mem_map_of_mem htext
  refine ⟨is.map Input.text, hinputs, inputs_spaced hcuts, inputs_separated hcuts, ?_⟩
  intro text htext
  have halone := inputs_firstCut (hcuts text htext)
  rwa [joined_splitOn] at halone

theorem inputs_entered_again_forced :
    let lines : List Text := ["f(".toList, "1".toList, [], [], "'a".toList, "b'".toList, "x".toList, "\x7b".toList]
    let given : List Text := ["f(\n1".toList, "'a\nb'".toList, "x".toList, "\x7b".toList]
    inputs (lines.map .ok) = given.map .ok ∧ (∀ line ∈ lines, '\n' ∉ line) ∧
      ∃ texts : List Text, inputs (lines.map .ok) = texts.map .ok ∧
        inputs ((spaced texts).map .ok) = texts.map .ok ∧ inputs ((separated texts).map .ok) = texts.map .ok ∧
        ∀ text ∈ texts, inputs ((text.splitOn '\n').map .ok) = [.ok text] := by
  intro lines given
  have hgiven : inputs (lines.map .ok) = given.map .ok := by decide +kernel
  have hlines : ∀ line ∈ lines, '\n' ∉ line := by decide
  exact ⟨hgiven, hlines, inputs_entered_again lines hlines⟩

end ScriptLexer.Prompt
