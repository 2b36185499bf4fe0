import Mathlib.Data.List.Infix
import ScriptLexer.Proofs.PromptConservation

/-!
# What the prompt does for an input

Each line that is not empty is a reason to test the text that is gathered so far, and so the prompt tests the first
line of an input, its first two lines, and so on up to the whole input before it submits it. This is the same for an
input that is complete, one that an empty line forces and one that is left at the end of the lines. Of lines that are
dropped only the tests remain.
-/

namespace ScriptLexer.Prompt

/-- The parts of a text from its first line on, each a line longer than the one before. -/
def parts (text : Text) : List Text := if text = [] then [] else (text.splitOn '\n').inits.tail.map joined

/-- What the prompt does for an input: it tests the parts and submits the whole. -/
def gathering (text : Text) : List Action := (parts text).map .probe ++ [.submit text]

/-! ### The parts of a text -/

lemma parts_nil : parts [] = [] := rfl

lemma splitOn_line {line : Text} (hline : '\n' ∉ line) : line.splitOn '\n' = [line] := by
  have hsplit := splitOn_joined (List.cons_ne_nil line []) (by simpa using hline)
  rwa [joined_singleton] at hsplit

/-- With a line more there is a part more. -/
theorem parts_gather {line : Text} (hempty : line ≠ []) (hline : '\n' ∉ line) (pending : Text) :
    parts (gather pending line) = parts pending ++ [gather pending line] := by
  by_cases hpending : pending = []
  · have hgather : gather [] line = line := rfl
    rw [hpending, hgather, parts, if_neg hempty, splitOn_line hline]
    simp [parts_nil]
  · have hgather : gather pending line = pending ++ '\n' :: line := if_neg (by simpa using hpending)
    have hsplit : (gather pending line).splitOn '\n' = pending.splitOn '\n' ++ [line] := by
      rw [hgather, splitOn_append_lineFeed, splitOn_line hline]
    have hwhole : joined (pending.splitOn '\n' ++ [line]) = gather pending line := by
      rw [← hsplit]
      exact List.intercalate_splitOn '\n'
    have hne : gather pending line ≠ [] := by
      rw [hgather]
      exact List.append_ne_nil_of_left_ne_nil hpending _
    have hinits : (pending.splitOn '\n').inits ≠ [] := List.ne_nil_of_mem ((List.mem_inits [] _).mpr List.nil_prefix)
    rw [parts, if_neg hne, hsplit, List.inits_append, List.tail_append_of_ne_nil hinits, List.map_append, parts,
      if_neg hpending]
    simp [hwhole]

/-! ### Lines that can be read -/

/-- What a line does is to finish the tests of a text, which it submits, or to begin those of the text that is
gathered behind it. -/
theorem feed_eq_gathering {line : Text} (hline : '\n' ∉ line) (pending : Text) :
    ∃ texts : List Text, (feed pending (.ok line)).1.filterMap Action.reading? = texts.map .ok ∧
      (parts pending).map .probe ++ (feed pending (.ok line)).1 =
        texts.flatMap gathering ++ (parts (feed pending (.ok line)).2).map .probe := by
  by_cases hempty : line = []
  · rw [hempty]
    by_cases hpending : pending = []
    · rw [hpending]
      exact ⟨[], rfl, rfl⟩
    · refine ⟨[pending], ?_, ?_⟩
      · rw [feed_empty hpending]
        rfl
      · rw [feed_empty hpending, List.flatMap_singleton, parts_nil, List.map_nil, List.append_nil]
        rfl
  · have hparts := parts_gather hempty hline pending
    by_cases hcomplete : isComplete (gather pending line)
    · refine ⟨[gather pending line], ?_, ?_⟩
      · rw [feed_complete hempty hcomplete]
        rfl
      · rw [feed_complete hempty hcomplete, List.flatMap_singleton, gathering, hparts, List.map_append, parts_nil,
          List.map_nil, List.append_nil, List.append_assoc]
        rfl
    · refine ⟨[], ?_, ?_⟩
      · rw [feed_incomplete hempty hcomplete]
        rfl
      · rw [feed_incomplete hempty hcomplete, hparts, List.map_append]
        rfl

/-- What lines do, put together from the inputs and what is gathered behind them. -/
theorem feedAll_eq_gathering {lines : List Text} (hlines : ∀ line ∈ lines, '\n' ∉ line) (pending : Text) :
    ∃ texts : List Text, (feedAll pending (lines.map .ok)).1.filterMap Action.reading? = texts.map .ok ∧
      (parts pending).map .probe ++ (feedAll pending (lines.map .ok)).1 =
        texts.flatMap gathering ++ (parts (feedAll pending (lines.map .ok)).2).map .probe := by
  induction lines generalizing pending with
  | nil => exact ⟨[], rfl, List.append_nil _⟩
  | cons line lines ih =>
    obtain ⟨texts, hitems, hactions⟩ := feed_eq_gathering (hlines line List.mem_cons_self) pending
    obtain ⟨rest, hrestItems, hrest⟩ :=
      ih (fun l hl => hlines l (List.mem_cons_of_mem line hl)) (feed pending (.ok line)).2
    refine ⟨texts ++ rest, ?_, ?_⟩
    · rw [List.map_cons, feedAll, List.filterMap_append, hitems, hrestItems, List.map_append]
    · rw [List.map_cons, feedAll, ← List.append_assoc, hactions, List.append_assoc, hrest, List.flatMap_append,
        List.append_assoc]

/-- The actions of a prompt that can read all of its lines are those for its inputs, one after the other. -/
theorem actions_readable {lines : List Text} (hlines : ∀ line ∈ lines, '\n' ∉ line) :
    ∃ texts : List Text, inputs (lines.map .ok) = texts.map .ok ∧
      actions [] (lines.map .ok) = texts.flatMap gathering := by
  obtain ⟨texts, hitems, hactions⟩ := feedAll_eq_gathering hlines []
  have hall : actions [] (lines.map .ok) =
      (feedAll [] (lines.map .ok)).1 ++ close (feedAll [] (lines.map .ok)).2 := by
    rw [← List.append_nil (lines.map _), actions_append, List.append_nil, actions]
  rw [inputs, hall, List.filterMap_append, hitems]
  rw [parts_nil, List.map_nil, List.nil_append] at hactions
  rw [hactions]
  by_cases hpending : (feedAll [] (lines.map .ok)).2 = []
  · refine ⟨texts, ?_, ?_⟩
    · rw [hpending]
      exact List.append_nil _
    · rw [hpending]
      simp [parts_nil, close]
  · refine ⟨texts ++ [(feedAll [] (lines.map .ok)).2], ?_, ?_⟩
    · rw [close_of_ne_nil hpending, List.map_append]
      rfl
    · rw [close_of_ne_nil hpending, List.flatMap_append, List.flatMap_singleton, List.append_assoc]
      rfl

/-- In front of a line that cannot be read stand the actions for the inputs up to there and the tests of the text
that it drops. -/
theorem actions_unreadable {lines : List Text} (hlines : ∀ line ∈ lines, '\n' ∉ line) (e : ReadError)
    (back : List Reading) :
    ∃ texts : List Text, (feedAll [] (lines.map .ok)).1.filterMap Action.reading? = texts.map .ok ∧
      actions [] (lines.map .ok ++ .error e :: back) =
        texts.flatMap gathering ++ (parts (feedAll [] (lines.map .ok)).2).map .probe ++ .fail e :: actions [] back := by
  obtain ⟨texts, hitems, hactions⟩ := feedAll_eq_gathering hlines []
  refine ⟨texts, hitems, ?_⟩
  rw [parts_nil, List.map_nil, List.nil_append] at hactions
  rw [actions_append, ← hactions]
  rfl

end ScriptLexer.Prompt
