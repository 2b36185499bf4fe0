import Mathlib.Tactic.Lemma
import ScriptLexer.Prompt

/-!
# The inputs of a prompt within its lines

The text that is gathered at the prompt is a run of lines, none of them empty, joined by line feeds. The
inputs lie in the lines one behind the other: each is such a run, and all lines outside of them are empty.
-/

namespace ScriptLexer

/-- Lines as one text. -/
def joined (lines : List Text) : Text := List.intercalate ['\n'] lines

namespace Prompt

/-- An input, and the number of lines in front of its first line. -/
structure Input where
  before : Nat
  text : Text
  deriving DecidableEq, Repr

/-- Whether inputs lie one behind the other in lines that follow `k` other lines. Each input is a run of
lines that are not empty, and outside of the inputs all lines are empty. -/
inductive LiesIn : Nat → List Text → List Input → Prop
  | done {k : Nat} : LiesIn k [] []
  | empty {k : Nat} {lines : List Text} {is : List Input} (tail : LiesIn (k + 1) lines is) :
      LiesIn k ([] :: lines) is
  | input {k : Nat} {run lines : List Text} {is : List Input} (hne : run ≠ [])
      (hrun : ∀ line ∈ run, line ≠ []) (tail : LiesIn (k + run.length) lines is) :
      LiesIn k (run ++ lines) (⟨k, joined run⟩ :: is)

end Prompt

/-! ### Joined lines -/

@[simp] lemma joined_nil : joined [] = [] := rfl

@[simp] lemma joined_singleton (line : Text) : joined [line] = line := List.intercalate_singleton

lemma joined_cons (line : Text) {lines : List Text} (hne : lines ≠ []) :
    joined (line :: lines) = line ++ '\n' :: joined lines := by
  rw [joined, List.intercalate_cons_of_ne_nil hne, List.append_assoc, List.singleton_append]
  rfl

lemma joined_append {run : List Text} (hne : run ≠ []) (lines : List Text) :
    joined (run ++ lines) = joined (joined run :: lines) := by
  induction run with
  | nil => exact absurd rfl hne
  | cons line run ih =>
    by_cases hrun : run = []
    · rw [hrun, List.singleton_append, joined_singleton]
    · have happend : run ++ lines ≠ [] := List.append_ne_nil_of_left_ne_nil hrun lines
      rw [List.cons_append, joined_cons line happend, ih hrun, joined_cons line hrun]
      by_cases hlines : lines = []
      · rw [hlines, joined_singleton, joined_singleton]
      · rw [joined_cons _ hlines, joined_cons _ hlines, List.append_assoc, List.cons_append]

lemma joined_ne_nil {run : List Text} (hne : run ≠ []) (hrun : ∀ line ∈ run, line ≠ []) :
    joined run ≠ [] := by
  obtain ⟨line, run, rfl⟩ := List.exists_cons_of_ne_nil hne
  have hline : line ≠ [] := hrun line List.mem_cons_self
  by_cases hempty : run = []
  · rwa [hempty, joined_singleton]
  · rw [joined_cons line hempty]
    exact List.append_ne_nil_of_left_ne_nil hline _

/-! ### The inputs of a prompt -/

namespace Prompt

lemma LiesIn.forall_eq_nil {k : Nat} {lines : List Text} (h : LiesIn k lines []) :
    ∀ line ∈ lines, line = [] := by
  generalize his : ([] : List Input) = is at h
  induction h with
  | done => simp
  | empty tail ih =>
    intro line hline
    rcases List.mem_cons.mp hline with rfl | hline
    · rfl
    · exact ih his line hline
  | input hne hrun tail => cases his

/-! ### What a line does -/

section Feed

variable {pending line : Text}

lemma feed_empty (hpending : pending ≠ []) : feed pending (.ok []) = ([.submit pending], []) := by
  have hempty : ¬pending.isEmpty := by simpa using hpending
  simp only [feed, List.isEmpty_nil, if_true, if_neg hempty]

lemma feed_complete (hline : line ≠ []) (h : isComplete (gather pending line)) :
    feed pending (.ok line) =
      ([.probe (gather pending line), .submit (gather pending line)], []) := by
  have hempty : ¬line.isEmpty := by simpa using hline
  simp only [feed, if_neg hempty, if_pos h]

lemma feed_incomplete (hline : line ≠ []) (h : ¬isComplete (gather pending line)) :
    feed pending (.ok line) = ([.probe (gather pending line)], gather pending line) := by
  have hempty : ¬line.isEmpty := by simpa using hline
  simp only [feed, if_neg hempty, if_neg h]

lemma close_of_ne_nil (hpending : pending ≠ []) : close pending = [.submit pending] := by
  have hempty : ¬pending.isEmpty := by simpa using hpending
  rw [close, if_neg hempty]

end Feed

lemma gather_joined {run : List Text} (hrun : ∀ line ∈ run, line ≠ []) (line : Text) :
    gather (joined run) line = joined (run ++ [line]) := by
  by_cases hne : run = []
  · rw [hne, List.nil_append, joined_nil, joined_singleton]
    rfl
  · have hempty : ¬(joined run).isEmpty := by simpa using joined_ne_nil hne hrun
    rw [joined_append hne, joined_cons _ (List.cons_ne_nil _ _), gather, if_neg hempty, joined_singleton]

lemma forall_ne_nil_concat {run : List Text} (hrun : ∀ line ∈ run, line ≠ []) {line : Text}
    (hline : line ≠ []) : ∀ l ∈ run ++ [line], l ≠ [] := by
  intro l hl
  rcases List.mem_append.mp hl with hl | hl
  · exact hrun l hl
  · rw [List.mem_singleton.mp hl]
    exact hline

/-- The inputs of a prompt that has gathered a run of lines lie in that run and the lines to come. -/
theorem exists_liesIn (k : Nat) (run lines : List Text) (hrun : ∀ line ∈ run, line ≠ []) :
    ∃ is, LiesIn k (run ++ lines) is ∧
      is.map (fun i => .ok i.text) =
        (actions (joined run) (lines.map .ok)).filterMap Action.reading? := by
  have hnone : ∀ line ∈ ([] : List Text), line ≠ [] := by simp
  induction lines generalizing k run with
  | nil =>
    by_cases hne : run = []
    · rw [hne]
      exact ⟨[], .done, rfl⟩
    · refine ⟨[⟨k, joined run⟩], .input hne hrun .done, ?_⟩
      rw [List.map_nil, actions, close_of_ne_nil (joined_ne_nil hne hrun)]
      rfl
  | cons line lines ih =>
    rw [List.map_cons, actions]
    by_cases hline : line = []
    · rw [hline]
      by_cases hne : run = []
      · obtain ⟨is, his, htexts⟩ := ih (k + 1) [] hnone
        rw [hne]
        exact ⟨is, .empty his, htexts⟩
      · obtain ⟨is, his, htexts⟩ := ih (k + run.length + 1) [] hnone
        refine ⟨⟨k, joined run⟩ :: is, .input hne hrun (.empty his), ?_⟩
        rw [feed_empty (joined_ne_nil hne hrun), List.map_cons, htexts]
        rfl
    · have hlonger := forall_ne_nil_concat hrun hline
      have hnext : run ++ line :: lines = run ++ [line] ++ lines := by
        rw [List.append_assoc, List.singleton_append]
      rw [hnext]
      by_cases hcomplete : isComplete (gather (joined run) line)
      · obtain ⟨is, his, htexts⟩ := ih (k + (run ++ [line]).length) [] hnone
        refine ⟨⟨k, joined (run ++ [line])⟩ :: is, .input (by simp) hlonger his, ?_⟩
        rw [feed_complete hline hcomplete, gather_joined hrun, List.map_cons, htexts]
        rfl
      · obtain ⟨is, his, htexts⟩ := ih k (run ++ [line]) hlonger
        refine ⟨is, his, ?_⟩
        rw [feed_incomplete hline hcomplete, gather_joined hrun, htexts]
        rfl

end Prompt

end ScriptLexer
