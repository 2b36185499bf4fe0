import Mathlib.Data.List.Induction
import ScriptLexer.Proofs.Composition
import ScriptLexer.Proofs.PromptLines

/-!
# Where a prompt cuts its lines

At the prompt a run of lines is gathered as long as no part of it from its first line on is found complete. The
run ends behind the line that completes it, in front of an empty line, in front of a line that cannot be read,
which drops it, or at the end of the lines. What the prompt gives is determined by these cuts, and all that
is known of its inputs follows from them.
-/

namespace ScriptLexer.Prompt

/-- Whether the prompt goes on gathering behind a run of lines: no line is empty, and no part of the run from
its first line on is complete. -/
structure Unfinished (run : List Text) : Prop where
  ne_nil : ∀ line ∈ run, line ≠ []
  incomplete : ∀ part, part <+: run → part ≠ [] → ¬isComplete (joined part)

/-- Whether lines up to a cut give an item, which is an input or an error, or nothing. -/
inductive Cut : List Reading → Option Reading → Prop
  /-- an empty line with nothing gathered in front of it -/
  | empty : Cut [.ok []] none
  /-- a run of lines that its last line completes -/
  | completed {run : List Text} {line : Text} (hrun : Unfinished run) (hline : line ≠ [])
      (h : isComplete (joined (run ++ [line]))) :
      Cut ((run ++ [line]).map .ok) (some (.ok (joined (run ++ [line]))))
  /-- a run of lines and an empty line -/
  | forced {run : List Text} (hne : run ≠ []) (hrun : Unfinished run) :
      Cut (run.map .ok ++ [.ok []]) (some (.ok (joined run)))
  /-- a line that cannot be read, and the run that it drops -/
  | failed {run : List Text} (hrun : Unfinished run) (e : ReadError) :
      Cut (run.map .ok ++ [.error e]) (some (.error e))

/-- Whether lines are cut, one cut behind the other, so that they give the items. A run that nothing follows
is the last input. -/
inductive Cuts : List Reading → List Reading → Prop
  | done : Cuts [] []
  | last {run : List Text} (hne : run ≠ []) (hrun : Unfinished run) :
      Cuts (run.map .ok) [.ok (joined run)]
  | cons {first lines items : List Reading} {item : Option Reading} (head : Cut first item)
      (tail : Cuts lines items) : Cuts (first ++ lines) (item.toList ++ items)

/-! ### Runs of lines -/

lemma unfinished_nil : Unfinished [] where
  ne_nil := by simp
  incomplete := by
    intro part hpart hne
    exact absurd (List.prefix_nil.mp hpart) hne

lemma Unfinished.concat {run : List Text} {line : Text} (hrun : Unfinished run) (hline : line ≠ [])
    (h : ¬isComplete (joined (run ++ [line]))) : Unfinished (run ++ [line]) where
  ne_nil := forall_ne_nil_concat hrun.ne_nil hline
  incomplete := by
    intro part hpart hne
    rcases List.prefix_concat_iff.mp hpart with rfl | hpart
    · exact h
    · exact hrun.incomplete part hpart hne

lemma Unfinished.of_concat {run : List Text} {line : Text} (h : Unfinished (run ++ [line])) :
    Unfinished run where
  ne_nil := fun l hl => h.ne_nil l (List.mem_append_left [line] hl)
  incomplete := fun part hpart => h.incomplete part (hpart.trans (List.prefix_append run [line]))

/-- The actions while lines are read, and the text that is gathered behind them. -/
def feedAll (pending : Text) : List Reading → List Action × Text
  | [] => ([], pending)
  | line :: lines =>
    ((feed pending line).1 ++ (feedAll (feed pending line).2 lines).1,
      (feedAll (feed pending line).2 lines).2)

lemma actions_append (pending : Text) (xs ys : List Reading) :
    actions pending (xs ++ ys) = (feedAll pending xs).1 ++ actions (feedAll pending xs).2 ys := by
  induction xs generalizing pending with
  | nil => rfl
  | cons x xs ih => rw [List.cons_append, actions, ih, feedAll, List.append_assoc]

lemma feedAll_append (pending : Text) (xs ys : List Reading) :
    feedAll pending (xs ++ ys) =
      ((feedAll pending xs).1 ++ (feedAll (feedAll pending xs).2 ys).1,
        (feedAll (feedAll pending xs).2 ys).2) := by
  induction xs generalizing pending with
  | nil => rfl
  | cons x xs ih => simp only [List.cons_append, feedAll, ih, List.append_assoc]

/-- While a run is unfinished it is only probed, and all of it is gathered. -/
theorem feedAll_unfinished {run : List Text} (h : Unfinished run) :
    (feedAll [] (run.map .ok)).1.filterMap Action.reading? = [] ∧
      (feedAll [] (run.map .ok)).2 = joined run := by
  induction run using List.reverseRecOn with
  | nil => exact ⟨rfl, rfl⟩
  | append_singleton run line ih =>
    obtain ⟨hprobes, hgathered⟩ := ih h.of_concat
    have hline : line ≠ [] := h.ne_nil line (List.mem_append_right run List.mem_cons_self)
    have hincomplete : ¬isComplete (gather (joined run) line) := by
      rw [gather_joined h.of_concat.ne_nil]
      exact h.incomplete _ (List.prefix_refl _) (by simp)
    have hfeed := feed_incomplete hline hincomplete
    rw [gather_joined h.of_concat.ne_nil] at hfeed
    rw [List.map_append, feedAll_append, hgathered, List.map_singleton, feedAll, feedAll, hfeed]
    refine ⟨?_, rfl⟩
    rw [List.filterMap_append, hprobes]
    rfl

/-! ### The cuts of a prompt -/

/-- Lines up to a cut give their item, and behind the cut nothing of them is left. -/
theorem feedAll_cut {first : List Reading} {item : Option Reading} (h : Cut first item) :
    (feedAll [] first).1.filterMap Action.reading? = item.toList ∧ (feedAll [] first).2 = [] := by
  cases h with
  | empty => exact ⟨rfl, rfl⟩
  | @completed run line hrun hline h =>
    obtain ⟨hprobes, hgathered⟩ := feedAll_unfinished hrun
    have hgather := gather_joined hrun.ne_nil line
    have hcomplete : isComplete (gather (joined run) line) := by rwa [hgather]
    have hfeed := feed_complete hline hcomplete
    rw [hgather] at hfeed
    rw [List.map_append, feedAll_append, hgathered, List.filterMap_append, hprobes, List.map_singleton,
      feedAll, hfeed]
    exact ⟨rfl, rfl⟩
  | forced hne hrun =>
    obtain ⟨hprobes, hgathered⟩ := feedAll_unfinished hrun
    rw [feedAll_append, hgathered, List.filterMap_append, hprobes, feedAll,
      feed_empty (joined_ne_nil hne hrun.ne_nil)]
    exact ⟨rfl, rfl⟩
  | failed hrun e =>
    rw [feedAll_append, List.filterMap_append, (feedAll_unfinished hrun).1]
    exact ⟨rfl, rfl⟩

lemma inputs_cut_append {first : List Reading} {item : Option Reading} (h : Cut first item)
    (lines : List Reading) : inputs (first ++ lines) = item.toList ++ inputs lines := by
  obtain ⟨hitem, hgathered⟩ := feedAll_cut h
  rw [inputs, actions_append, List.filterMap_append, hitem, hgathered]
  rfl

lemma inputs_last {run : List Text} (hne : run ≠ []) (hrun : Unfinished run) :
    inputs (run.map .ok) = [.ok (joined run)] := by
  obtain ⟨hprobes, hgathered⟩ := feedAll_unfinished hrun
  rw [inputs, ← List.append_nil (run.map _), actions_append, List.filterMap_append, hprobes, hgathered,
    actions, close_of_ne_nil (joined_ne_nil hne hrun.ne_nil)]
  rfl

/-- The lines of a prompt that has gathered an unfinished run are cut. -/
theorem cuts_append {run : List Text} (hrun : Unfinished run) (lines : List Reading) :
    Cuts (run.map .ok ++ lines) (inputs (run.map .ok ++ lines)) := by
  induction lines generalizing run with
  | nil =>
    rw [List.append_nil]
    by_cases hne : run = []
    · rw [hne]
      exact .done
    · rw [inputs_last hne hrun]
      exact .last hne hrun
  | cons line lines ih =>
    -- where there is a cut behind the next line, the rest is cut as for a new run
    have hcut : ∀ first item, Cut first item → Cuts (first ++ lines) (inputs (first ++ lines)) := by
      intro first item hfirst
      rw [inputs_cut_append hfirst]
      exact .cons hfirst (ih unfinished_nil)
    cases line with
    | error e =>
      have hnow := hcut _ _ (.failed hrun e)
      rwa [List.append_assoc] at hnow
    | ok line =>
      by_cases hline : line = []
      · rw [hline]
        by_cases hne : run = []
        · rw [hne]
          exact hcut _ _ .empty
        · have hnow := hcut _ _ (.forced hne hrun)
          rwa [List.append_assoc] at hnow
      · have hnext : run.map .ok ++ (.ok line :: lines : List Reading) = (run ++ [line]).map .ok ++ lines := by
          rw [List.map_append, List.append_assoc]
          rfl
        rw [hnext]
        by_cases hcomplete : isComplete (joined (run ++ [line]))
        · exact hcut _ _ (.completed hrun hline hcomplete)
        · exact ih (hrun.concat hline hcomplete)

theorem cuts_inputs (lines : List Reading) : Cuts lines (inputs lines) := cuts_append unfinished_nil lines

/-- Cuts determine what the prompt gives. -/
theorem inputs_eq_of_cuts {lines items : List Reading} (h : Cuts lines items) : inputs lines = items := by
  induction h with
  | done => rfl
  | last hne hrun => exact inputs_last hne hrun
  | cons head tail ih => rw [inputs_cut_append head, ih]

/-! ### Where the inputs come from -/

/-- Whether an input is a run of lines that are not empty, with no shorter part that is complete, and is
itself complete unless an empty line or the end of the lines comes behind it. -/
structure CutFrom (complete : Text → Prop) (run : List Text) (after : List Reading) (text : Text) : Prop where
  text_eq : text = joined run
  run_ne_nil : run ≠ []
  line_ne_nil : ∀ line ∈ run, line ≠ []
  parts : ∀ part, part <+: run → part ≠ [] → part ≠ run → ¬complete (joined part)
  whole : complete text ∨ after.head? = some (.ok []) ∨ after = []

lemma Cut.exists_cutFrom {first : List Reading} {text : Text} (h : Cut first (some (.ok text)))
    (lines : List Reading) :
    ∃ run after, first ++ lines = run.map .ok ++ after ∧ inputs after = inputs lines ∧
      CutFrom (isComplete ·) run after text := by
  cases h with
  | @completed run line hrun hline hcomplete =>
    refine ⟨run ++ [line], lines, rfl, rfl, rfl, by simp, forall_ne_nil_concat hrun.ne_nil hline, ?_,
      .inl hcomplete⟩
    intro part hpart hne hproper
    rcases List.prefix_concat_iff.mp hpart with hall | hpart
    · exact absurd hall hproper
    · exact hrun.incomplete part hpart hne
  | @forced run hne hrun =>
    refine ⟨run, .ok [] :: lines, by rw [List.append_assoc]; rfl, rfl, rfl, hne, hrun.ne_nil, ?_,
      .inr (.inl rfl)⟩
    exact fun part hpart hpne _ => hrun.incomplete part hpart hpne

lemma Cuts.exists_cutFrom {lines front back : List Reading} {text : Text}
    (h : Cuts lines (front ++ .ok text :: back)) :
    ∃ (before after : List Reading) (run : List Text), lines = before ++ run.map .ok ++ after ∧
      inputs before = front ∧ inputs after = back ∧ CutFrom (isComplete ·) run after text := by
  generalize hitems : front ++ .ok text :: back = items at h
  induction h generalizing front with
  | done => exact absurd hitems (List.append_ne_nil_of_right_ne_nil front (List.cons_ne_nil _ back))
  | @last run hne hrun =>
    obtain ⟨rfl, hitem⟩ | ⟨_, _, hitem⟩ := List.append_eq_cons_iff.mp hitems
    · cases hitem
      exact ⟨[], [], run, by simp, rfl, rfl, rfl, hne, hrun.ne_nil,
        fun part hpart hpne _ => hrun.incomplete part hpart hpne, .inr (.inr rfl)⟩
    · exact absurd hitem.symm (List.append_ne_nil_of_right_ne_nil _ (List.cons_ne_nil _ back))
  | @cons first lines items item head tail ih =>
    -- the input comes from this cut, or it is one of the inputs behind
    have hnow : (front = [] ∧ item = some (.ok text) ∧ back = items) ∨
        ∃ front', front = item.toList ++ front' ∧ front' ++ .ok text :: back = items := by
      cases item with
      | none => exact .inr ⟨front, rfl, hitems⟩
      | some item =>
        cases front with
        | nil =>
          obtain ⟨rfl, hback⟩ := List.cons.inj hitems
          exact .inl ⟨rfl, rfl, hback⟩
        | cons x front =>
          obtain ⟨rfl, hfront⟩ := List.cons.inj hitems
          exact .inr ⟨front, rfl, hfront⟩
    rcases hnow with ⟨rfl, rfl, rfl⟩ | ⟨front, rfl, hfront⟩
    · obtain ⟨run, after, hlines, hafter, hcut⟩ := head.exists_cutFrom lines
      exact ⟨[], after, run, hlines, rfl, by rw [hafter, inputs_eq_of_cuts tail], hcut⟩
    · obtain ⟨before, after, run, rfl, hbefore, hrest⟩ := ih hfront
      exact ⟨first ++ before, after, run, by simp only [List.append_assoc],
        by rw [inputs_cut_append head, hbefore], hrest⟩

end ScriptLexer.Prompt
