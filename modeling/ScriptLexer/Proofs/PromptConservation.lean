import ScriptLexer.Proofs.PromptCuts

/-!
# No line of a prompt is lost

Lines that can be read come out of the prompt again in their order, one behind the other in its inputs. Only
empty lines are left out, and a line that cannot be read drops the lines that are gathered in front of it.
-/

namespace ScriptLexer.Prompt

/-- Whether items give back the lines of each stretch between lines that cannot be read. Each of those gives
its error and drops what is gathered, and the items behind it are those of a new prompt for the lines
behind it. -/
inductive Conserved : List Reading → List Reading → Prop
  | last {stretch out : List Text} (h : out.flatMap (List.splitOn '\n') = stretch.filter (· ≠ [])) :
      Conserved (stretch.map .ok) (out.map .ok)
  | failed {stretch out dropped : List Text} {e : ReadError} {lines : List Reading}
      (h : out.flatMap (List.splitOn '\n') ++ dropped = stretch.filter (· ≠ []))
      (hdropped : (feedAll [] (stretch.map .ok)).2 = joined dropped)
      (tail : Conserved lines (inputs lines)) :
      Conserved (stretch.map .ok ++ .error e :: lines) (out.map .ok ++ .error e :: inputs lines)

/-! ### Joined lines and their splitting -/

lemma splitOn_append_lineFeed (s t : Text) :
    (s ++ '\n' :: t).splitOn '\n' = s.splitOn '\n' ++ t.splitOn '\n' :=
  List.splitOnP_append_cons s t (beq_self_eq_true '\n')

section Joined

variable {run : List Text} (hne : run ≠ []) (hfeeds : ∀ line ∈ run, '\n' ∉ line)

include hne hfeeds

lemma splitOn_joined : (joined run).splitOn '\n' = run := List.splitOn_intercalate '\n' hfeeds hne

/-- A line feed in joined lines, none of them empty, stands between two characters other than line feeds. -/
lemma ne_nil_of_joined_eq (hrun : ∀ line ∈ run, line ≠ []) {s t : Text} (h : joined run = s ++ '\n' :: t) :
    s ≠ [] ∧ t ≠ [] ∧ t.head? ≠ some '\n' := by
  have hsplit : run = s.splitOn '\n' ++ t.splitOn '\n' := by
    rw [← splitOn_joined hne hfeeds, h, splitOn_append_lineFeed]
  have hleft : [] ∉ s.splitOn '\n' := fun hmem =>
    hrun [] (hsplit ▸ List.mem_append_left _ hmem) rfl
  have hright : [] ∉ t.splitOn '\n' := fun hmem =>
    hrun [] (hsplit ▸ List.mem_append_right _ hmem) rfl
  refine ⟨?_, ?_, ?_⟩
  · rintro rfl
    exact hleft List.mem_cons_self
  · rintro rfl
    exact hright List.mem_cons_self
  · intro hhead
    obtain ⟨t, rfl⟩ := List.head?_eq_some_iff.mp hhead
    apply hright
    rw [← List.nil_append ('\n' :: t), splitOn_append_lineFeed]
    exact List.mem_append_left _ List.mem_cons_self

end Joined

lemma filter_ne_nil {run : List Text} (hrun : ∀ line ∈ run, line ≠ []) : run.filter (· ≠ []) = run :=
  List.filter_eq_self.mpr fun line hline => decide_eq_true (hrun line hline)

/-! ### Stretches of lines -/

/-- Lines that come out and leave nothing gathered can be put in front. -/
lemma Conserved.append {lines items : List Reading} (h : Conserved lines items) (first outs : List Text)
    (houts : outs.flatMap (List.splitOn '\n') = first.filter (· ≠ []))
    (hgathered : (feedAll [] (first.map .ok)).2 = []) :
    Conserved (first.map .ok ++ lines) (outs.map .ok ++ items) := by
  cases h with
  | @last stretch out hout =>
    rw [← List.map_append, ← List.map_append]
    apply Conserved.last
    rw [List.flatMap_append, List.filter_append, houts, hout]
  | @failed stretch out dropped e lines hout hdropped tail =>
    rw [← List.append_assoc, ← List.append_assoc, ← List.map_append, ← List.map_append]
    apply Conserved.failed _ _ tail
    · exact dropped
    · rw [List.flatMap_append, List.filter_append, houts, List.append_assoc, hout]
    · rw [List.map_append, feedAll_append, hgathered, hdropped]

/-- Cuts conserve the lines around them. -/
theorem conserved_of_cuts {lines items : List Reading} (h : Cuts lines items)
    (hlines : ∀ text, .ok text ∈ lines → '\n' ∉ text) : Conserved lines items := by
  induction h with
  | done => exact @Conserved.last [] [] rfl
  | @last run hne hrun =>
    have hfeeds : ∀ line ∈ run, '\n' ∉ line := fun line hline => hlines line (List.mem_map_of_mem hline)
    apply @Conserved.last run [joined run]
    rw [List.flatMap_singleton, splitOn_joined hne hfeeds, filter_ne_nil hrun.ne_nil]
  | @cons first lines items item head tail ih =>
    have hrest : Conserved lines items := ih fun text htext => hlines text (List.mem_append_right first htext)
    have hgathered := (feedAll_cut head).2
    cases head with
    | empty => exact hrest.append [[]] [] rfl rfl
    | @completed run line hrun hline hcomplete =>
      have hfeeds : ∀ l ∈ run ++ [line], '\n' ∉ l := fun l hl =>
        hlines l (List.mem_append_left lines (List.mem_map_of_mem hl))
      apply hrest.append (run ++ [line]) [joined (run ++ [line])] _ hgathered
      rw [List.flatMap_singleton, splitOn_joined (by simp) hfeeds,
        filter_ne_nil (forall_ne_nil_concat hrun.ne_nil hline)]
    | @forced run hne hrun =>
      have hfeeds : ∀ l ∈ run, '\n' ∉ l := fun l hl =>
        hlines l (List.mem_append_left lines (List.mem_append_left _ (List.mem_map_of_mem hl)))
      have hempty : run.map .ok ++ [.ok []] = ((run ++ [[]]).map .ok : List Reading) := by
        rw [List.map_append, List.map_singleton]
      rw [hempty] at hgathered ⊢
      apply hrest.append (run ++ [[]]) [joined run] _ hgathered
      rw [List.flatMap_singleton, splitOn_joined hne hfeeds, List.filter_append, filter_ne_nil hrun.ne_nil]
      exact (List.append_nil run).symm
    | @failed run hrun e =>
      rw [← inputs_eq_of_cuts tail] at hrest ⊢
      rw [List.append_assoc]
      apply @Conserved.failed run [] run _ _ _ (feedAll_unfinished hrun).2 hrest
      exact (filter_ne_nil hrun.ne_nil).symm

/-- What the prompt gives while it reads, and then what is gathered, if anything is. -/
lemma inputs_eq_feedAll (lines : List Reading) :
    inputs lines = (feedAll [] lines).1.filterMap Action.reading? ++
      if (feedAll [] lines).2 = [] then [] else [.ok (feedAll [] lines).2] := by
  rw [inputs, ← List.append_nil lines, actions_append, List.append_nil, List.filterMap_append, actions]
  congr 1
  by_cases hgathered : (feedAll [] lines).2 = []
  · rw [if_pos hgathered, hgathered]
    rfl
  · rw [if_neg hgathered, close_of_ne_nil hgathered]
    rfl

/-- The prompt neither loses nor repeats a line that can be read and is not empty, and keeps their order; only
what is gathered in front of a line that cannot be read is dropped. What is gathered behind the last line is
given once. No input is empty or has a line feed at its beginning, at its end or next to another. -/
theorem conserved_inputs (lines : List Reading) (hlines : ∀ text, .ok text ∈ lines → '\n' ∉ text) :
    Conserved lines (inputs lines) ∧
      (inputs lines = (feedAll [] lines).1.filterMap Action.reading? ++
        if (feedAll [] lines).2 = [] then [] else [.ok (feedAll [] lines).2]) ∧
      ∀ text, .ok text ∈ inputs lines → text ≠ [] ∧ text.head? ≠ some '\n' ∧ text.getLast? ≠ some '\n' ∧
        ¬['\n', '\n'] <:+: text := by
  refine ⟨conserved_of_cuts (cuts_inputs lines) hlines, inputs_eq_feedAll lines, ?_⟩
  intro text htext
  obtain ⟨front, back, hinputs⟩ := List.append_of_mem htext
  have hcuts := cuts_inputs lines
  rw [hinputs] at hcuts
  obtain ⟨before, after, run, rfl, _, _, hcut⟩ := hcuts.exists_cutFrom
  obtain rfl := hcut.text_eq
  have hfeeds : ∀ line ∈ run, '\n' ∉ line := fun line hline =>
    hlines line (List.mem_append_left after (List.mem_append_right before (List.mem_map_of_mem hline)))
  have hfeed {s t : Text} (h : joined run = s ++ '\n' :: t) :=
    ne_nil_of_joined_eq hcut.run_ne_nil hfeeds hcut.line_ne_nil h
  refine ⟨joined_ne_nil hcut.run_ne_nil hcut.line_ne_nil, ?_, ?_, ?_⟩
  · intro hhead
    obtain ⟨t, ht⟩ := List.head?_eq_some_iff.mp hhead
    exact (hfeed (s := []) ht).1 rfl
  · intro hlast
    obtain ⟨s, hs⟩ := List.getLast?_eq_some_iff.mp hlast
    exact (hfeed hs).2.1 rfl
  · rintro ⟨s, t, hst⟩
    rw [List.append_assoc] at hst
    exact (hfeed hst.symm).2.2 rfl

theorem conserved_inputs_between_errors :
    let lines : List Reading := [.ok "f(".toList, .ok "a".toList, .error .invalidUtf8, .ok "x".toList, .ok [],
      .ok "\x7b".toList, .ok "y".toList, .ok [], .ok "'b".toList, .error .invalidUtf8, .ok "(".toList]
    (∀ text, .ok text ∈ lines → '\n' ∉ text) ∧ Conserved lines (inputs lines) ∧
      (inputs lines = (feedAll [] lines).1.filterMap Action.reading? ++
        if (feedAll [] lines).2 = [] then [] else [.ok (feedAll [] lines).2]) ∧
      ∀ text, .ok text ∈ inputs lines → text ≠ [] ∧ text.head? ≠ some '\n' ∧ text.getLast? ≠ some '\n' ∧
        ¬['\n', '\n'] <:+: text := by
  intro lines
  have hlines : ∀ text, .ok text ∈ lines → '\n' ∉ text := by
    intro text htext
    simp only [lines, List.mem_cons, Except.ok.injEq, reduceCtorEq, List.not_mem_nil, or_false,
      false_or] at htext
    rcases htext with rfl | rfl | rfl | rfl | rfl | rfl | rfl | rfl | rfl <;> decide
  exact ⟨hlines, conserved_inputs lines hlines⟩

end ScriptLexer.Prompt
