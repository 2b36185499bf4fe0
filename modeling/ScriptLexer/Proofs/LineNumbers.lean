import Mathlib.Data.List.Forall2
import ScriptLexer.Proofs.Recovery
import ScriptLexer.Proofs.Segmentation

/-!
# Line numbers

Line feeds are passed within strings, within comments and between the pieces of a script, and all of them
count. Each token and each diagnostic has the line on which its own text begins, however many lines that
text spans, and the token that ends the script has the line behind the last line feed. Pieces are found in
their order, so no line comes before one that was found earlier.
-/

namespace ScriptLexer

/-- A piece of a script and all that stands in front of it. -/
structure Excerpt where
  before : Text
  piece : Piece
  deriving DecidableEq, Repr

/-- Pieces one behind the other, each with all that stands in front of it. -/
def excerpts (before : Text) : List Piece → List Excerpt
  | [] => []
  | x :: xs => ⟨before, x⟩ :: excerpts (before ++ x.text) xs

/-- Whether a piece is a lexeme, which excludes digits of a number that is too large. -/
def Piece.isLexeme : Piece → Bool
  | symbol _ => true
  | word _ => true
  | string _ => true
  | integer digits => Text.value digits < 2 ^ 63
  | decimal _ _ => true
  | _ => false

/-- Whether a token is that of a piece, with the line and the offset at which the piece begins. -/
structure Excerpt.IsToken (e : Excerpt) (t : Token.Located) : Prop where
  means : e.piece.Means (.lexeme t.token.kind t.token.literal)
  lexeme_eq : t.token.lexeme = e.piece.text
  line_eq : t.token.line = 1 + e.before.lineFeeds
  offset_eq : t.offset = e.before.utf8Length

/-- Whether a diagnostic is that of a piece, with the line on which the piece begins. -/
structure Excerpt.IsDiagnostic (e : Excerpt) (d : Diagnostic) : Prop where
  means : ∃ cause, e.piece.Means (.fault cause) ∧ d.message = cause.message
  location_eq : d.location = []
  line_eq : d.line = 1 + e.before.lineFeeds

/-! ### Selected pieces -/

lemma Piece.isLexeme_iff {x : Piece} : x.isLexeme ↔ ∃ kind literal, x.meaning = .lexeme kind literal := by
  cases x with
  | integer digits =>
    rw [isLexeme, meaning, decide_eq_true_eq]
    by_cases h : Text.value digits < Nat.pow 2 63
    · rw [if_pos h]
      exact iff_of_true h ⟨_, _, rfl⟩
    · rw [if_neg h]
      refine iff_of_false h ?_
      rintro ⟨kind, literal, hmeaning⟩
      cases hmeaning
  | _ => simp [isLexeme, meaning]

/-- What is selected from a list comes from the members that select something, in the same order. -/
lemma forall₂_filter_filterMap {α β : Type} {p : α → Bool} {select : α → Option β} {R : α → β → Prop}
    (hsome : ∀ a, p a → ∃ b, select a = some b ∧ R a b) (hnone : ∀ a, ¬p a → select a = none) (l : List α) :
    List.Forall₂ R (l.filter p) (l.filterMap select) := by
  induction l with
  | nil => exact .nil
  | cons a l ih =>
    by_cases ha : p a
    · obtain ⟨b, hb, hab⟩ := hsome a ha
      rw [List.filter_cons_of_pos ha, List.filterMap_cons_some hb]
      exact .cons hab ih
    · rw [List.filter_cons_of_neg ha, List.filterMap_cons_none (hnone a ha)]
      exact ih

/-! ### Pieces in their places -/

/-- The piece at the place that the text in front of it gives. -/
def Excerpt.placed (e : Excerpt) : Placed := ⟨Position.start.advance e.before, e.piece⟩

lemma place_eq_map_excerpts (before : Text) (xs : List Piece) :
    place (Position.start.advance before) xs = (excerpts before xs).map Excerpt.placed := by
  induction xs generalizing before with
  | nil => rfl
  | cons x xs ih => rw [place, excerpts, List.map_cons, ← Position.advance_append, ih, Excerpt.placed]

lemma placed_scan (source : Text) :
    (scan source).placed = (excerpts [] (pieces source)).map Excerpt.placed :=
  place_eq_map_excerpts [] (pieces source)

lemma Excerpt.exists_isToken {e : Excerpt} (h : e.piece.isLexeme) :
    ∃ t, e.placed.located? = some t ∧ e.IsToken t := by
  obtain ⟨kind, literal, hmeaning⟩ := Piece.isLexeme_iff.mp h
  refine ⟨⟨⟨kind, e.piece.text, literal, 1 + e.before.lineFeeds⟩, e.before.utf8Length⟩, ?_, ?_⟩
  · rw [Placed.located?, placed, hmeaning, offset_advance_start]
    rfl
  · exact ⟨Piece.means_iff.mpr hmeaning, rfl, rfl, rfl⟩

lemma Excerpt.exists_isDiagnostic {e : Excerpt} (h : e.piece.isFaulty) :
    ∃ d, e.placed.fault?.map Fault.diagnostic = some d ∧ e.IsDiagnostic d := by
  obtain ⟨cause, hmeaning⟩ := Piece.isFaulty_iff.mp h
  refine ⟨⟨1 + e.before.lineFeeds, [], cause.message⟩, ?_, ?_⟩
  · rw [Placed.fault?, placed, hmeaning]
    rfl
  · exact ⟨⟨cause, Piece.means_iff.mpr hmeaning, rfl⟩, rfl, rfl⟩

/-- The tokens of a script are those of its lexemes, each where its lexeme begins. -/
theorem forall₂_isToken (source : Text) :
    List.Forall₂ Excerpt.IsToken ((excerpts [] (pieces source)).filter (·.piece.isLexeme))
      (scan source).located := by
  rw [Scan.located, placed_scan, List.filterMap_map]
  apply forall₂_filter_filterMap
  · intro e he
    exact e.exists_isToken he
  · intro e he
    rw [Function.comp_apply, Placed.located?, Excerpt.placed]
    cases hmeaning : e.piece.meaning with
    | lexeme kind literal => exact absurd (Piece.isLexeme_iff.mpr ⟨kind, literal, hmeaning⟩) he
    | _ => rfl

/-- The diagnostics of a script are those of its faulty pieces, each on the line where its piece begins. -/
theorem forall₂_isDiagnostic (source : Text) :
    List.Forall₂ Excerpt.IsDiagnostic ((excerpts [] (pieces source)).filter (·.piece.isFaulty))
      (scan source).diagnostics := by
  rw [Scan.diagnostics, Scan.faults, placed_scan, List.filterMap_map, List.map_filterMap]
  apply forall₂_filter_filterMap
  · intro e he
    exact e.exists_isDiagnostic he
  · intro e he
    rw [Function.comp_apply, Placed.fault?, Excerpt.placed]
    cases hmeaning : e.piece.meaning with
    | fault cause => exact absurd (Piece.isFaulty_iff.mpr ⟨cause, hmeaning⟩) he
    | _ => rfl

/-! ### The order of lines -/

section Order

variable {p : Position} {xs : List Piece} {y : Placed}

lemma line_le_of_mem_place (hy : y ∈ place p xs) :
    p.line ≤ y.position.line ∧ y.position.line ≤ (positionAfter p xs).line := by
  induction xs generalizing p with
  | nil => cases hy
  | cons x xs ih =>
    have hstep : p.line ≤ (p.advance x.text).line := Nat.le_add_right _ _
    rcases List.mem_cons.mp hy with rfl | hy
    · refine ⟨Nat.le_refl _, ?_⟩
      rw [positionAfter_eq_advance]
      exact Nat.le_add_right _ _
    · obtain ⟨hfirst, hlast⟩ := ih hy
      exact ⟨Nat.le_trans hstep hfirst, hlast⟩

lemma pairwise_line_place (p : Position) (xs : List Piece) :
    (place p xs).Pairwise fun x y => x.position.line ≤ y.position.line := by
  induction xs generalizing p with
  | nil => exact .nil
  | cons x xs ih =>
    refine .cons ?_ (ih (p.advance x.text))
    intro y hy
    have hstep : p.line ≤ (p.advance x.text).line := Nat.le_add_right _ _
    exact Nat.le_trans hstep (line_le_of_mem_place hy).1

end Order

lemma line_of_token? {x : Placed} {t : Token} (h : t ∈ x.token?) : t.line = x.position.line := by
  obtain ⟨u, hu, rfl⟩ := Option.map_eq_some_iff.mp h
  rw [(meaning_of_located? hu).2]

lemma line_of_fault? {x : Placed} {f : Fault} (h : f ∈ x.fault?) : f.line = x.position.line := by
  rw [(meaning_of_fault? h).2]

theorem pairwise_line_tokens (source : Text) :
    (scan source).tokens.Pairwise fun t u => t.line ≤ u.line := by
  have hplaced := pairwise_line_place Position.start (pieces source)
  rw [Scan.tokens, List.pairwise_append]
  refine ⟨?_, List.pairwise_singleton _ _, ?_⟩
  · apply hplaced.filterMap
    intro x y hxy t ht u hu
    rwa [line_of_token? ht, line_of_token? hu]
  · intro t ht u hu
    obtain ⟨x, hx, hxt⟩ := List.mem_filterMap.mp ht
    rw [line_of_token? hxt, List.mem_singleton.mp hu]
    exact (line_le_of_mem_place hx).2

theorem pairwise_line_diagnostics (source : Text) :
    (scan source).diagnostics.Pairwise fun d e => d.line ≤ e.line := by
  rw [Scan.diagnostics, List.pairwise_map]
  apply (pairwise_line_place Position.start (pieces source)).filterMap
  intro x y hxy f hf g hg
  have hlines := hxy
  rw [← line_of_fault? hf, ← line_of_fault? hg] at hlines
  exact hlines

/-- Every token and every diagnostic has the line on which its lexeme or its faulty piece begins, one more than
the number of line feeds in front of it, and the last token the line behind the whole script. Lines
never decrease. -/
theorem lines_of_scan (source : Text) :
    ∃ xs : List Piece, Divides xs source ∧
      List.Forall₂ Excerpt.IsToken ((excerpts [] xs).filter (·.piece.isLexeme)) (scan source).located ∧
      List.Forall₂ Excerpt.IsDiagnostic ((excerpts [] xs).filter (·.piece.isFaulty))
        (scan source).diagnostics ∧
      (scan source).tokens =
        (scan source).located.map (·.token) ++ [Token.eof (1 + source.lineFeeds)] ∧
      ((scan source).tokens.Pairwise fun t u => t.line ≤ u.line) ∧
      (scan source).diagnostics.Pairwise fun d e => d.line ≤ e.line := by
  refine ⟨pieces source, divides_pieces source, forall₂_isToken source, forall₂_isDiagnostic source, ?_,
    pairwise_line_tokens source, pairwise_line_diagnostics source⟩
  rw [Scan.tokens_eq, Scan.eof, scan, finish_scanFrom]
  rfl

end ScriptLexer
