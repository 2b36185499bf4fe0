import ScriptLexer.Proofs.Ahead

/-!
# Scanning a row of lexemes back

A row of lexemes that is written out as a text is scanned back as it is if and only if it keeps apart what
would merge. If each lexeme is found in front of what stands behind it, nothing but blanks and comments
is found between them. The other way round, if the scan finds the lexemes of the row and nothing else, it finds
the first of them in its place, for otherwise it would be ahead of the row.
-/

namespace ScriptLexer

/-- The kind and the lexeme of the token that a piece stands for. -/
def Piece.token? (x : Piece) : Option (Token.Kind × Text) :=
  match x.meaning with
  | .lexeme kind _ => some (kind, x.text)
  | _ => none

def Spaced.token (i : Spaced) : Token.Kind × Text := (i.lexeme.kind, i.lexeme.text)

/-! ### Pieces instead of tokens -/

section Pieces

variable {source : Text} {items : List Spaced} {x : Piece} {xs : List Piece}

lemma map_tokens (source : Text) : (scan source).tokens.map (fun t => (t.kind, t.lexeme)) =
    (pieces source).filterMap Piece.token? ++ [(.eof, [])] := by
  have hplaced : (scan source).placed.map Placed.piece = pieces source := map_piece_place _ _
  rw [Scan.tokens, List.map_append, List.map_filterMap, ← hplaced, List.filterMap_map]
  congr 2
  funext y
  rw [Function.comp_apply, Placed.token?, Placed.located?, Piece.token?]
  cases y.piece.meaning <;> rfl

lemma diagnostics_eq_nil_iff : (scan source).diagnostics = [] ↔
    ∀ x ∈ pieces source, ∀ cause, x.meaning ≠ .fault cause := by
  have hplaced : (scan source).placed.map Placed.piece = pieces source := map_piece_place _ _
  rw [Scan.diagnostics, List.map_eq_nil_iff, Scan.faults, List.filterMap_eq_nil_iff, ← hplaced,
    List.forall_mem_map]
  apply forall₂_congr
  intro y _
  rw [Placed.fault?]
  cases y.piece.meaning <;> simp

lemma exists_precedes_of_mem (h : Divides xs source) (hx : x ∈ xs) : ∃ rest, x.Precedes rest := by
  obtain ⟨ys, zs, rfl⟩ := List.append_of_mem hx
  exact ⟨_, h.precedes⟩

namespace Lexeme

variable {a : Lexeme} {rest : Text}

lemma pieces_text (a : Lexeme) : pieces a.text = [a.piece] := by
  apply pieces_eq_of_divides
  have halone : a.piece.Precedes [] := by
    rw [precedes_iff_endsBefore]
    cases a <;> simp [EndsBefore]
  have hdivides := Divides.cons halone .nil
  rwa [text_piece, List.append_nil] at hdivides

/-- A piece with the text of a lexeme is the piece of that lexeme. -/
lemma eq_piece (hx : x.Precedes rest) (htext : x.text = a.text) : x = a.piece := by
  have hdivides := Divides.cons (hx.of_isPrefix List.nil_prefix) .nil
  rw [List.append_nil, htext] at hdivides
  have hpieces := pieces_eq_of_divides hdivides
  rw [pieces_text] at hpieces
  exact (List.cons.inj hpieces).1.symm

end Lexeme

/-- A piece is that of a lexeme if it stands for the same token. -/
lemma eq_piece_iff {i : Spaced} {rest : Text} {kind : Token.Kind} {literal : Option Literal} (hx : x.Precedes rest)
    (hmeaning : x.meaning = .lexeme kind literal) : x = i.piece ↔ (kind, x.text) = i.token := by
  constructor
  · rintro rfl
    obtain ⟨literal', hlexeme⟩ := i.lexeme.exists_meaning_piece
    rw [Spaced.piece, hlexeme] at hmeaning
    cases hmeaning
    rw [Spaced.piece, Lexeme.text_piece, Spaced.token]
  · exact fun h => Lexeme.eq_piece hx (Prod.mk.inj h).2

/-- Pieces give the tokens of a row and no faults if they are the lexemes of the row, apart from white space
and comments. -/
theorem filter_contributes_iff (hxs : ∀ x ∈ xs, ∃ rest, x.Precedes rest) :
    xs.filter Piece.contributes = items.map Spaced.piece ↔
      (∀ x ∈ xs, ∀ cause, x.meaning ≠ .fault cause) ∧ xs.filterMap Piece.token? = items.map Spaced.token := by
  induction xs generalizing items with
  | nil => simp [eq_comm]
  | cons x xs ih =>
    obtain ⟨hx, hxs⟩ := List.forall_mem_cons.mp hxs
    rw [List.forall_mem_cons]
    cases hmeaning : x.meaning with
    | nothing =>
      have hfilter : ¬x.contributes := fun h => Piece.contributes_iff.mp h hmeaning
      have htoken : x.token? = none := by rw [Piece.token?, hmeaning]
      rw [List.filter_cons_of_neg hfilter, List.filterMap_cons_none htoken, ih hxs]
      simp
    | fault cause =>
      have hfilter : x.contributes := Piece.contributes_iff.mpr (by simp [hmeaning])
      rw [List.filter_cons_of_pos hfilter]
      refine iff_of_false ?_ fun h => h.1.1 cause rfl
      intro h
      obtain ⟨i, _, rfl, hi, _⟩ := List.map_eq_cons_iff.mp h.symm
      obtain ⟨literal, hlexeme⟩ := i.lexeme.exists_meaning_piece
      rw [← hi, Spaced.piece, hlexeme] at hmeaning
      cases hmeaning
    | lexeme kind literal =>
      have hfilter : x.contributes := Piece.contributes_iff.mpr (by simp [hmeaning])
      have htoken : x.token? = some (kind, x.text) := by rw [Piece.token?, hmeaning]
      rw [List.filter_cons_of_pos hfilter, List.filterMap_cons_some htoken]
      cases items with
      | nil => simp
      | cons i items =>
        obtain ⟨behind, hprecedes⟩ := hx
        rw [List.map_cons, List.map_cons, List.cons.injEq, List.cons.injEq, ih hxs,
          eq_piece_iff hprecedes hmeaning]
        simp only [ne_eq, reduceCtorEq, not_false_eq_true, implies_true, true_and, and_left_comm]

/-- A script is scanned as a row if its pieces are the lexemes of the row, apart from white space and
comments. -/
theorem scan_iff_filter_pieces : ((scan source).diagnostics = [] ∧
    (scan source).tokens.map (fun t => (t.kind, t.lexeme)) = items.map Spaced.token ++ [(.eof, [])]) ↔
      (pieces source).filter Piece.contributes = items.map Spaced.piece := by
  rw [map_tokens, diagnostics_eq_nil_iff, List.append_left_inj,
    filter_contributes_iff fun x hx => exists_precedes_of_mem (divides_pieces source) hx]

end Pieces

/-! ### Rows that are found -/

/-- A gap in front of a divided text is divided into white space and comments. -/
theorem Spacing.exists_divides {g rest : Text} {xs : List Piece} (hg : Spacing g) (h : Divides xs rest) :
    ∃ ps, Divides (ps ++ xs) (g ++ rest) ∧ ps.filter Piece.contributes = [] := by
  induction hg with
  | nil => exact ⟨[], h, rfl⟩
  | @blank c t hc tail ih =>
    obtain ⟨ps, hps, hfilter⟩ := ih
    exact ⟨.blank c :: ps, .cons (.blank hc) hps, hfilter⟩
  | @comment body t hbody tail ih =>
    obtain ⟨ps, hps, hfilter⟩ := ih
    refine ⟨.comment body :: .blank '\n' :: ps, ?_, hfilter⟩
    have hfeed : Divides (.blank '\n' :: (ps ++ xs)) ('\n' :: (t ++ rest)) := .cons (.blank (by decide)) hps
    have hcomment : (Piece.comment body).Precedes ('\n' :: (t ++ rest)) := by
      apply Piece.Precedes.comment hbody
      rintro d ⟨⟩
      rfl
    have hdivides := Divides.cons hcomment hfeed
    rw [Piece.text] at hdivides
    simpa using hdivides

/-- If the lexemes of a row are found, nothing else is found but white space and comments. -/
theorem Found.filter_pieces {items : List Spaced} (h : Found items) :
    (pieces (unscan items)).filter Piece.contributes = items.map Spaced.piece := by
  have hdivides : ∃ xs, Divides xs (unscan items) ∧ xs.filter Piece.contributes = items.map Spaced.piece := by
    induction h with
    | nil => exact ⟨[], .nil, rfl⟩
    | @cons i rest head tail ih =>
      obtain ⟨xs, hxs, hfilter⟩ := ih
      obtain ⟨ps, hps, hgap⟩ := i.spacing.exists_divides hxs
      refine ⟨i.piece :: (ps ++ xs), ?_, ?_⟩
      · rw [unscan_cons, ← Lexeme.text_piece]
        exact .cons head hps
      · rw [List.filter_cons_of_pos i.contributes_piece, List.filter_append, hgap, hfilter]
        rfl
  obtain ⟨xs, hxs, hfilter⟩ := hdivides
  rw [pieces_eq_of_divides hxs, hfilter]

/-- If nothing but the lexemes of a row is found, each of them is found in its place. -/
theorem Found.of_filter_pieces {items : List Spaced}
    (h : (pieces (unscan items)).filter Piece.contributes = items.map Spaced.piece) : Found items := by
  induction items with
  | nil => exact .nil
  | cons i rest ih =>
    have hdivides := divides_pieces (unscan (i :: rest))
    cases hpieces : pieces (unscan (i :: rest)) with
    | nil =>
      rw [hpieces] at h
      cases h
    | cons y zs =>
      rw [hpieces] at h hdivides
      have hcut : Divides ([y] ++ zs) (unscan ([] ++ i :: rest)) := hdivides
      by_cases hy : y.contributes
      · rw [List.filter_cons_of_pos hy] at h
        obtain ⟨rfl, hzs⟩ := List.cons.inj h
        have hrest : zs.flatMap Piece.text = i.gap ++ unscan rest := by
          have hsource := flatMap_text_of_divides hdivides
          rw [unscan_cons, List.flatMap_cons, Spaced.piece, Lexeme.text_piece] at hsource
          exact List.append_cancel_left hsource
        have hdrop := hcut.drop
        have hfirst : Divides ([] ++ i.piece :: zs) (unscan (i :: rest)) := hdivides
        have hhead := hfirst.precedes
        rw [hrest] at hdrop hhead
        apply Found.cons hhead
        apply ih
        obtain ⟨ps, hps, hgap⟩ := i.spacing.exists_divides (divides_pieces (unscan rest))
        rw [← pieces_eq_of_divides hdrop, pieces_eq_of_divides hps, List.filter_append, hgap] at hzs
        exact hzs
      · -- with white space or a comment in place of the first lexeme the scan is ahead
        rw [List.filter_cons_of_neg hy] at h
        have hlength : (unscan []).length < ([y].flatMap Piece.text).length := by
          have hmem : y ∈ pieces (unscan (i :: rest)) := by
            rw [hpieces]
            exact List.mem_cons_self
          rw [List.flatMap_singleton]
          exact List.length_pos_iff.mpr (text_ne_nil_of_mem_pieces hmem)
        exact absurd hlength (not_ahead hcut (List.filter_cons_of_neg hy) h)

/-- A row of lexemes is scanned back as it is, without diagnostics, if and only if it keeps apart all that would
not be found again next to each other. -/
theorem scan_unscan_iff (items : List Spaced) :
    ((scan (unscan items)).diagnostics = [] ∧
      (scan (unscan items)).tokens.map (fun t => (t.kind, t.lexeme)) =
        items.map (fun i => (i.lexeme.kind, i.lexeme.text)) ++ [(.eof, [])]) ↔ Separated items := by
  rw [← found_iff_separated]
  constructor
  · exact fun h => Found.of_filter_pieces (scan_iff_filter_pieces.mp h)
  · exact fun h => scan_iff_filter_pieces.mpr h.filter_pieces

end ScriptLexer
