import ScriptLexer.Proofs.Findings
import ScriptLexer.Proofs.Lookahead

/-!
# Locality at tokens

A script can be cut in front of each of its tokens and behind it. What stands in front of the token, its
lexeme and what stands behind it are divided alone as they are in the whole, for no piece reaches over such
a cut and no lookahead needs to see beyond it.
-/

namespace ScriptLexer

/-- Whether a script is scanned like three texts: what stands in front of the token `t`, the lexeme of `t`, and
what stands behind it. The tokens `front` come before `t` and the tokens `back` after it. -/
structure ScannedAround (source : Text) (front : List Token.Located) (t : Token.Located)
    (back : List Token.Located) (before after : Text) : Prop where
  source_eq : source = before ++ t.token.lexeme ++ after
  offset_eq : t.offset = before.utf8Length
  /-- alone, the lexeme gives the token on the first line and at offset zero -/
  alone : (scan t.token.lexeme).diagnostics = [] ∧
    (scan t.token.lexeme).located = [⟨{ t.token with line := 1 }, 0⟩] ∧
    (scan t.token.lexeme).tokens = [{ t.token with line := 1 }, Token.eof (1 + t.token.lexeme.lineFeeds)]
  front_eq : front = (scan before).located
  back_eq : back = (scan after).located.map (Token.Located.shift (before ++ t.token.lexeme).lineFeeds
    (before ++ t.token.lexeme).utf8Length)
  tokens_eq : (scan source).tokens = front.map (·.token) ++
    t.token :: (scan after).tokens.map (Token.raise (before ++ t.token.lexeme).lineFeeds)
  diagnostics_eq : (scan source).diagnostics = (scan before).diagnostics ++
    (scan after).diagnostics.map (Diagnostic.raise (before ++ t.token.lexeme).lineFeeds)
  /-- no token is found in the gap up to the next token -/
  gap : ∀ next rest, back = next :: rest →
    ∃ gap behind : Text, after = gap ++ next.token.lexeme ++ behind ∧
      next.offset = (before ++ t.token.lexeme ++ gap).utf8Length ∧
      (scan gap).tokens = [Token.eof (1 + gap.lineFeeds)]

/-- A token of placed pieces comes from one of them, and the tokens around it from the pieces around it. -/
lemma exists_piece_of_located {p : Position} {xs : List Piece} {front back : List Token.Located}
    {t : Token.Located} (h : (place p xs).filterMap Placed.located? = front ++ t :: back) :
    ∃ ys x zs, xs = ys ++ x :: zs ∧ (place p ys).filterMap Placed.located? = front ∧
      Placed.located? ⟨p.advance (ys.flatMap Piece.text), x⟩ = some t ∧
      (place ((p.advance (ys.flatMap Piece.text)).advance x.text) zs).filterMap Placed.located? = back := by
  induction xs generalizing p front with
  | nil => exact absurd h.symm (List.append_ne_nil_of_right_ne_nil front (List.cons_ne_nil t back))
  | cons x xs ih =>
    rw [place] at h
    cases hx : Placed.located? ⟨p, x⟩ with
    | none =>
      rw [List.filterMap_cons_none hx] at h
      obtain ⟨ys, y, zs, rfl, hfront, ht, hback⟩ := ih h
      refine ⟨x :: ys, y, zs, rfl, ?_, ?_, ?_⟩
      · rw [place, List.filterMap_cons_none hx, hfront]
      · rw [List.flatMap_cons, Position.advance_append, ht]
      · rw [List.flatMap_cons, Position.advance_append, hback]
    | some u =>
      rw [List.filterMap_cons_some hx] at h
      cases front with
      | nil =>
        obtain ⟨rfl, hback⟩ := List.cons.inj h
        exact ⟨[], x, xs, rfl, rfl, hx, hback⟩
      | cons v front =>
        obtain ⟨rfl, htail⟩ := List.cons.inj h
        obtain ⟨ys, y, zs, rfl, hfront, ht, hback⟩ := ih htail
        refine ⟨x :: ys, y, zs, rfl, ?_, ?_, ?_⟩
        · rw [place, List.filterMap_cons_some hx, hfront]
        · rw [List.flatMap_cons, Position.advance_append, ht]
        · rw [List.flatMap_cons, Position.advance_append, hback]

/-- Around a token a script is cut between pieces, in front of the piece of the token and behind it. -/
theorem exists_cut_of_located {source : Text} {front back : List Token.Located} {t : Token.Located}
    (h : (scan source).located = front ++ t :: back) :
    ∃ before after x, source = before ++ t.token.lexeme ++ after ∧
      pieces source = pieces (before ++ t.token.lexeme) ++ pieces after ∧
      pieces (before ++ t.token.lexeme) = pieces before ++ pieces t.token.lexeme ∧
      pieces t.token.lexeme = [x] ∧ x.meaning = .lexeme t.token.kind t.token.literal ∧
      t.offset = before.utf8Length ∧
      (scan before).located = front ∧
      (scan after).located.map (Token.Located.shift (before ++ t.token.lexeme).lineFeeds
        (before ++ t.token.lexeme).utf8Length) = back := by
  obtain ⟨ys, x, zs, hpieces, hfront, hx, hback⟩ := exists_piece_of_located h
  obtain ⟨hmeaning, ht⟩ := meaning_of_located? hx
  have hlexeme : x.text = t.token.lexeme := by rw [ht]
  have hoffset : t.offset = Text.utf8Length (ys.flatMap Piece.text) := by
    rw [ht]
    exact Nat.zero_add _
  have hjoin : (ys ++ [x]).flatMap Piece.text = ys.flatMap Piece.text ++ t.token.lexeme := by
    rw [List.flatMap_append, List.flatMap_singleton, hlexeme]
  have hcut : pieces source = (ys ++ [x]) ++ zs := by
    rw [hpieces, List.append_assoc, List.singleton_append]
  have hsource : source = ys.flatMap Piece.text ++ t.token.lexeme ++ zs.flatMap Piece.text := by
    rw [← flatMap_text_pieces source, hcut, List.flatMap_append, hjoin]
  obtain ⟨hleft, hzs⟩ := pieces_of_append hcut
  obtain ⟨hys, hxs⟩ := pieces_of_append hleft
  rw [hjoin] at hleft
  rw [List.flatMap_singleton, hlexeme] at hxs
  refine ⟨ys.flatMap Piece.text, zs.flatMap Piece.text, x, hsource, ?_, ?_, hxs, hmeaning, hoffset, ?_, ?_⟩
  · rw [hleft, hzs, hcut]
  · rw [hleft, hys, hxs]
  · rw [scan, scanFrom, hys]
    exact hfront
  · rw [← Position.advance_append, hlexeme] at hback
    rw [← hback, Scan.located_eq, scan, ← filterMap_map_shift (Finding.located?_shift _ _),
      ← findings_scanFrom_advance, ← Scan.located_eq, scanFrom, hzs]
    rfl

lemma findings_of_lexeme {t : Token} {x : Piece} (hx : pieces t.lexeme = [x])
    (hmeaning : x.meaning = .lexeme t.kind t.literal) :
    (scan t.lexeme).findings = [.token ⟨{ t with line := 1 }, 0⟩] := by
  have htext : x.text = t.lexeme := by
    rw [← flatMap_text_pieces t.lexeme, hx, List.flatMap_singleton]
  rw [scan, findings_scanFrom, hx, findingsFrom_cons_lexeme _ _ hmeaning, htext]
  rfl

/-- A lexeme that is alone in its text is found at the beginning, and nothing else is found. -/
lemma scan_of_lexeme {t : Token} {x : Piece} (hx : pieces t.lexeme = [x])
    (hmeaning : x.meaning = .lexeme t.kind t.literal) :
    (scan t.lexeme).located = [⟨{ t with line := 1 }, 0⟩] ∧ (scan t.lexeme).diagnostics = [] := by
  rw [Scan.located_eq, Scan.diagnostics_eq, findings_of_lexeme hx hmeaning]
  exact ⟨rfl, rfl⟩

lemma tokens_of_located {source : Text} {ts : List Token.Located} (h : (scan source).located = ts) :
    (scan source).tokens = ts.map (·.token) ++ [Token.eof (1 + source.lineFeeds)] := by
  rw [Scan.tokens_eq, h, Scan.eof, scan, finish_scanFrom]
  rfl

/-- A script is scanned like three texts around each of its tokens. -/
theorem exists_scannedAround (source : Text) (front back : List Token.Located) (t : Token.Located)
    (h : (scan source).located = front ++ t :: back) :
    ∃ before after, ScannedAround source front t back before after := by
  obtain ⟨before, after, x, rfl, hall, hleft, hx, hmeaning, hoffset, hfront, hback⟩ :=
    exists_cut_of_located h
  have halone := findings_of_lexeme hx hmeaning
  obtain ⟨hlocated, hdiagnostics⟩ := scan_of_lexeme hx hmeaning
  refine ⟨before, after, rfl, hoffset, ⟨hdiagnostics, hlocated, tokens_of_located hlocated⟩, hfront.symm,
    hback.symm, ?_, ?_, ?_⟩
  · rw [Scan.tokens_eq, h, eof_append, ← hback, Scan.tokens_eq, List.map_append, List.map_append,
      List.map_cons, List.map_map, List.map_map, List.append_assoc]
    rfl
  · rw [Scan.diagnostics_eq, Scan.diagnostics_eq, Scan.diagnostics_eq, findings_append_of_pieces hall,
      findings_append_of_pieces hleft, halone, List.filterMap_append, List.filterMap_append,
      filterMap_map_shift (Finding.diagnostic?_shift _ _), filterMap_map_shift (Finding.diagnostic?_shift _ _)]
    exact congrArg (· ++ _) (List.append_nil _)
  · rintro next rest rfl
    obtain ⟨u, us, hu, rfl, _⟩ := List.map_eq_cons_iff.mp hback
    have hfirst : (scan after).located = [] ++ u :: us := hu
    obtain ⟨gap, behind, _, hafter, _, _, _, _, hgapoffset, hgap, _⟩ := exists_cut_of_located hfirst
    refine ⟨gap, behind, hafter, ?_, tokens_of_located hgap⟩
    rw [Text.utf8Length_append _ gap, ← hgapoffset, Nat.add_comm]
    rfl

theorem exists_scannedAround_string :
    let source : Text := "1 \u00e9\n'a\nb'// x\n== @".toList
    let front : List Token.Located := [⟨⟨.number, ['1'], some (.integer 1), 1⟩, 0⟩]
    let t : Token.Located := ⟨⟨.string, "'a\nb'".toList, some (.text "a\nb".toList), 2⟩, 5⟩
    let back : List Token.Located := [⟨⟨.symbol .equalEqual, ['=', '='], none, 4⟩, 15⟩]
    (scan source).located = front ++ t :: back ∧
      ∃ before after, ScannedAround source front t back before after := by
  intro source front t back
  have h : (scan source).located = front ++ t :: back := by decide +kernel
  exact ⟨h, exists_scannedAround source front back t h⟩

end ScriptLexer
