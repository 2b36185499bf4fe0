import ScriptLexer.Proofs.Findings
import ScriptLexer.Proofs.Lookahead

/-!
# Composition by lines

A line feed ends every piece but an open string. A text without an open string and a text on the lines
behind it can therefore be scanned apart, and what is found in the second moves by the extent of the first.
An open string takes all that follows, so behind it nothing more is found until a quote comes.
-/

namespace ScriptLexer

/-- Whether an unterminated string is reported. -/
def Scan.ReportsUnterminated (s : Scan) : Prop :=
  ∃ d ∈ s.diagnostics, d.message = Fault.Cause.unterminatedString.message

instance (s : Scan) : Decidable s.ReportsUnterminated :=
  inferInstanceAs (Decidable (∃ d ∈ s.diagnostics, d.message = _))

/-- Whether no string of a text is left open at its end. -/
def Closed (a : Text) : Prop := ∀ body, Piece.unclosed body ∉ pieces a

lemma cause_of_message {cause : Fault.Cause}
    (h : cause.message = Fault.Cause.unterminatedString.message) : cause = .unterminatedString := by
  cases cause with
  | unexpectedCharacter c =>
    have hthird : some 'e' = some 't' := congrArg (fun t : Text => t[2]?) h
    exact absurd hthird (by decide)
  | unterminatedString => rfl
  | integerOverflow digits =>
    have hfirst : some 'I' = some 'U' := congrArg (fun t : Text => t[0]?) h
    exact absurd hfirst (by decide)

lemma meaning_eq_unterminated {x : Piece} (h : x.meaning = .fault .unterminatedString) :
    ∃ body, x = .unclosed body := by
  cases x with
  | unclosed body => exact ⟨body, rfl⟩
  | integer digits =>
    rw [Piece.meaning] at h
    split at h <;> cases h
  | _ => cases h

lemma not_closed_iff {a : Text} : ¬Closed a ↔ ∃ body, Piece.unclosed body ∈ pieces a := by
  simp only [Closed, Classical.not_forall, Classical.not_not]

/-- An unterminated string is reported for an open string, and for nothing else. -/
theorem reportsUnterminated_iff {a : Text} : (scan a).ReportsUnterminated ↔ ¬Closed a := by
  rw [not_closed_iff]
  constructor
  · rintro ⟨d, hd, hmessage⟩
    obtain ⟨f, hf, rfl⟩ := List.mem_map.mp hd
    obtain ⟨x, hx, hfault⟩ := List.mem_filterMap.mp hf
    have hcause : f.cause = .unterminatedString := cause_of_message hmessage
    have hmeaning := (meaning_of_fault? hfault).1
    rw [hcause] at hmeaning
    obtain ⟨body, hbody⟩ := meaning_eq_unterminated hmeaning
    refine ⟨body, ?_⟩
    rw [← hbody, ← map_piece_place Position.start (pieces a)]
    exact List.mem_map_of_mem hx
  · rintro ⟨body, hbody⟩
    rw [← map_piece_place Position.start (pieces a)] at hbody
    obtain ⟨x, hx, hpiece⟩ := List.mem_map.mp hbody
    have hfault : x.fault? = some ⟨.unterminatedString, x.position.line⟩ := by
      rw [Placed.fault?, hpiece]
      rfl
    have hf : ⟨.unterminatedString, x.position.line⟩ ∈ (scan a).faults :=
      List.mem_filterMap.mpr ⟨x, hx, hfault⟩
    exact ⟨_, List.mem_map_of_mem hf, rfl⟩

/-! ### Cutting at a line feed -/

/-- Divisions of texts with a line feed between them make up a division, if the first has no open string. -/
theorem divides_append_lineFeed {xs ys : List Piece} {a b : Text} (ha : Divides xs a)
    (hclosed : ∀ body, Piece.unclosed body ∉ xs) (hb : Divides ys b) :
    Divides (xs ++ .blank '\n' :: ys) (a ++ '\n' :: b) := by
  induction ha with
  | nil => exact .cons (.blank (by decide)) hb
  | @cons x xs rest head tail ih =>
    have hrest : ∀ body, Piece.unclosed body ∉ xs := fun body hbody =>
      hclosed body (List.mem_cons_of_mem x hbody)
    rw [List.append_assoc]
    apply Divides.cons
    · apply head.of_milder (milder_append_lineFeed rest b)
      rintro body rfl
      exact absurd List.mem_cons_self (hclosed body)
    · exact ih hrest

/-- An open string ends the division of its text and takes whatever is added without a quote. -/
theorem divides_append_open {xs : List Piece} {a t body : Text} (ha : Divides xs a)
    (hmem : Piece.unclosed body ∈ xs) (ht : quote ∉ t) :
    ∃ zs, xs = zs ++ [.unclosed body] ∧ Divides (zs ++ [.unclosed (body ++ t)]) (a ++ t) := by
  induction ha with
  | nil => exact absurd hmem List.not_mem_nil
  | @cons x xs rest head tail ih =>
    rcases List.mem_cons.mp hmem with rfl | htail
    · cases head with
      | unclosed hbody =>
        have hxs : xs = [] := by rw [← pieces_eq_of_divides tail, pieces_nil]
        have hquote : quote ∉ body ++ t := by
          rw [List.mem_append]
          exact not_or.mpr ⟨hbody, ht⟩
        refine ⟨[], by rw [hxs, List.nil_append], ?_⟩
        have hopen := Divides.cons (.unclosed hquote) .nil
        rw [List.append_nil] at hopen
        rwa [List.append_nil]
    · obtain ⟨zs, rfl, hzs⟩ := ih htail
      -- the rest holds the open quote, so it is long enough to keep `t` out of the lookahead
      have hquote : quote ∈ rest := by
        rw [← flatMap_text_of_divides tail]
        exact List.mem_flatMap.mpr ⟨_, htail, List.mem_cons_self⟩
      have hne : rest ≠ [] := List.ne_nil_of_mem hquote
      have hpoint : rest ≠ ['.'] := by
        rintro rfl
        exact absurd hquote (by decide)
      refine ⟨x :: zs, rfl, ?_⟩
      rw [List.append_assoc]
      apply Divides.cons
      · apply head.of_milder (milder_append hne hpoint t)
        rintro body' rfl
        cases head
        exact absurd rfl hne
      · exact hzs

/-! ### Findings on both sides of a line feed -/

section Findings

variable {a : Text} (p : Position)

theorem findings_append_lineFeed (ha : Closed a) (b : Text) :
    (scanFrom p (a ++ '\n' :: b)).findings =
      (scanFrom p a).findings ++ (scanFrom (p.advance (a ++ ['\n'])) b).findings := by
  have hpieces := pieces_eq_of_divides
    (divides_append_lineFeed (divides_pieces a) ha (divides_pieces b))
  rw [findings_scanFrom, findings_scanFrom, findings_scanFrom, hpieces, findingsFrom_append,
    flatMap_text_pieces, findingsFrom_cons_nothing _ _ rfl, Position.advance_append]
  rfl

/-- Behind an open string nothing is found until a quote comes. -/
theorem findings_append_open (ha : ¬Closed a) {t : Text} (ht : quote ∉ t) :
    (scanFrom p (a ++ t)).findings = (scanFrom p a).findings := by
  obtain ⟨body, hbody⟩ := not_closed_iff.mp ha
  obtain ⟨zs, hzs, hdivides⟩ := divides_append_open (divides_pieces a) hbody ht
  rw [findings_scanFrom, findings_scanFrom, pieces_eq_of_divides hdivides, hzs, findingsFrom_append,
    findingsFrom_append]
  rfl

end Findings

lemma closed_of_append {a t : Text} (h : Closed (a ++ t)) (ht : quote ∉ t) : Closed a := by
  intro body hbody
  obtain ⟨zs, _, hdivides⟩ := divides_append_open (divides_pieces a) hbody ht
  apply h (body ++ t)
  rw [pieces_eq_of_divides hdivides]
  exact List.mem_append_right zs List.mem_cons_self

/-- Behind the last line of a text without an open string, a scan goes on as if it had begun there. -/
theorem findings_append {a : Text} (ha : a = [] ∨ a.getLast? = some '\n') (hclosed : Closed a) (b : Text) :
    (scan (a ++ b)).findings =
      (scan a).findings ++ (scan b).findings.map (Finding.shift a.lineFeeds a.utf8Length) := by
  rcases ha with rfl | ha
  · have hmove := findings_scanFrom_advance Position.start [] b
    rw [List.nil_append, scan, scan, findings_scanFrom_nil, List.nil_append, ← hmove]
    rfl
  · obtain ⟨t, rfl⟩ := List.getLast?_eq_some_iff.mp ha
    have ht : Closed t := closed_of_append hclosed (by decide)
    have hall := findings_append_lineFeed Position.start ht b
    have hfirst := findings_append_lineFeed Position.start ht []
    have hrest := findings_scanFrom_advance Position.start (t ++ ['\n']) b
    rw [findings_scanFrom_nil, List.append_nil] at hfirst
    rw [List.append_assoc, List.singleton_append, scan, scan, scan, hall, hfirst, hrest]

/-- The tokens and the diagnostics of a text that consists of lines without an open string, followed by
another text, are those of the first and, moved by its extent, those of the second. -/
theorem scan_append (a b : Text) (ha : a = [] ∨ a.getLast? = some '\n')
    (hclosed : ¬(scan a).ReportsUnterminated) :
    (scan (a ++ b)).located =
        (scan a).located ++ (scan b).located.map (Token.Located.shift a.lineFeeds a.utf8Length) ∧
      (scan (a ++ b)).tokens =
        (scan a).tokens.dropLast ++ (scan b).tokens.map (Token.raise a.lineFeeds) ∧
      (scan (a ++ b)).diagnostics =
        (scan a).diagnostics ++ (scan b).diagnostics.map (Diagnostic.raise a.lineFeeds) := by
  rw [reportsUnterminated_iff, Classical.not_not] at hclosed
  have hfindings := findings_append ha hclosed b
  have heof : (scan (a ++ b)).eof = (scan b).eof.raise a.lineFeeds := by
    rw [Scan.eof, Scan.eof, scan, scan, finish_scanFrom, finish_scanFrom, Position.advance,
      Text.lineFeeds_append, Nat.add_comm a.lineFeeds, ← Nat.add_assoc]
    rfl
  have hlocated : (scan (a ++ b)).located =
      (scan a).located ++ (scan b).located.map (Token.Located.shift a.lineFeeds a.utf8Length) := by
    rw [Scan.located_eq, Scan.located_eq, Scan.located_eq, hfindings, List.filterMap_append,
      filterMap_map_shift (Finding.located?_shift _ _)]
  refine ⟨hlocated, ?_, ?_⟩
  · rw [Scan.tokens_eq, Scan.tokens_eq, Scan.tokens_eq, hlocated, heof, List.dropLast_concat,
      List.map_append, List.map_append, List.map_map, List.map_map, List.append_assoc]
    rfl
  · rw [Scan.diagnostics_eq, Scan.diagnostics_eq, Scan.diagnostics_eq, hfindings, List.filterMap_append,
      filterMap_map_shift (Finding.diagnostic?_shift _ _)]

theorem scan_append_comment_line :
    let a : Text := "'\n' @ // x\n".toList
    let b : Text := "= 1".toList
    a.getLast? = some '\n' ∧ ¬(scan a).ReportsUnterminated ∧
      (scan (a ++ b)).located =
        (scan a).located ++ (scan b).located.map (Token.Located.shift a.lineFeeds a.utf8Length) ∧
      (scan (a ++ b)).tokens =
        (scan a).tokens.dropLast ++ (scan b).tokens.map (Token.raise a.lineFeeds) ∧
      (scan (a ++ b)).diagnostics =
        (scan a).diagnostics ++ (scan b).diagnostics.map (Diagnostic.raise a.lineFeeds) := by
  have hlast : "'\n' @ // x\n".toList.getLast? = some '\n' := by decide
  have hclosed : ¬(scan "'\n' @ // x\n".toList).ReportsUnterminated := by decide +kernel
  exact ⟨hlast, hclosed, scan_append _ _ (.inr hlast) hclosed⟩

end ScriptLexer
