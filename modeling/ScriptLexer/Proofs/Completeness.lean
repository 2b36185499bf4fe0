import ScriptLexer.Proofs.Modes
import ScriptLexer.Proofs.PromptCounters

/-!
# Completeness read off the characters

Whether an input is complete is decided on its tokens, but it can be decided while its characters come in, one
after the other. It leaves a string open if its last character is read within a string, and the tokens for braces
and parentheses are just those characters that are read as code. Nothing else that a scan finds is needed, and
counters of 32 bits are wide enough for all inputs that have less than `2 ^ 31` characters.
-/

namespace ScriptLexer

/-- The characters of a text that are read as code or as code behind a slash, if its first one is read in the
mode `m`. -/
def Mode.codeOf (m : Mode) : Text → Text
  | [] => []
  | c :: t => (if m = code ∨ m = slash then [c] else []) ++ (m.step c).codeOf t

/-- Parentheses and braces. -/
def Symbol.IsBracket (s : Symbol) : Prop := s ∈ [leftParen, rightParen, leftBrace, rightBrace]

instance (s : Symbol) : Decidable s.IsBracket := inferInstanceAs (Decidable (s ∈ _))

open Mode

/-! ### Open strings -/

section Open

variable {xs : List Piece} {source : Text}

lemma Piece.mode_eq_string_iff {x : Piece} : x.mode = .string ↔ ∃ body, x = .unclosed body := by
  cases x with
  | symbol s => cases s <;> simp [mode]
  | _ => simp [mode]

lemma Piece.eq_nil_of_precedes {body rest : Text} (h : (unclosed body).Precedes rest) : rest = [] := by
  cases h
  rfl

/-- A script ends in string mode if one of its strings is open. -/
theorem Divides.run_eq_string_iff (h : Divides xs source) :
    run code source = .string ↔ ∃ body, .unclosed body ∈ xs := by
  induction h with
  | nil => simp [run]
  | @cons x xs rest head tail ih =>
    by_cases hrest : rest = []
    · have hxs : xs = [] := by rw [← pieces_eq_of_divides tail, hrest, pieces_nil]
      rw [hrest, List.append_nil, x.run_text head, Piece.mode_eq_string_iff, hxs]
      simp [eq_comm]
    · have hread : run code (x.text ++ rest) = run code rest := by
        have hdivides : Divides ([x] ++ xs) (x.text ++ rest) := .cons head tail
        rw [← List.flatMap_singleton Piece.text x]
        exact run_append_of_divides hdivides hrest ⟨[], by rw [List.append_nil, flatMap_text_of_divides tail]⟩
      have hx : ∀ body, x ≠ .unclosed body := by
        rintro body rfl
        exact hrest (Piece.eq_nil_of_precedes head)
      simp [hread, ih, (hx _).symm]

/-- An open string is the last piece of a script, and the only one. -/
theorem Divides.exists_eq_concat {body : Text} (h : Divides xs source) (hmem : .unclosed body ∈ xs) :
    ∃ zs, xs = zs ++ [.unclosed body] ∧ ∀ body', .unclosed body' ∉ zs := by
  induction h with
  | nil => exact absurd hmem List.not_mem_nil
  | @cons x xs rest head tail ih =>
    have hxs : ∀ body', x = .unclosed body' → xs = [] := by
      rintro body' rfl
      rw [← pieces_eq_of_divides tail, Piece.eq_nil_of_precedes head, pieces_nil]
    rcases List.mem_cons.mp hmem with rfl | hmem
    · exact ⟨[], by rw [hxs body rfl, List.nil_append], by simp⟩
    · obtain ⟨zs, rfl, hzs⟩ := ih hmem
      refine ⟨x :: zs, rfl, ?_⟩
      intro body' hbody'
      rcases List.mem_cons.mp hbody' with rfl | hbody'
      · exact absurd (hxs body' rfl) (by simp)
      · exact hzs body' hbody'

end Open

/-- An unterminated string is reported last, and once. -/
theorem exists_diagnostics_concat {text : Text} (h : (scan text).ReportsUnterminated) :
    ∃ ds d, (scan text).diagnostics = ds ++ [d] ∧ d.message = Fault.Cause.unterminatedString.message ∧
      ∀ e ∈ ds, e.message ≠ Fault.Cause.unterminatedString.message := by
  obtain ⟨body, hbody⟩ := not_closed_iff.mp (reportsUnterminated_iff.mp h)
  obtain ⟨zs, hpieces, hzs⟩ := (divides_pieces text).exists_eq_concat hbody
  have hfaults : (scan text).faults =
      (place Position.start zs).filterMap Placed.fault? ++
        [⟨.unterminatedString, (positionAfter Position.start zs).line⟩] := by
    rw [Scan.faults, scan, scanFrom, hpieces, place_append, List.filterMap_append]
    rfl
  refine ⟨_, _, by rw [Scan.diagnostics, hfaults, List.map_append, List.map_singleton], rfl, ?_⟩
  intro e he hmessage
  obtain ⟨f, hf, rfl⟩ := List.mem_map.mp he
  obtain ⟨y, hy, hfault⟩ := List.mem_filterMap.mp hf
  have hmeaning := (meaning_of_fault? hfault).1
  rw [cause_of_message hmessage] at hmeaning
  obtain ⟨body', hbody'⟩ := meaning_eq_unterminated hmeaning
  apply hzs body'
  rw [← hbody', ← map_piece_place Position.start zs]
  exact List.mem_map_of_mem hy

/-! ### Characters that are read as code -/

namespace Mode

variable {m : Mode} {t u : Text}

lemma codeOf_cons (m : Mode) (c : Char) (t : Text) :
    m.codeOf (c :: t) = (if m = code ∨ m = slash then [c] else []) ++ (m.step c).codeOf t := rfl

lemma codeOf_append (m : Mode) (t u : Text) : m.codeOf (t ++ u) = m.codeOf t ++ (m.run t).codeOf u := by
  induction t generalizing m with
  | nil => rfl
  | cons c t ih => rw [List.cons_append, codeOf_cons, codeOf_cons, ih, run_cons, List.append_assoc]

lemma codeOf_sublist (m : Mode) (t : Text) : (m.codeOf t).Sublist t := by
  induction t generalizing m with
  | nil => exact .slnil
  | cons c t ih =>
    rw [codeOf_cons]
    split
    · exact (ih _).cons_cons c
    · exact (ih _).cons c

lemma codeOf_string (ht : quote ∉ t) : string.codeOf t = [] := by
  induction t with
  | nil => rfl
  | cons c t ih =>
    obtain ⟨hc, ht⟩ := List.ne_and_not_mem_of_not_mem_cons ht
    rw [codeOf_cons, step, if_neg (Ne.symm hc), ih ht]
    rfl

lemma codeOf_comment (ht : '\n' ∉ t) : comment.codeOf t = [] := by
  induction t with
  | nil => rfl
  | cons c t ih =>
    obtain ⟨hc, ht⟩ := List.ne_and_not_mem_of_not_mem_cons ht
    rw [codeOf_cons, step, if_neg (Ne.symm hc), ih ht]
    rfl

end Mode

/-! ### Characters of pieces -/

namespace Piece

variable {body : Text}

lemma codeOf_comment (hbody : '\n' ∉ body) : code.codeOf (comment body).text = ['/', '/'] := by
  change ['/', '/'] ++ Mode.comment.codeOf body = ['/', '/']
  rw [Mode.codeOf_comment hbody, List.append_nil]

lemma codeOf_unclosed (hbody : quote ∉ body) : code.codeOf (unclosed body).text = [quote] := by
  change [quote] ++ Mode.string.codeOf body = [quote]
  rw [Mode.codeOf_string hbody, List.append_nil]

lemma codeOf_string (hbody : quote ∉ body) : code.codeOf (string body).text = [quote] := by
  have hopen : code.codeOf (quote :: body) = [quote] := codeOf_unclosed hbody
  have hrun : run code (quote :: body) = Mode.string := run_string hbody
  rw [text, codeOf_append, hopen, hrun]
  rfl

end Piece

section Brackets

variable {s : Symbol} {c : Char}

/-- A bracket occurs as code in no sort of piece but symbols. -/
lemma Symbol.IsBracket.ne (h : s.IsBracket) (hc : s.text = [c]) :
    c ∉ [' ', '\t', '\r', '\n'] ∧ c ≠ quote ∧ c ≠ '/' ∧ c ≠ '.' ∧ ¬Piece.continuesWord c := by
  simp only [IsBracket, List.mem_cons, List.not_mem_nil, or_false] at h
  rcases h with rfl | rfl | rfl | rfl <;> cases hc <;> decide

lemma count_codeOf_symbol (h : s.IsBracket) (hc : s.text = [c]) (t : Symbol) :
    (code.codeOf t.text).count c = if Piece.symbol t = .symbol s then 1 else 0 := by
  simp only [Symbol.IsBracket, List.mem_cons, List.not_mem_nil, or_false] at h
  rcases h with rfl | rfl | rfl | rfl <;> cases hc <;> cases t <;> rfl

/-- A piece shows a bracket as code if it is that bracket. -/
theorem count_codeOf_text (h : s.IsBracket) (hc : s.text = [c]) {x : Piece} {rest : Text} (hx : x.Precedes rest) :
    (code.codeOf x.text).count c = if x = .symbol s then 1 else 0 := by
  obtain ⟨hblank, hquote, hslash, hpoint, hword⟩ := h.ne hc
  have hnone {t : Text} (ht : c ∉ t) : (code.codeOf t).count c = 0 :=
    List.count_eq_zero.mpr fun hmem => ht ((codeOf_sublist code t).subset hmem)
  have hdigits {t : Text} (ht : ∀ d ∈ t, d.isDigit) : c ∉ t := fun hmem =>
    hword (Piece.continuesWord_of_isDigit (ht c hmem))
  cases hx with
  | @blank d _ hd =>
    have hne : c ≠ d := by
      rintro rfl
      exact hblank hd
    rw [if_neg (by simp), hnone (by simpa [Piece.text] using hne)]
  | comment hbody =>
    rw [if_neg (by simp), Piece.codeOf_comment hbody]
    exact List.count_eq_zero.mpr (by simpa using hslash)
  | lone => exact count_codeOf_symbol h hc _
  | short => exact count_codeOf_symbol h hc _
  | lengthened => exact count_codeOf_symbol h hc _
  | @word d letters _ hd hletters =>
    have hne : c ≠ d := by
      rintro rfl
      exact hword (Piece.continuesWord_of_beginsWord hd)
    have hmem : c ∉ letters := fun hmem => hword (hletters c hmem)
    rw [if_neg (by simp), hnone (by simpa [Piece.text] using ⟨hne, hmem⟩)]
  | string hbody =>
    rw [if_neg (by simp), Piece.codeOf_string hbody]
    exact List.count_eq_zero.mpr (by simpa using hquote)
  | integer _ hall =>
    rw [if_neg (by simp)]
    exact hnone (hdigits hall)
  | decimal _ hwhole _ hfraction =>
    have hmem : c ∉ _ ∧ c ≠ '.' ∧ c ∉ _ := ⟨hdigits hwhole, hpoint, hdigits hfraction⟩
    rw [if_neg (by simp), hnone (by simpa [Piece.text] using hmem)]
  | @stray d _ _ _ _ _ hsymbol =>
    have hne : c ≠ d := by
      rintro rfl
      exact hsymbol s hc
    rw [if_neg (by simp), hnone (by simpa [Piece.text] using hne)]
  | unclosed hbody =>
    rw [if_neg (by simp), Piece.codeOf_unclosed hbody]
    exact List.count_eq_zero.mpr (by simpa using hquote)

/-- Behind a piece the rest shows the same brackets as code as it does alone. -/
lemma count_codeOf_mode (h : s.IsBracket) (hc : s.text = [c]) {x : Piece} {rest : Text} (hx : x.Precedes rest) :
    (x.mode.codeOf rest).count c = (code.codeOf rest).count c := by
  cases rest with
  | nil => rfl
  | cons d rest =>
    have hstep : x.mode.step d = code.step d := x.step_mode hx d rfl
    rw [codeOf_cons, codeOf_cons, hstep, List.count_append, List.count_append]
    congr 1
    by_cases hmode : x.mode = code ∨ x.mode = slash
    · rw [if_pos hmode, if_pos (.inl rfl)]
    · -- only a comment ends in another mode, and behind it there is a line feed
      have hd : d = '\n' := by
        cases hx with
        | comment _ hrest => exact hrest d rfl
        | @lone t => cases t <;> simp [Piece.mode] at hmode
        | @short t => cases t <;> simp [Piece.mode] at hmode
        | @lengthened _ t => cases t <;> simp [Piece.mode] at hmode
        | _ => simp [Piece.mode] at hmode
      have hne : c ≠ '\n' := by
        rintro rfl
        exact (h.ne hc).1 (by decide)
      rw [if_neg hmode, if_pos (.inl rfl), hd]
      simp [Ne.symm hne]

/-- The brackets that are read as code are the pieces that are brackets. -/
theorem count_codeOf (h : s.IsBracket) (hc : s.text = [c]) {xs : List Piece} {source : Text}
    (hxs : Divides xs source) : (code.codeOf source).count c = xs.count (.symbol s) := by
  induction hxs with
  | nil => rfl
  | @cons x xs rest head tail ih =>
    rw [codeOf_append, List.count_append, x.run_text head, count_codeOf_text h hc head, count_codeOf_mode h hc head,
      ih, List.count_cons, Nat.add_comm]
    simp

end Brackets

/-! ### Tokens for brackets -/

namespace Prompt

/-- Tokens for a bracket are as many as there are such characters read as code. -/
theorem countSymbol_eq_count_codeOf {s : Symbol} {c : Char} (h : s.IsBracket) (hc : s.text = [c]) (text : Text) :
    countSymbol s (scan text).tokens = (code.codeOf text).count c := by
  rw [countSymbol_eq_count, count_codeOf h hc (divides_pieces text)]

/-- An input of less than `2 ^ 31` characters is complete if its last character leaves no string open and, of the
characters that are read as code, no more open a brace or a parenthesis than close one. No counter overflows on its
tokens, so the test finds what it looks for. An unterminated string is reported if the last character leaves a string
open, and then it is reported once, behind everything else. -/
theorem isComplete_iff_mode (text : Text) (h : text.length < 2 ^ 31) :
    (isComplete text ↔ run code text ≠ .string ∧
      (code.codeOf text).count '\x7b' ≤ (code.codeOf text).count '\x7d' ∧
      (code.codeOf text).count '(' ≤ (code.codeOf text).count ')') ∧
    (isComplete text ↔ Complete text) ∧ (∀ o, testComplete o text = pure (isComplete text)) ∧
    ((scan text).ReportsUnterminated ↔ run code text = .string) ∧
    ((scan text).ReportsUnterminated → ∃ ds d, (scan text).diagnostics = ds ++ [d] ∧
      d.message = "Unterminated string.".toList ∧ ∀ e ∈ ds, e.message ≠ "Unterminated string.".toList) := by
  have hopen : (scan text).ReportsUnterminated ↔ run code text = .string := by
    rw [reportsUnterminated_iff, not_closed_iff, (divides_pieces text).run_eq_string_iff]
  have hcountable : Countable text := countable_of_length_lt h
  have hcomplete : isComplete text ↔ Complete text := isComplete_iff_complete hcountable
  have htest (o : Overflow) : testComplete o text = pure (isComplete text) :=
    testComplete_eq (fun _ => Nat.lt_of_le_of_lt (length_faults_le text) h) fun _ => hcountable
  refine ⟨?_, hcomplete, htest, hopen, exists_diagnostics_concat⟩
  rw [hcomplete, Complete, hopen, countSymbol_eq_count_codeOf (s := .leftBrace) (by decide) rfl,
    countSymbol_eq_count_codeOf (s := .rightBrace) (by decide) rfl,
    countSymbol_eq_count_codeOf (s := .leftParen) (by decide) rfl,
    countSymbol_eq_count_codeOf (s := .rightParen) (by decide) rfl]

theorem isComplete_iff_mode_open_string :
    let text : Text := "f(\x7b)\n // (\n/'(\n)' @ \x7d'(/".toList
    text.length < 2 ^ 31 ∧
      (isComplete text ↔ run code text ≠ .string ∧
        (code.codeOf text).count '\x7b' ≤ (code.codeOf text).count '\x7d' ∧
        (code.codeOf text).count '(' ≤ (code.codeOf text).count ')') ∧
      (isComplete text ↔ Complete text) ∧ (∀ o, testComplete o text = pure (isComplete text)) ∧
      ((scan text).ReportsUnterminated ↔ run code text = .string) ∧
      ((scan text).ReportsUnterminated → ∃ ds d, (scan text).diagnostics = ds ++ [d] ∧
        d.message = "Unterminated string.".toList ∧ ∀ e ∈ ds, e.message ≠ "Unterminated string.".toList) := by
  intro text
  have h : text.length < 2 ^ 31 := by decide
  exact ⟨h, isComplete_iff_mode text h⟩

end Prompt

end ScriptLexer
