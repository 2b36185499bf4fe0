import Mathlib.Tactic.Lemma
import ScriptLexer.Piece.Grammar

/-!
# The only division of a script

A piece that is allowed at the beginning of a script is the one that is found there, so a script has no
division but its pieces. Each sort of piece is read back from its text and from what may stand behind it.
-/

namespace ScriptLexer

section Runs

variable {p : Char → Bool} {run rest : Text}

lemma takeWhile_run_append (hrun : ∀ d ∈ run, p d) (hrest : ∀ d ∈ rest.head?, ¬p d) :
    (run ++ rest).takeWhile p = run := by
  rw [List.takeWhile_append_of_pos hrun]
  cases rest with
  | nil => simp
  | cons d rest =>
    have hd : ¬p d := hrest d rfl
    rw [List.takeWhile_cons_of_neg hd, List.append_nil]

lemma dropWhile_run_append (hrun : ∀ d ∈ run, p d) (hrest : ∀ d ∈ rest.head?, ¬p d) :
    (run ++ rest).dropWhile p = rest := by
  rw [List.dropWhile_append_of_pos hrun]
  cases rest with
  | nil => rfl
  | cons d rest =>
    have hd : ¬p d := hrest d rfl
    rw [List.dropWhile_cons_of_neg hd]

lemma forall_mem_ne {c : Char} {body : Text} (h : c ∉ body) : ∀ d ∈ body, (d != c) = true := by
  intro d hd
  have hne : d ≠ c := by
    rintro rfl
    exact h hd
  simpa using hne

end Runs

namespace Piece

variable {c : Char} {rest : Text}

/-! ### What the first character decides -/

lemma not_isWhitespace_of_continuesWord (hc : continuesWord c) : ¬c.isWhitespace := by
  intro h
  have hmem := isWhitespace_iff.mp h
  simp only [List.mem_cons, List.not_mem_nil, or_false] at hmem
  rcases hmem with rfl | rfl | rfl | rfl <;> exact absurd hc (by decide)

lemma ne_quote_of_continuesWord (hc : continuesWord c) : c ≠ quote := by
  rintro rfl
  exact absurd hc (by decide)

lemma continuesWord_of_isDigit (hc : c.isDigit) : continuesWord c := by
  rw [continuesWord, Char.isAlphanum, hc, Bool.or_true, Bool.true_or]

lemma not_isWhitespace_of_isDigit (hc : c.isDigit) : ¬c.isWhitespace :=
  not_isWhitespace_of_continuesWord (continuesWord_of_isDigit hc)

lemma continuesWord_of_beginsWord (hc : beginsWord c) : continuesWord c := by
  simp only [beginsWord, continuesWord, Char.isAlphanum, Bool.or_eq_true] at *
  rcases hc with hletter | hunderscore
  · exact .inl (.inl hletter)
  · exact .inr hunderscore

lemma not_isDigit_of_beginsWord (hc : beginsWord c) : ¬c.isDigit := by
  intro hdigit
  have hnine : c.toNat ≤ 57 := (Char.isDigit_iff_toNat.mp hdigit).2
  have halpha : c.isAlpha = (c.isUpper || c.isLower) := rfl
  simp only [beginsWord, halpha, Bool.or_eq_true, beq_iff_eq] at hc
  rcases hc with (hupper | hlower) | rfl
  · have hcode : 65 ≤ c.toNat := UInt32.le_iff_toNat_le.mp (of_decide_eq_true hupper).1
    omega
  · have hcode : 97 ≤ c.toNat :=
      UInt32.le_iff_toNat_le.mp (of_decide_eq_true (Bool.and_eq_true_iff.mp hlower).1)
    omega
  · exact absurd hdigit (by decide)

lemma next_blank (hc : c ∈ [' ', '\t', '\r', '\n']) : next c rest = (blank c, rest) := by
  rw [next, if_pos (isWhitespace_iff.mpr hc)]

lemma next_quote : next quote rest = nextString rest := by
  rw [next, if_neg (by decide), if_pos rfl]

lemma next_digit (hc : c.isDigit) : next c rest = nextNumber c rest := by
  have hquote := ne_quote_of_continuesWord (continuesWord_of_isDigit hc)
  rw [next, if_neg (not_isWhitespace_of_isDigit hc), if_neg hquote, if_pos hc]

lemma next_word (hc : beginsWord c) :
    next c rest = (word (c :: rest.takeWhile continuesWord), rest.dropWhile continuesWord) := by
  have hcontinues := continuesWord_of_beginsWord hc
  have hblank := not_isWhitespace_of_continuesWord hcontinues
  have hquote := ne_quote_of_continuesWord hcontinues
  rw [next, if_neg hblank, if_neg hquote, if_neg (not_isDigit_of_beginsWord hc), if_pos hc]

lemma next_symbol {s : Symbol} (hs : s.text = [c]) : next c rest = nextSymbol s rest := by
  have hsingle := Symbol.single?_eq_some_iff.mpr hs
  have hclass : c.isWhitespace = false ∧ c ≠ quote ∧ c.isDigit = false ∧ beginsWord c = false := by
    cases s <;> simp only [Symbol.text, List.cons.injEq, and_true, reduceCtorEq, and_false] at hs <;>
      subst hs <;> decide
  obtain ⟨hblank, hquote, hdigit, hword⟩ := hclass
  simp [next, hblank, hquote, hdigit, hword, hsingle]

lemma next_stray (hblank : c ∉ [' ', '\t', '\r', '\n']) (hquote : c ≠ quote) (hdigit : ¬c.isDigit)
    (hword : ¬beginsWord c) (hsymbol : ∀ s : Symbol, s.text ≠ [c]) : next c rest = (stray c, rest) := by
  have hnone : Symbol.single? c = none := by
    cases hs : Symbol.single? c with
    | none => rfl
    | some s => exact absurd (Symbol.single?_eq_some_iff.mp hs) (hsymbol s)
  have hspace : ¬c.isWhitespace := fun h => hblank (isWhitespace_iff.mp h)
  rw [next, if_neg hspace, if_neg hquote, if_neg hdigit, if_neg hword, hnone]

/-! ### Reading one piece back -/

lemma nextString_string {body : Text} (hbody : quote ∉ body) :
    nextString (body ++ quote :: rest) = (string body, rest) := by
  have hrun := forall_mem_ne hbody
  have hstop : ∀ d ∈ (quote :: rest).head?, ¬(d != quote) = true := by simp
  rw [nextString, dropWhile_run_append hrun hstop, takeWhile_run_append hrun hstop]

lemma nextString_unclosed {body : Text} (hbody : quote ∉ body) :
    nextString body = (unclosed body, []) := by
  have hrun := forall_mem_ne hbody
  have hstop : ∀ d ∈ ([] : Text).head?, ¬(d != quote) = true := by simp
  have htake := takeWhile_run_append hrun hstop
  have hdrop := dropWhile_run_append hrun hstop
  rw [List.append_nil] at htake hdrop
  rw [nextString, hdrop, htake]

lemma nextNumber_integer {digit : Char} {digits : Text} (hdigits : ∀ d ∈ digits, d.isDigit)
    (hrest : ∀ d ∈ rest.head?, ¬d.isDigit) (hpoint : ∀ d tail, rest = '.' :: d :: tail → ¬d.isDigit) :
    nextNumber digit (digits ++ rest) = (integer (digit :: digits), rest) := by
  rw [nextNumber, takeWhile_run_append hdigits hrest, dropWhile_run_append hdigits hrest]
  split
  · next d tail => rw [if_neg (hpoint d tail rfl)]
  · rfl

lemma nextNumber_decimal {digit : Char} {digits fraction : Text} (hdigits : ∀ d ∈ digits, d.isDigit)
    (hne : fraction ≠ []) (hfraction : ∀ d ∈ fraction, d.isDigit)
    (hrest : ∀ d ∈ rest.head?, ¬d.isDigit) :
    nextNumber digit (digits ++ '.' :: (fraction ++ rest)) =
      (decimal (digit :: digits) fraction, rest) := by
  obtain ⟨c, fraction, rfl⟩ := List.exists_cons_of_ne_nil hne
  have hc : c.isDigit := hfraction c List.mem_cons_self
  have htail : ∀ d ∈ fraction, d.isDigit := fun d hd => hfraction d (List.mem_cons_of_mem c hd)
  have hstop : ∀ d ∈ ('.' :: c :: (fraction ++ rest)).head?, ¬d.isDigit := by
    rintro d ⟨⟩
    decide
  rw [List.cons_append, nextNumber, takeWhile_run_append hdigits hstop, dropWhile_run_append hdigits hstop]
  simp only [if_pos hc, takeWhile_run_append htail hrest, dropWhile_run_append htail hrest]

lemma nextSymbol_of_not_comment {s : Symbol} (h : s = .slash → rest.head? ≠ some '/') :
    nextSymbol s rest = (symbol (s.lengthen rest).1, (s.lengthen rest).2) := by
  rw [nextSymbol]
  rintro tail rfl rfl
  exact h rfl rfl

lemma lengthen_eq_self {s : Symbol} (h : ∀ t, s.withEqual? = some t → rest.head? ≠ some '=') :
    s.lengthen rest = (s, rest) := by
  unfold Symbol.lengthen
  split
  · next t tail hequal => exact absurd rfl (h t hequal)
  · rfl

lemma text_eq_singleton_of_withEqual? {s t : Symbol} (h : s.withEqual? = some t) : ∃ c, s.text = [c] := by
  cases s <;> simp [Symbol.withEqual?] at h <;> exact ⟨_, rfl⟩

lemma ne_slash_of_withEqual? {s t : Symbol} (h : s.withEqual? = some t) : s ≠ .slash := by
  rintro rfl
  simp [Symbol.withEqual?] at h

/-- A piece that is allowed at the beginning of a script is the one that is found there. -/
theorem next_of_precedes {x : Piece} (h : x.Precedes rest) :
    ∃ c cs, x.text = c :: cs ∧ next c (cs ++ rest) = (x, rest) := by
  cases h with
  | blank hc => exact ⟨_, _, rfl, next_blank hc⟩
  | @comment body _ hbody hrest =>
    refine ⟨'/', '/' :: body, rfl, ?_⟩
    have hrun := forall_mem_ne hbody
    have hstop : ∀ d ∈ rest.head?, ¬(d != '\n') = true := fun d hd => by simpa using hrest d hd
    rw [next_symbol (s := .slash) rfl, List.cons_append, nextSymbol, takeWhile_run_append hrun hstop,
      dropWhile_run_append hrun hstop]
  | @lone s _ hs hequal hslash =>
    obtain ⟨c, hc⟩ := List.length_eq_one_iff.mp hs
    have hlone : ∀ t, s.withEqual? = some t → rest.head? ≠ some '=' := by simp [hequal]
    refine ⟨c, [], hc, ?_⟩
    rw [next_symbol hc, List.nil_append, nextSymbol_of_not_comment hslash, lengthen_eq_self hlone]
  | @short s t _ hequal hrest =>
    obtain ⟨c, hc⟩ := text_eq_singleton_of_withEqual? hequal
    have hslash : s = .slash → rest.head? ≠ some '/' := fun h => absurd h (ne_slash_of_withEqual? hequal)
    refine ⟨c, [], hc, ?_⟩
    rw [next_symbol hc, List.nil_append, nextSymbol_of_not_comment hslash,
      lengthen_eq_self fun _ _ => hrest]
  | @lengthened s t _ hequal =>
    obtain ⟨c, hc⟩ := text_eq_singleton_of_withEqual? hequal
    have htext : t.text = [c, '='] := by rw [Symbol.text_of_withEqual? hequal, hc]; rfl
    refine ⟨c, ['='], htext, ?_⟩
    rw [next_symbol hc, nextSymbol_of_not_comment fun h => absurd h (ne_slash_of_withEqual? hequal)]
    simp [Symbol.lengthen, hequal]
  | word hc hletters hrest =>
    refine ⟨_, _, rfl, ?_⟩
    rw [next_word hc, takeWhile_run_append hletters hrest, dropWhile_run_append hletters hrest]
  | string hbody =>
    refine ⟨quote, _, rfl, ?_⟩
    rw [next_quote, List.append_eq, List.append_assoc]
    exact nextString_string hbody
  | @integer digits _ hne hdigits hrest hpoint =>
    obtain ⟨digit, digits, rfl⟩ := List.exists_cons_of_ne_nil hne
    have hdigit : digit.isDigit := hdigits digit List.mem_cons_self
    refine ⟨digit, digits, rfl, ?_⟩
    rw [next_digit hdigit]
    exact nextNumber_integer (fun d hd => hdigits d (List.mem_cons_of_mem _ hd)) hrest hpoint
  | @decimal whole fraction _ hwne hwhole hfne hfraction hrest =>
    obtain ⟨digit, digits, rfl⟩ := List.exists_cons_of_ne_nil hwne
    have hdigit : digit.isDigit := hwhole digit List.mem_cons_self
    refine ⟨digit, digits ++ '.' :: fraction, rfl, ?_⟩
    rw [next_digit hdigit, List.append_assoc, List.cons_append]
    exact nextNumber_decimal (fun d hd => hwhole d (List.mem_cons_of_mem _ hd)) hfne hfraction hrest
  | stray hblank hquote hdigit hword hsymbol =>
    exact ⟨_, _, rfl, next_stray hblank hquote hdigit hword hsymbol⟩
  | unclosed hbody =>
    refine ⟨quote, _, rfl, ?_⟩
    rw [next_quote, List.append_nil]
    exact nextString_unclosed hbody

end Piece

theorem pieces_eq_of_divides {xs : List Piece} {source : Text} (h : Divides xs source) :
    pieces source = xs := by
  induction h with
  | nil => exact pieces_nil
  | @cons x xs rest head tail ih =>
    obtain ⟨c, cs, htext, hnext⟩ := Piece.next_of_precedes head
    rw [htext, List.cons_append, pieces_cons, hnext, ih]

lemma flatMap_text_of_divides {xs : List Piece} {source : Text} (h : Divides xs source) :
    xs.flatMap Piece.text = source := by
  rw [← pieces_eq_of_divides h, flatMap_text_pieces]

/-- The pieces of a script are its only division. -/
theorem divides_iff {xs : List Piece} {source : Text} : Divides xs source ↔ pieces source = xs := by
  constructor
  · exact pieces_eq_of_divides
  · rintro rfl
    exact divides_pieces source

end ScriptLexer
