import ScriptLexer.Cursor
import ScriptLexer.Proofs.Division

/-!
# Cursors and pieces

Wherever a cursor stands in a script, it has a text behind it in which its piece begins, a text that it has passed
since, and a text in front of it. Slices between its offsets are these texts, and the digits that it passes are read
as a number, so that it has no defect: it reads the piece that the grammar allows in front of what is left, stops
behind it, and has counted the lines in it.
-/

namespace ScriptLexer

/-! ### Numerals of digits -/

namespace Numeral

variable {digits whole fraction : Text} {n : Nat}

lemma le_ofDigitChars (digits : Text) (n : Nat) : n ≤ Nat.ofDigitChars 10 digits n := by
  rw [Nat.ofDigitChars_eq_ofDigitChars_zero]
  exact Nat.le_add_right_of_le (Nat.le_mul_of_pos_left n (Nat.pow_pos (by decide)))

lemma readDigits_eq (hdigits : ∀ c ∈ digits, c.isDigit) (hn : n < Nat.pow 2 63) :
    readDigits n digits = if Nat.ofDigitChars 10 digits n < Nat.pow 2 63 then
      .ok (Nat.ofDigitChars 10 digits n) else .error .overflow := by
  induction digits generalizing n with
  | nil => rw [readDigits, Nat.ofDigitChars_nil, if_pos hn]
  | cons c digits ih =>
    have hc : c.isDigit := hdigits c List.mem_cons_self
    rw [readDigits, if_pos hc, Nat.ofDigitChars_cons]
    by_cases hnext : 10 * n + (c.toNat - '0'.toNat) < Nat.pow 2 63
    · rw [if_pos hnext, ih (fun d hd => hdigits d (List.mem_cons_of_mem c hd)) hnext]
    · have hle := le_ofDigitChars digits (10 * n + (c.toNat - '0'.toNat))
      rw [if_neg hnext, if_neg fun hlt => hnext (Nat.lt_of_le_of_lt hle hlt)]

/-- Digits are read as their value, or they are too many. -/
theorem readInteger_eq (hne : digits ≠ []) (hdigits : ∀ c ∈ digits, c.isDigit) :
    readInteger digits = if Text.value digits < Nat.pow 2 63 then
      .ok (Int64.ofNat (Text.value digits)) else .error .overflow := by
  rw [readInteger, if_neg (by simpa using hne), readDigits_eq hdigits (by decide), Text.value]
  split <;> rfl

theorem readDecimal?_eq (hwne : whole ≠ []) (hwhole : ∀ c ∈ whole, c.isDigit) (hfne : fraction ≠ [])
    (hfraction : ∀ c ∈ fraction, c.isDigit) : readDecimal? (whole ++ '.' :: fraction) =
      some (Binary64.nearest (Text.value (whole ++ fraction)) (Nat.pow 10 fraction.length)) := by
  have hpoint : ∀ d ∈ ('.' :: fraction).head?, ¬d.isDigit := by
    rintro d ⟨⟩
    decide
  simp only [readDecimal?, takeWhile_run_append hwhole hpoint, dropWhile_run_append hwhole hpoint]
  rw [if_pos ⟨hwne, hfne, List.all_eq_true.mpr hfraction⟩]

end Numeral

lemma Symbol.single?_eq_none {c : Char} (h : ∀ s : Symbol, s.text ≠ [c]) : single? c = none := by
  cases hs : single? c with
  | none => rfl
  | some s => exact absurd (single?_eq_some_iff.mp hs) (h s)

lemma Symbol.single?_eq_none_of_continuesWord {c : Char} (hc : Piece.continuesWord c) : single? c = none := by
  apply single?_eq_none
  intro s hs
  cases s <;> simp only [text, List.cons.injEq, and_true, reduceCtorEq, and_false] at hs <;>
    subst hs <;> exact absurd hc (by decide)

lemma Symbol.lineFeed_not_mem (s : Symbol) : '\n' ∉ s.text := by cases s <;> decide

lemma Piece.lineFeed_not_mem_of_continuesWord {t : Text} (ht : ∀ d ∈ t, continuesWord d) : '\n' ∉ t :=
  fun h => absurd (ht '\n' h) (by decide)

lemma Piece.lineFeed_not_mem_of_isDigit {t : Text} (ht : ∀ d ∈ t, d.isDigit) : '\n' ∉ t :=
  lineFeed_not_mem_of_continuesWord fun d hd => continuesWord_of_isDigit (ht d hd)

/-- What a cursor finds that reads a piece on the given line. -/
def Piece.Meaning.found (line : Nat) : Meaning → Cursor.Found
  | nothing => .nothing
  | lexeme kind literal => .lexeme kind literal
  | fault cause => .fault ⟨cause, line⟩

namespace Cursor

variable {source before passed rest body digits t : Text} {c : Cursor} {ch : Char} {p : Char → Bool}

/-! ### Passing texts -/

/-- Passes a text without counting its lines. -/
def pass (t : Text) (c : Cursor) : Cursor := { c with current := c.current + t.utf8Length }

/-- Passes a text and counts its lines. -/
def move (t : Text) (c : Cursor) : Cursor := { c.pass t with line := c.line + t.lineFeeds }

lemma behind_startLine : (c.behind ch).startLine = c.startLine := rfl

lemma pass_cons : c.pass (ch :: t) = (c.behind ch).pass t := by
  simp [pass, behind, Nat.add_assoc]

lemma pass_append (a b : Text) : c.pass (a ++ b) = (c.pass a).pass b := by
  simp [pass, Nat.add_assoc]

lemma move_append (a b : Text) : c.move (a ++ b) = (c.move a).move b := by
  simp [move, pass, Nat.add_assoc]

lemma move_eq_pass (h : '\n' ∉ t) : c.move t = c.pass t := by
  rw [move, Text.lineFeeds, List.count_eq_zero.mpr h]
  rfl

lemma move_cons (hch : ch ≠ '\n') : c.move (ch :: t) = (c.behind ch).move t := by
  rw [← List.singleton_append, move_append, move_eq_pass (t := [ch]) (by simpa using Ne.symm hch)]
  rfl

/-- Passing one character of a string counts its line. -/
lemma behind_countLine : (if ch = '\n' then c.countLine else c).behind ch = c.move [ch] := by
  split
  · next hch =>
    subst hch
    rfl
  · next hch =>
    rw [move_eq_pass (by simpa using Ne.symm hch)]
    rfl

/-- Whether a cursor stands in a script where its piece begins behind the text `before` and goes on with the text
`passed`, and the text `rest` is left. -/
structure Within (source before passed rest : Text) (c : Cursor) : Prop where
  source_eq : source = before ++ (passed ++ rest)
  start_eq : c.start = before.utf8Length
  current_eq : c.current = (before ++ passed).utf8Length

/-- Whether a cursor reads a given piece, stops behind it and counts its lines. -/
def Reads (source : Text) (x : Piece) (c : Cursor) : Prop :=
  c.read source = pure (x.meaning.found c.line, c.move x.text)

namespace Within

lemma length_eq (h : c.Within source before passed rest) : source.utf8Length = c.current + rest.utf8Length := by
  rw [h.source_eq, h.current_eq, ← List.append_assoc, Text.utf8Length_append (before ++ passed)]

lemma left_eq (h : c.Within source before passed rest) : c.left source = rest.utf8Length := by
  rw [left, h.length_eq, Nat.add_sub_cancel_left]

lemma inOrder (h : c.Within source before passed rest) : c.InOrder source := by
  refine ⟨?_, ?_, ?_, ?_⟩
  · rw [h.start_eq, h.current_eq, Text.utf8Length_append]
    exact Nat.le_add_right _ _
  · rw [h.length_eq]
    exact Nat.le_add_right _ _
  · exact Text.isBoundary_iff.mpr ⟨before, passed ++ rest, h.source_eq, h.start_eq.symm⟩
  · have hsource : source = (before ++ passed) ++ rest := by rw [h.source_eq, List.append_assoc]
    exact Text.isBoundary_iff.mpr ⟨before ++ passed, rest, hsource, h.current_eq.symm⟩

lemma slice_eq {a b : Text} (h : c.Within source before passed rest) (hsource : source = a ++ (t ++ b)) :
    c.slice source a.utf8Length (a ++ t).utf8Length = pure t := by
  rw [slice, if_pos h.inOrder, hsource, Text.slice?_append]

lemma slice_passed (h : c.Within source before passed rest) : c.slice source c.start c.current = pure passed := by
  rw [h.start_eq, h.current_eq]
  exact h.slice_eq h.source_eq

lemma slice_rest (h : c.Within source before passed rest) :
    c.slice source c.current source.utf8Length = pure rest := by
  have hsource : source = (before ++ passed) ++ (rest ++ []) := by
    rw [h.source_eq, List.append_assoc, List.append_nil]
  have hlength : source.utf8Length = ((before ++ passed) ++ rest).utf8Length := by
    rw [h.source_eq, List.append_assoc]
  rw [h.current_eq, hlength]
  exact h.slice_eq hsource

lemma peek_eq (h : c.Within source before passed rest) : c.peek source = pure rest.head? := by
  rw [peek, h.slice_rest, pure_bind]

lemma peekNext_eq (h : c.Within source before passed rest) : c.peekNext source = pure rest[1]? := by
  rw [peekNext, h.slice_rest, pure_bind]

lemma pass (h : c.Within source before passed (t ++ rest)) : (c.pass t).Within source before (passed ++ t) rest where
  source_eq := by rw [h.source_eq, List.append_assoc]
  start_eq := h.start_eq
  current_eq := by
    rw [Cursor.pass, h.current_eq, ← List.append_assoc, Text.utf8Length_append (before ++ passed)]

lemma move (h : c.Within source before passed (t ++ rest)) : (c.move t).Within source before (passed ++ t) rest :=
  ⟨h.pass.source_eq, h.pass.start_eq, h.pass.current_eq⟩

lemma behind (h : c.Within source before passed (ch :: rest)) :
    (c.behind ch).Within source before (passed ++ [ch]) rest :=
  pass (t := [ch]) h

lemma advance_eq (h : c.Within source before passed (ch :: rest)) :
    c.advance source = pure (some ch, c.behind ch) := by
  rw [advance, h.peek_eq, pure_bind]
  rfl

lemma matchOne_of_head (h : c.Within source before passed (ch :: rest)) :
    c.matchOne source ch = pure (true, c.behind ch) := by
  rw [matchOne, h.peek_eq, pure_bind]
  exact if_pos rfl

lemma matchOne_of_ne (h : c.Within source before passed rest) (hrest : rest.head? ≠ some ch) :
    c.matchOne source ch = pure (false, c) := by
  rw [matchOne, h.peek_eq, pure_bind]
  exact if_neg hrest

/-- A cursor is at the end if nothing is left. -/
lemma utf8Length_le_current_iff (h : c.Within source before passed rest) :
    source.utf8Length ≤ c.current ↔ rest = [] := by
  rw [h.length_eq]
  cases rest with
  | nil => simp
  | cons ch rest =>
    have hpos := ch.utf8Size_pos
    simp only [Text.utf8Length_cons, reduceCtorEq, iff_false]
    omega

/-! ### Loops -/

lemma left_lt {d : Cursor} (h : c.Within source before passed (ch :: rest))
    (hd : d.Within source before (passed ++ [ch]) rest) : d.left source < c.left source := by
  rw [h.left_eq, hd.left_eq, Text.utf8Length_cons]
  exact Nat.lt_add_of_pos_left ch.utf8Size_pos

theorem skipWhile_eq (h : c.Within source before passed rest) :
    c.skipWhile p source = pure (c.pass (rest.takeWhile p)) := by
  induction rest generalizing c passed with
  | nil =>
    apply Checked.loop_of_none
    rw [h.peek_eq, pure_bind]
    rfl
  | cons ch rest ih =>
    by_cases hch : p ch
    · rw [List.takeWhile_cons_of_pos hch, pass_cons, ← ih h.behind]
      apply Checked.loop_of_some _ (h.left_lt h.behind)
      rw [h.peek_eq, pure_bind]
      exact congrArg pure (if_pos hch)
    · rw [List.takeWhile_cons_of_neg hch]
      apply Checked.loop_of_none
      rw [h.peek_eq, pure_bind]
      exact congrArg pure (if_neg hch)

/-- Passing a run passes nothing else if what is behind the run does not continue it. -/
lemma skipWhile_run {run : Text} (h : c.Within source before passed (run ++ rest)) (hrun : ∀ d ∈ run, p d)
    (hrest : ∀ d ∈ rest.head?, ¬p d) : c.skipWhile p source = pure (c.pass run) := by
  rw [h.skipWhile_eq, takeWhile_run_append hrun hrest]

theorem skipString_eq (h : c.Within source before passed rest) :
    c.skipString source = pure (c.move (rest.takeWhile (· != quote))) := by
  induction rest generalizing c passed with
  | nil =>
    apply Checked.loop_of_none
    rw [h.peek_eq, pure_bind]
    rfl
  | cons ch rest ih =>
    by_cases hch : ch = quote
    · rw [List.takeWhile_cons_of_neg (by simpa using hch)]
      apply Checked.loop_of_none
      rw [h.peek_eq, pure_bind]
      exact if_pos hch
    · have hmoved : (c.move [ch]).Within source before (passed ++ [ch]) rest := move (t := [ch]) h
      rw [List.takeWhile_cons_of_pos (by simpa using hch), ← List.singleton_append, move_append, ← ih hmoved]
      apply Checked.loop_of_some _ (h.left_lt hmoved)
      rw [h.peek_eq, pure_bind, ← behind_countLine]
      exact if_neg hch

/-! ### Strings and numbers -/

section Behind

variable {digit : Char} {fraction : Text}

/-- Behind a closing quote, what stands between the quotes can be cut out. -/
lemma slice_quoted (h : c.Within source before ([quote] ++ body ++ [quote]) rest) :
    c.slice source (c.start + quote.utf8Size) (c.current - quote.utf8Size) = pure body := by
  have hlower : c.start + quote.utf8Size = (before ++ [quote]).utf8Length := by
    rw [h.start_eq, Text.utf8Length_append]
    rfl
  have hupper : c.current - quote.utf8Size = (before ++ [quote] ++ body).utf8Length := by
    rw [h.current_eq, ← List.append_assoc, ← List.append_assoc, Text.utf8Length_append (before ++ [quote] ++ body)]
    exact Nat.add_sub_cancel _ _
  rw [hlower, hupper]
  exact h.slice_eq (b := [quote] ++ rest) (by simp [h.source_eq])

lemma readString_of_closed (h : c.Within source before [quote] (body ++ quote :: rest)) (hbody : quote ∉ body) :
    c.readString source = pure (.ok (.text body), c.move (body ++ [quote])) := by
  have hrun : (body ++ quote :: rest).takeWhile (· != quote) = body :=
    takeWhile_run_append (forall_mem_ne hbody) (by simp)
  have hclosing := h.move
  have hopen : ¬source.utf8Length ≤ (c.move body).current := by
    rw [hclosing.utf8Length_le_current_iff]
    exact List.cons_ne_nil _ _
  rw [readString, h.skipString_eq, pure_bind, hrun, if_neg hopen, hclosing.advance_eq, pure_bind]
  dsimp only
  rw [hclosing.behind.slice_quoted, pure_bind, move_append]
  rfl

lemma readString_of_open (h : c.Within source before [quote] body) (hbody : quote ∉ body) :
    c.readString source = pure (.error ⟨.unterminatedString, c.startLine⟩, c.move body) := by
  rw [← List.append_nil body] at h
  have hrun : (body ++ []).takeWhile (· != quote) = body := takeWhile_run_append (forall_mem_ne hbody) (by simp)
  have hmoved := h.move
  rw [readString, h.skipString_eq, pure_bind, hrun, if_pos (hmoved.utf8Length_le_current_iff.mpr rfl)]
  rfl

lemma seesFraction_eq (h : c.Within source before passed rest) :
    c.seesFraction source = pure (rest.head? = some '.' ∧ rest[1]?.any Char.isDigit : Bool) := by
  rw [seesFraction, h.peek_eq, pure_bind]
  by_cases hpoint : rest.head? = some '.'
  · rw [if_pos hpoint, h.peekNext_eq, pure_bind]
    simp [hpoint]
  · rw [if_neg hpoint]
    simp [hpoint]

lemma readNumber_of_integer (h : c.Within source before [digit] (digits ++ rest)) (hdigit : digit.isDigit)
    (hdigits : ∀ d ∈ digits, d.isDigit) (hrest : ∀ d ∈ rest.head?, ¬d.isDigit)
    (hpoint : ∀ d tail, rest = '.' :: d :: tail → ¬d.isDigit) :
    c.readNumber source = pure (
      if Text.value (digit :: digits) < Nat.pow 2 63 then
        .ok (.integer (Int64.ofNat (Text.value (digit :: digits))))
      else .error ⟨.integerOverflow (digit :: digits), c.startLine⟩, c.pass digits) := by
  have hpassed := h.pass
  have hsees : (rest.head? = some '.' ∧ rest[1]?.any Char.isDigit : Bool) = false := by
    rw [decide_eq_false_iff_not]
    rintro ⟨hhead, hnext⟩
    obtain ⟨tail, rfl⟩ := List.head?_eq_some_iff.mp hhead
    cases tail with
    | nil => exact absurd hnext (by simp)
    | cons d tail => exact hpoint d tail rfl (by simpa using hnext)
  have hall : ∀ d ∈ digit :: digits, d.isDigit := List.forall_mem_cons.mpr ⟨hdigit, hdigits⟩
  rw [readNumber, h.skipWhile_run hdigits hrest, pure_bind, hpassed.seesFraction_eq, pure_bind, hsees]
  change (slice source _ _ _ >>= _) = _
  rw [hpassed.slice_passed, pure_bind, List.singleton_append, Numeral.readInteger_eq (List.cons_ne_nil _ _) hall]
  by_cases hvalue : Text.value (digit :: digits) < Nat.pow 2 63
  · rw [if_pos hvalue, if_pos hvalue]
  · rw [if_neg hvalue, if_neg hvalue]
    rfl

lemma readNumber_of_decimal (h : c.Within source before [digit] (digits ++ '.' :: (fraction ++ rest)))
    (hdigit : digit.isDigit) (hdigits : ∀ d ∈ digits, d.isDigit) (hne : fraction ≠ [])
    (hfraction : ∀ d ∈ fraction, d.isDigit) (hrest : ∀ d ∈ rest.head?, ¬d.isDigit) :
    c.readNumber source = pure (.ok (.float (Binary64.nearest (Text.value (digit :: digits ++ fraction))
      (Nat.pow 10 fraction.length))), c.pass (digits ++ '.' :: fraction)) := by
  obtain ⟨d, tail, rfl⟩ := List.exists_cons_of_ne_nil hne
  have hd : d.isDigit := hfraction d List.mem_cons_self
  have hall : ∀ d ∈ digit :: digits, d.isDigit := List.forall_mem_cons.mpr ⟨hdigit, hdigits⟩
  have hstop : ∀ e ∈ ('.' :: (d :: tail ++ rest)).head?, ¬e.isDigit := by
    rintro e ⟨⟩
    decide
  have hlexeme : [digit] ++ digits ++ ['.'] ++ d :: tail = digit :: digits ++ '.' :: d :: tail := by simp
  have hwhole := h.pass
  have hpoint := hwhole.behind
  have hpassed := hpoint.pass
  rw [readNumber, h.skipWhile_run hdigits hstop, pure_bind, hwhole.seesFraction_eq, pure_bind]
  rw [if_pos (by simpa using hd), hwhole.advance_eq, pure_bind]
  dsimp only
  rw [hpoint.skipWhile_run hfraction hrest, pure_bind, hpassed.slice_passed, pure_bind, hlexeme,
    Numeral.readDecimal?_eq (List.cons_ne_nil _ _) hall hne hfraction, ← pass_cons, ← pass_append]

end Behind

/-! ### Pieces -/

lemma read_cons (h : c.Within source before [] (ch :: rest)) : c.read source = (c.behind ch).readBehind source ch := by
  rw [read, h.advance_eq, pure_bind]

lemma readBehind_symbol {s : Symbol} (hs : s.text = [ch]) : c.readBehind source ch = c.readSymbol source s := by
  rw [readBehind, Symbol.single?_eq_some_iff.mpr hs]

lemma readBehind_blank (hch : ch ∈ [' ', '\t', '\r', '\n']) :
    (c.behind ch).readBehind source ch = pure (.nothing, c.move [ch]) := by
  simp only [List.mem_cons, List.not_mem_nil, or_false] at hch
  rcases hch with rfl | rfl | rfl | rfl <;> rfl

lemma dispatch_of_continuesWord (hch : Piece.continuesWord ch) : Symbol.single? ch = none ∧
    ¬(ch = ' ' ∨ ch = '\r' ∨ ch = '\t') ∧ ch ≠ '\n' ∧ ch ≠ quote := by
  refine ⟨Symbol.single?_eq_none_of_continuesWord hch, ?_, ?_, Piece.ne_quote_of_continuesWord hch⟩
  · rintro (rfl | rfl | rfl) <;> exact absurd hch (by decide)
  · rintro rfl
    exact absurd hch (by decide)

lemma readBehind_quote : c.readBehind source quote = (do
    let (result, c) ← c.readString source
    pure (Found.ofLiteral .string result, c)) := rfl

lemma readBehind_digit (hch : ch.isDigit) : c.readBehind source ch = (do
    let (result, c) ← c.readNumber source
    pure (Found.ofLiteral .number result, c)) := by
  obtain ⟨hsingle, hspace, hfeed, hquote⟩ := dispatch_of_continuesWord (Piece.continuesWord_of_isDigit hch)
  rw [readBehind, hsingle]
  dsimp only
  rw [if_neg hspace, if_neg hfeed, if_neg hquote, if_pos hch]

lemma readBehind_word (hch : Piece.beginsWord ch) : c.readBehind source ch = (do
    let c ← c.skipWhile Piece.continuesWord source
    let letters ← c.slice source c.start c.current
    pure (.lexeme (Piece.wordKind letters) none, c)) := by
  obtain ⟨hsingle, hspace, hfeed, hquote⟩ := dispatch_of_continuesWord (Piece.continuesWord_of_beginsWord hch)
  rw [readBehind, hsingle]
  dsimp only
  rw [if_neg hspace, if_neg hfeed, if_neg hquote, if_neg (Piece.not_isDigit_of_beginsWord hch), if_pos hch]

lemma readBehind_stray (hblank : ch ∉ [' ', '\t', '\r', '\n']) (hquote : ch ≠ quote) (hdigit : ¬ch.isDigit)
    (hword : ¬Piece.beginsWord ch) (hsymbol : ∀ s : Symbol, s.text ≠ [ch]) :
    c.readBehind source ch = pure (.fault ⟨.unexpectedCharacter ch, c.line⟩, c) := by
  simp only [List.mem_cons, List.not_mem_nil, or_false, not_or] at hblank
  obtain ⟨hspace, htab, hreturn, hfeed⟩ := hblank
  have hblanks : ¬(ch = ' ' ∨ ch = '\r' ∨ ch = '\t') := by simp [hspace, hreturn, htab]
  rw [readBehind, Symbol.single?_eq_none hsymbol]
  dsimp only
  rw [if_neg hblanks, if_neg hfeed, if_neg hquote, if_neg hdigit, if_neg hword]

lemma readSymbol_of_not_slash {s : Symbol} (hs : s.withEqual? = none) (hne : s ≠ .slash) :
    c.readSymbol source s = pure (.lexeme (.symbol s) none, c) := by
  rw [readSymbol, if_neg hne, hs]

lemma readSymbol_of_withEqual? {s t : Symbol} (hs : s.withEqual? = some t) :
    c.readSymbol source s = (do
      let (isEqual, c) ← c.matchOne source '='
      pure (.lexeme (.symbol (if isEqual then t else s)) none, c)) := by
  rw [readSymbol, if_neg (Piece.ne_slash_of_withEqual? hs), hs]

section Symbols

variable {s t : Symbol}

lemma reads_lone (h : c.Within source before [] (s.text ++ rest)) (hs : s.text.length = 1)
    (hequal : s.withEqual? = none) (hslash : s = .slash → rest.head? ≠ some '/') : c.Reads source (.symbol s) := by
  obtain ⟨ch, hch⟩ := List.length_eq_one_iff.mp hs
  rw [hch] at h
  have hbehind : (c.behind ch).Within source before [ch] rest := h.behind
  rw [Reads, h.read_cons, readBehind_symbol hch, Piece.text, move_eq_pass s.lineFeed_not_mem, hch]
  by_cases hs : s = .slash
  · rw [readSymbol, if_pos hs, hbehind.matchOne_of_ne (hslash hs), pure_bind, hs]
    rfl
  · rw [readSymbol_of_not_slash hequal hs]
    rfl

lemma reads_short (h : c.Within source before [] (s.text ++ rest)) (hequal : s.withEqual? = some t)
    (hrest : rest.head? ≠ some '=') : c.Reads source (.symbol s) := by
  obtain ⟨ch, hch⟩ := Piece.text_eq_singleton_of_withEqual? hequal
  rw [hch] at h
  have hbehind : (c.behind ch).Within source before [ch] rest := h.behind
  rw [Reads, h.read_cons, readBehind_symbol hch, readSymbol_of_withEqual? hequal, hbehind.matchOne_of_ne hrest,
    pure_bind, Piece.text, move_eq_pass s.lineFeed_not_mem, hch]
  rfl

lemma reads_lengthened (h : c.Within source before [] (t.text ++ rest)) (hequal : s.withEqual? = some t) :
    c.Reads source (.symbol t) := by
  obtain ⟨ch, hch⟩ := Piece.text_eq_singleton_of_withEqual? hequal
  have htext : t.text = [ch, '='] := by
    rw [Symbol.text_of_withEqual? hequal, hch]
    rfl
  rw [htext] at h
  have hbehind : (c.behind ch).Within source before [ch] ('=' :: rest) := h.behind
  rw [Reads, h.read_cons, readBehind_symbol hch, readSymbol_of_withEqual? hequal, hbehind.matchOne_of_head,
    pure_bind, Piece.text, move_eq_pass t.lineFeed_not_mem, htext]
  rfl

end Symbols

lemma reads_comment (h : c.Within source before [] ('/' :: '/' :: body ++ rest)) (hbody : '\n' ∉ body)
    (hrest : ∀ d ∈ rest.head?, d = '\n') : c.Reads source (.comment body) := by
  have hbehind : (c.behind '/').Within source before ['/'] ('/' :: (body ++ rest)) := h.behind
  have hrun : ∀ d ∈ rest.head?, ¬(d != '\n') = true := fun d hd => by simpa using hrest d hd
  rw [Reads, h.read_cons, readBehind_symbol (s := .slash) rfl, readSymbol, if_pos rfl, hbehind.matchOne_of_head,
    pure_bind]
  dsimp only
  rw [if_pos rfl, hbehind.behind.skipWhile_run (forall_mem_ne hbody) hrun, pure_bind, Piece.text,
    move_cons (by decide), move_cons (by decide), move_eq_pass hbody]
  rfl

lemma reads_word {letters : Text} (h : c.Within source before [] (ch :: letters ++ rest)) (hch : Piece.beginsWord ch)
    (hletters : ∀ d ∈ letters, Piece.continuesWord d) (hrest : ∀ d ∈ rest.head?, ¬Piece.continuesWord d) :
    c.Reads source (.word (ch :: letters)) := by
  have hbehind : (c.behind ch).Within source before [ch] (letters ++ rest) := h.behind
  have hcontinues : ∀ d ∈ ch :: letters, Piece.continuesWord d :=
    List.forall_mem_cons.mpr ⟨Piece.continuesWord_of_beginsWord hch, hletters⟩
  rw [Reads, h.read_cons, readBehind_word hch, hbehind.skipWhile_run hletters hrest, pure_bind,
    hbehind.pass.slice_passed, pure_bind, Piece.text,
    move_eq_pass (Piece.lineFeed_not_mem_of_continuesWord hcontinues), pass_cons]
  rfl

lemma reads_string (h : c.Within source before [] (quote :: body ++ [quote] ++ rest)) (hbody : quote ∉ body) :
    c.Reads source (.string body) := by
  have htext : (Piece.string body).text = quote :: (body ++ [quote]) := rfl
  rw [List.cons_append, List.cons_append, List.append_assoc, List.singleton_append] at h
  have hbehind : (c.behind quote).Within source before [quote] (body ++ quote :: rest) := h.behind
  rw [Reads, h.read_cons, readBehind_quote, hbehind.readString_of_closed hbody, pure_bind, htext,
    move_cons (by decide)]
  rfl

lemma reads_unclosed (h : c.Within source before [] (quote :: body)) (hbody : quote ∉ body)
    (hline : c.startLine = c.line) : c.Reads source (.unclosed body) := by
  have hbehind : (c.behind quote).Within source before [quote] body := h.behind
  rw [Reads, h.read_cons, readBehind_quote, hbehind.readString_of_open hbody, pure_bind, Piece.text,
    move_cons (by decide), behind_startLine, hline]
  rfl

lemma reads_integer (h : c.Within source before [] (digits ++ rest)) (hne : digits ≠ [])
    (hdigits : ∀ d ∈ digits, d.isDigit) (hrest : ∀ d ∈ rest.head?, ¬d.isDigit)
    (hpoint : ∀ d tail, rest = '.' :: d :: tail → ¬d.isDigit) (hline : c.startLine = c.line) :
    c.Reads source (.integer digits) := by
  obtain ⟨digit, digits, rfl⟩ := List.exists_cons_of_ne_nil hne
  have hbehind : (c.behind digit).Within source before [digit] (digits ++ rest) := h.behind
  obtain ⟨hdigit, htail⟩ := List.forall_mem_cons.mp hdigits
  rw [Reads, h.read_cons, readBehind_digit hdigit, hbehind.readNumber_of_integer hdigit htail hrest hpoint, pure_bind,
    Piece.text, move_eq_pass (Piece.lineFeed_not_mem_of_isDigit hdigits), pass_cons, Piece.meaning]
  by_cases hvalue : Text.value (digit :: digits) < Nat.pow 2 63
  · rw [if_pos hvalue, if_pos hvalue]
    rfl
  · rw [if_neg hvalue, if_neg hvalue, behind_startLine, hline]
    rfl

lemma reads_decimal {whole fraction : Text} (h : c.Within source before [] (whole ++ '.' :: fraction ++ rest))
    (hwne : whole ≠ []) (hwhole : ∀ d ∈ whole, d.isDigit) (hfne : fraction ≠ [])
    (hfraction : ∀ d ∈ fraction, d.isDigit) (hrest : ∀ d ∈ rest.head?, ¬d.isDigit) :
    c.Reads source (.decimal whole fraction) := by
  obtain ⟨digit, digits, rfl⟩ := List.exists_cons_of_ne_nil hwne
  have htext : (Piece.decimal (digit :: digits) fraction).text = digit :: (digits ++ '.' :: fraction) := rfl
  have hfeed : '\n' ∉ digit :: (digits ++ '.' :: fraction) := by
    rw [← List.cons_append, List.mem_append, not_or]
    exact ⟨Piece.lineFeed_not_mem_of_isDigit hwhole, by simp [Piece.lineFeed_not_mem_of_isDigit hfraction]⟩
  rw [List.append_assoc, List.cons_append, List.cons_append] at h
  have hbehind : (c.behind digit).Within source before [digit] (digits ++ '.' :: (fraction ++ rest)) := h.behind
  obtain ⟨hdigit, htail⟩ := List.forall_mem_cons.mp hwhole
  rw [Reads, h.read_cons, readBehind_digit hdigit, hbehind.readNumber_of_decimal hdigit htail hfne hfraction hrest,
    pure_bind, htext, move_eq_pass hfeed, pass_cons]
  rfl

lemma reads_stray (h : c.Within source before [] (ch :: rest)) (hblank : ch ∉ [' ', '\t', '\r', '\n'])
    (hquote : ch ≠ quote) (hdigit : ¬ch.isDigit) (hword : ¬Piece.beginsWord ch)
    (hsymbol : ∀ s : Symbol, s.text ≠ [ch]) : c.Reads source (.stray ch) := by
  have hfeed : ch ≠ '\n' := by
    rintro rfl
    exact hblank (by decide)
  rw [Reads, h.read_cons, readBehind_stray hblank hquote hdigit hword hsymbol, Piece.text, move_cons hfeed]
  rfl

/-- A cursor reads the piece that the grammar allows in front of what is left. -/
theorem reads_of_precedes {x : Piece} (hx : x.Precedes rest) (h : c.Within source before [] (x.text ++ rest))
    (hline : c.startLine = c.line) : c.Reads source x := by
  cases hx with
  | blank hch =>
    rw [Reads, h.read_cons, readBehind_blank hch]
    rfl
  | comment hbody hrest => exact h.reads_comment hbody hrest
  | lone hs hequal hslash => exact h.reads_lone hs hequal hslash
  | short hequal hrest => exact h.reads_short hequal hrest
  | lengthened hequal => exact h.reads_lengthened hequal
  | word hch hletters hrest => exact h.reads_word hch hletters hrest
  | string hbody => exact h.reads_string hbody
  | integer hne hdigits hrest hpoint => exact h.reads_integer hne hdigits hrest hpoint hline
  | decimal hwne hwhole hfne hfraction hrest => exact h.reads_decimal hwne hwhole hfne hfraction hrest
  | stray hblank hquote hdigit hword hsymbol => exact h.reads_stray hblank hquote hdigit hword hsymbol
  | unclosed hbody =>
    rw [List.append_nil] at h
    exact h.reads_unclosed hbody hline

end Within

end Cursor

end ScriptLexer
