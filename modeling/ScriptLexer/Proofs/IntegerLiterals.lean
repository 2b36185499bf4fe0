import ScriptLexer.Proofs.Decimals

/-!
# Integer literals

A run of digits without a fraction is an integer if its value fits a signed integer of 64 bits. However many zeros
it begins with, the token keeps all of its digits and the value is exact. A larger value is refused with all of its
digits, and in both cases the scan goes on behind the run, where a point is a token of its own.
-/

namespace ScriptLexer

/-- Whether the scan of a script is between two pieces where the text `a` ends and `b` begins. -/
def Between (a b : Text) : Prop := ∃ xs ys, pieces (a ++ b) = xs ++ ys ∧ xs.flatMap Piece.text = a

/-- The token of a run of digits that begins behind the text `a`. -/
def integerToken (a digits : Text) (i : Int64) : Token.Located :=
  ⟨⟨.number, digits, some (.integer i), 1 + a.lineFeeds⟩, a.utf8Length⟩

/-- Whether a run of digits between the texts `a` and `rest` is read exactly or refused. -/
structure ReadsDigits (a digits rest : Text) : Prop where
  /-- a value that fits is that of one token, and its printed form, the run without idle zeros, is read back -/
  accepted : Text.value digits ≤ 2 ^ 63 - 1 → ∃ i : Int64, i.toInt = Text.value digits ∧
    (scan (a ++ (digits ++ rest))).located = (scan a).located ++ integerToken a digits i ::
      (scan rest).located.map (Token.Located.shift (a ++ digits).lineFeeds (a ++ digits).utf8Length) ∧
    (scan (a ++ (digits ++ rest))).diagnostics =
      (scan a).diagnostics ++ (scan rest).diagnostics.map (Diagnostic.raise (a ++ digits).lineFeeds) ∧
    (∃ zeros, digits = List.replicate zeros '0' ++ (Literal.integer i).render) ∧
    ((Literal.integer i).render.head? = some '0' → (Literal.integer i).render = ['0']) ∧
    (scan (Literal.integer i).render).tokens =
      [⟨.number, (Literal.integer i).render, some (.integer i), 1⟩, Token.eof 1] ∧
    (scan (Literal.integer i).render).diagnostics = []
  /-- a value that does not fit gives no token, and one diagnostic that quotes the run -/
  refused : 2 ^ 63 - 1 < Text.value digits →
    (scan (a ++ (digits ++ rest))).located = (scan a).located ++
      (scan rest).located.map (Token.Located.shift (a ++ digits).lineFeeds (a ++ digits).utf8Length) ∧
    (scan (a ++ (digits ++ rest))).diagnostics = (scan a).diagnostics ++
      ⟨1 + a.lineFeeds, [], "Integer literal '".toList ++ digits ++ "' does not fit in 64 bits.".toList⟩ ::
        (scan rest).diagnostics.map (Diagnostic.raise (a ++ digits).lineFeeds)
  resumed : Between (a ++ digits) rest
  /-- a point behind the run is a token -/
  point : ∀ tail, rest = '.' :: tail → (scan rest).diagnostics = (scan tail).diagnostics ∧
    (scan rest).located =
      ⟨⟨.symbol .dot, ['.'], none, 1⟩, 0⟩ :: (scan tail).located.map (Token.Located.shift 0 1)

/-! ### Digits of a value -/

namespace Text

variable {digits : Text} {c : Char}

lemma numeral_value_singleton (hc : c.isDigit) : numeral (value [c]) = [c] := by
  have hbound := Char.isDigit_iff_toNat.mp hc
  have hchar : ∀ n < 10, Nat.digitChar n = Char.ofNat ('0'.toNat + n) := by decide
  have hlt : value [c] < 10 := Nat.lt_succ_of_le (value_digit_le hc)
  rw [numeral, Nat.toDigits_of_lt_base hlt, hchar _ hlt, value_singleton, Nat.add_sub_cancel' hbound.1,
    Char.ofNat_toNat]

/-- Digits that are read behind a number are put behind its numeral. -/
lemma numeral_ofDigitChars (hdigits : ∀ c ∈ digits, c.isDigit) {n : ℕ} (hn : 0 < n) :
    numeral (Nat.ofDigitChars 10 digits n) = numeral n ++ digits := by
  induction digits generalizing n with
  | nil => rw [Nat.ofDigitChars_nil, List.append_nil]
  | cons c digits ih =>
    have hc : c.isDigit := hdigits c List.mem_cons_self
    have hlt : value [c] < 10 := Nat.lt_succ_of_le (value_digit_le hc)
    have hnext : numeral n ++ numeral (value [c]) = numeral (10 * n + value [c]) :=
      Nat.toDigits_append_toDigits (by decide) hn hlt
    rw [Nat.ofDigitChars_cons, ← value_singleton, ih (fun d hd => hdigits d (List.mem_cons_of_mem c hd)) (by omega),
      ← hnext, numeral_value_singleton hc, List.append_assoc, List.singleton_append]

/-- A run of digits is the numeral of its value, with zeros in front. -/
theorem exists_eq_zeros_append (hne : digits ≠ []) (hdigits : ∀ c ∈ digits, c.isDigit) :
    ∃ n, digits = List.replicate n '0' ++ numeral (value digits) := by
  obtain ⟨n, hfront⟩ := exists_dropWhile digits
  have hvalue : value digits = value (digits.dropWhile (· == '0')) := by
    rw [hfront, value_replicate_zero_append, ← hfront]
  cases hback : digits.dropWhile (· == '0') with
  | nil =>
    rw [hback, List.append_nil] at hfront
    cases n with
    | zero => exact absurd hfront hne
    | succ n =>
      refine ⟨n, ?_⟩
      rw [hvalue, hback, hfront, List.replicate_succ']
      rfl
  | cons c rest =>
    have hc : c ≠ '0' := by
      have hhead := List.head?_dropWhile_not (· == '0') digits
      simpa [hback] using hhead
    have hmem : ∀ d ∈ c :: rest, d.isDigit := fun d hd => hdigits d ((List.dropWhile_sublist _).subset (hback ▸ hd))
    have hfirst : c.isDigit := hmem c List.mem_cons_self
    refine ⟨n, ?_⟩
    rw [hvalue, hback, value, Nat.ofDigitChars_cons, Nat.mul_zero, Nat.zero_add, ← value_singleton,
      numeral_ofDigitChars (fun d hd => hmem d (List.mem_cons_of_mem c hd)) (one_le_value_digit hfirst hc),
      numeral_value_singleton hfirst, List.singleton_append, ← hback]
    exact hfront

end Text

/-! ### Scanning on from a cut -/

section Between

variable {a b rest : Text} {x : Piece}

lemma between_nil (b : Text) : Between [] b := ⟨[], pieces b, rfl, rfl⟩

lemma Between.pieces_eq (h : Between a b) : pieces (a ++ b) = pieces a ++ pieces b := by
  obtain ⟨xs, ys, hpieces, rfl⟩ := h
  obtain ⟨hxs, hys⟩ := pieces_of_append hpieces
  have hall := flatMap_text_pieces (xs.flatMap Piece.text ++ b)
  rw [hpieces, List.flatMap_append] at hall
  rw [List.append_cancel_left hall] at hys
  rw [hpieces, hxs, hys]

lemma Piece.Precedes.pieces_eq (hx : x.Precedes rest) : pieces (x.text ++ rest) = x :: pieces rest :=
  pieces_eq_of_divides (.cons hx (divides_pieces rest))

/-- Behind a piece the scan of a script is between two pieces again. -/
lemma Between.append (h : Between a (x.text ++ rest)) (hx : x.Precedes rest) : Between (a ++ x.text) rest := by
  refine ⟨pieces a ++ [x], pieces rest, ?_, ?_⟩
  · rw [List.append_assoc, h.pieces_eq, hx.pieces_eq, List.append_assoc, List.singleton_append]
  · rw [List.flatMap_append, flatMap_text_pieces, List.flatMap_singleton]

/-- The next piece gives what it gives alone, at the place where it begins. -/
theorem Between.findings_eq (h : Between a (x.text ++ rest)) (hx : x.Precedes rest) :
    (scan (a ++ (x.text ++ rest))).findings =
      (scan a).findings ++ ((Placed.finding? ⟨Position.start.advance a, x⟩).toList ++
        (scan rest).findings.map (Finding.shift (a ++ x.text).lineFeeds (a ++ x.text).utf8Length)) := by
  have hmove := findings_scanFrom_advance Position.start (a ++ x.text) rest
  rw [findings_scanFrom, Position.advance_append] at hmove
  rw [scan, scan, scan, findings_scanFrom, h.pieces_eq, hx.pieces_eq, findingsFrom_append, flatMap_text_pieces,
    findingsFrom_cons, hmove]
  rfl

lemma Between.located_eq (h : Between a (x.text ++ rest)) (hx : x.Precedes rest) :
    (scan (a ++ (x.text ++ rest))).located =
      (scan a).located ++ ((Placed.finding? ⟨Position.start.advance a, x⟩).toList.filterMap Finding.located? ++
        (scan rest).located.map (Token.Located.shift (a ++ x.text).lineFeeds (a ++ x.text).utf8Length)) := by
  rw [Scan.located_eq, h.findings_eq hx, List.filterMap_append, List.filterMap_append,
    filterMap_map_shift (Finding.located?_shift _ _), ← Scan.located_eq, ← Scan.located_eq]

lemma Between.diagnostics_eq (h : Between a (x.text ++ rest)) (hx : x.Precedes rest) :
    (scan (a ++ (x.text ++ rest))).diagnostics =
      (scan a).diagnostics ++ ((Placed.finding? ⟨Position.start.advance a, x⟩).toList.filterMap Finding.diagnostic? ++
        (scan rest).diagnostics.map (Diagnostic.raise (a ++ x.text).lineFeeds)) := by
  rw [Scan.diagnostics_eq, h.findings_eq hx, List.filterMap_append, List.filterMap_append,
    filterMap_map_shift (Finding.diagnostic?_shift _ _), ← Scan.diagnostics_eq, ← Scan.diagnostics_eq]

end Between

/-! ### Runs of digits -/

section Integer

variable {a digits rest : Text}

lemma finding?_integer (a : Text) (h : Text.value digits ≤ 2 ^ 63 - 1) :
    Placed.finding? ⟨Position.start.advance a, .integer digits⟩ =
      some (.token (integerToken a digits (Int64.ofNat (Text.value digits)))) := by
  have hlt : Text.value digits < Nat.pow 2 63 := by
    rw [Nat.pow_eq]
    omega
  rw [Placed.finding?, Piece.meaning, if_pos hlt, offset_advance_start]
  rfl

lemma finding?_overflow (a : Text) (h : 2 ^ 63 - 1 < Text.value digits) :
    Placed.finding? ⟨Position.start.advance a, .integer digits⟩ =
      some (.fault ⟨.integerOverflow digits, 1 + a.lineFeeds⟩) := by
  have hlarge : ¬Text.value digits < Nat.pow 2 63 := by
    rw [Nat.pow_eq]
    omega
  rw [Placed.finding?, Piece.meaning, if_neg hlarge]
  rfl

/-- An integer is printed as its numeral, and the numeral is read as the same integer. -/
lemma render_integer {i : Int64} {n : ℕ} (hi : i.toInt = n) :
    (Literal.integer i).render = Text.numeral n ∧
      (scan (Text.numeral n)).tokens = [⟨.number, Text.numeral n, some (.integer i), 1⟩, Token.eof 1] ∧
      (scan (Text.numeral n)).diagnostics = [] := by
  have hrender : (Literal.integer i).render = Text.numeral n := by
    rw [Literal.render, Text.signedNumeral, hi, if_neg (by omega), Int.natAbs_natCast]
  have hvalue : Text.value (Text.numeral n) ≤ 2 ^ 63 - 1 := by
    have hlt := i.toInt_lt
    rw [Text.value_numeral]
    omega
  have hsame : Int64.ofNat (Text.value (Text.numeral n)) = i := by
    apply Int64.toInt_inj.mp
    rw [Int64.toInt_ofNat_of_lt (by omega), Text.value_numeral, hi]
  let lexeme := Lexeme.integer (Text.numeral n) (Nat.toDigits_ne_nil) (fun _ => Text.isDigit_of_mem_numeral) hvalue
  obtain ⟨htokens, hdiagnostics⟩ := Lexeme.scan_text (a := lexeme) nofun
  have hliteral : lexeme.literal = some (.integer i) := congrArg (some ∘ Literal.integer) hsame
  refine ⟨hrender, htokens.trans ?_, hdiagnostics⟩
  rw [Lexeme.token, hliteral]
  rfl

/-- A run of digits that begins where the scan is between pieces and has no fraction gives one token or one
diagnostic. If its value fits 64 bits, the token has the whole run as its lexeme and exactly its value, which is
printed as the run without idle zeros and read back from there; otherwise the diagnostic quotes the whole run. The
scan goes on behind the run, and a point there is a token. -/
theorem scan_run_of_digits (hbetween : Between a (digits ++ rest)) (hne : digits ≠ [])
    (hdigits : ∀ d ∈ digits, d.isDigit) (hrest : ∀ d ∈ rest.head?, ¬d.isDigit)
    (hpoint : ∀ d tail, rest = '.' :: d :: tail → ¬d.isDigit) :
    ReadsDigits a digits rest := by
  have hx : (Piece.integer digits).Precedes rest := .integer hne hdigits hrest hpoint
  have hlocated := Between.located_eq hbetween hx
  have hdiagnostics := Between.diagnostics_eq hbetween hx
  refine ⟨?_, ?_, hbetween.append hx, ?_⟩
  · intro hvalue
    have hlt : Text.value digits < 2 ^ 63 := by omega
    have hi : (Int64.ofNat (Text.value digits)).toInt = Text.value digits := Int64.toInt_ofNat_of_lt hlt
    obtain ⟨hrender, htokens, hnone⟩ := render_integer hi
    rw [finding?_integer a hvalue] at hlocated hdiagnostics
    refine ⟨Int64.ofNat (Text.value digits), hi, hlocated, hdiagnostics, ?_⟩
    rw [hrender]
    exact ⟨Text.exists_eq_zeros_append hne hdigits, Text.numeral_eq_of_head, htokens, hnone⟩
  · intro hvalue
    rw [finding?_overflow a hvalue] at hlocated hdiagnostics
    exact ⟨hlocated, hdiagnostics⟩
  · rintro tail rfl
    have hdot : (Piece.symbol .dot).Precedes tail := .lone rfl rfl nofun
    have hnil : (scan []).findings = [] := findings_scanFrom_nil Position.start
    have hrestLocated := Between.located_eq (between_nil ('.' :: tail)) hdot
    have hrestDiagnostics := Between.diagnostics_eq (between_nil ('.' :: tail)) hdot
    rw [Scan.located_eq (scan []), hnil] at hrestLocated
    rw [Scan.diagnostics_eq (scan []), hnil] at hrestDiagnostics
    refine ⟨hrestDiagnostics.trans ?_, hrestLocated⟩
    exact List.map_id _

theorem scan_run_of_digits_in_front_of_point :
    let a : Text := "'\n'@= ".toList
    let digits : Text := "0009223372036854775808".toList
    let rest : Text := ".x 1.5".toList
    (Between a (digits ++ rest) ∧ digits ≠ [] ∧ (∀ d ∈ digits, d.isDigit) ∧ (∀ d ∈ rest.head?, ¬d.isDigit) ∧
      ∀ d tail, rest = '.' :: d :: tail → ¬d.isDigit) ∧ ReadsDigits a digits rest := by
  intro a digits rest
  have hbetween : Between a (digits ++ rest) :=
    ⟨pieces a, pieces (digits ++ rest), by decide +kernel, flatMap_text_pieces a⟩
  have hdigits : ∀ d ∈ digits, d.isDigit := List.all_eq_true.mp (by decide)
  have hrest : ∀ d ∈ rest.head?, ¬d.isDigit := by
    rintro d ⟨⟩
    decide
  have hpoint : ∀ d tail, rest = '.' :: d :: tail → ¬d.isDigit := by
    intro d tail hrest
    obtain ⟨_, htail⟩ := List.cons.inj hrest
    obtain ⟨rfl, _⟩ := List.cons.inj htail
    decide
  exact ⟨⟨hbetween, nofun, hdigits, hrest, hpoint⟩, scan_run_of_digits hbetween nofun hdigits hrest hpoint⟩

end Integer

end ScriptLexer
