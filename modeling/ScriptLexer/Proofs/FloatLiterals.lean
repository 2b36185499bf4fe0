import ScriptLexer.Proofs.Decoding
import ScriptLexer.Proofs.Locality
import ScriptLexer.Proofs.PrintedTokens

/-!
# Decimal literals

Two runs of digits with a point between them are one token, whatever their lengths are. Its value is the decimal
number that they denote, rounded once: no digit is lost before the fraction is rounded as a whole.
-/

namespace ScriptLexer

/-- The number that two runs of digits with a point between them denote. -/
def decimalValue (whole fraction : Text) : ℚ := Text.value whole + Text.value fraction / 10 ^ fraction.length

lemma Text.value_append (a b : Text) : Text.value (a ++ b) = 10 ^ b.length * Text.value a + Text.value b := by
  rw [Text.value, Nat.ofDigitChars_append, Nat.ofDigitChars_eq_ofDigitChars_zero]
  rfl

/-- The digits on both sides of the point are those of a fraction by a power of ten. -/
lemma decimalValue_eq (whole fraction : Text) :
    decimalValue whole fraction = (Text.value (whole ++ fraction) : ℚ) / (Nat.pow 10 fraction.length : ℕ) := by
  have hpower : (10 : ℚ) ^ fraction.length ≠ 0 := pow_ne_zero _ (by norm_num)
  rw [decimalValue, Text.value_append, Nat.pow_eq]
  push_cast
  rw [add_div, mul_div_cancel_left₀ _ hpower]

/-- A lexeme that is alone in its text is its only token. -/
lemma Lexeme.scan_text {a : Lexeme} (ha : a.kind ≠ .string) :
    (scan a.text).tokens = [a.token 1, Token.eof 1] ∧ (scan a.text).diagnostics = [] := by
  have hfeed : '\n' ∉ a.text := fun h => not_mem_of_mem_text (ne_string_of_kind ha) h (by decide)
  have hline : a.text.lineFeeds = 0 := List.count_eq_zero.mpr hfeed
  obtain ⟨hlocated, hdiagnostics⟩ := scan_of_lexeme (t := a.token 1) a.pieces_text a.meaning_piece
  refine ⟨(tokens_of_located hlocated).trans ?_, hdiagnostics⟩
  rw [token, hline]
  rfl

/-- A decimal literal is a token, and its value is rounded correctly wherever it stands. -/
theorem exists_isRounding_of_decimal {whole fraction : Text} (hwne : whole ≠ []) (hwhole : ∀ c ∈ whole, c.isDigit)
    (hfne : fraction ≠ []) (hfraction : ∀ c ∈ fraction, c.isDigit) :
    ∃ x : Binary64, x.IsRounding (decimalValue whole fraction) ∧
      (scan (whole ++ '.' :: fraction)).tokens =
        [⟨.number, whole ++ '.' :: fraction, some (.float x), 1⟩, Token.eof 1] ∧
      (scan (whole ++ '.' :: fraction)).diagnostics = [] ∧
      ∀ source, ∀ t ∈ (scan source).tokens, t.lexeme = whole ++ '.' :: fraction →
        t = ⟨.number, whole ++ '.' :: fraction, some (.float x), t.line⟩ := by
  let a := Lexeme.decimal whole fraction hwne hwhole hfne hfraction
  obtain ⟨htokens, hdiagnostics⟩ := Lexeme.scan_text (a := a) nofun
  have hpower : 0 < Nat.pow 10 fraction.length := Nat.pow_pos (by decide)
  have hrounding := Binary64.isRounding_nearest (Text.value (whole ++ fraction)) hpower
  rw [← decimalValue_eq] at hrounding
  exact ⟨_, hrounding, htokens, hdiagnostics, fun source t ht h => (listed_tokens source).eq_token (a := a) ht h⟩

theorem exists_isRounding_of_tie :
    let whole := "9007199254740993".toList
    let fraction := ['0']
    (whole ≠ [] ∧ (∀ c ∈ whole, c.isDigit) ∧ fraction ≠ [] ∧ ∀ c ∈ fraction, c.isDigit) ∧
      ∃ x : Binary64, x.IsRounding (decimalValue whole fraction) ∧
        (scan (whole ++ '.' :: fraction)).tokens =
          [⟨.number, whole ++ '.' :: fraction, some (.float x), 1⟩, Token.eof 1] ∧
        (scan (whole ++ '.' :: fraction)).diagnostics = [] ∧
        ∀ source, ∀ t ∈ (scan source).tokens, t.lexeme = whole ++ '.' :: fraction →
          t = ⟨.number, whole ++ '.' :: fraction, some (.float x), t.line⟩ := by
  intro whole fraction
  have hwhole : ∀ c ∈ whole, c.isDigit := List.all_eq_true.mp (by decide)
  have hfraction : ∀ c ∈ fraction, c.isDigit := List.all_eq_true.mp (by decide)
  exact ⟨⟨nofun, hwhole, nofun, hfraction⟩, exists_isRounding_of_decimal nofun hwhole nofun hfraction⟩

end ScriptLexer
