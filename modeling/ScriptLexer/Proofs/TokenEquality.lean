import ScriptLexer.Proofs.Decoding
import ScriptLexer.Proofs.PrintedTokens

/-!
# Equality of tokens

Tokens are equal if their parts are, and values are compared as what they stand for: floating-point numbers as numbers,
so that the two zeros are equal and what is not a number equals nothing, not even itself. The printed form shows the
sign of a zero, and there only it tells equal tokens apart. Tokens that are found in scripts are known by their
lexemes, so of them the values need not be compared.
-/

namespace ScriptLexer

/-! ### Numbers -/

namespace Binary64

variable {x y z : Binary64}

/-- Whether two encodings stand for the same number, or for the same infinity. -/
inductive SameValue : Binary64 → Binary64 → Prop
  | finite {x y : Binary64} (hx : x.isFinite) (hy : y.isFinite) (h : x.toRat = y.toRat) : SameValue x y
  | infinite {x : Binary64} (hx : x.isInfinite) : SameValue x x

lemma isNaN_iff : x.isNaN ↔ infinite < x.magnitude := decide_eq_true_iff

lemma isInfinite_iff : x.isInfinite ↔ x.magnitude = infinite := decide_eq_true_iff

lemma isZero_iff : x.isZero ↔ x.magnitude = 0 := decide_eq_true_iff

lemma isZero_iff_units : x.isZero ↔ x.units = 0 := by
  rw [isZero_iff]
  exact ⟨fun h => congrArg unitsOf h, fun h => unitsOf_strictMono.injective h⟩

/-- Two encodings of one number are the same, or they are the two zeros. -/
theorem toRat_eq_iff : x.toRat = y.toRat ↔ x = y ∨ x.isZero ∧ y.isZero := by
  have hpos : (0 : ℚ) < 2 ^ 1074 := pow_pos two_pos 1074
  rw [toRat_eq, toRat_eq, div_left_inj' hpos.ne', isZero_iff_units, isZero_iff_units]
  constructor
  · intro h
    by_cases hsign : x.isNegative = y.isNegative
    · left
      have hfactor : (if y.isNegative then (-1 : ℚ) else 1) ≠ 0 := by split <;> norm_num
      rw [hsign, mul_right_inj' hfactor, Nat.cast_inj] at h
      exact eq_of_magnitude hsign (unitsOf_strictMono.injective h)
    · right
      rw [Bool.eq_not.mpr hsign] at h
      cases hy : y.isNegative <;> simpa [hy] using h
  · rintro (rfl | ⟨hx, hy⟩)
    · rfl
    · rw [hx, hy, Nat.cast_zero, mul_zero, mul_zero]

lemma not_isNaN_iff : ¬x.isNaN ↔ x.isFinite ∨ x.isInfinite := by
  rw [isNaN_iff, isFinite_iff, isInfinite_iff]
  omega

lemma isFinite_of_isZero (h : x.isZero) : x.isFinite := by
  rw [isFinite_iff, isZero_iff.mp h]
  decide

/-- Numbers are compared by what they encode. -/
theorem numericallyEqual_iff : x.numericallyEqual y ↔ x.SameValue y := by
  have hparts : x.numericallyEqual y ↔ ¬x.isNaN ∧ ¬y.isNaN ∧ (x = y ∨ x.isZero ∧ y.isZero) := by
    simp [numericallyEqual, and_assoc]
  rw [hparts]
  constructor
  · rintro ⟨hx, -, rfl | ⟨hxzero, hyzero⟩⟩
    · rcases not_isNaN_iff.mp hx with hfinite | hinfinite
      · exact .finite hfinite hfinite rfl
      · exact .infinite hinfinite
    · exact .finite (isFinite_of_isZero hxzero) (isFinite_of_isZero hyzero) (toRat_eq_iff.mpr (.inr ⟨hxzero, hyzero⟩))
  · intro h
    cases h with
    | finite hx hy h => exact ⟨not_isNaN_iff.mpr (.inl hx), not_isNaN_iff.mpr (.inl hy), toRat_eq_iff.mp h⟩
    | infinite hx => exact ⟨not_isNaN_iff.mpr (.inr hx), not_isNaN_iff.mpr (.inr hx), .inl rfl⟩

-- the two zeros are equal, and what comes above infinity does not even equal itself
example : numericallyEqual (ofMagnitude true 0) (ofMagnitude false 0) ∧
    ¬numericallyEqual (ofMagnitude false (infinite + 1)) (ofMagnitude false (infinite + 1)) := by decide +kernel

namespace SameValue

theorem symm (h : x.SameValue y) : y.SameValue x := by
  cases h with
  | finite hx hy h => exact .finite hy hx h.symm
  | infinite hx => exact .infinite hx

theorem trans (hxy : x.SameValue y) (hyz : y.SameValue z) : x.SameValue z := by
  cases hxy with
  | finite hx hy h =>
    cases hyz with
    | finite _ hz h' => exact .finite hx hz (h.trans h')
    | infinite _ => exact .finite hx hy h
  | infinite hx => exact hyz

theorem self_iff : x.SameValue x ↔ ¬x.isNaN := by
  rw [not_isNaN_iff]
  constructor
  · intro h
    cases h with
    | finite hx => exact .inl hx
    | infinite hx => exact .inr hx
  · rintro (hx | hx)
    · exact .finite hx hx rfl
    · exact .infinite hx

/-- Two encodings of the same value are the same, or they are zeros of opposite sign. -/
theorem eq_or_zeros (h : x.SameValue y) : x = y ∨ x.isZero ∧ y.isZero ∧ x.isNegative ≠ y.isNegative := by
  cases h with
  | finite hx hy h =>
    rcases toRat_eq_iff.mp h with hsame | ⟨hxzero, hyzero⟩
    · exact .inl hsame
    · by_cases hsign : x.isNegative = y.isNegative
      · exact .inl (eq_of_magnitude hsign ((isZero_iff.mp hxzero).trans (isZero_iff.mp hyzero).symm))
      · exact .inr ⟨hxzero, hyzero, hsign⟩
  | infinite hx => exact .inl rfl

end SameValue

/-- The printed form of a zero shows its sign. -/
lemma render_of_isZero (h : x.isZero) : x.render = if x.isNegative then ['-', '0'] else ['0'] := by
  rw [← ofMagnitude_magnitude x, isZero_iff.mp h, isNegative_ofMagnitude _ (by decide)]
  cases x.isNegative <;> decide +kernel

end Binary64

/-! ### Values -/

namespace Literal

variable {l m n : Literal}

/-- Whether values are of one type and the same. -/
inductive SameValue : Literal → Literal → Prop
  | integer {i : Int64} : SameValue (integer i) (integer i)
  | float {x y : Binary64} (h : x.SameValue y) : SameValue (float x) (float y)
  | text {t : Text} : SameValue (text t) (text t)

/-- Whether values are floating-point zeros, one of them with a sign. -/
inductive OppositeZeros : Literal → Literal → Prop
  | mk {x y : Binary64} (hx : x.isZero) (hy : y.isZero) (hsign : x.isNegative ≠ y.isNegative) :
      OppositeZeros (float x) (float y)

theorem equal_iff : l.equal m ↔ l.SameValue m := by
  constructor
  · intro h
    cases l <;> cases m <;> simp only [equal, beq_iff_eq, Bool.false_eq_true] at h
    · rw [h]
      exact .integer
    · exact .float (Binary64.numericallyEqual_iff.mp h)
    · rw [h]
      exact .text
  · intro h
    cases h with
    | float h => exact Binary64.numericallyEqual_iff.mpr h
    | _ => exact beq_self_eq_true _

namespace SameValue

theorem symm (h : l.SameValue m) : m.SameValue l := by
  cases h with
  | integer => exact .integer
  | float h => exact .float h.symm
  | text => exact .text

theorem trans (hlm : l.SameValue m) (hmn : m.SameValue n) : l.SameValue n := by
  cases hlm with
  | integer => exact hmn
  | float h =>
    cases hmn with
    | float h' => exact .float (h.trans h')
  | text => exact hmn

theorem self_iff : l.SameValue l ↔ ¬∃ x : Binary64, l = Literal.float x ∧ x.isNaN := by
  cases l with
  | float x =>
    constructor
    · rintro (_ | hx) ⟨_, ⟨⟩, hnan⟩
      exact Binary64.SameValue.self_iff.mp hx hnan
    · intro h
      exact .float (Binary64.SameValue.self_iff.mpr fun hnan => h ⟨x, rfl, hnan⟩)
  | integer i => exact iff_of_true SameValue.integer nofun
  | text t => exact iff_of_true SameValue.text nofun

/-- Values that are the same are printed alike, apart from zeros of opposite sign. -/
theorem renderQuoted_eq_iff (h : l.SameValue m) : l.renderQuoted = m.renderQuoted ↔ ¬l.OppositeZeros m := by
  cases h with
  | integer => exact iff_of_true rfl nofun
  | text => exact iff_of_true rfl nofun
  | @float x y h =>
    rcases h.eq_or_zeros with rfl | ⟨hx, hy, hsign⟩
    · refine iff_of_true rfl ?_
      rintro ⟨-, -, hsign⟩
      exact hsign rfl
    · refine iff_of_false ?_ (not_not_intro (.mk hx hy hsign))
      change x.render ≠ y.render
      rw [Binary64.render_of_isZero hx, Binary64.render_of_isZero hy, Bool.eq_not.mpr hsign]
      cases y.isNegative <;> decide

end SameValue

end Literal

/-! ### Tokens -/

namespace Token

variable {a b c : Token}

/-- Whether tokens have the same kind, lexeme and line, and the same value or none. -/
structure Same (a b : Token) : Prop where
  kind_eq : a.kind = b.kind
  lexeme_eq : a.lexeme = b.lexeme
  line_eq : a.line = b.line
  literal : Option.Rel Literal.SameValue a.literal b.literal

/-- Whether the values of two tokens are floating-point zeros of opposite sign. -/
def OppositeZeros (a b : Token) : Prop :=
  ∃ l m, a.literal = some l ∧ b.literal = some m ∧ l.OppositeZeros m

theorem equal_iff : a.equal b ↔ a.Same b := by
  obtain ⟨kind, lexeme, literal, line⟩ := a
  obtain ⟨kind', lexeme', literal', line'⟩ := b
  simp only [equal, Bool.and_eq_true, beq_iff_eq]
  constructor
  · rintro ⟨⟨⟨hkind, hlexeme⟩, hline⟩, h⟩
    refine ⟨hkind, hlexeme, hline, ?_⟩
    cases literal <;> cases literal' <;> simp_all [Literal.equal_iff]
  · rintro ⟨hkind, hlexeme, hline, h⟩
    refine ⟨⟨⟨hkind, hlexeme⟩, hline⟩, ?_⟩
    cases h with
    | some hvalue => exact Literal.equal_iff.mpr hvalue
    | none => rfl

namespace Same

theorem symm (h : a.Same b) : b.Same a := by
  obtain ⟨hkind, hlexeme, hline, hliteral⟩ := h
  refine ⟨hkind.symm, hlexeme.symm, hline.symm, ?_⟩
  generalize a.literal = l, b.literal = m at hliteral ⊢
  cases hliteral with
  | some hvalue => exact .some hvalue.symm
  | none => exact .none

theorem trans (hab : a.Same b) (hbc : b.Same c) : a.Same c := by
  obtain ⟨hkind, hlexeme, hline, hliteral⟩ := hab
  obtain ⟨hkind', hlexeme', hline', hliteral'⟩ := hbc
  refine ⟨hkind.trans hkind', hlexeme.trans hlexeme', hline.trans hline', ?_⟩
  generalize a.literal = l, b.literal = m, c.literal = n at hliteral hliteral' ⊢
  cases hliteral with
  | some hvalue =>
    cases hliteral' with
    | some hvalue' => exact .some (hvalue.trans hvalue')
  | none => exact hliteral'

/-- A token is the same as itself unless its value is not a number. -/
theorem self_iff : a.Same a ↔ ¬∃ x : Binary64, a.literal = some (.float x) ∧ x.isNaN := by
  have hself : a.Same a ↔ Option.Rel Literal.SameValue a.literal a.literal :=
    ⟨Same.literal, fun h => ⟨rfl, rfl, rfl, h⟩⟩
  rw [hself]
  cases a.literal with
  | none => exact iff_of_true .none nofun
  | some l => simp [Literal.SameValue.self_iff]

/-- Tokens that are the same are printed alike, apart from zeros of opposite sign. -/
theorem render_eq_iff (h : a.Same b) : a.render = b.render ↔ ¬a.OppositeZeros b := by
  obtain ⟨hkind, hlexeme, hline, hliteral⟩ := h
  rw [render_eq_append, render_eq_append, hkind, hlexeme, hline, List.append_cancel_left_eq, OppositeZeros]
  generalize a.literal = l, b.literal = m at hliteral ⊢
  cases hliteral with
  | some hvalue =>
    rw [printedValue, printedValue, List.append_cancel_left_eq, hvalue.renderQuoted_eq_iff]
    simp
  | none => exact iff_of_true rfl nofun

end Same

end Token

/-! ### Tokens of scripts -/

lemma Lexeme.not_isNaN_of_literal {a : Lexeme} {x : Binary64} (h : a.literal = some (.float x)) : ¬x.isNaN := by
  cases a with
  | decimal whole fraction =>
    cases h
    simp [Binary64.isNaN_nearest]
  | _ => cases h

namespace Listed

variable {ts us : List Token} {t u : Token} {x : Binary64}

lemma eq_eof_or_token (h : Listed ts) (ht : t ∈ ts) : t = Token.eof t.line ∨ ∃ a : Lexeme, t = a.token t.line := by
  induction h with
  | eof line =>
    obtain rfl := List.mem_singleton.mp ht
    exact .inl rfl
  | cons a line tail ih =>
    rcases List.mem_cons.mp ht with rfl | ht
    · exact .inr ⟨a, rfl⟩
    · exact ih ht

/-- The lexeme of a token determines its value. -/
theorem literal_eq (hts : Listed ts) (hus : Listed us) (ht : t ∈ ts) (hu : u ∈ us) (h : t.lexeme = u.lexeme) :
    t.literal = u.literal := by
  rcases hts.eq_eof_or_token ht with heof | ⟨a, ha⟩
  · rcases hus.eq_eof_or_token hu with heof' | ⟨b, hb⟩
    · rw [heof, heof', Token.eof, Token.eof]
    · rw [heof, hb] at h
      exact absurd h.symm b.text_ne_nil
  · have hlexeme : u.lexeme = a.text := by rw [← h, ha]; rfl
    rw [ha, hus.eq_token hu hlexeme]
    rfl

theorem not_isNaN (h : Listed ts) (ht : t ∈ ts) (hliteral : t.literal = some (.float x)) : ¬x.isNaN := by
  rcases h.eq_eof_or_token ht with heof | ⟨a, ha⟩
  · rw [heof] at hliteral
    cases hliteral
  · rw [ha] at hliteral
    exact a.not_isNaN_of_literal hliteral

/-- Tokens of scripts are equal if their kinds, lexemes and lines are. -/
theorem equal_iff_parts (hts : Listed ts) (hus : Listed us) (ht : t ∈ ts) (hu : u ∈ us) :
    t.equal u ↔ t.kind = u.kind ∧ t.lexeme = u.lexeme ∧ t.line = u.line := by
  rw [Token.equal_iff]
  constructor
  · exact fun h => ⟨h.kind_eq, h.lexeme_eq, h.line_eq⟩
  · rintro ⟨hkind, hlexeme, hline⟩
    have hself : t.Same t := Token.Same.self_iff.mpr fun ⟨x, hliteral, hnan⟩ => hts.not_isNaN ht hliteral hnan
    refine ⟨hkind, hlexeme, hline, ?_⟩
    rw [← hts.literal_eq hus ht hu hlexeme]
    exact hself.literal

end Listed

/-- Equality of tokens is symmetric and transitive, and a token is equal to itself unless its value is not a number.
Equal tokens are printed alike unless their values are zeros of opposite sign. Tokens of scripts are equal if their
kinds, lexemes and lines are, for the first two determine the value, which is never other than a number. -/
theorem token_equality :
    (∀ a b : Token, a.equal b = b.equal a) ∧
    (∀ a b c : Token, a.equal b → b.equal c → a.equal c) ∧
    (∀ a : Token, a.equal a ↔ ¬∃ x : Binary64, a.literal = some (.float x) ∧ x.isNaN) ∧
    (∀ a b : Token, a.equal b → (a.render = b.render ↔ ¬a.OppositeZeros b)) ∧
    ∀ source source' : Text, ∀ t ∈ (scan source).tokens, ∀ u ∈ (scan source').tokens,
      (t.equal u ↔ t.kind = u.kind ∧ t.lexeme = u.lexeme ∧ t.line = u.line) ∧
        (t.kind = u.kind → t.lexeme = u.lexeme → t.literal = u.literal) ∧
        ∀ x : Binary64, t.literal = some (.float x) → ¬x.isNaN := by
  refine ⟨?_, ?_, ?_, ?_, ?_⟩
  · intro a b
    rw [Bool.eq_iff_iff, Token.equal_iff, Token.equal_iff]
    exact ⟨Token.Same.symm, Token.Same.symm⟩
  · intro a b c hab hbc
    exact Token.equal_iff.mpr ((Token.equal_iff.mp hab).trans (Token.equal_iff.mp hbc))
  · intro a
    rw [Token.equal_iff, Token.Same.self_iff]
  · intro a b h
    exact (Token.equal_iff.mp h).render_eq_iff
  · intro source source' t ht u hu
    have hts := listed_tokens source
    have hus := listed_tokens source'
    exact ⟨hts.equal_iff_parts hus ht hu, fun _ => hts.literal_eq hus ht hu, fun _ => hts.not_isNaN ht⟩

end ScriptLexer
