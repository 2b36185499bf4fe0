import Mathlib.Algebra.Group.Nat.Defs
import ScriptLexer.Proofs.Division
import ScriptLexer.Proofs.Findings
import ScriptLexer.Report

/-!
# Reading a scan off the division of a script

The meaning of a piece is given by a relation that does not compute: a word is reserved if it is spelled
like a reserved word, and digits are an integer if some integer of 64 bits has their value. Reading the
tokens and the diagnostics off the only division of a script, each at the line and the offset that the
text in front of its piece gives, is what a scan does.
-/

namespace ScriptLexer

/-- What a piece stands for in the language. -/
inductive Piece.Means : Piece → Piece.Meaning → Prop
  | blank {c : Char} : Means (blank c) .nothing
  | comment {body : Text} : Means (comment body) .nothing
  | symbol {s : Symbol} : Means (symbol s) (.lexeme (.symbol s) none)
  | reserved {k : Keyword} : Means (word k.word) (.lexeme (.keyword k) none)
  | identifier {letters : Text} (h : ∀ k : Keyword, letters ≠ k.word) :
      Means (word letters) (.lexeme .identifier none)
  | string {body : Text} : Means (string body) (.lexeme .string (some (.text body)))
  | integer {digits : Text} {i : Int64} (h : i.toInt = Text.value digits) :
      Means (integer digits) (.lexeme .number (some (.integer i)))
  | overflow {digits : Text} (h : 2 ^ 63 - 1 < Text.value digits) :
      Means (integer digits) (.fault (.integerOverflow digits))
  | decimal {whole fraction : Text} :
      Means (decimal whole fraction) (.lexeme .number
        (some (.float (Binary64.nearest (Text.value (whole ++ fraction)) (10 ^ fraction.length)))))
  | stray {c : Char} : Means (stray c) (.fault (.unexpectedCharacter c))
  | unclosed {body : Text} : Means (unclosed body) (.fault .unterminatedString)

/-- Whether pieces that stand behind the text `before` give the tokens `ts` and the diagnostics `ds`. -/
inductive ReadsOff : Text → List Piece → List Token.Located → List Diagnostic → Prop
  | nil {before : Text} : ReadsOff before [] [] []
  | nothing {before : Text} {x : Piece} {xs : List Piece} {ts : List Token.Located}
      {ds : List Diagnostic} (head : x.Means .nothing) (tail : ReadsOff (before ++ x.text) xs ts ds) :
      ReadsOff before (x :: xs) ts ds
  | token {before : Text} {x : Piece} {xs : List Piece} {ts : List Token.Located}
      {ds : List Diagnostic} {kind : Token.Kind} {literal : Option Literal}
      (head : x.Means (.lexeme kind literal)) (tail : ReadsOff (before ++ x.text) xs ts ds) :
      ReadsOff before (x :: xs)
        (⟨⟨kind, x.text, literal, 1 + before.lineFeeds⟩, before.utf8Length⟩ :: ts) ds
  | diagnostic {before : Text} {x : Piece} {xs : List Piece} {ts : List Token.Located}
      {ds : List Diagnostic} {cause : Fault.Cause} (head : x.Means (.fault cause))
      (tail : ReadsOff (before ++ x.text) xs ts ds) :
      ReadsOff before (x :: xs) ts (⟨1 + before.lineFeeds, [], cause.message⟩ :: ds)

lemma Keyword.ofWord?_eq_none {letters : Text} (h : ∀ k : Keyword, letters ≠ k.word) :
    ofWord? letters = none := by
  cases hk : ofWord? letters with
  | none => rfl
  | some k => exact absurd (ofWord?_eq_some_iff.mp hk).symm (h k)

namespace Piece

theorem means_meaning (x : Piece) : x.Means x.meaning := by
  cases x with
  | word letters =>
    rw [meaning, wordKind]
    cases hk : Keyword.ofWord? letters with
    | some k =>
      have hword : k.word = letters := Keyword.ofWord?_eq_some_iff.mp hk
      rw [← hword]
      exact .reserved
    | none =>
      apply Means.identifier
      rintro k rfl
      rw [Keyword.ofWord?_word] at hk
      exact absurd hk (by simp)
  | integer digits =>
    rw [meaning]
    by_cases h : Text.value digits < Nat.pow 2 63
    · rw [if_pos h]
      exact .integer (Int64.toInt_ofNat_of_lt h)
    · rw [if_neg h]
      rw [Nat.pow_eq] at h
      exact .overflow (by omega)
  | _ => constructor

theorem meaning_of_means {x : Piece} {m : Meaning} (h : x.Means m) : x.meaning = m := by
  cases h with
  | reserved => rw [meaning, wordKind, Keyword.ofWord?_word]
  | identifier h => rw [meaning, wordKind, Keyword.ofWord?_eq_none h]
  | @integer digits i h =>
    have hlt : Text.value digits < Nat.pow 2 63 := by
      have hi := i.toInt_lt
      rw [Nat.pow_eq]
      omega
    have hi : Int64.ofNat (Text.value digits) = i := by
      apply Int64.toInt_inj.mp
      rw [Int64.toInt_ofNat_of_lt hlt, h]
    rw [meaning, if_pos hlt, hi]
  | @overflow digits h =>
    have hlarge : ¬Text.value digits < Nat.pow 2 63 := by
      rw [Nat.pow_eq]
      omega
    rw [meaning, if_neg hlarge]
  | _ => rfl

/-- What a piece stands for is its meaning. -/
theorem means_iff {x : Piece} {m : Meaning} : x.Means m ↔ x.meaning = m := by
  constructor
  · exact meaning_of_means
  · rintro rfl
    exact x.means_meaning

end Piece

lemma offset_advance_start (t : Text) : (Position.start.advance t).offset = t.utf8Length :=
  Nat.zero_add t.utf8Length

section Reading

variable (before : Text) (xs : List Piece)

/-- The tokens and diagnostics that are found are read off the pieces. -/
theorem readsOff_findings :
    ReadsOff before xs
      ((findingsFrom (Position.start.advance before) xs).filterMap Finding.located?)
      ((findingsFrom (Position.start.advance before) xs).filterMap Finding.diagnostic?) := by
  induction xs generalizing before with
  | nil => exact .nil
  | cons x xs ih =>
    have hrest := ih (before ++ x.text)
    have hmeans := x.means_meaning
    rw [Position.advance_append] at hrest
    cases hx : x.meaning with
    | nothing =>
      rw [hx] at hmeans
      rw [findingsFrom_cons_nothing _ _ hx]
      exact .nothing hmeans hrest
    | lexeme kind literal =>
      rw [hx] at hmeans
      rw [findingsFrom_cons_lexeme _ _ hx, offset_advance_start]
      exact .token hmeans hrest
    | fault cause =>
      rw [hx] at hmeans
      rw [findingsFrom_cons_fault _ _ hx]
      exact .diagnostic hmeans hrest

variable {before xs} {ts : List Token.Located} {ds : List Diagnostic}

/-- Nothing else is read off the pieces. -/
theorem ReadsOff.eq_findings (h : ReadsOff before xs ts ds) :
    ts = (findingsFrom (Position.start.advance before) xs).filterMap Finding.located? ∧
      ds = (findingsFrom (Position.start.advance before) xs).filterMap Finding.diagnostic? := by
  induction h with
  | nil => exact ⟨rfl, rfl⟩
  | nothing head tail ih =>
    rw [findingsFrom_cons_nothing _ _ (Piece.means_iff.mp head), ← Position.advance_append]
    exact ih
  | token head tail ih =>
    obtain ⟨hts, hds⟩ := ih
    rw [findingsFrom_cons_lexeme _ _ (Piece.means_iff.mp head), offset_advance_start,
      ← Position.advance_append]
    refine ⟨?_, hds⟩
    rw [hts]
    rfl
  | diagnostic head tail ih =>
    obtain ⟨hts, hds⟩ := ih
    rw [findingsFrom_cons_fault _ _ (Piece.means_iff.mp head), ← Position.advance_append]
    refine ⟨hts, ?_⟩
    rw [hds]
    rfl

end Reading

lemma text_ne_nil_of_mem_pieces {x : Piece} {source : Text} (h : x ∈ pieces source) : x.text ≠ [] := by
  fun_induction pieces source with
  | case1 => exact absurd h List.not_mem_nil
  | case2 c rest ih =>
    rcases List.mem_cons.mp h with rfl | htail
    · exact Piece.text_next_ne_nil c rest
    · exact ih htail

/-- A script has exactly one division into pieces that the lexical grammar allows. It leaves nothing over,
and the tokens and diagnostics of a scan are those that are read off it. -/
theorem scan_iff_readsOff_division (source : Text) :
    ∃ xs : List Piece,
      (∀ ys, Divides ys source ↔ ys = xs) ∧ xs.flatMap Piece.text = source ∧ (∀ x ∈ xs, x.text ≠ []) ∧
      (∀ ts ds, ReadsOff [] xs ts ds ↔
        ts = (scan source).located ∧ ds = (Report.empty.addScan (scan source)).diagnostics) ∧
      (scan source).tokens =
        (scan source).located.map (·.token) ++ [Token.eof (1 + source.lineFeeds)] := by
  have hlocated : (scan source).located =
      (findingsFrom (Position.start.advance []) (pieces source)).filterMap Finding.located? :=
    Scan.located_eq _
  have hdiagnostics : (Report.empty.addScan (scan source)).diagnostics =
      (findingsFrom (Position.start.advance []) (pieces source)).filterMap Finding.diagnostic? := by
    rw [Report.diagnostics_addScan, Scan.diagnostics_eq]
    rfl
  refine ⟨pieces source, ?_, flatMap_text_pieces source, fun x => text_ne_nil_of_mem_pieces, ?_, ?_⟩
  · intro ys
    rw [divides_iff, eq_comm]
  · intro ts ds
    rw [hlocated, hdiagnostics]
    constructor
    · exact ReadsOff.eq_findings
    · rintro ⟨rfl, rfl⟩
      exact readsOff_findings [] (pieces source)
  · rw [Scan.tokens_eq, Scan.eof, scan, finish_scanFrom]
    rfl

end ScriptLexer
