import Mathlib.Algebra.Group.Nat.Defs
import ScriptLexer.Proofs.Findings
import ScriptLexer.Proofs.Lookahead

/-!
# Recovery from faulty pieces

A faulty piece is to the rest of a script what white space of the same extent is. If every faulty piece is
overwritten by blanks, the division of the script changes at these pieces only, and a scan finds the same
tokens at the same places and no fault.
-/

namespace ScriptLexer

/-- Whether a piece is no part of the language: a stray character, a string that is still open at the end,
or digits of a number that is too large. -/
def Piece.isFaulty : Piece → Bool
  | stray _ => true
  | unclosed _ => true
  | integer digits => 2 ^ 63 ≤ Text.value digits
  | _ => false

/-- The blanks that overwrite a character, one for each byte. A line feed stays. -/
def blanksFor (c : Char) : Text := if c = '\n' then ['\n'] else List.replicate c.utf8Size ' '

/-- The text of a piece, overwritten by blanks if the piece is faulty. -/
def Piece.blankedText (x : Piece) : Text := if x.isFaulty then x.text.flatMap blanksFor else x.text

/-- A script with all faulty pieces overwritten. -/
def blanked (source : Text) : Text := (pieces source).flatMap Piece.blankedText

/-- The pieces into which an overwritten piece falls. -/
def Piece.blankedPieces (x : Piece) : List Piece :=
  if x.isFaulty then (x.text.flatMap blanksFor).map blank else [x]

lemma Piece.isFaulty_iff {x : Piece} : x.isFaulty ↔ ∃ cause, x.meaning = .fault cause := by
  cases x with
  | integer digits =>
    rw [isFaulty, meaning, decide_eq_true_eq]
    by_cases h : Text.value digits < Nat.pow 2 63
    · rw [if_pos h]
      constructor
      · intro hlarge
        exact absurd h (Nat.not_lt.mpr hlarge)
      · rintro ⟨cause, hcause⟩
        cases hcause
    · rw [if_neg h]
      constructor
      · intro hlarge
        exact ⟨_, rfl⟩
      · intro hfault
        exact Nat.not_lt.mp h
  | _ => simp [isFaulty, meaning]

/-! ### Blanks -/

lemma mem_blanksFor {c d : Char} (h : d ∈ blanksFor c) : d ∈ [' ', '\t', '\r', '\n'] := by
  unfold blanksFor at h
  split at h
  · rw [List.mem_singleton.mp h]
    decide
  · rw [List.eq_of_mem_replicate h]
    decide

lemma utf8Length_spaces (n : Nat) : Text.utf8Length (List.replicate n ' ') = n := by
  induction n with
  | zero => rfl
  | succ n ih =>
    have hspace : Char.utf8Size ' ' = 1 := rfl
    rw [List.replicate_succ, Text.utf8Length_cons, ih, hspace, Nat.add_comm]

lemma utf8Length_blanksFor (c : Char) : (blanksFor c).utf8Length = c.utf8Size := by
  unfold blanksFor
  split
  · next h => rw [h]; rfl
  · exact utf8Length_spaces c.utf8Size

lemma lineFeeds_blanksFor (c : Char) : (blanksFor c).lineFeeds = Text.lineFeeds [c] := by
  unfold blanksFor
  split
  · next h => rw [h]
  · next h =>
    rw [Text.lineFeeds, Text.lineFeeds, List.count_replicate, List.count_singleton]
    simp [h]

lemma advance_blanks (p : Position) (t : Text) : p.advance (t.flatMap blanksFor) = p.advance t := by
  induction t generalizing p with
  | nil => rfl
  | cons c t ih =>
    have hc : p.advance (blanksFor c) = p.advance [c] := by
      rw [Position.advance, Position.advance, utf8Length_blanksFor, lineFeeds_blanksFor,
        Text.utf8Length_cons, Text.utf8Length_nil, Nat.add_zero]
    rw [List.flatMap_cons, Position.advance_append, ih, hc, ← Position.advance_append]
    rfl

/-! ### Fading -/

/-- Whether `u` comes from `t` by overwriting some characters, but no line feeds, with spaces. -/
inductive Fades : Text → Text → Prop
  | nil : Fades [] []
  | keep {c : Char} {t u : Text} (tail : Fades t u) : Fades (c :: t) (c :: u)
  | fade {c : Char} {t u : Text} {n : Nat} (hc : c ≠ '\n') (tail : Fades t u) :
      Fades (c :: t) (' ' :: (List.replicate n ' ' ++ u))

namespace Fades

lemma refl (t : Text) : Fades t t := by
  induction t with
  | nil => exact .nil
  | cons c t ih => exact .keep ih

lemma append {t u t' u' : Text} (h : Fades t u) (h' : Fades t' u') : Fades (t ++ t') (u ++ u') := by
  induction h with
  | nil => exact h'
  | keep tail ih => exact .keep ih
  | fade hc tail ih =>
    rw [List.cons_append, List.cons_append, List.append_assoc]
    exact .fade hc ih

lemma blanks (t : Text) : Fades t (t.flatMap blanksFor) := by
  induction t with
  | nil => exact .nil
  | cons c t ih =>
    rw [List.flatMap_cons, blanksFor]
    by_cases hc : c = '\n'
    · rw [if_pos hc, hc]
      exact .keep ih
    · obtain ⟨n, hn⟩ := Nat.exists_eq_succ_of_ne_zero (Nat.pos_iff_ne_zero.mp c.utf8Size_pos)
      rw [if_neg hc, hn, List.replicate_succ, List.cons_append]
      exact .fade hc ih

lemma blankedText (xs : List Piece) : Fades (xs.flatMap Piece.text) (xs.flatMap Piece.blankedText) := by
  induction xs with
  | nil => exact .nil
  | cons x xs ih =>
    rw [List.flatMap_cons, List.flatMap_cons]
    have hx : Fades x.text x.blankedText := by
      unfold Piece.blankedText
      split
      · exact blanks x.text
      · exact refl x.text
    exact hx.append ih

/-- A faded text is milder. -/
lemma milder {t u : Text} (h : Fades t u) : Milder t u where
  head := by
    intro d hd
    cases h with
    | nil => exact .inl hd
    | keep tail => exact .inl hd
    | @fade c t u n hc tail =>
      have hspace : ' ' = d := Option.some.inj hd
      subst hspace
      exact .inr (.inr ⟨rfl, c, rfl, hc⟩)
  point := by
    intro d tail hu hd
    cases h with
    | nil => cases hu
    | keep htail =>
      obtain ⟨rfl, rfl⟩ := List.cons.inj hu
      cases htail with
      | keep htail => exact ⟨_, rfl⟩
      | fade hc htail => exact absurd hd (by decide)
    | fade hc htail => exact absurd (List.cons.inj hu).1 (by decide)

end Fades

/-! ### The division of an overwritten script -/

lemma divides_blank_append {ws : Text} (hws : ∀ c ∈ ws, c ∈ [' ', '\t', '\r', '\n']) {ys : List Piece}
    {rest : Text} (h : Divides ys rest) : Divides (ws.map Piece.blank ++ ys) (ws ++ rest) := by
  induction ws with
  | nil => exact h
  | cons c ws ih =>
    have hc := hws c List.mem_cons_self
    exact .cons (.blank hc) (ih fun d hd => hws d (List.mem_cons_of_mem c hd))

/-- Overwriting faulty pieces changes the division of a script at these pieces only. -/
theorem divides_blanked {xs : List Piece} {source : Text} (h : Divides xs source) :
    Divides (xs.flatMap Piece.blankedPieces) (xs.flatMap Piece.blankedText) := by
  induction h with
  | nil => exact .nil
  | @cons x xs rest head tail ih =>
    rw [List.flatMap_cons, List.flatMap_cons, Piece.blankedPieces, Piece.blankedText]
    by_cases hx : x.isFaulty
    · rw [if_pos hx, if_pos hx]
      apply divides_blank_append _ ih
      intro d hd
      obtain ⟨c, _, hc⟩ := List.mem_flatMap.mp hd
      exact mem_blanksFor hc
    · rw [if_neg hx, if_neg hx]
      have hfades := Fades.blankedText xs
      rw [flatMap_text_of_divides tail] at hfades
      apply Divides.cons
      · apply head.of_milder hfades.milder
        rintro body rfl
        exact absurd rfl hx
      · exact ih

lemma findingsFrom_blank_append (p : Position) (ws : Text) (xs : List Piece) :
    findingsFrom p (ws.map Piece.blank ++ xs) = findingsFrom (p.advance ws) xs := by
  induction ws generalizing p with
  | nil => rfl
  | cons c ws ih =>
    rw [List.map_cons, List.cons_append, findingsFrom_cons_nothing _ _ rfl, ih, ← Position.advance_append]
    rfl

/-- In an overwritten script the same tokens are found at the same places, and nothing else. -/
theorem findingsFrom_blanked (p : Position) (xs : List Piece) :
    findingsFrom p (xs.flatMap Piece.blankedPieces) =
      ((findingsFrom p xs).filterMap Finding.located?).map Finding.token := by
  induction xs generalizing p with
  | nil => rfl
  | cons x xs ih =>
    rw [List.flatMap_cons, Piece.blankedPieces]
    by_cases hx : x.isFaulty
    · obtain ⟨cause, hcause⟩ := Piece.isFaulty_iff.mp hx
      rw [if_pos hx, findingsFrom_blank_append, advance_blanks, ih, findingsFrom_cons_fault _ _ hcause]
      rfl
    · rw [if_neg hx, List.singleton_append]
      cases hmeaning : x.meaning with
      | nothing => rw [findingsFrom_cons_nothing _ _ hmeaning, findingsFrom_cons_nothing _ _ hmeaning, ih]
      | lexeme kind literal =>
        rw [findingsFrom_cons_lexeme _ _ hmeaning, findingsFrom_cons_lexeme _ _ hmeaning, ih]
        rfl
      | fault cause => exact absurd (Piece.isFaulty_iff.mpr ⟨cause, hmeaning⟩) hx

lemma length_diagnostics (p : Position) (xs : List Piece) :
    ((findingsFrom p xs).filterMap Finding.diagnostic?).length = xs.countP Piece.isFaulty := by
  induction xs generalizing p with
  | nil => rfl
  | cons x xs ih =>
    rw [List.countP_cons]
    cases hmeaning : x.meaning with
    | nothing =>
      have hx : ¬x.isFaulty := by simp [Piece.isFaulty_iff, hmeaning]
      rw [findingsFrom_cons_nothing _ _ hmeaning, ih, if_neg hx, Nat.add_zero]
    | lexeme kind literal =>
      have hx : ¬x.isFaulty := by simp [Piece.isFaulty_iff, hmeaning]
      rw [findingsFrom_cons_lexeme _ _ hmeaning, if_neg hx, Nat.add_zero, ← ih (p.advance x.text)]
      rfl
    | fault cause =>
      have hx : x.isFaulty := Piece.isFaulty_iff.mpr ⟨cause, hmeaning⟩
      rw [findingsFrom_cons_fault _ _ hmeaning, if_pos hx, ← ih (p.advance x.text)]
      rfl

lemma advance_blanked (p : Position) (xs : List Piece) :
    p.advance (xs.flatMap Piece.blankedText) = p.advance (xs.flatMap Piece.text) := by
  induction xs generalizing p with
  | nil => rfl
  | cons x xs ih =>
    have hx : p.advance x.blankedText = p.advance x.text := by
      unfold Piece.blankedText
      split
      · exact advance_blanks p x.text
      · rfl
    rw [List.flatMap_cons, List.flatMap_cons, Position.advance_append, Position.advance_append, hx, ih]

/-- Overwriting the faulty pieces of a script by blanks leaves a script without diagnostics and with the
same tokens, each at the same line and offset; and each faulty piece has had one diagnostic. -/
theorem scan_blanked (source : Text) :
    (scan (blanked source)).diagnostics = [] ∧ (scan (blanked source)).located = (scan source).located ∧
      (scan (blanked source)).tokens = (scan source).tokens ∧
      (scan source).diagnostics.length = (pieces source).countP Piece.isFaulty := by
  have hpieces : pieces (blanked source) = (pieces source).flatMap Piece.blankedPieces :=
    pieces_eq_of_divides (divides_blanked (divides_pieces source))
  have hfindings : (scan (blanked source)).findings =
      (scan source).located.map Finding.token := by
    rw [scan, findings_scanFrom, hpieces, findingsFrom_blanked, Scan.located_eq]
    rfl
  have hlocated : (scan (blanked source)).located = (scan source).located := by
    rw [Scan.located_eq, hfindings, List.filterMap_map]
    exact List.filterMap_some
  have hdiagnostics : (scan (blanked source)).diagnostics = [] := by
    rw [Scan.diagnostics_eq, hfindings, List.filterMap_map]
    exact List.filterMap_eq_nil_iff.mpr fun t _ => rfl
  have heof : (scan (blanked source)).finish = (scan source).finish := by
    rw [scan, scan, finish_scanFrom, finish_scanFrom, blanked, advance_blanked, flatMap_text_pieces]
  refine ⟨hdiagnostics, hlocated, ?_, ?_⟩
  · rw [Scan.tokens_eq, Scan.tokens_eq, hlocated, Scan.eof, Scan.eof, heof]
  · rw [Scan.diagnostics_eq]
    exact length_diagnostics _ _

end ScriptLexer
