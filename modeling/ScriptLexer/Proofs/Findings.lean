import Mathlib.Tactic.Lemma
import ScriptLexer.Scan

/-!
# The findings of a scan

Tokens and faults come from the same placed pieces. In the order of their pieces they are the findings of
a scan, from which the tokens and the diagnostics are selected. Findings depend on the place of the first
piece only by their lines and offsets, which move with it.
-/

namespace ScriptLexer

/-- A token or a fault. -/
inductive Finding
  | token (t : Token.Located)
  | fault (f : Fault)
  deriving DecidableEq, Repr

namespace Finding

def located? : Finding → Option Token.Located
  | token t => some t
  | fault _ => none

def token? (f : Finding) : Option Token := f.located?.map (·.token)

def diagnostic? : Finding → Option Diagnostic
  | token _ => none
  | fault f => some f.diagnostic

end Finding

def Placed.finding? (x : Placed) : Option Finding :=
  match x.piece.meaning with
  | .nothing => none
  | .lexeme kind literal =>
    some (.token ⟨⟨kind, x.piece.text, literal, x.position.line⟩, x.position.offset⟩)
  | .fault cause => some (.fault ⟨cause, x.position.line⟩)

/-- What is found where pieces are placed one behind the other from a position on. -/
def findingsFrom (p : Position) (xs : List Piece) : List Finding :=
  (place p xs).filterMap Placed.finding?

def Scan.findings (s : Scan) : List Finding := s.placed.filterMap Placed.finding?

/-! ### Moving to another line and offset -/

def Position.shift (lines bytes : Nat) (p : Position) : Position := ⟨p.line + lines, p.offset + bytes⟩

def Token.raise (lines : Nat) (t : Token) : Token := { t with line := t.line + lines }

def Token.Located.shift (lines bytes : Nat) (t : Token.Located) : Token.Located :=
  ⟨t.token.raise lines, t.offset + bytes⟩

def Diagnostic.raise (lines : Nat) (d : Diagnostic) : Diagnostic := { d with line := d.line + lines }

def Finding.shift (lines bytes : Nat) : Finding → Finding
  | token t => token (t.shift lines bytes)
  | fault f => fault { f with line := f.line + lines }

/-! ### Selecting from the findings -/

namespace Scan

variable (s : Scan)

theorem located_eq : s.located = s.findings.filterMap Finding.located? := by
  rw [located, findings, List.filterMap_filterMap]
  congr 1
  funext x
  rw [Placed.located?, Placed.finding?]
  cases x.piece.meaning <;> rfl

theorem diagnostics_eq : s.diagnostics = s.findings.filterMap Finding.diagnostic? := by
  rw [diagnostics, faults, findings, List.map_filterMap, List.filterMap_filterMap]
  congr 1
  funext x
  rw [Placed.fault?, Placed.finding?]
  cases x.piece.meaning <;> rfl

theorem dropLast_tokens : s.tokens.dropLast = s.findings.filterMap Finding.token? := by
  rw [tokens_eq, List.dropLast_concat, located_eq, List.map_filterMap]
  rfl

end Scan

/-! ### What placed pieces contribute -/

lemma meaning_of_located? {x : Placed} {t : Token.Located} (h : x.located? = some t) :
    x.piece.meaning = .lexeme t.token.kind t.token.literal ∧
      t = ⟨⟨t.token.kind, x.piece.text, t.token.literal, x.position.line⟩, x.position.offset⟩ := by
  unfold Placed.located? at h
  cases hx : x.piece.meaning with
  | lexeme kind literal =>
    rw [hx] at h
    obtain rfl := Option.some.inj h
    exact ⟨rfl, rfl⟩
  | _ => simp [hx] at h

lemma meaning_of_fault? {x : Placed} {f : Fault} (h : x.fault? = some f) :
    x.piece.meaning = .fault f.cause ∧ f = ⟨f.cause, x.position.line⟩ := by
  unfold Placed.fault? at h
  cases hx : x.piece.meaning with
  | fault cause =>
    rw [hx] at h
    obtain rfl := Option.some.inj h
    exact ⟨rfl, rfl⟩
  | _ => simp [hx] at h

/-! ### Findings of joined pieces -/

lemma map_piece_place (p : Position) (xs : List Piece) : (place p xs).map Placed.piece = xs := by
  induction xs generalizing p with
  | nil => rfl
  | cons x xs ih => rw [place, List.map_cons, ih]

lemma findings_scanFrom (p : Position) (source : Text) :
    (scanFrom p source).findings = findingsFrom p (pieces source) := rfl

lemma findings_scanFrom_nil (p : Position) : (scanFrom p []).findings = [] := by
  rw [findings_scanFrom, pieces_nil]
  rfl

lemma findingsFrom_append (p : Position) (xs ys : List Piece) :
    findingsFrom p (xs ++ ys) =
      findingsFrom p xs ++ findingsFrom (p.advance (xs.flatMap Piece.text)) ys := by
  rw [findingsFrom, place_append, List.filterMap_append, positionAfter_eq_advance]
  rfl

lemma findingsFrom_cons (p : Position) (x : Piece) (xs : List Piece) :
    findingsFrom p (x :: xs) =
      (Placed.finding? ⟨p, x⟩).toList ++ findingsFrom (p.advance x.text) xs := by
  rw [findingsFrom, place, List.filterMap_cons]
  cases Placed.finding? ⟨p, x⟩ <;> rfl

section Cons

variable (p : Position) {x : Piece} (xs : List Piece)

lemma findingsFrom_cons_nothing (hx : x.meaning = .nothing) :
    findingsFrom p (x :: xs) = findingsFrom (p.advance x.text) xs := by
  simp only [findingsFrom_cons, Placed.finding?, hx, Option.toList_none, List.nil_append]

lemma findingsFrom_cons_lexeme {kind : Token.Kind} {literal : Option Literal}
    (hx : x.meaning = .lexeme kind literal) :
    findingsFrom p (x :: xs) =
      .token ⟨⟨kind, x.text, literal, p.line⟩, p.offset⟩ :: findingsFrom (p.advance x.text) xs := by
  simp only [findingsFrom_cons, Placed.finding?, hx, Option.toList_some, List.singleton_append]

lemma findingsFrom_cons_fault {cause : Fault.Cause} (hx : x.meaning = .fault cause) :
    findingsFrom p (x :: xs) = .fault ⟨cause, p.line⟩ :: findingsFrom (p.advance x.text) xs := by
  simp only [findingsFrom_cons, Placed.finding?, hx, Option.toList_some, List.singleton_append]

end Cons

/-! ### Findings that have moved -/

section Shift

variable (lines bytes : Nat)

lemma Position.advance_shift (p : Position) (t : Text) :
    (p.shift lines bytes).advance t = (p.advance t).shift lines bytes := by
  simp only [Position.advance, Position.shift, Position.mk.injEq]
  omega

lemma Placed.finding?_shift (p : Position) (x : Piece) :
    Placed.finding? ⟨p.shift lines bytes, x⟩ = (Placed.finding? ⟨p, x⟩).map (Finding.shift lines bytes) := by
  rw [finding?, finding?]
  cases x.meaning <;> rfl

/-- Findings move with the place of the first piece. -/
theorem findingsFrom_shift (p : Position) (xs : List Piece) :
    findingsFrom (p.shift lines bytes) xs = (findingsFrom p xs).map (Finding.shift lines bytes) := by
  induction xs generalizing p with
  | nil => rfl
  | cons x xs ih =>
    rw [findingsFrom_cons, findingsFrom_cons, Position.advance_shift, Placed.finding?_shift, ih]
    cases Placed.finding? ⟨p, x⟩ <;> rfl

/-- What is found behind a text is what is found in the rest alone, moved by the text. -/
theorem findings_scanFrom_advance (p : Position) (a b : Text) :
    (scanFrom (p.advance a) b).findings =
      (scanFrom p b).findings.map (Finding.shift a.lineFeeds a.utf8Length) :=
  findingsFrom_shift a.lineFeeds a.utf8Length p (pieces b)

/-- Where a cut falls between two pieces, both sides are scanned apart. -/
theorem findings_append_of_pieces {a b : Text} (h : pieces (a ++ b) = pieces a ++ pieces b) :
    (scan (a ++ b)).findings =
      (scan a).findings ++ (scan b).findings.map (Finding.shift a.lineFeeds a.utf8Length) := by
  have hrest := findings_scanFrom_advance Position.start a b
  rw [findings_scanFrom, findings_scanFrom] at hrest
  rw [scan, scan, scan, findings_scanFrom, findings_scanFrom, findings_scanFrom, h, findingsFrom_append,
    flatMap_text_pieces, hrest]

lemma eof_append (a b : Text) : (scan (a ++ b)).eof = (scan b).eof.raise a.lineFeeds := by
  rw [Scan.eof, Scan.eof, scan, scan, finish_scanFrom, finish_scanFrom, Position.advance_append,
    Position.advance, Position.advance, Position.advance, Nat.add_right_comm]
  rfl

lemma Finding.located?_shift (f : Finding) :
    (f.shift lines bytes).located? = f.located?.map (Token.Located.shift lines bytes) := by
  cases f <;> rfl

lemma Finding.token?_shift (f : Finding) :
    (f.shift lines bytes).token? = f.token?.map (Token.raise lines) := by
  cases f <;> rfl

lemma Finding.diagnostic?_shift (f : Finding) :
    (f.shift lines bytes).diagnostic? = f.diagnostic?.map (Diagnostic.raise lines) := by
  cases f <;> rfl

variable {lines bytes}

/-- What is selected from findings that have moved is what is selected before, moved in its own way. -/
lemma filterMap_map_shift {α : Type} {select : Finding → Option α} {move : α → α}
    (h : ∀ f, select (f.shift lines bytes) = (select f).map move) (fs : List Finding) :
    (fs.map (Finding.shift lines bytes)).filterMap select = (fs.filterMap select).map move := by
  rw [List.filterMap_map, List.map_filterMap]
  congr 1
  funext f
  exact h f

end Shift

end ScriptLexer
