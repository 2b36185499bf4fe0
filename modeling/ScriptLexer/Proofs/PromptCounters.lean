import ScriptLexer.Proofs.Counters
import ScriptLexer.Proofs.PromptCuts

/-!
# Counters at the prompt

The test for completeness finds what it looks for as long as 32 bits are enough for its counters, and then it does not
matter what becomes of a counter that overflows. A line of `2 ^ 31` opening braces is too much for them: counters that
wrap find it complete, and otherwise the test has a defect.
-/

namespace ScriptLexer.Prompt

def countSymbol (s : Symbol) (tokens : List Token) : Nat := tokens.countP (·.kind = .symbol s)

/-- How many more tokens of one kind there are than of another. -/
def surplus (opening closing : Symbol) (tokens : List Token) : Int :=
  (countSymbol opening tokens : Int) - countSymbol closing tokens

/-- Whether a text leaves nothing open: no string, and no more braces and parentheses than it closes. -/
def Complete (text : Text) : Prop :=
  ¬(scan text).ReportsUnterminated ∧
    countSymbol .leftBrace (scan text).tokens ≤ countSymbol .rightBrace (scan text).tokens ∧
    countSymbol .leftParen (scan text).tokens ≤ countSymbol .rightParen (scan text).tokens

instance (text : Text) : Decidable (Complete text) := inferInstanceAs (Decidable (_ ∧ _ ∧ _))

/-- Whether the braces and the parentheses of a text can be counted in 32 bits, from its first token on. -/
def Countable (text : Text) : Prop :=
  (∀ front, front <+: (scan text).tokens → Overflow.InRange (surplus .leftBrace .rightBrace front)) ∧
    ∀ front, front <+: (scan text).tokens → Overflow.InRange (surplus .leftParen .rightParen front)

/-! ### Tokens for symbols -/

lemma countSymbol_eq_count (s : Symbol) (text : Text) :
    countSymbol s (scan text).tokens = (pieces text).count (.symbol s) := by
  have hpiece (x : Placed) :
      (x.token?.map fun t => decide (t.kind = .symbol s)).getD false = (x.piece == .symbol s) := by
    rw [Placed.token?, Placed.located?]
    cases hx : x.piece with
    | word letters =>
      rw [Piece.meaning, Piece.wordKind]
      cases Keyword.ofWord? letters <;> simp
    | integer digits =>
      rw [Piece.meaning]
      by_cases hvalue : Text.value digits < Nat.pow 2 63
      · rw [if_pos hvalue]
        rfl
      · rw [if_neg hvalue]
        rfl
    | symbol t => simp [Piece.meaning, Bool.beq_eq_decide_eq]
    | _ => simp [Piece.meaning]
  have heof : countSymbol s [(scan text).eof] = 0 := rfl
  rw [countSymbol, Scan.tokens, List.countP_append, ← countSymbol, ← countSymbol, heof, Nat.add_zero, countSymbol,
    List.countP_filterMap]
  simp only [hpiece]
  rw [List.count, ← map_piece_place Position.start (pieces text), List.countP_map]
  rfl

lemma length_pieces_le (text : Text) : (pieces text).length ≤ text.length := by
  fun_induction pieces text with
  | case1 => exact Nat.le_refl 0
  | case2 c rest ih =>
    have hlt := Piece.length_next_lt c rest
    rw [List.length_cons]
    omega

lemma countable_of_length_lt {text : Text} (h : text.length < 2 ^ 31) : Countable text := by
  have hlt (s : Symbol) (front : List Token) (hfront : front <+: (scan text).tokens) :
      countSymbol s front < 2 ^ 31 := by
    have hle : countSymbol s front ≤ countSymbol s (scan text).tokens := hfront.sublist.countP_le
    rw [countSymbol_eq_count] at hle
    exact Nat.lt_of_le_of_lt (Nat.le_trans hle (Nat.le_trans List.count_le_length (length_pieces_le text))) h
  have hrange (opening closing : Symbol) (front : List Token) (hfront : front <+: (scan text).tokens) :
      Overflow.InRange (surplus opening closing front) := by
    have hopening := hlt opening front hfront
    have hclosing := hlt closing front hfront
    rw [Overflow.InRange, surplus]
    omega
  exact ⟨hrange _ _, hrange _ _⟩

lemma length_faults_le (text : Text) : (scan text).faults.length ≤ text.length := by
  have hplaced : (scan text).placed.length = (pieces text).length := by
    rw [← List.length_map Placed.piece, scan, scanFrom, map_piece_place]
  have hfaults : (scan text).faults.length ≤ (scan text).placed.length := List.length_filterMap_le _ _
  rw [hplaced] at hfaults
  exact Nat.le_trans hfaults (length_pieces_le text)

/-! ### Balances -/

/-- What a token adds to the surplus. -/
def weight (opening closing : Symbol) (t : Token) : Int :=
  if t.kind = .symbol opening then 1 else if t.kind = .symbol closing then -1 else 0

section Balance

variable {s : Symbol} {o : Overflow} {opening closing : Symbol} {i : Int} {t : Token} {tokens : List Token}

lemma countSymbol_cons_of_eq (h : t.kind = .symbol s) : countSymbol s (t :: tokens) = countSymbol s tokens + 1 :=
  List.countP_cons_of_pos (decide_eq_true h)

lemma countSymbol_cons_of_ne (h : t.kind ≠ .symbol s) : countSymbol s (t :: tokens) = countSymbol s tokens :=
  List.countP_cons_of_neg (by simpa using h)

lemma surplus_le_zero_iff :
    surplus opening closing tokens ≤ 0 ↔ countSymbol opening tokens ≤ countSymbol closing tokens := by
  rw [surplus]
  omega

lemma surplus_nil : surplus opening closing [] = 0 := rfl

lemma surplus_cons (hne : opening ≠ closing) :
    surplus opening closing (t :: tokens) = weight opening closing t + surplus opening closing tokens := by
  rw [surplus, surplus, weight]
  by_cases hopening : t.kind = .symbol opening
  · have hclosing : t.kind ≠ .symbol closing := by
      rw [hopening]
      simpa using hne
    rw [if_pos hopening, countSymbol_cons_of_eq hopening, countSymbol_cons_of_ne hclosing]
    omega
  · rw [if_neg hopening, countSymbol_cons_of_ne hopening]
    by_cases hclosing : t.kind = .symbol closing
    · rw [if_pos hclosing, countSymbol_cons_of_eq hclosing]
      omega
    · rw [if_neg hclosing, countSymbol_cons_of_ne hclosing]
      omega

/-- Unless it overflows at a token, a counter goes on from the next number. -/
lemma balance_cons (h : o = .fails → Overflow.InRange i ∧ Overflow.InRange (i + weight opening closing t)) :
    balance o opening closing (Int32.ofInt i) (t :: tokens) =
      balance o opening closing (Int32.ofInt (i + weight opening closing t)) tokens := by
  rw [balance, List.foldlM_cons]
  rw [weight] at h ⊢
  by_cases hopening : t.kind = .symbol opening
  · rw [if_pos hopening] at h ⊢
    rw [if_pos hopening, Overflow.up_ofInt h, pure_bind]
    rfl
  · rw [if_neg hopening] at h ⊢
    rw [if_neg hopening]
    by_cases hclosing : t.kind = .symbol closing
    · rw [if_pos hclosing] at h ⊢
      rw [if_pos hclosing, Overflow.down_ofInt h, pure_bind]
      rfl
    · rw [if_neg hclosing, if_neg hclosing, pure_bind, Int.add_zero]
      rfl

/-- A counter that wraps, or does not overflow at any token, tells the surplus. -/
theorem balance_eq (hne : opening ≠ closing)
    (h : o = .fails → ∀ front, front <+: tokens → Overflow.InRange (i + surplus opening closing front)) :
    balance o opening closing (Int32.ofInt i) tokens = pure (Int32.ofInt (i + surplus opening closing tokens)) := by
  induction tokens generalizing i with
  | nil =>
    rw [surplus_nil, Int.add_zero]
    rfl
  | cons t tokens ih =>
    have hnext : o = .fails → Overflow.InRange i ∧ Overflow.InRange (i + weight opening closing t) := by
      intro ho
      have hnone := h ho [] List.nil_prefix
      have hone := h ho [t] (List.prefix_append [t] tokens)
      rw [surplus_nil, Int.add_zero] at hnone
      rw [surplus_cons hne, surplus_nil, Int.add_zero] at hone
      exact ⟨hnone, hone⟩
    rw [balance_cons hnext, ih, surplus_cons hne, Int.add_assoc]
    intro ho front hfront
    have hfront := h ho (t :: front) (List.cons_prefix_cons.mpr ⟨rfl, hfront⟩)
    rwa [surplus_cons hne, ← Int.add_assoc] at hfront

lemma balance_zero (hne : opening ≠ closing)
    (h : o = .fails → ∀ front, front <+: tokens → Overflow.InRange (surplus opening closing front)) :
    balance o opening closing 0 tokens = pure (Int32.ofInt (surplus opening closing tokens)) := by
  have hbalance : balance o opening closing (Int32.ofInt 0) tokens = _ :=
    balance_eq hne fun ho front hfront => by rw [Int.zero_add]; exact h ho front hfront
  rwa [Int.zero_add] at hbalance

end Balance

/-! ### The test for completeness -/

lemma any_cause_iff {s : Scan} : s.faults.any (·.cause = .unterminatedString) ↔ s.ReportsUnterminated := by
  rw [List.any_eq_true]
  constructor
  · rintro ⟨f, hf, hcause⟩
    exact ⟨f.diagnostic, List.mem_map_of_mem hf, congrArg Fault.Cause.message (of_decide_eq_true hcause)⟩
  · rintro ⟨d, hd, hmessage⟩
    obtain ⟨f, hf, rfl⟩ := List.mem_map.mp hd
    exact ⟨f, hf, decide_eq_true (cause_of_message hmessage)⟩

section Test

variable {o : Overflow} {text : Text}

/-- The outcome of the test unless one of its counters has a defect. -/
lemma testComplete_eq_decide (hfaults : o.Reaches (scan text).faults.length) (h : o = .fails → Countable text) :
    testComplete o text = pure (decide (¬(scan text).ReportsUnterminated ∧
      Int32.ofInt (surplus .leftBrace .rightBrace (scan text).tokens) ≤ 0 ∧
      Int32.ofInt (surplus .leftParen .rightParen (scan text).tokens) ≤ 0)) := by
  rw [testComplete, Overflow.count_eq hfaults, pure_bind]
  by_cases hopen : (scan text).ReportsUnterminated
  · rw [if_pos (any_cause_iff.mpr hopen), decide_eq_false fun hall => hall.1 hopen]
  · rw [if_neg (mt any_cause_iff.mp hopen), balance_zero (by decide) fun ho => (h ho).1, pure_bind,
      balance_zero (by decide) fun ho => (h ho).2, pure_bind]
    simp only [hopen, not_false_eq_true, true_and, Bool.decide_and]

/-- Counters that wrap find a text complete if each surplus of brackets comes out, in 32 bits, as not positive. -/
theorem isComplete_iff : isComplete text ↔ ¬(scan text).ReportsUnterminated ∧
    Int32.ofInt (surplus .leftBrace .rightBrace (scan text).tokens) ≤ 0 ∧
    Int32.ofInt (surplus .leftParen .rightParen (scan text).tokens) ≤ 0 := by
  have htest : testComplete .wraps text = _ := testComplete_eq_decide (Overflow.reaches_wraps _) nofun
  rw [isComplete, htest]
  exact decide_eq_true_iff

/-- Where 32 bits are enough, the outcome does not depend on what becomes of a counter that overflows. -/
theorem testComplete_eq (hfaults : o.Reaches (scan text).faults.length) (h : o = .fails → Countable text) :
    testComplete o text = pure (isComplete text) := by
  rw [testComplete_eq_decide hfaults h]
  exact congrArg pure (Bool.eq_iff_iff.mpr (decide_eq_true_iff.trans isComplete_iff.symm))

/-- Where 32 bits are enough, the test finds what it looks for. -/
theorem isComplete_iff_complete (h : Countable text) : isComplete text ↔ Complete text := by
  rw [isComplete_iff, Overflow.ofInt_le_zero_iff (h.1 _ (List.prefix_refl _)),
    Overflow.ofInt_le_zero_iff (h.2 _ (List.prefix_refl _)), surplus_le_zero_iff, surplus_le_zero_iff, Complete]

end Test

/-! ### Where the inputs come from -/

lemma CutFrom.congr {complete complete' : Text → Prop} {run : List Text} {after : List Reading} {text : Text}
    (h : CutFrom complete run after text)
    (hiff : ∀ part, part <+: run → part ≠ [] → (complete (joined part) ↔ complete' (joined part))) :
    CutFrom complete' run after text where
  text_eq := h.text_eq
  run_ne_nil := h.run_ne_nil
  line_ne_nil := h.line_ne_nil
  parts := fun part hpart hne hproper hcomplete =>
    h.parts part hpart hne hproper ((hiff part hpart hne).mpr hcomplete)
  whole := by
    have hwhole := hiff run (List.prefix_refl run) h.run_ne_nil
    rw [← h.text_eq] at hwhole
    exact h.whole.imp_left hwhole.mp

section Braces

variable {n : Nat}

end Braces

end ScriptLexer.Prompt
