import Mathlib.Data.List.Basic
import ScriptLexer.Proofs.Segmentation

/-!
# Lexemes and the gaps between them

A lexeme carries what makes it one, so that it is found again wherever nothing behind it belongs to it too. In
a row of lexemes with gaps between them only the first character of the next lexeme, and behind an integer
and a point that of the next but one, can do so, and only across empty gaps. This gives the pairs and
the triples of lexemes that have to be kept apart.
-/

namespace ScriptLexer

/-- A lexeme of the language. -/
inductive Lexeme
  | symbol (s : Symbol)
  | reserved (k : Keyword)
  | identifier (c : Char) (letters : Text) (hc : Piece.beginsWord c)
      (hletters : ∀ d ∈ letters, Piece.continuesWord d) (hfree : ∀ k : Keyword, c :: letters ≠ k.word)
  | string (body : Text) (hbody : quote ∉ body)
  | integer (digits : Text) (hne : digits ≠ []) (hdigits : ∀ d ∈ digits, d.isDigit)
      (hvalue : Text.value digits ≤ 2 ^ 63 - 1)
  | decimal (whole fraction : Text) (hwne : whole ≠ []) (hwhole : ∀ d ∈ whole, d.isDigit)
      (hfne : fraction ≠ []) (hfraction : ∀ d ∈ fraction, d.isDigit)

/-- Whether a text consists of white space and of comments, each with the line feed behind it. -/
inductive Spacing : Text → Prop
  | nil : Spacing []
  | blank {c : Char} {t : Text} (hc : c ∈ [' ', '\t', '\r', '\n']) (tail : Spacing t) : Spacing (c :: t)
  | comment {body t : Text} (hbody : '\n' ∉ body) (tail : Spacing t) :
      Spacing ('/' :: '/' :: (body ++ '\n' :: t))

/-- A lexeme with a gap behind it, which is empty or begins with white space. -/
structure Spaced where
  lexeme : Lexeme
  gap : Text
  spacing : Spacing gap
  head_blank : ∀ c ∈ gap.head?, c ∈ [' ', '\t', '\r', '\n']

namespace Lexeme

def text : Lexeme → Text
  | symbol s => s.text
  | reserved k => k.word
  | identifier c letters .. => c :: letters
  | string body _ => quote :: body ++ [quote]
  | integer digits .. => digits
  | decimal whole fraction .. => whole ++ '.' :: fraction

def kind : Lexeme → Token.Kind
  | symbol s => .symbol s
  | reserved k => .keyword k
  | identifier .. => .identifier
  | string .. => .string
  | integer .. => .number
  | decimal .. => .number

/-- The value of a lexeme, if its kind has values. -/
def literal : Lexeme → Option Literal
  | string body _ => some (.text body)
  | integer digits .. => some (.integer (Int64.ofNat (Text.value digits)))
  | decimal whole fraction .. =>
    some (.float (Binary64.nearest (Text.value (whole ++ fraction)) (Nat.pow 10 fraction.length)))
  | _ => none

def isWord : Lexeme → Bool
  | reserved _ => true
  | identifier .. => true
  | _ => false

def isInteger : Lexeme → Bool
  | integer .. => true
  | _ => false

def isNumber : Lexeme → Bool
  | integer .. => true
  | decimal .. => true
  | _ => false

/-- Whether two lexemes are not found again if nothing stands between them. -/
inductive Merges : Lexeme → Lexeme → Prop
  | words {a b : Lexeme} (ha : a.isWord) (hb : b.isWord ∨ b.isNumber) : Merges a b
  | numbers {a b : Lexeme} (ha : a.isNumber) (hb : b.isNumber) : Merges a b
  | lengthened {s t : Symbol} (hs : s ∈ [.bang, .equal, .less, .greater]) (ht : t ∈ [.equal, .equalEqual]) :
      Merges (symbol s) (symbol t)
  | slashes : Merges (symbol .slash) (symbol .slash)

/-- Whether three lexemes are not found again if nothing stands between them: together they begin with a
decimal number. -/
def MakeDecimal (a b c : Lexeme) : Prop := a.isInteger ∧ b = symbol .dot ∧ c.isNumber

/-- The piece that a lexeme is. -/
def piece : Lexeme → Piece
  | symbol s => .symbol s
  | reserved k => .word k.word
  | identifier c letters .. => .word (c :: letters)
  | string body _ => .string body
  | integer digits .. => .integer digits
  | decimal whole fraction .. => .decimal whole fraction

end Lexeme

/-- The piece that the lexeme is. -/
def Spaced.piece (i : Spaced) : Piece := i.lexeme.piece

/-- Whether a piece is more than white space or a comment. -/
def Piece.contributes (x : Piece) : Bool := x.meaning ≠ .nothing

/-- The lexemes and the gaps of a row, one behind the other. -/
def unscan (items : List Spaced) : Text := items.flatMap fun i => i.lexeme.text ++ i.gap

/-- Whether a row keeps apart all lexemes that would not be found again next to each other. -/
structure Separated (items : List Spaced) : Prop where
  pairs : ∀ x y, [x, y] <:+: items → x.gap = [] → ¬x.lexeme.Merges y.lexeme
  triples : ∀ x y z, [x, y, z] <:+: items → x.gap = [] → y.gap = [] →
    ¬x.lexeme.MakeDecimal y.lexeme z.lexeme

namespace Lexeme

variable {a b : Lexeme} {c : Char} {rest : Text}

@[simp] lemma text_piece (a : Lexeme) : a.piece.text = a.text := by cases a <;> rfl

/-- A lexeme stands for a token of its kind and with its value. -/
theorem meaning_piece (a : Lexeme) : a.piece.meaning = .lexeme a.kind a.literal := by
  cases a with
  | reserved k => exact Piece.meaning_of_means .reserved
  | identifier c letters hc hletters hfree => exact Piece.meaning_of_means (.identifier hfree)
  | integer digits hne hdigits hvalue =>
    have hlt : Text.value digits < Nat.pow 2 63 := by
      rw [Nat.pow_eq]
      omega
    rw [piece, Piece.meaning, if_pos hlt]
    rfl
  | _ => rfl

lemma exists_meaning_piece (a : Lexeme) : ∃ literal, a.piece.meaning = .lexeme a.kind literal :=
  ⟨a.literal, a.meaning_piece⟩

/-! ### The first character of a lexeme -/

lemma forall_continuesWord_word (k : Keyword) : ∀ c ∈ k.word, Piece.continuesWord c := by
  have hall : k.word.all Piece.continuesWord := by cases k <;> decide
  exact List.all_eq_true.mp hall

lemma exists_word (k : Keyword) : ∃ c letters, k.word = c :: letters ∧ Piece.beginsWord c ∧
    ∀ d ∈ letters, Piece.continuesWord d := by
  have hletters := forall_continuesWord_word k
  have hhead : ∃ c letters, k.word = c :: letters ∧ Piece.beginsWord c := by
    cases k <;> exact ⟨_, _, rfl, by decide⟩
  obtain ⟨c, letters, hk, hc⟩ := hhead
  rw [hk, List.forall_mem_cons] at hletters
  exact ⟨c, letters, hk, hc, hletters.2⟩

lemma text_ne_nil (a : Lexeme) : a.text ≠ [] := by
  cases a with
  | symbol s => exact s.text_ne_nil
  | reserved k => cases k <;> decide
  | integer digits hne => exact hne
  | _ => simp [text]

/-- The first character shows of which sort a lexeme is. -/
lemma sort_of_head (h : c ∈ a.text.head?) :
    a.isWord ∧ Piece.beginsWord c ∨ a.isNumber ∧ c.isDigit ∨ (∃ body hbody, a = string body hbody ∧ c = quote) ∨
      ∃ s, a = symbol s ∧ c ∈ s.text.head? := by
  cases a with
  | symbol s => exact .inr (.inr (.inr ⟨s, rfl, h⟩))
  | reserved k =>
    obtain ⟨d, letters, hk, hd, _⟩ := exists_word k
    rw [text, hk] at h
    cases h
    exact .inl ⟨rfl, hd⟩
  | identifier d letters hd =>
    cases h
    exact .inl ⟨rfl, hd⟩
  | string body hbody =>
    cases h
    exact .inr (.inr (.inl ⟨body, hbody, rfl, rfl⟩))
  | integer digits hne hdigits =>
    exact .inr (.inl ⟨rfl, hdigits c (List.mem_of_mem_head? h)⟩)
  | decimal whole fraction hwne hwhole =>
    obtain ⟨d, whole, rfl⟩ := List.exists_cons_of_ne_nil hwne
    cases h
    exact .inr (.inl ⟨rfl, hwhole c List.mem_cons_self⟩)

lemma ne_of_continuesWord (hc : Piece.continuesWord c) : c ≠ '=' ∧ c ≠ '/' ∧ c ≠ '.' := by
  refine ⟨?_, ?_, ?_⟩ <;> (rintro rfl; exact absurd hc (by decide))

/-- The first character shows whether a lexeme is one that another may run into. -/
theorem head_iff (h : c ∈ a.text.head?) :
    (Piece.continuesWord c ↔ a.isWord ∨ a.isNumber) ∧ (c.isDigit ↔ a.isNumber) ∧
      (c = '=' ↔ a = symbol .equal ∨ a = symbol .equalEqual) ∧ (c = '/' ↔ a = symbol .slash) ∧
      (c = '.' ↔ a = symbol .dot) := by
  rcases sort_of_head h with ⟨ha, hc⟩ | ⟨ha, hc⟩ | ⟨body, hbody, rfl, rfl⟩ | ⟨s, rfl, hc⟩
  · have hcontinues := Piece.continuesWord_of_beginsWord hc
    have hdigit := Piece.not_isDigit_of_beginsWord hc
    have hne := ne_of_continuesWord hcontinues
    cases a <;> simp_all [isWord, isNumber]
  · have hcontinues := Piece.continuesWord_of_isDigit hc
    have hne := ne_of_continuesWord hcontinues
    cases a <;> simp_all [isWord, isNumber]
  · simp only [isWord, isNumber, reduceCtorEq]
    decide
  · cases s <;> cases hc <;> simp [isWord, isNumber] <;> decide

/-! ### The other characters of a lexeme -/

/-- Only a string contains quotes or white space. -/
theorem not_mem_of_mem_text (ha : ∀ body hbody, a ≠ string body hbody) (hc : c ∈ a.text) :
    c ∉ [quote, ' ', '\t', '\r', '\n'] := by
  have hword : ∀ d, Piece.continuesWord d → d ∉ [quote, ' ', '\t', '\r', '\n'] := by
    intro d hd
    rw [List.mem_cons, not_or, ← Piece.isWhitespace_iff]
    exact ⟨Piece.ne_quote_of_continuesWord hd, Piece.not_isWhitespace_of_continuesWord hd⟩
  have hdigit : ∀ d : Char, d.isDigit → d ∉ [quote, ' ', '\t', '\r', '\n'] :=
    fun d hd => hword d (Piece.continuesWord_of_isDigit hd)
  cases a with
  | symbol s =>
    have hall : s.text.all (· ∉ [quote, ' ', '\t', '\r', '\n']) := by cases s <;> decide
    exact of_decide_eq_true (List.all_eq_true.mp hall c hc)
  | reserved k => exact hword c (forall_continuesWord_word k c hc)
  | identifier d letters hd hletters =>
    rcases List.mem_cons.mp hc with rfl | hc
    · exact hword c (Piece.continuesWord_of_beginsWord hd)
    · exact hword c (hletters c hc)
  | string body hbody => exact absurd rfl (ha body hbody)
  | integer digits hne hdigits => exact hdigit c (hdigits c hc)
  | decimal whole fraction hwne hwhole hfne hfraction =>
    rcases List.mem_append.mp hc with hc | hc
    · exact hdigit c (hwhole c hc)
    · rcases List.mem_cons.mp hc with rfl | hc
      · decide
      · exact hdigit c (hfraction c hc)

lemma ne_string_of_kind (h : a.kind ≠ .string) : ∀ body hbody, a ≠ string body hbody := by
  rintro body hbody rfl
  exact h rfl

lemma isString_or (a : Lexeme) : (∃ body hbody, a = string body hbody) ∨ ∀ body hbody, a ≠ string body hbody := by
  cases a with
  | string body hbody => exact .inl ⟨body, hbody, rfl⟩
  | _ => exact .inr nofun

lemma not_mem_blank_of_getLast (h : c ∈ a.text.getLast?) : c ∉ [' ', '\t', '\r', '\n'] := by
  rcases a.isString_or with ⟨body, hbody, rfl⟩ | ha
  · rw [text, List.getLast?_concat] at h
    cases h
    decide
  · exact List.not_mem_of_not_mem_cons (not_mem_of_mem_text ha (List.mem_of_mem_getLast? h))

/-! ### What must not stand behind a lexeme -/

/-- Whether nothing at the beginning of `rest` belongs to the lexeme too. -/
def EndsBefore : Lexeme → Text → Prop
  | symbol s, rest => (s = .slash → ∀ d ∈ rest.head?, ¬d = '/') ∧ (s.withEqual?.isSome → ∀ d ∈ rest.head?, ¬d = '=')
  | reserved _, rest => ∀ d ∈ rest.head?, ¬Piece.continuesWord d
  | identifier .., rest => ∀ d ∈ rest.head?, ¬Piece.continuesWord d
  | string .., _ => True
  | integer .., rest => (∀ d ∈ rest.head?, ¬d.isDigit) ∧ ∀ d tail, rest = '.' :: d :: tail → ¬d.isDigit
  | decimal .., rest => ∀ d ∈ rest.head?, ¬d.isDigit

lemma exists_withEqual? {s : Symbol} (hs : s.text.length ≠ 1) : ∃ t : Symbol, t.withEqual? = some s := by
  cases s with
  | bangEqual => exact ⟨.bang, rfl⟩
  | equalEqual => exact ⟨.equal, rfl⟩
  | greaterEqual => exact ⟨.greater, rfl⟩
  | lessEqual => exact ⟨.less, rfl⟩
  | _ => exact absurd rfl hs

lemma precedes_symbol_iff {s : Symbol} : (Piece.symbol s).Precedes rest ↔
    (s = .slash → ∀ d ∈ rest.head?, ¬d = '/') ∧ (s.withEqual?.isSome → ∀ d ∈ rest.head?, ¬d = '=') := by
  constructor
  · intro h
    cases h with
    | lone hs hequal hslash =>
      refine ⟨?_, fun hsome => absurd hsome (by rw [hequal]; decide)⟩
      rintro h d hd rfl
      exact hslash h hd
    | short hequal hrest =>
      refine ⟨fun h => absurd h (Piece.ne_slash_of_withEqual? hequal), ?_⟩
      rintro _ d hd rfl
      exact hrest hd
    | @lengthened t _ _ hequal => cases t <;> cases hequal <;> exact ⟨nofun, nofun⟩
  · rintro ⟨hslash, hequals⟩
    by_cases hs : s.text.length = 1
    · cases hequal : s.withEqual? with
      | none => exact .lone hs hequal fun h hhead => hslash h _ hhead rfl
      | some t => exact .short hequal fun hhead => hequals (by rw [hequal]; rfl) _ hhead rfl
    · obtain ⟨t, ht⟩ := exists_withEqual? hs
      exact .lengthened ht

lemma precedes_word_iff {letters : Text} (hc : Piece.beginsWord c) (hletters : ∀ d ∈ letters, Piece.continuesWord d) :
    (Piece.word (c :: letters)).Precedes rest ↔ ∀ d ∈ rest.head?, ¬Piece.continuesWord d := by
  constructor
  · rintro ⟨⟩
    assumption
  · exact .word hc hletters

/-- A lexeme is found in front of a text if nothing at the beginning of the text belongs to it too. -/
theorem precedes_iff_endsBefore : a.piece.Precedes rest ↔ a.EndsBefore rest := by
  cases a with
  | symbol s => exact precedes_symbol_iff
  | reserved k =>
    obtain ⟨c, letters, hk, hc, hletters⟩ := exists_word k
    rw [piece, EndsBefore, hk]
    exact precedes_word_iff hc hletters
  | identifier c letters hc hletters => exact precedes_word_iff hc hletters
  | string body hbody => exact ⟨fun _ => trivial, fun _ => .string hbody⟩
  | integer digits hne hdigits =>
    constructor
    · rintro ⟨⟩
      constructor <;> assumption
    · rintro ⟨hrest, hpoint⟩
      exact .integer hne hdigits hrest hpoint
  | decimal whole fraction hwne hwhole hfne hfraction =>
    constructor
    · rintro ⟨⟩
      assumption
    · exact .decimal hwne hwhole hfne hfraction

/-! ### What merges -/

lemma merges_word_iff (ha : a.isWord) : a.Merges b ↔ b.isWord ∨ b.isNumber := by
  constructor
  · intro h
    cases h with
    | words _ hb => exact hb
    | numbers _ hb => exact .inr hb
    | lengthened => cases ha
    | slashes => cases ha
  · exact .words ha

lemma not_isNumber_of_isWord (ha : a.isWord) : ¬a.isNumber := by
  cases a with
  | reserved => exact Bool.false_ne_true
  | identifier => exact Bool.false_ne_true
  | _ => cases ha

lemma not_makeDecimal (ha : ¬a.isInteger) {c : Lexeme} : ¬a.MakeDecimal b c := fun h => ha h.1

lemma merges_number_iff (ha : a.isNumber) : a.Merges b ↔ b.isNumber := by
  constructor
  · intro h
    cases h with
    | words hword => exact absurd ha (not_isNumber_of_isWord hword)
    | numbers _ hb => exact hb
    | lengthened => cases ha
    | slashes => cases ha
  · exact .numbers ha

lemma merges_symbol_iff {s : Symbol} : (symbol s).Merges b ↔
    (s = .slash ∧ b = symbol .slash) ∨ (s.withEqual?.isSome ∧ (b = symbol .equal ∨ b = symbol .equalEqual)) := by
  have hlengthened : s ∈ [.bang, .equal, .less, .greater] ↔ s.withEqual?.isSome := by cases s <;> decide
  constructor
  · intro h
    cases h with
    | words ha => cases ha
    | numbers ha => cases ha
    | lengthened hs ht =>
      refine .inr ⟨hlengthened.mp hs, ?_⟩
      simpa using ht
    | slashes => exact .inl ⟨rfl, rfl⟩
  · rintro (⟨rfl, rfl⟩ | ⟨hs, rfl | rfl⟩)
    · exact .slashes
    · exact .lengthened (hlengthened.mpr hs) (by decide)
    · exact .lengthened (hlengthened.mpr hs) (by decide)

lemma not_merges_string {body : Text} {hbody : quote ∉ body} : ¬(string body hbody).Merges b := by
  intro h
  cases h with
  | words ha => cases ha
  | numbers ha => cases ha

end Lexeme

lemma Piece.contributes_iff {x : Piece} : x.contributes ↔ x.meaning ≠ .nothing := decide_eq_true_iff

lemma Spaced.contributes_piece (i : Spaced) : i.piece.contributes := by
  obtain ⟨literal, h⟩ := i.lexeme.exists_meaning_piece
  rw [Piece.contributes_iff, piece, h]
  exact nofun

/-! ### Rows of lexemes -/

section Rows

variable (x : Spaced) (rest : List Spaced)

lemma unscan_cons : unscan (x :: rest) = x.lexeme.text ++ (x.gap ++ unscan rest) := by
  rw [unscan, List.flatMap_cons, List.append_assoc]
  rfl

lemma unscan_append (xs ys : List Spaced) : unscan (xs ++ ys) = unscan xs ++ unscan ys := List.flatMap_append

lemma unscan_concat (front : List Spaced) (i : Spaced) :
    unscan (front ++ [i]) = unscan front ++ i.lexeme.text ++ i.gap := by simp [unscan]

lemma head?_unscan_cons : (unscan (x :: rest)).head? = x.lexeme.text.head? := by
  rw [unscan_cons, List.head?_append_of_ne_nil _ x.lexeme.text_ne_nil]

/-- A character of some sort, of which no white space is, stands behind a lexeme if it begins the next lexeme
and there is no gap. -/
lemma exists_head?_iff {p : Char → Prop} {q : Lexeme → Prop} (hp : ∀ c, p c → ¬c.isWhitespace)
    (hq : ∀ a : Lexeme, ∀ c ∈ a.text.head?, (p c ↔ q a)) :
    (∃ c ∈ (x.gap ++ unscan rest).head?, p c) ↔ x.gap = [] ∧ ∃ y ∈ rest.head?, q y.lexeme := by
  by_cases hgap : x.gap = []
  · rw [hgap, List.nil_append]
    cases rest with
    | nil => simp [unscan]
    | cons y rest =>
      obtain ⟨c, t, ht⟩ := List.exists_cons_of_ne_nil y.lexeme.text_ne_nil
      have hc : y.lexeme.text.head? = some c := by rw [ht]; rfl
      simp only [head?_unscan_cons, hc, Option.mem_some_iff, exists_eq_left', List.head?_cons, true_and]
      exact hq y.lexeme c hc
  · rw [List.head?_append_of_ne_nil _ hgap]
    constructor
    · rintro ⟨c, hc, hpc⟩
      exact absurd (Piece.isWhitespace_iff.mpr (x.head_blank c hc)) (hp c hpc)
    · rintro ⟨hempty, _⟩
      exact absurd hempty hgap

lemma forall_head?_iff {p : Char → Prop} {q : Lexeme → Prop} (hp : ∀ c, p c → ¬c.isWhitespace)
    (hq : ∀ a : Lexeme, ∀ c ∈ a.text.head?, (p c ↔ q a)) :
    (∀ c ∈ (x.gap ++ unscan rest).head?, ¬p c) ↔ (x.gap = [] → ∀ y ∈ rest.head?, ¬q y.lexeme) := by
  have hexists := not_congr (exists_head?_iff x rest hp hq)
  simpa only [not_exists, not_and] using hexists

lemma forall_continuesWord_iff : (∀ c ∈ (x.gap ++ unscan rest).head?, ¬Piece.continuesWord c) ↔
    (x.gap = [] → ∀ y ∈ rest.head?, ¬(y.lexeme.isWord ∨ y.lexeme.isNumber)) :=
  forall_head?_iff x rest (fun _ => Piece.not_isWhitespace_of_continuesWord) fun _ _ hc => (Lexeme.head_iff hc).1

lemma forall_isDigit_iff : (∀ c ∈ (x.gap ++ unscan rest).head?, ¬c.isDigit) ↔
    (x.gap = [] → ∀ y ∈ rest.head?, ¬y.lexeme.isNumber) :=
  forall_head?_iff x rest (fun _ => Piece.not_isWhitespace_of_isDigit) fun _ _ hc => (Lexeme.head_iff hc).2.1

lemma forall_ne_equal_iff : (∀ c ∈ (x.gap ++ unscan rest).head?, ¬c = '=') ↔
    (x.gap = [] → ∀ y ∈ rest.head?, ¬(y.lexeme = .symbol .equal ∨ y.lexeme = .symbol .equalEqual)) :=
  forall_head?_iff x rest (by rintro _ rfl; decide) fun _ _ hc => (Lexeme.head_iff hc).2.2.1

lemma forall_ne_slash_iff : (∀ c ∈ (x.gap ++ unscan rest).head?, ¬c = '/') ↔
    (x.gap = [] → ∀ y ∈ rest.head?, ¬y.lexeme = .symbol .slash) :=
  forall_head?_iff x rest (by rintro _ rfl; decide) fun _ _ hc => (Lexeme.head_iff hc).2.2.2.1

/-- A point and a digit stand behind a lexeme if they come from the next two lexemes across empty gaps. -/
lemma forall_point_iff : (∀ d t, x.gap ++ unscan rest = '.' :: d :: t → ¬d.isDigit) ↔
    ∀ y z tail, rest = y :: z :: tail → x.gap = [] → y.gap = [] →
      ¬(y.lexeme = .symbol .dot ∧ z.lexeme.isNumber) := by
  constructor
  · rintro h y z tail rfl hx hy ⟨hdot, hz⟩
    obtain ⟨d, t, ht⟩ := List.exists_cons_of_ne_nil z.lexeme.text_ne_nil
    have hd : d.isDigit := (Lexeme.head_iff (by rw [ht]; rfl)).2.1.mpr hz
    apply h d (t ++ (z.gap ++ unscan tail)) _ hd
    rw [hx, unscan_cons, hdot, hy, unscan_cons, ht]
    rfl
  · intro h d t hrest hd
    have hpoint := exists_head?_iff x rest (p := fun c => c = '.') (q := fun a => a = .symbol .dot)
      (by rintro _ rfl; decide) fun _ _ hc => (Lexeme.head_iff hc).2.2.2.2
    obtain ⟨hx, y, hy, hdot⟩ := hpoint.mp ⟨'.', by rw [hrest]; rfl, rfl⟩
    obtain ⟨rest, rfl⟩ := List.head?_eq_some_iff.mp hy
    rw [hx, unscan_cons, hdot, List.nil_append] at hrest
    have hbehind : y.gap ++ unscan rest = d :: t := (List.cons.inj hrest).2
    have hdigit := exists_head?_iff y rest (p := fun c => c.isDigit) (q := fun a => a.isNumber)
      (fun _ => Piece.not_isWhitespace_of_isDigit) fun _ _ hc => (Lexeme.head_iff hc).2.1
    obtain ⟨hygap, z, hz, hnumber⟩ := hdigit.mp ⟨d, by rw [hbehind]; rfl, hd⟩
    obtain ⟨tail, rfl⟩ := List.head?_eq_some_iff.mp hz
    exact h y z tail rfl hx hygap ⟨hdot, hnumber⟩

/-- A lexeme of a row is found in front of what stands behind it if it does not merge with the next one
and, across empty gaps, makes no decimal number with the next two. -/
theorem endsBefore_iff : x.lexeme.EndsBefore (x.gap ++ unscan rest) ↔
    (x.gap = [] → ∀ y ∈ rest.head?, ¬x.lexeme.Merges y.lexeme) ∧
      ∀ y z tail, rest = y :: z :: tail → x.gap = [] → y.gap = [] →
        ¬x.lexeme.MakeDecimal y.lexeme z.lexeme := by
  have hword : ∀ a : Lexeme, a.isWord → ((∀ c ∈ (x.gap ++ unscan rest).head?, ¬Piece.continuesWord c) ↔
      (x.gap = [] → ∀ y ∈ rest.head?, ¬a.Merges y.lexeme)) := by
    intro a ha
    simp only [Lexeme.merges_word_iff ha]
    exact forall_continuesWord_iff x rest
  have hnumber : ∀ a : Lexeme, a.isNumber → ((∀ c ∈ (x.gap ++ unscan rest).head?, ¬c.isDigit) ↔
      (x.gap = [] → ∀ y ∈ rest.head?, ¬a.Merges y.lexeme)) := by
    intro a ha
    simp only [Lexeme.merges_number_iff ha]
    exact forall_isDigit_iff x rest
  -- only an integer can become a decimal number
  have htriples : ∀ a : Lexeme, ¬a.isInteger → ∀ y z tail, rest = y :: z :: tail → x.gap = [] → y.gap = [] →
      ¬a.MakeDecimal y.lexeme z.lexeme := fun a ha y z tail _ _ _ => Lexeme.not_makeDecimal ha
  cases x.lexeme with
  | symbol s =>
    rw [Lexeme.EndsBefore, forall_ne_slash_iff, forall_ne_equal_iff,
      and_iff_left (htriples (.symbol s) Bool.false_ne_true)]
    simp only [Lexeme.merges_symbol_iff, not_or, not_and]
    exact ⟨fun h hgap y hy => ⟨fun hs => h.1 hs hgap y hy, fun hs => h.2 hs hgap y hy⟩,
      fun h => ⟨fun hs hgap y hy => (h hgap y hy).1 hs, fun hs hgap y hy => (h hgap y hy).2 hs⟩⟩
  | reserved k =>
    exact (hword (.reserved k) rfl).trans (and_iff_left (htriples (.reserved k) Bool.false_ne_true)).symm
  | identifier c letters hc hletters hfree =>
    let a := Lexeme.identifier c letters hc hletters hfree
    exact (hword a rfl).trans (and_iff_left (htriples a Bool.false_ne_true)).symm
  | string body hbody =>
    have htriple := htriples (.string body hbody) Bool.false_ne_true
    exact iff_of_true trivial ⟨fun _ y _ => Lexeme.not_merges_string, htriple⟩
  | integer digits hne hdigits hvalue =>
    rw [Lexeme.EndsBefore, hnumber (.integer digits hne hdigits hvalue) rfl, forall_point_iff]
    simp only [Lexeme.MakeDecimal, Lexeme.isInteger, true_and]
  | decimal whole fraction hwne hwhole hfne hfraction =>
    let a := Lexeme.decimal whole fraction hwne hwhole hfne hfraction
    exact (hnumber a rfl).trans (and_iff_left (htriples a Bool.false_ne_true)).symm

end Rows

/-- Whether each lexeme of a row is found in front of what stands behind it. -/
inductive Found : List Spaced → Prop
  | nil : Found []
  | cons {x : Spaced} {rest : List Spaced} (head : x.lexeme.piece.Precedes (x.gap ++ unscan rest))
      (tail : Found rest) : Found (x :: rest)

lemma separated_nil : Separated [] where
  pairs x y h := by simp at h
  triples x y z h := by simp at h

lemma separated_cons_iff {x : Spaced} {rest : List Spaced} : Separated (x :: rest) ↔
    (x.gap = [] → ∀ y ∈ rest.head?, ¬x.lexeme.Merges y.lexeme) ∧
      (∀ y z tail, rest = y :: z :: tail → x.gap = [] → y.gap = [] →
        ¬x.lexeme.MakeDecimal y.lexeme z.lexeme) ∧ Separated rest := by
  constructor
  · intro h
    refine ⟨?_, ?_, fun y z hyz => ?_, fun y z w hyzw => ?_⟩
    · intro hgap y hy
      obtain ⟨tail, rfl⟩ := List.head?_eq_some_iff.mp hy
      exact h.pairs x y (List.prefix_append [x, y] tail).isInfix hgap
    · rintro y z tail rfl
      exact h.triples x y z (List.prefix_append [x, y, z] tail).isInfix
    · exact h.pairs y z (List.infix_cons hyz)
    · exact h.triples y z w (List.infix_cons hyzw)
  · rintro ⟨hpair, htriple, htail⟩
    constructor
    · intro y z hyz
      rcases List.infix_cons_iff.mp hyz with ⟨tail, hhead⟩ | hyz
      · obtain ⟨rfl, hrest⟩ := List.cons.inj hhead
        exact fun hgap => hpair hgap z (by rw [← hrest]; rfl)
      · exact htail.pairs y z hyz
    · intro y z w hyzw
      rcases List.infix_cons_iff.mp hyzw with ⟨tail, hhead⟩ | hyzw
      · obtain ⟨rfl, hrest⟩ := List.cons.inj hhead
        exact htriple z w tail hrest.symm
      · exact htail.triples y z w hyzw

/-- The lexemes of a row are found if the row keeps apart what has to be kept apart. -/
theorem found_iff_separated {items : List Spaced} : Found items ↔ Separated items := by
  induction items with
  | nil => exact iff_of_true .nil separated_nil
  | cons x rest ih =>
    rw [separated_cons_iff, ← and_assoc, ← endsBefore_iff, ← Lexeme.precedes_iff_endsBefore, ← ih]
    constructor
    · rintro ⟨⟩
      exact ⟨‹_›, ‹_›⟩
    · rintro ⟨head, tail⟩
      exact .cons head tail

end ScriptLexer
