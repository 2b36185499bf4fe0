import ScriptLexer.Piece.Division

/-!
# The lexical grammar

Which piece stands at the beginning of a script can be said without reading the script from the left:
each sort of piece has its characters, and for some sorts the character behind the piece matters, for it
must not be one that would have belonged to the piece. A division of a script is a list of pieces each
of which is allowed in front of those that follow. The pieces of a script are such a division.
-/

namespace ScriptLexer

/-- Whether a piece is allowed in front of `rest`. -/
inductive Piece.Precedes : Piece → Text → Prop
  | blank {c : Char} {rest : Text} (hc : c ∈ [' ', '\t', '\r', '\n']) : Precedes (blank c) rest
  | comment {body rest : Text} (hbody : '\n' ∉ body) (hrest : ∀ d ∈ rest.head?, d = '\n') :
      Precedes (comment body) rest
  /-- a symbol of one character that nothing can lengthen -/
  | lone {s : Symbol} {rest : Text} (hs : s.text.length = 1) (hequal : s.withEqual? = none)
      (hslash : s = .slash → rest.head? ≠ some '/') : Precedes (symbol s) rest
  /-- a symbol that an equals sign would lengthen -/
  | short {s t : Symbol} {rest : Text} (hequal : s.withEqual? = some t)
      (hrest : rest.head? ≠ some '=') : Precedes (symbol s) rest
  /-- a symbol that has been lengthened by an equals sign -/
  | lengthened {s t : Symbol} {rest : Text} (hequal : s.withEqual? = some t) :
      Precedes (symbol t) rest
  | word {c : Char} {letters rest : Text} (hc : beginsWord c) (hletters : ∀ d ∈ letters, continuesWord d)
      (hrest : ∀ d ∈ rest.head?, ¬continuesWord d) : Precedes (word (c :: letters)) rest
  | string {body rest : Text} (hbody : quote ∉ body) : Precedes (string body) rest
  | integer {digits rest : Text} (hne : digits ≠ []) (hdigits : ∀ d ∈ digits, d.isDigit)
      (hrest : ∀ d ∈ rest.head?, ¬d.isDigit) (hpoint : ∀ d tail, rest = '.' :: d :: tail → ¬d.isDigit) :
      Precedes (integer digits) rest
  | decimal {whole fraction rest : Text} (hwne : whole ≠ []) (hwhole : ∀ d ∈ whole, d.isDigit)
      (hfne : fraction ≠ []) (hfraction : ∀ d ∈ fraction, d.isDigit)
      (hrest : ∀ d ∈ rest.head?, ¬d.isDigit) : Precedes (decimal whole fraction) rest
  /-- a character that begins no other piece -/
  | stray {c : Char} {rest : Text} (hblank : c ∉ [' ', '\t', '\r', '\n']) (hquote : c ≠ quote)
      (hdigit : ¬c.isDigit) (hword : ¬beginsWord c) (hsymbol : ∀ s : Symbol, s.text ≠ [c]) :
      Precedes (stray c) rest
  | unclosed {body : Text} (hbody : quote ∉ body) : Precedes (unclosed body) []

/-- Whether pieces make up a script and each of them is allowed in front of what follows it. -/
inductive Divides : List Piece → Text → Prop
  | nil : Divides [] []
  | cons {x : Piece} {xs : List Piece} {rest : Text} (head : x.Precedes rest) (tail : Divides xs rest) :
      Divides (x :: xs) (x.text ++ rest)

namespace Piece

theorem isWhitespace_iff {c : Char} : c.isWhitespace ↔ c ∈ [' ', '\t', '\r', '\n'] := by
  simp [Char.isWhitespace, or_assoc]

theorem of_mem_takeWhile {p : Char → Bool} {text : Text} {c : Char} (h : c ∈ text.takeWhile p) :
    p c = true :=
  List.all_eq_true.mp List.all_takeWhile c h

theorem of_mem_head?_dropWhile {p : Char → Bool} {text : Text} {c : Char}
    (h : c ∈ (text.dropWhile p).head?) : ¬p c = true := by
  have := List.head?_dropWhile_not p text
  rw [Option.mem_def.mp h] at this
  simpa using this

theorem not_mem_takeWhile_ne (c : Char) (text : Text) : c ∉ text.takeWhile (· != c) := by
  intro h
  simpa using of_mem_takeWhile h

theorem precedes_nextString (rest : Text) : (nextString rest).1.Precedes (nextString rest).2 := by
  unfold nextString
  split
  · exact .unclosed (not_mem_takeWhile_ne quote rest)
  · exact .string (not_mem_takeWhile_ne quote rest)

theorem precedes_nextNumber {digit : Char} (hdigit : digit.isDigit) (rest : Text) :
    (nextNumber digit rest).1.Precedes (nextNumber digit rest).2 := by
  have hwhole : ∀ d ∈ digit :: rest.takeWhile Char.isDigit, d.isDigit := by
    simpa [hdigit] using fun d hd => of_mem_takeWhile hd
  have hrest : ∀ d ∈ (rest.dropWhile Char.isDigit).head?, ¬d.isDigit := fun d =>
    of_mem_head?_dropWhile
  unfold nextNumber
  split
  · next c tail h =>
    rw [h] at hrest
    split
    · next hc =>
      refine .decimal (by simp) hwhole (by simp) ?_ fun d => of_mem_head?_dropWhile
      simpa [hc] using fun d hd => of_mem_takeWhile hd
    · next hc => exact .integer (by simp) hwhole hrest (by rintro d tail ⟨⟩; exact hc)
  · next h => exact .integer (by simp) hwhole hrest fun d tail hd => absurd hd (h d tail)

theorem precedes_nextSymbol {s : Symbol} (hs : s.text.length = 1) (rest : Text) :
    (nextSymbol s rest).1.Precedes (nextSymbol s rest).2 := by
  unfold nextSymbol
  split
  · refine .comment (not_mem_takeWhile_ne '\n' _) fun d hd => ?_
    simpa using of_mem_head?_dropWhile hd
  · next h =>
    unfold Symbol.lengthen
    split
    · next double tail hequal => exact .lengthened hequal
    · next hlengthen =>
      cases hequal : s.withEqual? with
      | none =>
        refine .lone hs hequal fun hslash hslashes => ?_
        obtain ⟨tail, htail⟩ := List.head?_eq_some_iff.mp hslashes
        exact h tail hslash htail
      | some double =>
        refine .short hequal fun hequals => ?_
        obtain ⟨tail, htail⟩ := List.head?_eq_some_iff.mp hequals
        exact hlengthen double tail hequal htail

/-- The piece that is found at the beginning of a script is allowed in front of what is left. -/
theorem precedes_next (c : Char) (rest : Text) : (next c rest).1.Precedes (next c rest).2 := by
  unfold next
  split
  · next hc => exact .blank (isWhitespace_iff.mp hc)
  next hblank =>
  split
  · exact precedes_nextString rest
  next hquote =>
  split
  · next hdigit => exact precedes_nextNumber hdigit rest
  next hdigit =>
  split
  · next hword =>
    exact .word hword (fun d hd => of_mem_takeWhile hd) fun d => of_mem_head?_dropWhile
  next hword =>
  split
  · next s hs => exact precedes_nextSymbol (by simp [Symbol.single?_eq_some_iff.mp hs]) rest
  · next hs =>
    refine .stray (fun h => hblank (isWhitespace_iff.mpr h)) hquote hdigit hword fun s h => ?_
    simp [Symbol.single?_eq_some_iff.mpr h] at hs

end Piece

/-- The pieces of a script divide it. -/
theorem divides_pieces (source : Text) : Divides (pieces source) source := by
  fun_induction pieces source with
  | case1 => exact .nil
  | case2 c rest ih =>
    have := Divides.cons (Piece.precedes_next c rest) ih
    rwa [Piece.text_next] at this

end ScriptLexer
