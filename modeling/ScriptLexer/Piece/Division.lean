import ScriptLexer.Piece.Basic

/-!
# Dividing a script into pieces

The first character of a script decides which sort of piece begins there, and each piece extends as far
as its sort allows. A piece and what is left behind it make up the script again, and a piece is never
empty, so the division ends and loses nothing.
-/

namespace ScriptLexer

namespace Piece

def beginsWord (c : Char) : Bool := c.isAlpha || c == '_'

def continuesWord (c : Char) : Bool := c.isAlphanum || c == '_'

/-- The piece behind an opening quote, and what is left. -/
def nextString (rest : Text) : Piece × Text :=
  let body := rest.takeWhile (· != quote)
  match rest.dropWhile (· != quote) with
  | [] => (unclosed body, [])
  | _ :: rest => (string body, rest)

/-- The piece that begins with a digit, and what is left. A point belongs to it only if a digit
follows. -/
def nextNumber (digit : Char) (rest : Text) : Piece × Text :=
  let whole := digit :: rest.takeWhile Char.isDigit
  match rest.dropWhile Char.isDigit with
  | '.' :: c :: rest =>
    if c.isDigit then
      (decimal whole (c :: rest.takeWhile Char.isDigit), rest.dropWhile Char.isDigit)
    else (integer whole, '.' :: c :: rest)
  | rest => (integer whole, rest)

/-- The piece that begins with a symbol, and what is left: a second slash turns a slash into a
comment, and other symbols are lengthened where they can be. -/
def nextSymbol (s : Symbol) (rest : Text) : Piece × Text :=
  match s, rest with
  | .slash, '/' :: rest => (comment (rest.takeWhile (· != '\n')), rest.dropWhile (· != '\n'))
  | _, _ => (symbol (s.lengthen rest).1, (s.lengthen rest).2)

/-- The piece that begins with the character `c` in front of `rest`, and what is left. -/
def next (c : Char) (rest : Text) : Piece × Text :=
  if c.isWhitespace then (blank c, rest)
  else if c = quote then nextString rest
  else if c.isDigit then nextNumber c rest
  else if beginsWord c then (word (c :: rest.takeWhile continuesWord), rest.dropWhile continuesWord)
  else match Symbol.single? c with
    | some s => nextSymbol s rest
    | none => (stray c, rest)

theorem text_nextString (rest : Text) :
    (nextString rest).1.text ++ (nextString rest).2 = quote :: rest := by
  have split := List.takeWhile_append_dropWhile (p := (· != quote)) (l := rest)
  unfold nextString
  split
  · next h => simpa [text, h] using split
  · next c tail h =>
    have : c = quote := by
      have := List.head_dropWhile_not (· != quote) (l := rest) (by simp [h])
      simpa [h] using this
    subst this
    simpa [text, h] using split

theorem text_nextNumber (digit : Char) (rest : Text) :
    (nextNumber digit rest).1.text ++ (nextNumber digit rest).2 = digit :: rest := by
  have split := List.takeWhile_append_dropWhile (p := Char.isDigit) (l := rest)
  unfold nextNumber
  split
  · next c tail h =>
    rw [h] at split
    split <;> simpa [text] using split
  · simp [text]

theorem text_nextSymbol (s : Symbol) (rest : Text) :
    (nextSymbol s rest).1.text ++ (nextSymbol s rest).2 = s.text ++ rest := by
  unfold nextSymbol
  split
  · simp [text, Symbol.text]
  · exact Symbol.text_lengthen _ _

/-- A piece and what is left behind it make up the script. -/
theorem text_next (c : Char) (rest : Text) : (next c rest).1.text ++ (next c rest).2 = c :: rest := by
  unfold next
  split
  · rfl
  split
  · next h => rw [text_nextString, h]
  split
  · exact text_nextNumber c rest
  split
  · simp [text]
  split
  · next s h => rw [text_nextSymbol, Symbol.single?_eq_some_iff.mp h]; rfl
  · rfl

theorem text_next_ne_nil (c : Char) (rest : Text) : (next c rest).1.text ≠ [] := by
  unfold next
  split
  · simp [text]
  split
  · unfold nextString
    split <;> simp [text]
  split
  · unfold nextNumber
    split
    · split <;> simp [text]
    · simp [text]
  split
  · simp [text]
  split
  · unfold nextSymbol
    split
    · simp [text]
    · exact Symbol.text_ne_nil _
  · simp [text]

/-- What is left behind a piece is shorter than the script. -/
theorem length_next_lt (c : Char) (rest : Text) :
    (next c rest).2.length < (c :: rest).length := by
  have := congrArg List.length (text_next c rest)
  have := List.length_pos_iff.mpr (text_next_ne_nil c rest)
  simp only [List.length_append] at *
  omega

end Piece

/-- The pieces of a script, in order. -/
def pieces : Text → List Piece
  | [] => []
  | c :: rest => (Piece.next c rest).1 :: pieces (Piece.next c rest).2
termination_by source => source.length
decreasing_by exact Piece.length_next_lt c rest

@[simp] theorem pieces_nil : pieces [] = [] := by rw [pieces]

theorem pieces_cons (c : Char) (rest : Text) :
    pieces (c :: rest) = (Piece.next c rest).1 :: pieces (Piece.next c rest).2 := by rw [pieces]

/-- The pieces of a script make up the script. -/
theorem flatMap_text_pieces (source : Text) : (pieces source).flatMap Piece.text = source := by
  fun_induction pieces source with
  | case1 => rfl
  | case2 c rest ih => rw [List.flatMap_cons, ih, Piece.text_next]

end ScriptLexer
