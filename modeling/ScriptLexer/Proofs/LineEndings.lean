import ScriptLexer.Proofs.Encoding
import ScriptLexer.Proofs.Passes

/-!
# Line endings

A line may end in a line feed or in a return and a line feed. Between lexemes the return is white space, in a comment
it is the last character, and within a string it belongs to the text. If all such returns are left out, a script keeps
its tokens and its diagnostics with their lines, and only the texts of strings lose their returns too.
-/

namespace ScriptLexer

/-- A text with each pair of a return and a line feed replaced by a line feed. -/
def Text.unified (text : Text) : Text := Lines.dropReturns '\n' '\r' text

def Literal.unified : Literal → Literal
  | text t => text t.unified
  | number => number

/-- A token with the line endings in its lexeme and in its value replaced. -/
def Token.unified (t : Token) : Token :=
  { t with lexeme := t.lexeme.unified, literal := t.literal.map Literal.unified }

/-! ### Texts -/

namespace Text

variable {c : Char} {s t : Text}

lemma unified_pair (t : Text) : unified ('\r' :: '\n' :: t) = '\n' :: unified t := by
  have hfeed : ¬('\n' = '\r' ∧ t.head? = some '\n') := by simp
  rw [unified, Lines.dropReturns, if_pos ⟨rfl, rfl⟩, Lines.dropReturns, if_neg hfeed]
  rfl

lemma unified_cons (h : ¬(c = '\r' ∧ t.head? = some '\n')) : unified (c :: t) = c :: unified t := by
  rw [unified, Lines.dropReturns, if_neg h]
  rfl

-- of two returns the first one stays
example : unified "1\r\r\n\r".toList = "1\r\n\r".toList := by decide

lemma unified_singleton (c : Char) : unified [c] = [c] := unified_cons (by simp)

/-- Induction on a text by its line endings. -/
theorem unified_induction {motive : Text → Prop} (nil : motive [])
    (pair : ∀ t, motive t → motive ('\r' :: '\n' :: t))
    (cons : ∀ c t, ¬(c = '\r' ∧ t.head? = some '\n') → motive t → motive (c :: t)) : ∀ text, motive text
  | [] => nil
  | [c] => cons c [] (by simp) nil
  | c :: d :: t =>
    if h : c = '\r' ∧ d = '\n' then by
      obtain ⟨rfl, rfl⟩ := h
      exact pair t (unified_induction nil pair cons t)
    else cons c (d :: t) (by simpa using h) (unified_induction nil pair cons (d :: t))

lemma unified_sublist (t : Text) : (unified t).Sublist t := by
  induction t using unified_induction with
  | nil => exact List.nil_sublist []
  | pair t ih =>
    rw [unified_pair]
    exact (ih.cons_cons '\n').cons '\r'
  | cons c t h ih =>
    rw [unified_cons h]
    exact ih.cons_cons c

lemma unified_of_not_mem (h : '\r' ∉ t) : unified t = t := by
  induction t with
  | nil => rfl
  | cons c t ih =>
    obtain ⟨hc, ht⟩ := List.ne_and_not_mem_of_not_mem_cons h
    rw [unified_cons fun hpair => hc hpair.1.symm, ih ht]

lemma lineFeeds_unified (t : Text) : (unified t).lineFeeds = t.lineFeeds := by
  induction t using unified_induction with
  | nil => rfl
  | pair t ih =>
    have hreturn : lineFeeds ('\r' :: '\n' :: t) = lineFeeds ('\n' :: t) := List.count_cons_of_ne (by decide)
    rw [unified_pair, hreturn, lineFeeds, lineFeeds, List.count_cons_self, List.count_cons_self]
    exact congrArg (· + 1) ih
  | cons c t h ih =>
    rw [unified_cons h, lineFeeds, lineFeeds, List.count_cons, List.count_cons]
    exact congrArg (· + _) ih

/-- Two texts can be treated apart unless a pair stands across the cut. -/
theorem unified_append (h : ¬(s.getLast? = some '\r' ∧ t.head? = some '\n')) :
    unified (s ++ t) = unified s ++ unified t := by
  induction s using unified_induction with
  | nil => rfl
  | pair s ih =>
    have hs : ¬(s.getLast? = some '\r' ∧ t.head? = some '\n') := by
      rintro ⟨hlast, hhead⟩
      obtain ⟨front, rfl⟩ := List.getLast?_eq_some_iff.mp hlast
      exact h ⟨by simp [List.getLast?_cons], hhead⟩
    rw [List.cons_append, List.cons_append, unified_pair, ih hs, unified_pair, List.cons_append]
  | cons c s hc ih =>
    cases s with
    | nil =>
      have hcut : ¬(c = '\r' ∧ t.head? = some '\n') := by simpa using h
      rw [List.singleton_append, unified_cons hcut, unified_singleton, List.singleton_append]
    | cons d s =>
      rw [List.getLast?_cons_cons] at h
      have hhead : ¬(c = '\r' ∧ (d :: s ++ t).head? = some '\n') := hc
      rw [List.cons_append, unified_cons hhead, ih h, unified_cons hc, List.cons_append]

/-- A character that is not a line feed comes first if it came first before. -/
lemma eq_cons_of_unified (h : unified s = c :: t) (hc : c ≠ '\n') : ∃ s', s = c :: s' ∧ unified s' = t := by
  cases s using unified_induction with
  | nil => cases h
  | pair s _ =>
    rw [unified_pair] at h
    exact absurd (List.cons.inj h).1.symm hc
  | cons d s hd _ =>
    rw [unified_cons hd] at h
    obtain ⟨rfl, rfl⟩ := List.cons.inj h
    exact ⟨s, rfl, rfl⟩

end Text

/-- Without the returns of its line endings a text is milder. -/
lemma milder_unified (t : Text) : Milder t t.unified where
  head := by
    intro d hd
    by_cases hfeed : d = '\n'
    · exact .inr (.inl hfeed)
    · obtain ⟨u, hu⟩ := List.head?_eq_some_iff.mp hd
      obtain ⟨s, rfl, -⟩ := Text.eq_cons_of_unified hu hfeed
      exact .inl rfl
  point := by
    intro d tail hu hd
    have hfeed : d ≠ '\n' := by
      rintro rfl
      exact absurd hd (by decide)
    obtain ⟨s, rfl, hs⟩ := Text.eq_cons_of_unified hu (by decide)
    obtain ⟨s', rfl, -⟩ := Text.eq_cons_of_unified hs hfeed
    exact ⟨s', rfl⟩

/-! ### Pieces -/

namespace Piece

variable {x : Piece} {rest : Text}

/-- A piece with the line endings within it replaced. -/
def unified : Piece → Piece
  | string body => string body.unified
  | unclosed body => unclosed body.unified
  | x => x

def Meaning.unified : Meaning → Meaning
  | lexeme kind literal => lexeme kind (literal.map Literal.unified)
  | m => m

lemma meaning_unified (x : Piece) : x.unified.meaning = x.meaning.unified := by
  cases x with
  | integer digits =>
    change (integer digits).meaning = _
    rw [meaning]
    split <;> rfl
  | _ => rfl

/-- A return is white space, or it stands in a comment or in a string. -/
lemma of_return_mem (hx : x.Precedes rest) (h : '\r' ∈ x.text) :
    x = blank '\r' ∨ ∃ body, x = comment body ∧ '\n' ∉ body ∨ x = string body ∨ x = unclosed body := by
  cases hx with
  | blank hc =>
    obtain rfl := List.mem_singleton.mp h
    exact .inl rfl
  | comment hbody => exact .inr ⟨_, .inl ⟨rfl, hbody⟩⟩
  | @lone s => cases s <;> exact absurd h (by decide)
  | @short s => cases s <;> exact absurd h (by decide)
  | @lengthened s t => cases t <;> exact absurd h (by decide)
  | word hc hletters =>
    exfalso
    rcases List.mem_cons.mp h with rfl | h
    · exact absurd hc (by decide)
    · exact absurd (hletters _ h) (by decide)
  | string => exact .inr ⟨_, .inr (.inl rfl)⟩
  | integer hne hdigits => exact absurd (hdigits _ h) (by decide)
  | decimal hwne hwhole hfne hfraction =>
    exfalso
    rcases List.mem_append.mp h with h | h
    · exact absurd (hwhole _ h) (by decide)
    rcases List.mem_cons.mp h with h | h
    · exact absurd h (by decide)
    · exact absurd (hfraction _ h) (by decide)
  | stray hblank =>
    obtain rfl := List.mem_singleton.mp h
    exact absurd hblank (by decide)
  | unclosed => exact .inr ⟨_, .inr (.inr rfl)⟩

/-- Only in a string there is a return in front of a line feed. -/
lemma unified_text_eq (hx : x.Precedes rest) (hstring : ∀ body, x ≠ string body) (hopen : ∀ body, x ≠ unclosed body) :
    x.text.unified = x.text := by
  by_cases h : '\r' ∈ x.text
  · rcases of_return_mem hx h with rfl | ⟨body, ⟨rfl, hbody⟩ | hx | hx⟩
    · rfl
    · have hfeed : '\n' ∉ '/' :: '/' :: body := by simpa using hbody
      exact Lines.dropReturns_of_not_mem hfeed
    · exact absurd hx (hstring body)
    · exact absurd hx (hopen body)
  · exact Text.unified_of_not_mem h

/-- The line endings of a piece are those of its text. -/
lemma text_unified (hx : x.Precedes rest) : x.unified.text = x.text.unified := by
  have hquote : ∀ t : Text, ¬(quote = '\r' ∧ t.head? = some '\n') := fun t h => absurd h.1 (by decide)
  cases x with
  | string body =>
    have hclose : ¬((quote :: body).getLast? = some '\r' ∧ [quote].head? = some '\n') := fun h => absurd h.2 (by decide)
    rw [unified, text, text, Text.unified_append hclose, Text.unified_cons (hquote body), Text.unified_singleton]
  | unclosed body => rw [unified, text, text, Text.unified_cons (hquote body)]
  | _ => exact (unified_text_eq hx (by simp) (by simp)).symm

/-- A piece keeps its place in front of what follows it. -/
theorem precedes_unified (hx : x.Precedes rest) : x.unified.Precedes rest.unified := by
  have hmilder : x.Precedes rest.unified := by
    apply hx.of_milder (milder_unified rest)
    rintro body rfl
    cases hx
    rfl
  cases hx with
  | string hbody => exact .string fun h => hbody ((Text.unified_sublist _).subset h)
  | unclosed hbody => exact .unclosed fun h => hbody ((Text.unified_sublist _).subset h)
  | _ => exact hmilder

/-- A return at the end of a piece and a line feed behind it: the return is white space or ends a comment. -/
lemma of_pair_across (hx : x.Precedes rest) (hlast : x.text.getLast? = some '\r') (hhead : rest.head? = some '\n') :
    x = blank '\r' ∨ ∃ body, x = comment (body ++ ['\r']) ∧ '\n' ∉ body := by
  rcases of_return_mem hx (List.mem_of_getLast? hlast) with rfl | ⟨body, ⟨rfl, hbody⟩ | rfl | rfl⟩
  · exact .inl rfl
  · obtain ⟨front, hfront⟩ := List.getLast?_eq_some_iff.mp hlast
    match front with
    | [] => cases hfront
    | [c] => cases hfront
    | c :: d :: body =>
      obtain ⟨rfl, rfl, rfl⟩ : '/' = c ∧ '/' = d ∧ _ = body ++ ['\r'] := by simpa [text] using hfront
      exact .inr ⟨body, rfl, fun h => hbody (List.mem_append_left _ h)⟩
  · rw [text, List.getLast?_concat] at hlast
    cases hlast
  · cases hx
    cases hhead

/-- The return at the end of a comment goes with the line feed behind it. -/
lemma unified_comment {body : Text} (hbody : '\n' ∉ body) (rest : Text) :
    Text.unified ((comment (body ++ ['\r'])).text ++ '\n' :: rest) =
      (comment body).text ++ Text.unified ('\n' :: rest) := by
  have hsplit : (comment (body ++ ['\r'])).text ++ '\n' :: rest = (comment body).text ++ '\r' :: '\n' :: rest := by
    simp [text]
  have hreturn : ¬((comment body).text.getLast? = some '\r' ∧ ('\r' :: '\n' :: rest).head? = some '\n') := by simp
  have hcomment : Text.unified (comment body).text = (comment body).text := by
    apply Lines.dropReturns_of_not_mem
    simpa [text] using hbody
  have hfeed : Text.unified ('\n' :: rest) = '\n' :: Text.unified rest := Text.unified_cons (by simp)
  rw [hsplit, Text.unified_append hreturn, hcomment, Text.unified_pair, hfeed]

end Piece

/-! ### Divisions -/

/-- Whether the second pieces come from the first by replacing all line endings, within the pieces and between
them. -/
inductive Unifies : List Piece → List Piece → Prop
  | nil : Unifies [] []
  | keep {x : Piece} {xs ys : List Piece} (htext : x.unified.text = x.text.unified) (tail : Unifies xs ys) :
      Unifies (x :: xs) (x.unified :: ys)
  /-- a return between lexemes -/
  | blank {xs ys : List Piece} (tail : Unifies xs ys) : Unifies (.blank '\r' :: xs) ys
  /-- a return at the end of a comment -/
  | comment {body : Text} {xs ys : List Piece} (tail : Unifies xs ys) :
      Unifies (.comment (body ++ ['\r']) :: xs) (.comment body :: ys)

/-- The division of a script gives that of the script with its line endings replaced. -/
theorem exists_unifies {xs : List Piece} {source : Text} (h : Divides xs source) :
    ∃ ys, Unifies xs ys ∧ Divides ys source.unified := by
  induction h with
  | nil => exact ⟨[], .nil, .nil⟩
  | @cons x xs rest head tail ih =>
    obtain ⟨ys, hunifies, hdivides⟩ := ih
    by_cases hcut : x.text.getLast? = some '\r' ∧ rest.head? = some '\n'
    · obtain ⟨hlast, hhead⟩ := hcut
      obtain ⟨rest, rfl⟩ := List.head?_eq_some_iff.mp hhead
      have hrest : Text.unified ('\n' :: rest) = '\n' :: Text.unified rest := Text.unified_cons (by simp)
      rcases Piece.of_pair_across head hlast hhead with rfl | ⟨body, rfl, hbody⟩
      · refine ⟨ys, .blank hunifies, ?_⟩
        rw [hrest] at hdivides
        rw [Piece.text, List.singleton_append, Text.unified_pair]
        exact hdivides
      · refine ⟨.comment body :: ys, .comment hunifies, ?_⟩
        rw [Piece.unified_comment hbody]
        apply Divides.cons _ hdivides
        rw [hrest]
        exact .comment hbody fun d hd => (Option.some.inj hd).symm
    · refine ⟨x.unified :: ys, .keep (Piece.text_unified head) hunifies, ?_⟩
      rw [Text.unified_append hcut, ← Piece.text_unified head]
      exact .cons (Piece.precedes_unified head) hdivides

/-! ### What is selected from the pieces -/

lemma line_advance_eq {p q : Position} {s t : Text} (hline : p.line = q.line) (hfeeds : s.lineFeeds = t.lineFeeds) :
    (p.advance s).line = (q.advance t).line := by
  rw [Position.advance, Position.advance, hline, hfeeds]

/-- Line endings change what is selected from pieces only in the way in which they change each piece. -/
theorem Unifies.filterMap_place {α : Type} {select : Placed → Option α} {move : α → α}
    (hkeep : ∀ p q x, p.line = q.line → x.unified.text = x.text.unified →
      select ⟨q, x.unified⟩ = (select ⟨p, x⟩).map move)
    (hnothing : ∀ p x, x.meaning = .nothing → select ⟨p, x⟩ = none) {xs ys : List Piece} (h : Unifies xs ys)
    {p q : Position} (hline : p.line = q.line) :
    (place q ys).filterMap select = ((place p xs).filterMap select).map move := by
  induction h generalizing p q with
  | nil => rfl
  | @keep x xs ys htext tail ih =>
    have hfeeds : x.text.lineFeeds = x.unified.text.lineFeeds := by rw [htext, Text.lineFeeds_unified]
    rw [place, place, List.filterMap_cons, List.filterMap_cons, hkeep p q x hline htext,
      ih (line_advance_eq hline hfeeds)]
    cases select ⟨p, x⟩ <;> rfl
  | blank tail ih =>
    rw [place, List.filterMap_cons_none (hnothing _ _ rfl)]
    exact ih (line_advance_eq (t := []) hline rfl)
  | @comment body xs ys tail ih =>
    have hfeeds : (Piece.comment (body ++ ['\r'])).text.lineFeeds = (Piece.comment body).text.lineFeeds :=
      Text.lineFeeds_append ('/' :: '/' :: body) ['\r']
    rw [place, place, List.filterMap_cons_none (hnothing _ _ rfl), List.filterMap_cons_none (hnothing _ _ rfl)]
    exact ih (line_advance_eq hline hfeeds)

lemma token?_unified {p q : Position} {x : Piece} (hline : p.line = q.line)
    (htext : x.unified.text = x.text.unified) :
    Placed.token? ⟨q, x.unified⟩ = (Placed.token? ⟨p, x⟩).map Token.unified := by
  rw [Placed.token?, Placed.token?, Placed.located?, Placed.located?, Piece.meaning_unified, htext, hline]
  cases x.meaning <;> rfl

lemma fault?_unified {p q : Position} {x : Piece} (hline : p.line = q.line) :
    Placed.fault? ⟨q, x.unified⟩ = Placed.fault? ⟨p, x⟩ := by
  rw [Placed.fault?, Placed.fault?, Piece.meaning_unified, hline]
  cases x.meaning <;> rfl

lemma eof_unified (source : Text) : (scan source.unified).eof = (scan source).eof.unified := by
  rw [Scan.eof, Scan.eof, scan, scan, finish_scanFrom, finish_scanFrom, Position.advance, Position.advance,
    Text.lineFeeds_unified]
  rfl

/-- A script with its line endings replaced has the same tokens, apart from the line endings in their lexemes and
texts, and the same diagnostics. -/
theorem scan_unified (source : Text) :
    (scan source.unified).tokens = (scan source).tokens.map Token.unified ∧
      (scan source.unified).diagnostics = (scan source).diagnostics := by
  obtain ⟨ys, hunifies, hdivides⟩ := exists_unifies (divides_pieces source)
  have hpieces : pieces source.unified = ys := pieces_eq_of_divides hdivides
  have htokens : (scan source.unified).placed.filterMap Placed.token? =
      ((scan source).placed.filterMap Placed.token?).map Token.unified := by
    rw [scan, scanFrom, hpieces]
    exact hunifies.filterMap_place (fun _ _ _ => token?_unified) (fun _ _ h => (Placed.selected_of_nothing h).1) rfl
  have hfaults : (scan source.unified).faults = (scan source).faults.map id := by
    rw [scan, scanFrom, hpieces]
    exact hunifies.filterMap_place (fun _ _ _ hline _ => by rw [fault?_unified hline, Option.map_id_fun, id])
      (fun _ _ h => (Placed.selected_of_nothing h).2.1) rfl
  constructor
  · rw [Scan.tokens, Scan.tokens, htokens, eof_unified, List.map_append, List.map_singleton]
  · rw [Scan.diagnostics, Scan.diagnostics, hfaults, List.map_id]

end ScriptLexer
