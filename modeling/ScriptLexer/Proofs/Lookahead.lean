import ScriptLexer.Proofs.Division

/-!
# Lookahead

Whether a piece is allowed in front of a text depends on the first two characters of the text. A text is
milder than another if what it begins with lengthens no piece that the other leaves as it is; in front of
a milder text stand the same pieces, apart from a string that is still open.
-/

namespace ScriptLexer

/-- Whether the beginning of `u` lengthens no piece that the beginning of `t` does not. -/
structure Milder (t u : Text) : Prop where
  head : ∀ d ∈ u.head?, d ∈ t.head? ∨ d = '\n' ∨ d.isWhitespace ∧ ∃ c ∈ t.head?, c ≠ '\n'
  point : ∀ d tail, u = '.' :: d :: tail → d.isDigit → ∃ tail', t = '.' :: d :: tail'

variable {t u : Text}

lemma Milder.isWhitespace_or (h : Milder t u) {d : Char} (hd : d ∈ u.head?) :
    d ∈ t.head? ∨ d.isWhitespace := by
  rcases h.head d hd with hsame | rfl | ⟨hblank, _⟩
  · exact .inl hsame
  · exact .inr rfl
  · exact .inr hblank

lemma Milder.forall_head? (h : Milder t u) {p : Char → Prop} (hp : ∀ d, p d → ¬d.isWhitespace)
    (ht : ∀ d ∈ t.head?, ¬p d) : ∀ d ∈ u.head?, ¬p d := by
  intro d hd hpd
  rcases h.isWhitespace_or hd with hsame | hblank
  · exact ht d hsame hpd
  · exact hp d hpd hblank

lemma Milder.head?_ne (h : Milder t u) {c : Char} (hc : ¬c.isWhitespace) (ht : t.head? ≠ some c) :
    u.head? ≠ some c := by
  intro hu
  rcases h.isWhitespace_or hu with hsame | hblank
  · exact ht hsame
  · exact hc hblank

/-- A piece that is not an open string may stand in front of every milder text. -/
theorem Piece.Precedes.of_milder {x : Piece} (hx : x.Precedes t) (h : Milder t u)
    (hopen : ∀ body, x = .unclosed body → u = []) : x.Precedes u := by
  cases hx with
  | blank hc => exact .blank hc
  | comment hbody hrest =>
    apply Precedes.comment hbody
    intro d hd
    rcases h.head d hd with hsame | hfeed | ⟨_, c, hc, hne⟩
    · exact hrest d hsame
    · exact hfeed
    · exact absurd (hrest c hc) hne
  | lone hs hequal hslash =>
    exact .lone hs hequal fun hslash' => h.head?_ne (by decide) (hslash hslash')
  | short hequal hrest => exact .short hequal (h.head?_ne (by decide) hrest)
  | lengthened hequal => exact .lengthened hequal
  | word hc hletters hrest =>
    exact .word hc hletters (h.forall_head? (fun _ => not_isWhitespace_of_continuesWord) hrest)
  | string hbody => exact .string hbody
  | integer hne hdigits hrest hpoint =>
    apply Precedes.integer hne hdigits (h.forall_head? (fun _ => not_isWhitespace_of_isDigit) hrest)
    intro d tail hu hd
    obtain ⟨tail', ht⟩ := h.point d tail hu hd
    exact hpoint d tail' ht hd
  | decimal hwne hwhole hfne hfraction hrest =>
    exact .decimal hwne hwhole hfne hfraction
      (h.forall_head? (fun _ => not_isWhitespace_of_isDigit) hrest)
  | stray hblank hquote hdigit hword hsymbol => exact .stray hblank hquote hdigit hword hsymbol
  | unclosed hbody =>
    rw [hopen _ rfl]
    exact .unclosed hbody

/-- A text that is cut off by a line feed is milder, whatever stands behind the line feed. -/
lemma milder_append_lineFeed (t b : Text) : Milder t (t ++ '\n' :: b) where
  head := by
    intro d hd
    cases t with
    | nil =>
      rw [List.nil_append, List.head?_cons, Option.mem_some_iff] at hd
      exact .inr (.inl hd.symm)
    | cons c t => exact .inl hd
  point := by
    intro d tail hu hd
    match t with
    | [] => simp at hu
    | [c] =>
      obtain ⟨rfl, rfl, rfl⟩ : c = '.' ∧ '\n' = d ∧ b = tail := by simpa using hu
      exact absurd hd (by decide)
    | c :: e :: t =>
      obtain ⟨rfl, rfl, _⟩ : c = '.' ∧ e = d ∧ _ := by simpa using hu
      exact ⟨t, rfl⟩

/-- What is added behind a text does not matter if the text shows enough of itself. -/
lemma milder_append (hne : t ≠ []) (hpoint : t ≠ ['.']) (b : Text) : Milder t (t ++ b) where
  head := by
    intro d hd
    obtain ⟨c, t, rfl⟩ := List.exists_cons_of_ne_nil hne
    exact .inl hd
  point := by
    intro d tail hu _
    match t with
    | [] => exact absurd rfl hne
    | [c] =>
      have hc : c = '.' := (List.cons.inj hu).1
      exact absurd (by rw [hc]) hpoint
    | c :: e :: t =>
      obtain ⟨rfl, rfl, _⟩ : c = '.' ∧ e = d ∧ _ := by simpa using hu
      exact ⟨t, rfl⟩

/-! ### Cutting a text short -/

/-- A text that is cut short is milder, wherever it is cut. -/
lemma milder_of_isPrefix (h : u <+: t) : Milder t u where
  head := by
    intro d hd
    obtain ⟨tail, rfl⟩ := h
    cases u with
    | nil => cases hd
    | cons c u => exact .inl hd
  point := by
    rintro d tail rfl _
    obtain ⟨tail', rfl⟩ := h
    exact ⟨tail ++ tail', rfl⟩

/-- A piece keeps its place if the text behind it is cut short. -/
theorem Piece.Precedes.of_isPrefix {x : Piece} (hx : x.Precedes t) (h : u <+: t) : x.Precedes u := by
  apply hx.of_milder (milder_of_isPrefix h)
  rintro body rfl
  cases hx
  exact List.prefix_nil.mp h

/-- The first pieces of a division stay if the text behind them is cut short and divided anew. -/
theorem Divides.cut {xs ys zs : List Piece} {source : Text} (h : Divides (xs ++ ys) source)
    (hu : u <+: ys.flatMap Piece.text) (hzs : Divides zs u) :
    Divides (xs ++ zs) (xs.flatMap Piece.text ++ u) := by
  induction xs generalizing source with
  | nil => exact hzs
  | cons x xs ih =>
    cases h with
    | cons head tail =>
      rw [← flatMap_text_of_divides tail, List.append_eq, List.flatMap_append] at head
      rw [List.flatMap_cons, List.append_assoc]
      apply Divides.cons
      · exact head.of_isPrefix ((List.prefix_append_right_inj _).mpr hu)
      · exact ih tail

/-- The last pieces of a division divide their own text. -/
theorem Divides.drop {xs ys : List Piece} {source : Text} (h : Divides (xs ++ ys) source) :
    Divides ys (ys.flatMap Piece.text) := by
  induction xs generalizing source with
  | nil =>
    have hsource := flatMap_text_of_divides h
    rw [List.nil_append] at hsource
    rw [hsource]
    exact h
  | cons x xs ih =>
    cases h with
    | cons head tail => exact ih tail

/-- Each piece of a division is allowed in front of the text of those behind it. -/
theorem Divides.precedes {xs ys : List Piece} {x : Piece} {source : Text} (h : Divides (xs ++ x :: ys) source) :
    x.Precedes (ys.flatMap Piece.text) := by
  induction xs generalizing source with
  | nil =>
    cases h with
    | cons head tail =>
      rw [flatMap_text_of_divides tail]
      exact head
  | cons y xs ih =>
    cases h with
    | cons head tail => exact ih tail

/-- Wherever a script is cut between two pieces, both sides keep their pieces. -/
theorem pieces_of_append {xs ys : List Piece} {source : Text} (h : pieces source = xs ++ ys) :
    pieces (xs.flatMap Piece.text) = xs ∧ pieces (ys.flatMap Piece.text) = ys := by
  have hall := divides_pieces source
  rw [h] at hall
  have hfirst := hall.cut List.nil_prefix .nil
  rw [List.append_nil, List.append_nil] at hfirst
  exact ⟨pieces_eq_of_divides hfirst, pieces_eq_of_divides hall.drop⟩

end ScriptLexer
