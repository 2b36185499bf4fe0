import ScriptLexer.Proofs.Lookahead

/-!
# Modes of reading

Whether a place of a script is within a string, within a comment or in neither can be told from the
characters in front of it alone, one after the other, without dividing the script into pieces. Each piece that
begins in code ends in a mode that its sort gives, and from there the next piece is read as in code. A place
in string mode is within a string or an open string.
-/

namespace ScriptLexer

/-- How the next character is read: as code, as code behind a slash, within a comment or within a string. -/
inductive Mode
  | code | slash | comment | string
  deriving DecidableEq, Repr

namespace Mode

/-- The mode behind one more character. -/
def step : Mode → Char → Mode
  | code, c => if c = quote then string else if c = '/' then slash else code
  | slash, c => if c = quote then string else if c = '/' then comment else code
  | comment, c => if c = '\n' then code else comment
  | string, c => if c = quote then code else string

/-- The mode behind a text. -/
def run (m : Mode) (t : Text) : Mode := t.foldl step m

variable {m : Mode} {c : Char} {t u : Text}

lemma run_cons (m : Mode) (c : Char) (t : Text) : m.run (c :: t) = (m.step c).run t := rfl

lemma run_append (m : Mode) (t u : Text) : m.run (t ++ u) = (m.run t).run u := List.foldl_append

/-! ### Texts that do not change the mode -/

lemma run_string (ht : quote ∉ t) : run string t = string := by
  induction t with
  | nil => rfl
  | cons c t ih =>
    obtain ⟨hc, ht⟩ := List.ne_and_not_mem_of_not_mem_cons ht
    rw [run_cons, step, if_neg (Ne.symm hc), ih ht]

lemma run_comment (ht : '\n' ∉ t) : run comment t = comment := by
  induction t with
  | nil => rfl
  | cons c t ih =>
    obtain ⟨hc, ht⟩ := List.ne_and_not_mem_of_not_mem_cons ht
    rw [run_cons, step, if_neg (Ne.symm hc), ih ht]

lemma run_code (ht : ∀ d ∈ t, d ≠ quote ∧ d ≠ '/') : run code t = code := by
  induction t with
  | nil => rfl
  | cons c t ih =>
    obtain ⟨hquote, hslash⟩ := ht c List.mem_cons_self
    rw [run_cons, step, if_neg hquote, if_neg hslash, ih fun d hd => ht d (List.mem_cons_of_mem c hd)]

/-! ### Texts that open no string -/

lemma step_ne_string (hm : m ≠ string) (hc : c ≠ quote) : m.step c ≠ string := by
  cases m with
  | string => exact absurd rfl hm
  | comment => rw [step]; split <;> simp
  | code => rw [step, if_neg hc]; split <;> simp
  | slash => rw [step, if_neg hc]; split <;> simp

lemma run_ne_string (hm : m ≠ string) (ht : quote ∉ t) : m.run t ≠ string := by
  induction t generalizing m with
  | nil => exact hm
  | cons c t ih =>
    obtain ⟨hc, ht⟩ := List.ne_and_not_mem_of_not_mem_cons ht
    exact ih (step_ne_string hm (Ne.symm hc)) ht

/-- Two slashes that are not in a string stand in a comment or begin one. -/
lemma run_slashes (hm : m ≠ string) (ht : '\n' ∉ t) : m.run ('/' :: '/' :: t) = comment := by
  have hslashes : (m.step '/').step '/' = comment := by
    cases m with
    | string => exact absurd rfl hm
    | _ => rfl
  rw [run_cons, run_cons, hslashes, run_comment ht]

end Mode

/-! ### The mode behind a piece -/

/-- The mode in which a piece ends. -/
def Piece.mode : Piece → Mode
  | comment _ => .comment
  | symbol .slash => .slash
  | unclosed _ => .string
  | _ => .code

namespace Piece

open Mode

variable {x : Piece} {rest : Text}

lemma ne_of_continuesWord {c : Char} (hc : continuesWord c) : c ≠ quote ∧ c ≠ '/' := by
  refine ⟨ne_quote_of_continuesWord hc, ?_⟩
  rintro rfl
  exact absurd hc (by decide)

lemma ne_of_isDigit {c : Char} (hc : c.isDigit) : c ≠ quote ∧ c ≠ '/' :=
  ne_of_continuesWord (continuesWord_of_isDigit hc)

lemma run_symbol (s : Symbol) : run code s.text = (symbol s).mode := by cases s <;> rfl

/-- A piece that begins in code ends in its mode. -/
theorem run_text (hx : x.Precedes rest) : run code x.text = x.mode := by
  cases hx with
  | blank hc =>
    apply run_code
    intro d hd
    rw [List.mem_singleton.mp hd]
    simp only [List.mem_cons, List.not_mem_nil, or_false] at hc
    rcases hc with rfl | rfl | rfl | rfl <;> decide
  | comment hbody => exact run_comment hbody
  | lone => exact run_symbol _
  | short => exact run_symbol _
  | lengthened => exact run_symbol _
  | word hc hletters =>
    apply run_code
    intro d hd
    rcases List.mem_cons.mp hd with rfl | hd
    · exact ne_of_continuesWord (continuesWord_of_beginsWord hc)
    · exact ne_of_continuesWord (hletters d hd)
  | string hbody =>
    rw [text, List.cons_append, run_cons, run_append]
    exact congrArg (run · [quote]) (run_string hbody)
  | integer hne hdigits => exact run_code fun d hd => ne_of_isDigit (hdigits d hd)
  | decimal hwne hwhole hfne hfraction =>
    apply run_code
    intro d hd
    rcases List.mem_append.mp hd with hd | hd
    · exact ne_of_isDigit (hwhole d hd)
    · rcases List.mem_cons.mp hd with rfl | hd
      · decide
      · exact ne_of_isDigit (hfraction d hd)
  | stray hblank hquote hdigit hword hsymbol =>
    apply run_code
    intro d hd
    rw [List.mem_singleton.mp hd]
    refine ⟨hquote, ?_⟩
    rintro rfl
    exact hsymbol .slash rfl
  | unclosed hbody => exact run_string hbody

/-- Behind a piece the next character is read as in code. -/
theorem step_mode (hx : x.Precedes rest) : ∀ d ∈ rest.head?, x.mode.step d = code.step d := by
  intro d hd
  cases hx with
  | comment hbody hrest =>
    rw [hrest d hd]
    rfl
  | @lone s _ hs hequal hslash =>
    by_cases h : s = .slash
    · have hd' : d ≠ '/' := by
        rintro rfl
        exact hslash h hd
      rw [h, mode, step, step, if_neg hd', if_neg hd']
    · cases s <;> first | rfl | exact absurd rfl h
  | @short s t _ hequal =>
    cases s <;> first | rfl | cases hequal
  | @lengthened s t _ hequal =>
    cases s <;> cases hequal <;> rfl
  | unclosed => cases hd
  | _ => rfl

end Piece

/-! ### The mode at a place of a script -/

open Mode

/-- The mode at a place behind a cut between pieces is found by reading on from the cut as code. -/
theorem run_append_of_divides {xs ys : List Piece} {source : Text} (h : Divides (xs ++ ys) source) {t : Text}
    (hne : t ≠ []) (ht : t <+: ys.flatMap Piece.text) :
    run code (xs.flatMap Piece.text ++ t) = run code t := by
  induction xs generalizing source with
  | nil => rfl
  | cons x xs ih =>
    cases h with
    | cons head tail =>
      have hrest : xs.flatMap Piece.text ++ t <+: (xs ++ ys).flatMap Piece.text := by
        rw [List.flatMap_append]
        exact (List.prefix_append_right_inj _).mpr ht
      rw [← flatMap_text_of_divides tail] at head
      rw [List.flatMap_cons, List.append_assoc, run_append, Piece.run_text head, ← ih tail]
      -- both readings of the rest differ at most in its first character
      obtain ⟨d, u, hu⟩ := List.exists_cons_of_ne_nil (List.append_ne_nil_of_right_ne_nil
        (xs.flatMap Piece.text) hne)
      rw [hu] at hrest ⊢
      obtain ⟨v, hv⟩ := hrest
      rw [run_cons, run_cons]
      congr 1
      apply Piece.step_mode head
      rw [List.append_eq, ← hv]
      rfl

lemma quote_mem_of_run {t : Text} (h : run code t = Mode.string) : quote ∈ t := by
  apply Classical.not_not.mp
  intro hquote
  exact run_ne_string (by decide) hquote h

/-- A place within a piece, or at its end, is in string mode only if the piece is a string, closed or open. -/
lemma Piece.exists_body_of_run {x : Piece} {rest t u : Text} (hx : x.Precedes rest) (htext : x.text = t ++ u)
    (h : run code t = Mode.string) :
    ∃ body body', t = quote :: body ∧ (x = .string (body ++ body') ∨ x = .unclosed (body ++ body')) := by
  have hmem : quote ∈ x.text := htext ▸ List.mem_append_left u (quote_mem_of_run h)
  have hne : t ≠ [] := List.ne_nil_of_mem (quote_mem_of_run h)
  obtain ⟨c, t, rfl⟩ := List.exists_cons_of_ne_nil hne
  cases hx with
  | blank hc =>
    rw [text, List.mem_singleton] at hmem
    exact absurd (hmem ▸ hc) (by decide)
  | @comment body _ hbody =>
    obtain ⟨rfl, htail⟩ := List.cons.inj htext
    cases t with
    | nil => cases h
    | cons d t =>
      obtain ⟨rfl, rfl⟩ := List.cons.inj htail
      rw [run_slashes (by decide) fun hfeed => hbody (List.mem_append_left u hfeed)] at h
      cases h
  | @lone s => cases s <;> exact absurd hmem (by decide)
  | @short s => cases s <;> exact absurd hmem (by decide)
  | @lengthened s t => cases t <;> exact absurd hmem (by decide)
  | word hc hletters =>
    rcases List.mem_cons.mp hmem with rfl | hmem
    · exact absurd hc (by decide)
    · exact absurd rfl (ne_of_continuesWord (hletters quote hmem)).1
  | @string body _ hbody =>
    have hopen : run code (quote :: body) = Mode.string := run_string hbody
    rcases List.append_eq_append_iff.mp htext with ⟨as, has, hquote⟩ | ⟨bs, hbs, _⟩
    · -- the whole text is at most as long as the open string, for behind the last quote there is code
      cases as with
      | nil =>
        rw [List.append_nil] at has
        obtain ⟨rfl, rfl⟩ := List.cons.inj has
        exact ⟨t, [], rfl, .inl (by rw [List.append_nil])⟩
      | cons d as =>
        obtain ⟨rfl, htail⟩ := List.cons.inj hquote
        rw [has, (List.append_eq_nil_iff.mp htail.symm).1, run_append, hopen] at h
        cases h
    · obtain ⟨rfl, rfl⟩ := List.cons.inj hbs
      exact ⟨t, bs, rfl, .inl rfl⟩
  | integer hne hdigits => exact absurd rfl (ne_of_isDigit (hdigits quote hmem)).1
  | decimal hwne hwhole hfne hfraction =>
    rcases List.mem_append.mp hmem with hmem | hmem
    · exact absurd rfl (ne_of_isDigit (hwhole quote hmem)).1
    · rcases List.mem_cons.mp hmem with hpoint | hmem
      · exact absurd hpoint (by decide)
      · exact absurd rfl (ne_of_isDigit (hfraction quote hmem)).1
  | stray hblank hquote => exact absurd (List.mem_singleton.mp hmem).symm hquote
  | unclosed hbody =>
    obtain ⟨rfl, rfl⟩ := List.cons.inj htext
    exact ⟨t, u, rfl, .inr rfl⟩

/-- A place in string mode is within a string, closed or open, behind its quote. -/
theorem exists_string_of_run {xs : List Piece} {t u : Text} (h : Divides xs (t ++ u))
    (hrun : run code t = Mode.string) :
    ∃ ys x zs body body', xs = ys ++ x :: zs ∧ t = ys.flatMap Piece.text ++ quote :: body ∧
      (x = .string (body ++ body') ∨ x = .unclosed (body ++ body')) := by
  generalize hsource : t ++ u = source at h
  induction h generalizing t with
  | nil =>
    rw [(List.append_eq_nil_iff.mp hsource).1] at hrun
    cases hrun
  | @cons x xs rest head tail ih =>
    rcases List.append_eq_append_iff.mp hsource with ⟨as, has, _⟩ | ⟨bs, rfl, hrest⟩
    · obtain ⟨body, body', ht, hx⟩ := Piece.exists_body_of_run head has hrun
      exact ⟨[], x, xs, body, body', rfl, ht, hx⟩
    · by_cases hne : bs = []
      · rw [hne, List.append_nil] at hrun ⊢
        obtain ⟨body, body', ht, hx⟩ := Piece.exists_body_of_run head (List.append_nil _).symm hrun
        exact ⟨[], x, xs, body, body', rfl, ht, hx⟩
      · have hdivides : Divides ([x] ++ xs) (x.text ++ rest) := .cons head tail
        have hread := run_append_of_divides hdivides hne
          (by rw [flatMap_text_of_divides tail, hrest]; exact List.prefix_append bs u)
        rw [List.flatMap_singleton, hrun] at hread
        obtain ⟨ys, y, zs, body, body', rfl, rfl, hy⟩ := ih hread.symm hrest.symm
        exact ⟨x :: ys, y, zs, body, body', rfl, by rw [List.flatMap_cons, List.append_assoc], hy⟩

end ScriptLexer
