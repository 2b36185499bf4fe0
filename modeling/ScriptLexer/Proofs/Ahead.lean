import ScriptLexer.Proofs.Lexemes
import ScriptLexer.Proofs.Modes

/-!
# A scan that is ahead of its row

Where a row of lexemes does not keep apart what has to be kept apart, a scan that finds the lexemes of the row may
get ahead of the row: a comment begins too early, and the lexemes are found further behind. Such a scan stays
ahead up to the end, so there is none. To fall back, the scan would have to end a lexeme within a comment of
the row. In front of that comment it would be in a string, or it would read the comment as one. But a string that
reaches into a comment has two slashes on its last line. Where the row has that string, none is left open behind
it, even if the scan does not read it as a string there, and none is opened by what follows on the line.
-/

namespace ScriptLexer

/-! ### Cutting a gap -/

/-- Whether a text ends within a comment that begins behind the text `before`. -/
def EndsInComment (before t : Text) : Prop :=
  t = before ++ ['/'] ∨ ∃ body, t = before ++ '/' :: '/' :: body ∧ '\n' ∉ body

section Gaps

variable {before g t u : Text}

lemma EndsInComment.append_left (h : EndsInComment before t) (front : Text) :
    EndsInComment (front ++ before) (front ++ t) := by
  rcases h with rfl | ⟨body, rfl, hbody⟩
  · exact .inl (List.append_assoc front before _).symm
  · exact .inr ⟨body, (List.append_assoc front before _).symm, hbody⟩

lemma EndsInComment.length_lt (h : EndsInComment before t) : before.length < t.length := by
  rcases h with rfl | ⟨body, rfl, _⟩ <;> simp

lemma EndsInComment.exists_isPrefix (h : EndsInComment before t) :
    ∃ body, t <+: before ++ '/' :: '/' :: body ∧ '\n' ∉ body := by
  rcases h with rfl | ⟨body, rfl, hbody⟩
  · refine ⟨[], ?_, List.not_mem_nil⟩
    rw [List.prefix_append_right_inj]
    exact List.prefix_append ['/'] ['/']
  · exact ⟨body, List.prefix_refl _, hbody⟩

lemma prefix_append_cons {a b w : Text} {c : Char} (hw : w <+: a ++ c :: b) :
    w <+: a ∨ ∃ w', w = a ++ c :: w' ∧ w' <+: b := by
  rcases List.prefix_or_prefix_of_prefix hw (List.prefix_append a (c :: b)) with hbefore | ⟨w, rfl⟩
  · exact .inl hbefore
  · rw [List.prefix_append_right_inj] at hw
    cases w with
    | nil => exact .inl (by simp)
    | cons d w =>
      obtain ⟨rfl, hbehind⟩ := List.cons_prefix_cons.mp hw
      exact .inr ⟨w, rfl, hbehind⟩

/-- If a gap is cut behind a character that is no white space, the cut is within a comment. -/
theorem Spacing.exists_endsInComment (hg : Spacing g) (hu : u <+: g) (hne : u ≠ [])
    (hlast : ∀ c ∈ u.getLast?, c ∉ [' ', '\t', '\r', '\n']) :
    ∃ before behind, Spacing before ∧ g = before ++ '/' :: '/' :: behind ∧ EndsInComment before u := by
  induction hg generalizing u with
  | nil => exact absurd (List.prefix_nil.mp hu) hne
  | @blank c t hc tail ih =>
    obtain ⟨d, u, rfl⟩ := List.exists_cons_of_ne_nil hne
    obtain ⟨rfl, htail⟩ := List.cons_prefix_cons.mp hu
    by_cases hempty : u = []
    · rw [hempty] at hlast
      exact absurd hc (hlast d rfl)
    · rw [List.getLast?_cons_of_ne_nil hempty] at hlast
      obtain ⟨before, behind, hbefore, rfl, hcut⟩ := ih htail hempty hlast
      exact ⟨d :: before, behind, .blank hc hbefore, rfl, hcut.append_left [d]⟩
  | @comment body t hbody tail ih =>
    match u with
    | [] => exact absurd rfl hne
    | [c] =>
      obtain ⟨rfl, _⟩ := List.cons_prefix_cons.mp hu
      exact ⟨[], _, .nil, rfl, .inl rfl⟩
    | c :: d :: w =>
      obtain ⟨rfl, htail⟩ := List.cons_prefix_cons.mp hu
      obtain ⟨rfl, hw⟩ := List.cons_prefix_cons.mp htail
      rcases prefix_append_cons hw with hwithin | ⟨w, rfl, hbehind⟩
      · exact ⟨[], _, .nil, rfl, .inr ⟨w, rfl, fun hfeed => hbody (hwithin.subset hfeed)⟩⟩
      · -- the cut is behind the comment, and not right behind its line feed
        have hcomment : ∀ v, '/' :: '/' :: (body ++ '\n' :: v) = ('/' :: '/' :: body ++ ['\n']) ++ v := by simp
        rw [hcomment] at hlast
        by_cases hempty : w = []
        · rw [hempty, List.append_nil, List.getLast?_concat] at hlast
          exact absurd (by decide) (hlast '\n' rfl)
        · rw [List.getLast?_append_of_ne_nil _ hempty] at hlast
          obtain ⟨before, behind, hbefore, rfl, hcut⟩ := ih hbehind hempty hlast
          refine ⟨'/' :: '/' :: (body ++ '\n' :: before), behind, .comment hbody hbefore, by simp, ?_⟩
          rw [hcomment, hcomment]
          exact hcut.append_left _

end Gaps

/-! ### Modes behind rows -/

namespace Mode

variable {m : Mode} {items : List Spaced} {a : Lexeme}

lemma run_gap_ne_string {g : Text} (hg : Spacing g) (hm : m ≠ string) : m.run g ≠ string := by
  induction hg generalizing m with
  | nil => exact hm
  | blank hc tail ih =>
    apply ih
    apply step_ne_string hm
    rintro rfl
    exact absurd hc (by decide)
  | @comment body t hbody tail ih =>
    have hcomment : m.run ('/' :: '/' :: (body ++ '\n' :: t)) = (m.run ('/' :: '/' :: body)).run ('\n' :: t) :=
      run_append m ('/' :: '/' :: body) ('\n' :: t)
    rw [hcomment, run_slashes hm hbody]
    exact ih (by decide)

/-- A lexeme on one line does not leave a string open, whatever stands in front of it. -/
lemma run_lexeme_ne_string (hfree : '\n' ∉ a.text) (hm : m ≠ string) : m.run a.text ≠ string := by
  rcases a.isString_or with ⟨body, hbody, rfl⟩ | ha
  · have hclosed : run string (body ++ [quote]) ≠ string := by
      rw [run_append, run_string hbody]
      decide
    cases m with
    | string => exact absurd rfl hm
    | comment =>
      rw [run_comment hfree]
      exact hm
    | _ => exact hclosed
  · exact run_ne_string hm fun hquote => Lexeme.not_mem_of_mem_text ha hquote List.mem_cons_self

lemma run_unscan_ne_string (hfree : ∀ i ∈ items, '\n' ∉ i.lexeme.text) (hm : m ≠ string) :
    m.run (unscan items) ≠ string := by
  induction items generalizing m with
  | nil => exact hm
  | cons i items ih =>
    obtain ⟨hi, hfree⟩ := List.forall_mem_cons.mp hfree
    rw [unscan_cons, run_append, run_append]
    exact ih hfree (run_gap_ne_string i.spacing (run_lexeme_ne_string hi hm))

/-- A string with two slashes on its last line does not leave a string open, even where it is not read as a
string. -/
lemma run_slashes_quote_ne_string {b t : Text} (hb : quote ∉ b) (ht : quote ∉ t) (hfree : '\n' ∉ t) :
    m.run (quote :: (b ++ '/' :: '/' :: t) ++ [quote]) ≠ string := by
  have hslash : quote ≠ '/' := by decide
  have hfeed : '\n' ≠ quote := by decide
  have hbody : quote ∉ b ++ '/' :: '/' :: t := by simp [hb, ht, hslash]
  rw [List.cons_append, run_cons]
  by_cases hm : m.step quote = string
  · rw [hm, run_append, run_string hbody]
    decide
  · have hslashes : '\n' ∉ t ++ [quote] := by simp [hfree, hfeed]
    have htext : b ++ '/' :: '/' :: t ++ [quote] = b ++ '/' :: '/' :: (t ++ [quote]) := by simp
    rw [htext, run_append, run_slashes (run_ne_string hm hb) hslashes]
    decide

end Mode

/-! ### A scan that is ahead of its row -/

section Ahead

open Mode

lemma Lexeme.exists_of_piece_eq_string {a : Lexeme} {body : Text} (h : a.piece = .string body) :
    ∃ hbody, a = string body hbody := by
  cases a with
  | string b hb =>
    cases h
    exact ⟨hb, rfl⟩
  | _ => cases h

lemma Lexeme.piece_ne_unclosed (a : Lexeme) (body : Text) : a.piece ≠ .unclosed body := by
  cases a <;> nofun

lemma Lexeme.mode_piece_ne_comment (a : Lexeme) : a.piece.mode ≠ Mode.comment := by
  cases a with
  | symbol s => cases s <;> decide
  | _ => nofun

/-- The place behind a piece of a script is in the mode of the piece, and the next character is read as in code. -/
lemma run_flatMap_text_concat {xs ys : List Piece} {x : Piece} {source : Text} (h : Divides (xs ++ x :: ys) source) :
    run code ((xs ++ [x]).flatMap Piece.text) = x.mode ∧
      ∀ d ∈ (ys.flatMap Piece.text).head?, x.mode.step d = code.step d := by
  have hmem : x ∈ pieces source := by
    rw [pieces_eq_of_divides h]
    exact List.mem_append_right xs List.mem_cons_self
  have hne := text_ne_nil_of_mem_pieces hmem
  have hread := run_append_of_divides h hne (List.prefix_append x.text (ys.flatMap Piece.text))
  rw [List.flatMap_append, List.flatMap_singleton, hread]
  exact ⟨Piece.run_text h.precedes, Piece.step_mode h.precedes⟩

lemma exists_of_prefix_slashes {b u w : Text} (h : b ++ quote :: u <+: '/' :: '/' :: w) :
    ∃ t, b = '/' :: '/' :: t ∧ t ++ quote :: u <+: w := by
  match b with
  | [] => exact absurd (List.cons_prefix_cons.mp h).1 (by decide)
  | [c] => exact absurd (List.cons_prefix_cons.mp (List.cons_prefix_cons.mp h).2).1 (by decide)
  | c :: d :: t =>
    obtain ⟨rfl, htail⟩ := List.cons_prefix_cons.mp h
    obtain ⟨rfl, hbehind⟩ := List.cons_prefix_cons.mp htail
    exact ⟨t, rfl, hbehind⟩

/-- A piece that begins in front of the end of the first pieces is one of them. -/
lemma exists_eq_append_cons {xs ys us zs : List Piece} {x : Piece} (h : xs ++ zs = ys ++ x :: us)
    (hlt : (ys.flatMap Piece.text).length < (xs.flatMap Piece.text).length) : ∃ bs, xs = ys ++ x :: bs := by
  rcases List.append_eq_append_iff.mp h with ⟨as, rfl, _⟩ | ⟨bs, rfl, hbs⟩
  · rw [List.flatMap_append, List.length_append] at hlt
    omega
  · cases bs with
    | nil =>
      rw [List.append_nil] at hlt
      omega
    | cons y bs =>
      obtain ⟨rfl, _⟩ := List.cons.inj hbs
      exact ⟨bs, rfl⟩

/-- If the pieces of a row end within a comment behind the row, the place in front of the comment is not in a
string: such a string would be a lexeme of the row with the beginning of the comment on its last line. -/
theorem run_unscan_ne_string_of_endsInComment {items : List Spaced} {xs zs : List Piece} {t : Text}
    (h : Divides (xs ++ zs) (unscan items ++ t)) (hfilter : xs.filter Piece.contributes = items.map Spaced.piece)
    (hcut : EndsInComment (unscan items) (xs.flatMap Piece.text)) : run code (unscan items) ≠ string := by
  intro hrun
  obtain ⟨ys, x, us, body, body', hpieces, htext, hx⟩ := exists_string_of_run h hrun
  have hlt : (ys.flatMap Piece.text).length < (xs.flatMap Piece.text).length := by
    have hlength := hcut.length_lt
    rw [htext, List.length_append] at hlength
    omega
  obtain ⟨bs, rfl⟩ := exists_eq_append_cons hpieces hlt
  have hcontributes : x.contributes := by rcases hx with rfl | rfl <;> rfl
  rw [List.filter_append, List.filter_cons_of_pos hcontributes] at hfilter
  obtain ⟨front, row, rfl, _, hrow⟩ := List.map_eq_append_iff.mp hfilter.symm
  obtain ⟨i, back, rfl, hi, hback⟩ := List.map_eq_cons_iff.mp hrow
  rcases hx with rfl | rfl
  · obtain ⟨hbody, hstring⟩ := Lexeme.exists_of_piece_eq_string hi
    have htexts : (ys ++ Piece.string (body ++ body') :: bs).flatMap Piece.text =
        unscan (front ++ i :: back) ++ (body' ++ quote :: bs.flatMap Piece.text) := by
      rw [htext, List.flatMap_append, List.flatMap_cons, Piece.text]
      simp
    obtain ⟨w, hw, hfree⟩ := hcut.exists_isPrefix
    rw [htexts, List.prefix_append_right_inj] at hw
    obtain ⟨t', rfl, hbehind⟩ := exists_of_prefix_slashes hw
    have hline : '\n' ∉ t' ++ quote :: bs.flatMap Piece.text := fun hfeed => hfree (hbehind.subset hfeed)
    have hbackline : ∀ j ∈ back, '\n' ∉ j.lexeme.text := by
      intro j hj hfeed
      have hmem : j.piece ∈ bs.filter Piece.contributes := hback ▸ List.mem_map_of_mem hj
      rw [← Lexeme.text_piece] at hfeed
      apply hline
      apply List.mem_append_right t' (List.mem_cons_of_mem quote _)
      exact List.mem_flatMap.mpr ⟨j.piece, List.mem_of_mem_filter hmem, hfeed⟩
    rw [unscan_append, unscan_cons, run_append, run_append, run_append] at hrun
    apply run_unscan_ne_string hbackline (run_gap_ne_string i.spacing ?_) hrun
    rw [hstring, Lexeme.text]
    apply run_slashes_quote_ne_string
    · exact fun hquote => hbody (List.mem_append_left _ hquote)
    · exact fun hquote => hbody (List.mem_append_right body (List.mem_cons_of_mem _ (List.mem_cons_of_mem _ hquote)))
    · exact fun hfeed => hline (List.mem_append_left _ hfeed)
  · exact Lexeme.piece_ne_unclosed i.lexeme _ hi

/-- A scan that is ahead of its row in front of a lexeme and no longer ahead behind it ends the lexeme within a
comment of the row. In front of that comment the row is a row itself. -/
lemma exists_endsInComment_of_ahead {front : List Spaced} {i : Spaced} {before source : Text}
    (hscan : before ++ i.lexeme.text <+: source) (hrow : unscan (front ++ [i]) <+: source)
    (hahead : (unscan front).length < before.length)
    (hnot : (before ++ i.lexeme.text).length ≤ (unscan (front ++ [i])).length) :
    ∃ (j : Spaced) (t : Text), j.lexeme = i.lexeme ∧ i.gap = j.gap ++ '/' :: '/' :: t ∧
      EndsInComment (unscan (front ++ [j])) (before ++ i.lexeme.text) := by
  have hwithin := List.prefix_of_prefix_length_le hscan hrow hnot
  rw [unscan_concat] at hwithin
  have hbehind : unscan front ++ i.lexeme.text <+: before ++ i.lexeme.text := by
    apply List.prefix_of_prefix_length_le (List.prefix_append _ i.gap) hwithin
    rw [List.length_append, List.length_append]
    omega
  obtain ⟨u, hu⟩ := hbehind
  rw [← hu, List.prefix_append_right_inj] at hwithin
  have hne : u ≠ [] := by
    rintro rfl
    have hlength := congrArg List.length hu
    simp only [List.length_append, List.length_nil] at hlength
    omega
  have hlast : ∀ c ∈ u.getLast?, c ∉ [' ', '\t', '\r', '\n'] := by
    intro c hc
    apply i.lexeme.not_mem_blank_of_getLast
    have hgetLast := congrArg List.getLast? hu
    rw [List.getLast?_append_of_ne_nil _ hne, List.getLast?_append_of_ne_nil _ i.lexeme.text_ne_nil] at hgetLast
    rwa [← hgetLast]
  obtain ⟨gap, t, hspacing, hgap, hcut⟩ := i.spacing.exists_endsInComment hwithin hne hlast
  have hblank : ∀ c ∈ gap.head?, c ∈ [' ', '\t', '\r', '\n'] := by
    intro c hc
    apply i.head_blank c
    rw [hgap, List.head?_append_of_ne_nil _ (List.ne_nil_of_mem (List.mem_of_mem_head? hc))]
    exact hc
  refine ⟨⟨i.lexeme, gap, hspacing, hblank⟩, t, rfl, hgap, ?_⟩
  rw [unscan_concat, ← hu]
  exact hcut.append_left _

/-- A scan that is ahead of its row in front of a lexeme is ahead of it behind the lexeme too. -/
theorem ahead_concat {front back : List Spaced} {i : Spaced} {ys zs : List Piece}
    (h : Divides (ys ++ i.piece :: zs) (unscan (front ++ i :: back)))
    (hfilter : ys.filter Piece.contributes = front.map Spaced.piece)
    (hahead : (unscan front).length < (ys.flatMap Piece.text).length) :
    (unscan (front ++ [i])).length < ((ys ++ [i.piece]).flatMap Piece.text).length := by
  have hpieces : (ys ++ [i.piece]).flatMap Piece.text = ys.flatMap Piece.text ++ i.lexeme.text := by
    rw [List.flatMap_append, List.flatMap_singleton, Spaced.piece, Lexeme.text_piece]
  have hscan : ys.flatMap Piece.text ++ i.lexeme.text ++ zs.flatMap Piece.text = unscan (front ++ i :: back) := by
    rw [← flatMap_text_of_divides h, ← hpieces]
    simp
  have hrow : unscan (front ++ [i]) ++ unscan back = unscan (front ++ i :: back) := by simp [unscan]
  by_contra hnot
  rw [hpieces, Nat.not_lt] at hnot
  obtain ⟨j, t, hj, hgap, hcut⟩ := exists_endsInComment_of_ahead ⟨_, hscan⟩ ⟨_, hrow⟩ hahead hnot
  have hsource : unscan (front ++ i :: back) = unscan (front ++ [j]) ++ '/' :: '/' :: (t ++ unscan back) := by
    rw [← hrow, unscan_concat, unscan_concat, hgap, hj]
    simp
  have hrun : run code (unscan (front ++ [j])) ≠ string := by
    have hdivides : Divides ((ys ++ [i.piece]) ++ zs) (unscan (front ++ i :: back)) := by
      rw [List.append_assoc]
      exact h
    rw [hsource] at hdivides
    apply run_unscan_ne_string_of_endsInComment hdivides
    · rw [List.filter_append, hfilter, List.filter_cons_of_pos i.contributes_piece, List.map_append,
        List.map_singleton, Spaced.piece, Spaced.piece, hj]
      rfl
    · rw [hpieces]
      exact hcut
  -- in front of the comment the place is not in a string, so the comment is one for the scan too
  obtain ⟨hmode, hstep⟩ := run_flatMap_text_concat h
  rw [hpieces] at hmode
  rcases hcut with hcut | ⟨body, hcut, hbody⟩
  · rw [hsource, hcut, List.append_assoc, List.append_cancel_left_eq] at hscan
    have hbehind : zs.flatMap Piece.text = '/' :: (t ++ unscan back) := (List.cons.inj hscan).2
    have hslash : i.piece.mode.step '/' = code.step '/' := hstep '/' (by rw [hbehind]; rfl)
    have hcomment : (run code (unscan (front ++ [j]) ++ ['/'])).step '/' = comment := by
      rw [run_append]
      exact run_slashes hrun List.not_mem_nil
    rw [← hcut, hmode, hslash] at hcomment
    cases hcomment
  · rw [hcut, run_append, run_slashes hrun hbody] at hmode
    exact i.lexeme.mode_piece_ne_comment hmode.symm

/-- A scan that finds the lexemes of a row never gets ahead of it, for at the end it would be ahead too. -/
theorem not_ahead {front back : List Spaced} {ys zs : List Piece} (h : Divides (ys ++ zs) (unscan (front ++ back)))
    (hfront : ys.filter Piece.contributes = front.map Spaced.piece)
    (hback : zs.filter Piece.contributes = back.map Spaced.piece) :
    ¬(unscan front).length < (ys.flatMap Piece.text).length := by
  intro hahead
  induction back generalizing front ys zs with
  | nil =>
    have hlength := congrArg List.length (flatMap_text_of_divides h)
    rw [List.append_nil, List.flatMap_append, List.length_append] at hlength
    omega
  | cons i back ih =>
    obtain ⟨ps, zs, rfl, hps, _, hback⟩ := List.filter_eq_cons_iff.mp hback
    have hbefore : (ys ++ ps).filter Piece.contributes = front.map Spaced.piece := by
      rw [List.filter_append, hfront, List.filter_eq_nil_iff.mpr hps, List.append_nil]
    have hahead' : (unscan front).length < ((ys ++ ps).flatMap Piece.text).length := by
      rw [List.flatMap_append, List.length_append]
      omega
    rw [← List.append_assoc] at h
    have hnext := ahead_concat h hbefore hahead'
    have hconcat : (ys ++ ps ++ [i.piece]).filter Piece.contributes = (front ++ [i]).map Spaced.piece := by
      rw [List.filter_append, hbefore, List.filter_cons_of_pos i.contributes_piece, List.map_append]
      rfl
    rw [List.append_cons front, List.append_cons (ys ++ ps)] at h
    exact ih h hconcat hback hnext

end Ahead

end ScriptLexer
