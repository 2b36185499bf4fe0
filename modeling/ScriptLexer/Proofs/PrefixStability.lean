import ScriptLexer.Proofs.Findings
import ScriptLexer.Proofs.Lookahead

/-!
# Prefix stability

A script that is cut off anywhere keeps the pieces that end in front of the cut, with all that they
contribute. Of the piece across the cut a part is left, and that part falls into at most two pieces: a decimal
number that is cut behind its point leaves an integer and a point, and all else leaves one piece.
-/

namespace ScriptLexer

/-- Whether a placed piece ends within the first bytes of its script. -/
def Placed.endsWithin (bytes : Nat) (x : Placed) : Bool := x.position.offset + x.piece.text.utf8Length ≤ bytes

/-- Whether a token ends within the first bytes of its script. -/
def Token.Located.endsWithin (bytes : Nat) (t : Token.Located) : Bool :=
  t.offset + t.token.lexeme.utf8Length ≤ bytes

/-- The diagnostics of faulty pieces that end within the first bytes of their script. -/
def Scan.diagnosticsWithin (bytes : Nat) (s : Scan) : List Diagnostic :=
  ((s.placed.filter (·.endsWithin bytes)).filterMap Placed.fault?).map Fault.diagnostic

/-! ### What is left of a piece -/

/-- A piece that is cut short is a piece again, apart from a decimal number that is cut behind its point. -/
theorem Piece.Precedes.exists_cut_short {x : Piece} {rest u v : Text} {c : Char} (hx : x.Precedes rest)
    (htext : x.text = c :: u ++ v) (hv : v ≠ []) :
    (∃ y : Piece, y.text = c :: u ∧ y.Precedes []) ∨
      ∃ whole fraction, x = .decimal whole fraction ∧ c :: u = whole ++ ['.'] := by
  have hend : ∀ p : Char → Prop, ∀ d ∈ ([] : Text).head?, p d := by simp
  have hnone : ∀ d tail, ([] : Text) = '.' :: d :: tail → ¬d.isDigit := by simp
  have hsingle : ∀ d : Char, [d] ≠ c :: u ++ v := by
    intro d h
    exact hv (List.append_eq_nil_iff.mp (List.cons.inj h).2.symm).2
  cases hx with
  | blank hc => exact absurd htext (hsingle _)
  | @comment body _ hbody =>
    obtain ⟨rfl, htail⟩ := List.cons.inj htext
    cases u with
    | nil => exact .inl ⟨.symbol .slash, rfl, .lone rfl rfl (by simp)⟩
    | cons d u =>
      obtain ⟨rfl, rfl⟩ := List.cons.inj htail
      have hu : '\n' ∉ u := fun h => hbody (List.mem_append_left v h)
      exact .inl ⟨.comment u, rfl, .comment hu (hend _)⟩
  | @lone s _ hs =>
    obtain ⟨d, hd⟩ := List.length_eq_one_iff.mp hs
    exact absurd (hd.symm.trans htext) (hsingle d)
  | @short s t _ hequal =>
    obtain ⟨d, hd⟩ := text_eq_singleton_of_withEqual? hequal
    exact absurd (hd.symm.trans htext) (hsingle d)
  | @lengthened s t _ hequal =>
    obtain ⟨d, hd⟩ := text_eq_singleton_of_withEqual? hequal
    rw [text, Symbol.text_of_withEqual? hequal, hd] at htext
    obtain ⟨rfl, htail⟩ := List.cons.inj htext
    cases u with
    | nil => exact .inl ⟨.symbol s, hd, .short hequal (by simp)⟩
    | cons e u => exact absurd (List.append_eq_nil_iff.mp (List.cons.inj htail).2.symm).2 hv
  | word hc hletters =>
    obtain ⟨rfl, rfl⟩ := List.cons.inj htext
    exact .inl ⟨.word _, rfl, .word hc (fun d hd => hletters d (List.mem_append_left v hd)) (hend _)⟩
  | @string body _ hbody =>
    obtain ⟨rfl, htail⟩ := List.cons.inj htext
    have hbody' : body = u ++ v.dropLast := by
      rw [← List.dropLast_append_of_ne_nil hv]
      exact (List.dropLast_concat).symm.trans (congrArg List.dropLast htail)
    have hu : quote ∉ u := fun h => hbody (hbody' ▸ List.mem_append_left _ h)
    exact .inl ⟨.unclosed u, rfl, .unclosed hu⟩
  | @integer digits _ hne hdigits =>
    have hsplit : digits = c :: u ++ v := htext
    have hu : ∀ d ∈ c :: u, d.isDigit := fun d hd => hdigits d (hsplit ▸ List.mem_append_left v hd)
    exact .inl ⟨.integer (c :: u), rfl, .integer (List.cons_ne_nil c u) hu (hend _) hnone⟩
  | @decimal whole fraction _ hwne hwhole hfne hfraction =>
    rcases List.append_eq_append_iff.mp htext with ⟨w, hw, hpoint⟩ | ⟨w, hw, _⟩
    · rcases w with _ | ⟨d, _ | ⟨e, w⟩⟩
      · rw [List.append_nil] at hw
        exact .inl ⟨.integer whole, hw.symm, .integer hwne hwhole (hend _) hnone⟩
      · obtain ⟨rfl, _⟩ := List.cons.inj hpoint
        exact .inr ⟨whole, fraction, rfl, hw⟩
      · obtain ⟨rfl, hfraction'⟩ := List.cons.inj hpoint
        have hw' : ∀ d ∈ e :: w, d.isDigit := by
          intro d hd
          exact hfraction d (hfraction' ▸ List.mem_append_left v hd)
        exact .inl ⟨.decimal whole (e :: w), hw.symm, .decimal hwne hwhole (List.cons_ne_nil e w) hw' (hend _)⟩
    · have hdigits : ∀ d ∈ c :: u, d.isDigit := fun d hd => hwhole d (hw ▸ List.mem_append_left w hd)
      exact .inl ⟨.integer (c :: u), rfl, .integer (List.cons_ne_nil c u) hdigits (hend _) hnone⟩
  | stray => exact absurd htext (hsingle _)
  | unclosed hbody =>
    obtain ⟨rfl, rfl⟩ := List.cons.inj htext
    exact .inl ⟨.unclosed u, rfl, .unclosed fun h => hbody (List.mem_append_left v h)⟩

/-- What is left of a piece that is cut short is divided into at most two pieces. -/
theorem length_pieces_le_two {x : Piece} {rest u v : Text} (hx : x.Precedes rest) (htext : x.text = u ++ v)
    (hv : v ≠ []) : (pieces u).length ≤ 2 := by
  cases u with
  | nil =>
    rw [pieces_nil]
    exact Nat.zero_le 2
  | cons c u =>
    rcases hx.exists_cut_short htext hv with ⟨y, hy, hprecedes⟩ | ⟨whole, fraction, rfl, hpoint⟩
    · have hdivides := Divides.cons hprecedes .nil
      rw [List.append_nil, hy] at hdivides
      rw [pieces_eq_of_divides hdivides]
      exact Nat.le_succ 1
    · cases hx with
      | decimal hwne hwhole =>
        have hdot : Divides [.symbol .dot] ['.'] := .cons (.lone rfl rfl nofun) .nil
        have hinteger : (Piece.integer whole).Precedes ['.'] := by
          apply Piece.Precedes.integer hwne hwhole
          · rintro d ⟨⟩
            decide
          · rintro d tail ⟨⟩
        have hpieces : pieces (whole ++ ['.']) = [.integer whole, .symbol .dot] :=
          pieces_eq_of_divides (.cons hinteger hdot)
        rw [hpoint, hpieces]
        exact Nat.le_refl 2

/-! ### Cutting a script -/

/-- A cut falls into a piece of a script, behind some of its characters or in front of it, or behind all
pieces. -/
theorem Divides.exists_cut {xs : List Piece} {a b source : Text} (h : Divides xs source)
    (hsource : source = a ++ b) :
    ∃ ys zs u, xs = ys ++ zs ∧ a = ys.flatMap Piece.text ++ u ∧ u ++ b = zs.flatMap Piece.text ∧
      ∀ x ∈ zs.head?, ∃ v, v ≠ [] ∧ x.text = u ++ v := by
  induction h generalizing a with
  | nil =>
    obtain ⟨rfl, rfl⟩ := List.append_eq_nil_iff.mp hsource.symm
    exact ⟨[], [], [], rfl, rfl, rfl, nofun⟩
  | @cons x xs rest head tail ih =>
    have hrest := flatMap_text_of_divides tail
    -- the cut falls into this piece or behind it
    have hcut : (∃ v, v ≠ [] ∧ x.text = a ++ v ∧ b = v ++ rest) ∨ ∃ a', a = x.text ++ a' ∧ rest = a' ++ b := by
      rcases List.append_eq_append_iff.mp hsource with hbehind | ⟨v, hv, hb⟩
      · exact .inr hbehind
      · by_cases hne : v = []
        · rw [hne, List.append_nil] at hv
          rw [hne, List.nil_append] at hb
          exact .inr ⟨[], by rw [hv, List.append_nil], hb.symm⟩
        · exact .inl ⟨v, hne, hv, hb⟩
    rcases hcut with ⟨v, hne, hv, hb⟩ | ⟨a', rfl, hbehind⟩
    · refine ⟨[], x :: xs, a, rfl, rfl, ?_, ?_⟩
      · rw [List.flatMap_cons, hrest, hv, hb, List.append_assoc]
      · rintro y ⟨⟩
        exact ⟨v, hne, hv⟩
    · obtain ⟨ys, zs, u, rfl, rfl, hzs, hu⟩ := ih hbehind
      exact ⟨x :: ys, zs, u, rfl, (List.append_assoc _ _ _).symm, hzs, hu⟩

/-! ### Pieces in front of a cut and behind it -/

section Ends

variable {p : Position} {xs : List Piece} {y : Placed}

lemma end_le_of_mem_place (hy : y ∈ place p xs) :
    y.position.offset + y.piece.text.utf8Length ≤ p.offset + Text.utf8Length (xs.flatMap Piece.text) := by
  induction xs generalizing p with
  | nil => cases hy
  | cons x xs ih =>
    rw [List.flatMap_cons, Text.utf8Length_append]
    rcases List.mem_cons.mp hy with rfl | hy
    · exact Nat.add_le_add_left (Nat.le_add_right _ _) _
    · have hend := ih hy
      rw [Position.advance, Nat.add_assoc] at hend
      exact hend

lemma offset_le_of_mem_place (hy : y ∈ place p xs) : p.offset ≤ y.position.offset := by
  induction xs generalizing p with
  | nil => cases hy
  | cons x xs ih =>
    rcases List.mem_cons.mp hy with rfl | hy
    · exact Nat.le_refl _
    · exact Nat.le_trans (Nat.le_add_right _ _) (ih hy)

lemma le_end_of_mem_place {x : Piece} (hy : y ∈ place p (x :: xs)) :
    p.offset + x.text.utf8Length ≤ y.position.offset + y.piece.text.utf8Length := by
  rcases List.mem_cons.mp hy with rfl | hy
  · exact Nat.le_refl _
  · exact Nat.le_trans (offset_le_of_mem_place hy) (Nat.le_add_right _ _)

end Ends

lemma utf8Length_pos {t : Text} (ht : t ≠ []) : 0 < t.utf8Length := by
  obtain ⟨c, t, rfl⟩ := List.exists_cons_of_ne_nil ht
  exact Nat.lt_of_lt_of_le c.utf8Size_pos (Nat.le_add_right _ _)

/-- The pieces in front of a cut are those that end within the bytes in front of it. -/
theorem filter_endsWithin_place (p : Position) (ys zs : List Piece) {u : Text}
    (hu : ∀ x ∈ zs.head?, ∃ v, v ≠ [] ∧ x.text = u ++ v) :
    (place p (ys ++ zs)).filter (·.endsWithin (p.offset + Text.utf8Length (ys.flatMap Piece.text ++ u))) =
      place p ys := by
  rw [place_append, List.filter_append, positionAfter_eq_advance, Text.utf8Length_append]
  have hys : ∀ y ∈ place p ys,
      y.endsWithin (p.offset + (Text.utf8Length (ys.flatMap Piece.text) + u.utf8Length)) := by
    intro y hy
    have hend := end_le_of_mem_place hy
    exact decide_eq_true (by omega)
  have hzs : ∀ y ∈ place (p.advance (ys.flatMap Piece.text)) zs,
      ¬y.endsWithin (p.offset + (Text.utf8Length (ys.flatMap Piece.text) + u.utf8Length)) := by
    intro y hy
    cases zs with
    | nil => cases hy
    | cons x zs =>
      obtain ⟨v, hv, hx⟩ := hu x rfl
      have hend := le_end_of_mem_place hy
      have hpos := utf8Length_pos hv
      have hoffset : (p.advance (ys.flatMap Piece.text)).offset =
          p.offset + Text.utf8Length (ys.flatMap Piece.text) := rfl
      rw [hx, Text.utf8Length_append, hoffset] at hend
      rw [Placed.endsWithin, decide_eq_true_eq]
      omega
  rw [List.filter_eq_self.mpr hys, List.filter_eq_nil_iff.mpr hzs, List.append_nil]

lemma filter_endsWithin_located (bytes : Nat) (ps : List Placed) :
    (ps.filterMap Placed.located?).filter (·.endsWithin bytes) =
      (ps.filter (·.endsWithin bytes)).filterMap Placed.located? := by
  induction ps with
  | nil => rfl
  | cons x ps ih =>
    cases hx : x.located? with
    | none =>
      rw [List.filterMap_cons_none hx, ih, List.filter_cons]
      split
      · rw [List.filterMap_cons_none hx]
      · rfl
    | some t =>
      have ht : t.endsWithin bytes = x.endsWithin bytes := by
        rw [(meaning_of_located? hx).2]
        rfl
      rw [List.filterMap_cons_some hx, List.filter_cons, List.filter_cons, ht, ih]
      split
      · rw [List.filterMap_cons_some hx]
      · rfl

/-- Each piece gives at most one token or one fault. -/
lemma length_located_add_length_faults_le (p : Position) (xs : List Piece) :
    ((place p xs).filterMap Placed.located?).length + ((place p xs).filterMap Placed.fault?).length ≤
      xs.length := by
  induction xs generalizing p with
  | nil => exact Nat.le_refl 0
  | cons x xs ih =>
    have hrest := ih (p.advance x.text)
    rw [place, List.filterMap_cons, List.filterMap_cons, Placed.located?, Placed.fault?]
    cases x.meaning <;> simp only [List.length_cons] <;> omega

/-- A script that is cut off keeps the tokens and the diagnostics of the pieces that end in front of the cut, and at
most two others come behind them. -/
theorem scan_of_append (a b : Text) :
    ∃ ts ds,
      (scan a).located = (scan (a ++ b)).located.filter (·.endsWithin a.utf8Length) ++ ts ∧
      (scan a).diagnostics = (scan (a ++ b)).diagnosticsWithin a.utf8Length ++ ds ∧
      ts.length + ds.length ≤ 2 := by
  have hall := divides_pieces (a ++ b)
  obtain ⟨ys, zs, u, hpieces, ha, hb, hu⟩ := hall.exists_cut rfl
  rw [hpieces] at hall
  have hprefix : u <+: zs.flatMap Piece.text := ⟨b, hb⟩
  have hcut := pieces_eq_of_divides (hall.cut hprefix (divides_pieces u))
  rw [← ha] at hcut
  have hplaced : (scan (a ++ b)).placed.filter (·.endsWithin a.utf8Length) = place Position.start ys := by
    have hfilter := filter_endsWithin_place Position.start ys zs hu
    rwa [← ha, Position.start, Nat.zero_add, ← hpieces] at hfilter
  let rest := place (positionAfter Position.start ys) (pieces u)
  have hscan : (scan a).placed = place Position.start ys ++ rest := by
    rw [scan, scanFrom, hcut, place_append]
  have hlength : (pieces u).length ≤ 2 := by
    cases zs with
    | nil =>
      rw [(List.append_eq_nil_iff.mp hb).1, pieces_nil]
      exact Nat.zero_le 2
    | cons x zs =>
      obtain ⟨v, hv, hx⟩ := hu x rfl
      exact length_pieces_le_two hall.precedes hx hv
  refine ⟨rest.filterMap Placed.located?, (rest.filterMap Placed.fault?).map Fault.diagnostic, ?_, ?_, ?_⟩
  · rw [Scan.located, Scan.located, filter_endsWithin_located, hplaced, hscan, List.filterMap_append]
  · rw [Scan.diagnostics, Scan.faults, Scan.diagnosticsWithin, hplaced, hscan, List.filterMap_append,
      List.map_append]
  · rw [List.length_map]
    exact Nat.le_trans (length_located_add_length_faults_le _ _) hlength

end ScriptLexer
