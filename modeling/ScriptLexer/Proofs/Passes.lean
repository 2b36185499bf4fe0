import ScriptLexer.Pass
import ScriptLexer.Proofs.Counters
import ScriptLexer.Proofs.Cursors
import ScriptLexer.Proofs.PrefixStability

/-!
# Passes and scans

A pass takes the pieces of a script one by one. At the head of its loop some pieces lie behind the cursor and the
others in front of it, and what the pass has collected is what a scan finds in the pieces behind. Each turn moves one
piece, so that the loop ends with all of them behind the cursor, unless there are more faults than can be counted.
-/

namespace ScriptLexer

lemma Divides.uncons {x : Piece} {xs : List Piece} {source : Text} (h : Divides (x :: xs) source) :
    x.Precedes (xs.flatMap Piece.text) ∧ Divides xs (xs.flatMap Piece.text) := by
  cases h with
  | cons head tail =>
    rw [flatMap_text_of_divides tail]
    exact ⟨head, tail⟩

namespace Placed

variable {x : Placed}

lemma selected_of_nothing (h : x.piece.meaning = .nothing) : x.token? = none ∧ x.fault? = none ∧ x.event? = none := by
  simp [token?, located?, fault?, event?, h]

lemma selected_of_lexeme {kind : Token.Kind} {literal : Option Literal} (h : x.piece.meaning = .lexeme kind literal) :
    x.token? = some ⟨kind, x.piece.text, literal, x.position.line⟩ ∧ x.fault? = none ∧
      x.event? = some (.token ⟨kind, x.piece.text, literal, x.position.line⟩) := by
  simp [token?, located?, fault?, event?, h]

lemma selected_of_fault {cause : Fault.Cause} (h : x.piece.meaning = .fault cause) :
    x.token? = none ∧ x.fault? = some ⟨cause, x.position.line⟩ ∧
      x.event? = some (.diagnostic (Fault.diagnostic ⟨cause, x.position.line⟩)) := by
  simp [token?, located?, fault?, event?, h]

end Placed

/-- What is wrong with the first pieces of a script. -/
def faultsOf (xs : List Piece) : List Fault := (place Position.start xs).filterMap Placed.fault?

lemma faultsOf_append (xs ys : List Piece) : faultsOf (xs ++ ys) =
    faultsOf xs ++ (place (positionAfter Position.start xs) ys).filterMap Placed.fault? := by
  rw [faultsOf, place_append, List.filterMap_append]
  rfl

lemma length_faultsOf_concat (xs : List Piece) {x : Piece} {cause : Fault.Cause} (h : x.meaning = .fault cause) :
    (faultsOf (xs ++ [x])).length = (faultsOf xs).length + 1 := by
  obtain ⟨-, hfault, -⟩ := Placed.selected_of_fault (x := ⟨positionAfter Position.start xs, x⟩) h
  rw [faultsOf_append, List.length_append, place, place, List.filterMap_cons_some hfault]
  rfl

lemma length_faultsOf_le (xs ys : List Piece) : (faultsOf xs).length ≤ (faultsOf (xs ++ ys)).length := by
  rw [faultsOf_append, List.length_append]
  exact Nat.le_add_right _ _

lemma length_diagnostics_scan (source : Text) :
    (scan source).diagnostics.length = (faultsOf (pieces source)).length := by
  rw [Scan.diagnostics, List.length_map]
  rfl

namespace Pass

variable {o : Overflow} {threshold : Option Log.Level} {report : Report} {source : Text} {p q : Pass}

lemma log_eq (e : Log.Event) :
    p.log threshold e = { p with events := p.events ++ [e].filter fun e => Log.admits threshold e.level } := by
  by_cases h : Log.admits threshold e.level <;> simp [log, h]

/-! ### Steps -/

/-- What a placed piece adds to a pass. -/
def take (threshold : Option Log.Level) (x : Placed) (p : Pass) : Pass where
  cursor := p.begin.cursor.move x.piece.text
  tokens := p.tokens ++ [x].filterMap Placed.token?
  report := ⟨p.report.diagnostics ++ ([x].filterMap Placed.fault?).map Fault.diagnostic⟩
  errors := p.errors + Int32.ofNat ([x].filterMap Placed.fault?).length
  events := p.events ++ ([x].filterMap Placed.event?).filter fun e => Log.admits threshold e.level

section Take

variable {x : Placed}

lemma take_of_nothing (h : x.piece.meaning = .nothing) :
    p.take threshold x = { p with cursor := p.begin.cursor.move x.piece.text } := by
  obtain ⟨htoken, hfault, hevent⟩ := Placed.selected_of_nothing h
  simp [take, htoken, hfault, hevent]

lemma take_of_lexeme {kind : Token.Kind} {literal : Option Literal} (h : x.piece.meaning = .lexeme kind literal) :
    let t : Token := ⟨kind, x.piece.text, literal, x.position.line⟩
    let q : Pass := ({ p with cursor := p.begin.cursor.move x.piece.text } : Pass).log threshold (.token t)
    p.take threshold x = { q with tokens := q.tokens ++ [t] } := by
  obtain ⟨htoken, hfault, hevent⟩ := Placed.selected_of_lexeme h
  simp [take, log_eq, htoken, hfault, hevent]

lemma addFault_eq_take {cause : Fault.Cause} (h : x.piece.meaning = .fault cause)
    (hcount : o.up p.errors = pure (p.errors + 1)) :
    let q : Pass := { p with cursor := p.begin.cursor.move x.piece.text }
    q.addFault o threshold ⟨cause, x.position.line⟩ = pure (p.take threshold x) := by
  obtain ⟨htoken, hfault, hevent⟩ := Placed.selected_of_fault h
  simp [take, addFault, log_eq, hcount, htoken, hfault, hevent, Fault.diagnostic, Report.addError, Report.add]

end Take

section Step

variable {x : Piece} {before rest : Text} (hx : x.Precedes rest)
  (hbegin : p.begin.cursor.Within source before [] (x.text ++ rest))

include hx hbegin

/-- A step takes the piece that is allowed in front of what is left, if it can count it where it is faulty. -/
theorem step_of_precedes (hcount : ∀ cause, x.meaning = .fault cause → o.up p.errors = pure (p.errors + 1)) :
    p.step o threshold source = pure (p.take threshold ⟨⟨p.cursor.line, p.cursor.current⟩, x⟩) := by
  have hreads : p.begin.cursor.Reads source x := hbegin.reads_of_precedes hx rfl
  rw [step, hreads, pure_bind]
  cases hmeaning : x.meaning with
  | nothing =>
    rw [take_of_nothing hmeaning]
    rfl
  | lexeme kind literal =>
    have hlexeme := hbegin.move.slice_passed
    rw [take_of_lexeme hmeaning]
    change addToken _ _ _ _ _ = _
    rw [addToken, hlexeme, pure_bind]
    rfl
  | fault cause => exact addFault_eq_take (x := ⟨⟨p.cursor.line, p.cursor.current⟩, x⟩) hmeaning (hcount cause hmeaning)

end Step

/-! ### Loops -/

/-- Whether the loop goes from one pass to another in some number of turns. -/
inductive Turns (o : Overflow) (threshold : Option Log.Level) (source : Text) : Pass → Pass → Prop
  | refl {p : Pass} : Turns o threshold source p p
  | turn {p q r : Pass} (hlt : p.cursor.current < source.utf8Length) (hstep : p.step o threshold source = pure q)
      (tail : Turns o threshold source q r) : Turns o threshold source p r

/-- Whether the pieces `done` lie behind the cursor of a pass and the pieces `left` in front of it. -/
structure HasTaken (o : Overflow) (threshold : Option Log.Level) (report : Report) (source : Text)
    (done left : List Piece) (p : Pass) : Prop where
  source_eq : source = done.flatMap Piece.text ++ left.flatMap Piece.text
  divides : Divides left (left.flatMap Piece.text)
  inOrder : p.cursor.InOrder source
  position_eq : ⟨p.cursor.line, p.cursor.current⟩ = positionAfter Position.start done
  tokens_eq : p.tokens = (place Position.start done).filterMap Placed.token?
  diagnostics_eq : p.report.diagnostics = report.diagnostics ++ (faultsOf done).map Fault.diagnostic
  /-- the faults have been counted, and could be -/
  reaches : o.Reaches (faultsOf done).length
  errors_eq : p.errors = Int32.ofNat (faultsOf done).length
  events_eq : p.events =
    ((place Position.start done).filterMap Placed.event?).filter fun e => Log.admits threshold e.level

namespace HasTaken

variable {done left : List Piece} {x : Piece}

lemma start : (Pass.start report).HasTaken o threshold report source [] (pieces source) where
  source_eq := (flatMap_text_pieces source).symm
  divides := by
    rw [flatMap_text_pieces]
    exact divides_pieces source
  inOrder := by
    have h : (Pass.start report).cursor.Within source [] [] source := ⟨rfl, rfl, rfl⟩
    exact h.inOrder
  position_eq := rfl
  tokens_eq := rfl
  diagnostics_eq := (List.append_nil _).symm
  reaches := Overflow.reaches_zero
  errors_eq := rfl
  events_eq := rfl

lemma current_eq (h : p.HasTaken o threshold report source done left) :
    p.cursor.current = Text.utf8Length (done.flatMap Piece.text) := by
  have hoffset := congrArg Position.offset h.position_eq
  rw [positionAfter_eq_advance] at hoffset
  exact hoffset.trans (Nat.zero_add _)

lemma begin_within (h : p.HasTaken o threshold report source done left) :
    p.begin.cursor.Within source (done.flatMap Piece.text) [] (left.flatMap Piece.text) where
  source_eq := h.source_eq
  start_eq := h.current_eq
  current_eq := by
    rw [List.append_nil]
    exact h.current_eq

lemma up_errors (h : p.HasTaken o threshold report source done (x :: left))
    (hreach : o.Reaches (faultsOf (done ++ [x])).length) {cause : Fault.Cause} (hmeaning : x.meaning = .fault cause) :
    o.up p.errors = pure (p.errors + 1) := by
  rw [length_faultsOf_concat done hmeaning] at hreach
  rw [h.errors_eq, Overflow.up_ofNat hreach, Int32.ofNat_add]
  rfl

/-- Each turn of the loop takes one piece, if its fault can be counted. -/
theorem step_eq (h : p.HasTaken o threshold report source done (x :: left))
    (hreach : o.Reaches (faultsOf (done ++ [x])).length) : ∃ q,
    p.step o threshold source = pure q ∧ q.HasTaken o threshold report source (done ++ [x]) left := by
  obtain ⟨hprecedes, hdivides⟩ := h.divides.uncons
  have hbegin : p.begin.cursor.Within source _ [] (x.text ++ left.flatMap Piece.text) := h.begin_within
  have hstep : p.step o threshold source = _ := step_of_precedes hprecedes hbegin fun cause => h.up_errors hreach
  have hplace : place Position.start (done ++ [x]) =
      place Position.start done ++ [⟨positionAfter Position.start done, x⟩] := place_append _ _ _
  rw [h.position_eq] at hstep
  refine ⟨_, hstep, ?_, hdivides, hbegin.move.inOrder, ?_, ?_, ?_, hreach, ?_, ?_⟩
  · rw [h.source_eq, List.flatMap_append, List.flatMap_singleton, List.append_assoc, List.flatMap_cons]
  · rw [positionAfter_append, ← h.position_eq]
    rfl
  · rw [hplace, List.filterMap_append, ← h.tokens_eq]
    rfl
  · rw [faultsOf_append, List.map_append, ← List.append_assoc, ← h.diagnostics_eq]
    rfl
  · rw [faultsOf_append, List.length_append, Int32.ofNat_add, ← h.errors_eq]
    rfl
  · rw [hplace, List.filterMap_append, List.filter_append, ← h.events_eq]
    rfl

lemma text_ne_nil (h : p.HasTaken o threshold report source done (x :: left)) : x.text ≠ [] := by
  obtain ⟨c, cs, htext, -⟩ := Piece.next_of_precedes h.divides.uncons.1
  rw [htext]
  exact List.cons_ne_nil c cs

lemma current_lt (h : p.HasTaken o threshold report source done (x :: left)) :
    p.cursor.current < source.utf8Length := by
  have hpos := utf8Length_pos h.text_ne_nil
  rw [h.begin_within.length_eq, List.flatMap_cons, Text.utf8Length_append]
  exact Nat.lt_add_of_pos_right (Nat.add_pos_left hpos _)

lemma current_eq_utf8Length (h : p.HasTaken o threshold report source done []) :
    p.cursor.current = source.utf8Length := by
  rw [h.begin_within.length_eq]
  rfl

/-- A piece that is taken brings the cursor forward. -/
lemma current_lt_step (h : p.HasTaken o threshold report source done (x :: left))
    (hq : q.HasTaken o threshold report source (done ++ [x]) left) : p.cursor.current < q.cursor.current := by
  rw [h.current_eq, hq.current_eq, List.flatMap_append, List.flatMap_singleton, Text.utf8Length_append]
  exact Nat.lt_add_of_pos_right (utf8Length_pos h.text_ne_nil)

/-- The loop takes all pieces, if their faults can be counted. -/
theorem loop_eq (h : p.HasTaken o threshold report source done left)
    (hreach : o.Reaches (faultsOf (done ++ left)).length) : ∃ q,
    p.loop o threshold source = pure q ∧ Turns o threshold source p q ∧
      q.HasTaken o threshold report source (done ++ left) [] := by
  induction left generalizing done p with
  | nil =>
    refine ⟨p, ?_, .refl, by rwa [List.append_nil]⟩
    exact Checked.loop_of_none (if_neg (Nat.not_lt.mpr (Nat.le_of_eq h.current_eq_utf8Length.symm)))
  | cons x left ih =>
    rw [List.append_cons] at hreach
    obtain ⟨q, hstep, hq⟩ := h.step_eq (hreach.mono (length_faultsOf_le _ _))
    obtain ⟨r, hloop, hturns, hr⟩ := ih hq hreach
    rw [List.append_assoc] at hr
    refine ⟨r, ?_, .turn h.current_lt hstep hturns, hr⟩
    refine (Checked.loop_of_some ?_ ?_).trans hloop
    · rw [if_pos h.current_lt, hstep, pure_bind]
    · exact Nat.sub_lt_sub_left h.current_lt (h.current_lt_step hq)

lemma finish_line (h : p.HasTaken o threshold report source (pieces source) []) :
    p.cursor.line = (scan source).finish.line := congrArg Position.line h.position_eq

/-- A pass that has taken all pieces has collected what a scan finds. -/
theorem finish_eq (h : p.HasTaken o threshold report source (pieces source) []) :
    p.finish threshold = ⟨p.cursor, (scan source).tokens, report.addScan (scan source),
      Int32.ofNat (scan source).diagnostics.length,
      (scan source).events.filter fun e => Log.admits threshold e.level⟩ := by
  have htokens : p.tokens ++ [Token.eof p.cursor.line] = (scan source).tokens := by
    rw [h.tokens_eq, h.finish_line]
    rfl
  have hreport : p.report = report.addScan (scan source) := by
    have hdiagnostics : p.report.diagnostics = (report.addScan (scan source)).diagnostics := by
      rw [h.diagnostics_eq, Report.diagnostics_addScan]
      rfl
    exact congrArg Report.mk hdiagnostics
  have herrors : p.errors = Int32.ofNat (scan source).diagnostics.length := by
    rw [h.errors_eq, length_diagnostics_scan]
  rw [finish, log_eq]
  dsimp only
  rw [htokens, hreport, herrors, h.finish_line, h.events_eq, ← List.filter_append]
  rfl

end HasTaken

/-- A pass gives what a scan gives, if the faults can be counted. -/
theorem run_eq (threshold : Option Log.Level) (report : Report) (source : Text)
    (hreach : o.Reaches (scan source).diagnostics.length) : ∃ c : Cursor,
    run o threshold report source = pure ⟨c, (scan source).tokens, report.addScan (scan source),
      Int32.ofNat (scan source).diagnostics.length,
      (scan source).events.filter fun e => Log.admits threshold e.level⟩ := by
  have hstart : (start report).HasTaken o threshold report source [] (pieces source) := .start
  rw [length_diagnostics_scan] at hreach
  obtain ⟨p, hloop, -, hp⟩ := hstart.loop_eq hreach
  refine ⟨p.cursor, ?_⟩
  rw [run, hloop, pure_bind, hp.finish_eq]

end Pass

end ScriptLexer
