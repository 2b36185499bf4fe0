import ScriptLexer.Text

/-!
# Slices of a text

A text is cut at offsets that count its bytes in UTF-8. Not every offset is a place between two characters, and a
slice exists only if both of its ends are such places and come in order.
-/

namespace ScriptLexer.Text

/-- The first `n` bytes of a text and what is behind them, if they end between two characters. -/
def splitAtByte? : Nat → Text → Option (Text × Text)
  | 0, text => some ([], text)
  | _ + 1, [] => none
  | n + 1, c :: text =>
    if c.utf8Size ≤ n + 1 then
      (splitAtByte? (n + 1 - c.utf8Size) text).map fun (front, back) => (c :: front, back)
    else none

/-- Whether an offset is a place between two characters, or one of the two ends. -/
def IsBoundary (text : Text) (n : Nat) : Prop := (splitAtByte? n text).isSome

instance (text : Text) (n : Nat) : Decidable (text.IsBoundary n) := inferInstanceAs (Decidable (_ = true))

/-- The text from one offset up to another. -/
def slice? (text : Text) (i j : Nat) : Option Text :=
  if i ≤ j then
    (splitAtByte? i text).bind fun (_, rest) => (splitAtByte? (j - i) rest).map (·.1)
  else none

theorem splitAtByte?_append (a b : Text) : splitAtByte? a.utf8Length (a ++ b) = some (a, b) := by
  induction a with
  | nil => cases b <;> rfl
  | cons c a ih =>
    obtain ⟨n, hn⟩ := Nat.exists_eq_succ_of_ne_zero (Nat.pos_iff_ne_zero.mp c.utf8Size_pos)
    have hsucc : utf8Length (c :: a) = (n + utf8Length a) + 1 := by
      rw [utf8Length_cons, hn, Nat.succ_add]
    have hrest : (n + utf8Length a) + 1 - c.utf8Size = utf8Length a := by omega
    rw [hsucc, List.cons_append, splitAtByte?, if_pos (by omega), hrest, ih]
    rfl

theorem eq_append_of_splitAtByte? {n : Nat} {text a b : Text} (h : splitAtByte? n text = some (a, b)) :
    text = a ++ b ∧ a.utf8Length = n := by
  induction text generalizing n a with
  | nil =>
    cases n with
    | zero =>
      cases h
      exact ⟨rfl, rfl⟩
    | succ n => cases h
  | cons c text ih =>
    cases n with
    | zero =>
      cases h
      exact ⟨rfl, rfl⟩
    | succ n =>
      rw [splitAtByte?] at h
      split at h
      · next hle =>
        obtain ⟨⟨front, back⟩, hsplit, hpair⟩ := Option.map_eq_some_iff.mp h
        obtain ⟨rfl, rfl⟩ := Prod.mk.inj hpair
        obtain ⟨rfl, hfront⟩ := ih hsplit
        exact ⟨rfl, by rw [utf8Length_cons, hfront]; omega⟩
      · cases h

/-- An offset splits a text exactly in one way, if at all. -/
theorem splitAtByte?_eq_some_iff {n : Nat} {text a b : Text} :
    splitAtByte? n text = some (a, b) ↔ text = a ++ b ∧ a.utf8Length = n := by
  constructor
  · exact eq_append_of_splitAtByte?
  · rintro ⟨rfl, rfl⟩
    exact splitAtByte?_append a b

theorem isBoundary_iff {text : Text} {n : Nat} :
    text.IsBoundary n ↔ ∃ a b, text = a ++ b ∧ a.utf8Length = n := by
  simp only [IsBoundary, Option.isSome_iff_exists, Prod.exists, splitAtByte?_eq_some_iff]

theorem slice?_append (a t b : Text) : slice? (a ++ (t ++ b)) a.utf8Length (a ++ t).utf8Length = some t := by
  rw [slice?, utf8Length_append, if_pos (Nat.le_add_right _ _), splitAtByte?_append, Nat.add_sub_cancel_left]
  change (splitAtByte? t.utf8Length (t ++ b)).map (·.1) = some t
  rw [splitAtByte?_append]
  rfl

end ScriptLexer.Text
