import Mathlib.Algebra.Group.Int.Defs
import Mathlib.Algebra.Group.Nat.Defs
import Mathlib.Data.List.Induction
import Mathlib.Tactic.Lemma
import ScriptLexer.Checked

/-!
# Counters within their bounds

Up to its greatest value and down to its least one a counter of 32 bits counts, whatever becomes of it beyond them.
-/

namespace ScriptLexer.Overflow

variable {o : Overflow} {i : Int} {n : Nat} {α : Type} {xs : List α}

/-- Whether a counter that starts at zero can be counted up to a number. -/
def Reaches (o : Overflow) (n : Nat) : Prop := o = .fails → n < 2 ^ 31

instance (o : Overflow) (n : Nat) : Decidable (o.Reaches n) := inferInstanceAs (Decidable (_ → _))

theorem reaches_wraps (n : Nat) : wraps.Reaches n := nofun

theorem reaches_zero : o.Reaches 0 := fun _ => Nat.two_pow_pos 31

theorem Reaches.mono {m : Nat} (h : o.Reaches n) (hle : m ≤ n) : o.Reaches m :=
  fun ho => Nat.lt_of_le_of_lt hle (h ho)

/-- Whether a counter has the number as a value. -/
def InRange (i : Int) : Prop := -(2 ^ 31) ≤ i ∧ i < 2 ^ 31

lemma eq_of_ofInt_eq (hi : InRange i) {n : Int32} (h : Int32.ofInt i = n) : i = n.toInt := by
  rw [← h, Int32.toInt_ofInt_of_le hi.1 hi.2]

lemma ofInt_le_zero_iff (hi : InRange i) : Int32.ofInt i ≤ 0 ↔ i ≤ 0 := by
  rw [Int32.le_iff_toInt_le, Int32.toInt_ofInt_of_le hi.1 hi.2, Int32.toInt_zero]

/-- Up to its greatest value a counter counts, and one that wraps counts beyond it too. -/
theorem up_ofInt (h : o = .fails → InRange i ∧ InRange (i + 1)) :
    o.up (Int32.ofInt i) = pure (Int32.ofInt (i + 1)) := by
  rw [up, if_neg, Int32.ofInt_add]
  · rfl
  · rintro ⟨ho, hlast⟩
    obtain ⟨hi, -, hlt⟩ := h ho
    rw [eq_of_ofInt_eq hi hlast] at hlt
    exact absurd hlt (by decide)

theorem down_ofInt (h : o = .fails → InRange i ∧ InRange (i - 1)) :
    o.down (Int32.ofInt i) = pure (Int32.ofInt (i - 1)) := by
  rw [down, if_neg, Int32.ofInt_sub]
  · rfl
  · rintro ⟨ho, hlast⟩
    obtain ⟨hi, hle, -⟩ := h ho
    rw [eq_of_ofInt_eq hi hlast] at hle
    exact absurd hle (by decide)

theorem up_ofNat (h : o.Reaches (n + 1)) : o.up (Int32.ofNat n) = pure (Int32.ofNat (n + 1)) := by
  rw [← Int32.ofInt_eq_ofNat, up_ofInt, ← Int32.ofInt_eq_ofNat]
  · rfl
  · intro ho
    have hlt := h ho
    rw [InRange, InRange]
    omega

lemma count_concat (xs : List α) (x : α) : o.count (xs ++ [x]) = o.count xs >>= o.up := by
  rw [count, List.foldlM_append]
  exact bind_congr fun n => bind_pure (o.up n)

theorem count_eq (h : o.Reaches xs.length) : o.count xs = pure (Int32.ofNat xs.length) := by
  induction xs using List.reverseRecOn with
  | nil => rfl
  | append_singleton xs x ih =>
    rw [List.length_append] at h
    rw [count_concat, ih (h.mono (Nat.le_add_right _ _)), pure_bind, List.length_append]
    exact up_ofNat h

end ScriptLexer.Overflow
