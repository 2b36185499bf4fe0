import Mathlib.Data.List.DropRight
import ScriptLexer.Proofs.FloatLiterals

/-!
# Decimals and their digits

A decimal is written with a sign, digits, and a point with further digits behind it if there are any. How long it
is, up to zeros that only tell its place, is a property of the number: it has `n` significant digits or less if it
is a number below `10 ^ n` times a power of ten. The digits from the first to the last one that is not zero are
neither more nor fewer than that.
-/

namespace ScriptLexer

/-- Whether a number is written with `n` digits or less, up to a power of ten. -/
def HasDigits (n : ℕ) (q : ℚ) : Prop := ∃ m : ℕ, ∃ e : ℤ, m < 10 ^ n ∧ q = m * 10 ^ e

section HasDigits

variable {n : ℕ} {q : ℚ}

lemma HasDigits.mul_zpow (h : HasDigits n q) (k : ℤ) : HasDigits n (q * 10 ^ k) := by
  obtain ⟨m, e, hm, rfl⟩ := h
  exact ⟨m, e + k, hm, by rw [mul_assoc, ← zpow_add₀ (by norm_num)]⟩

/-- The place of the digits does not matter. -/
lemma hasDigits_mul_zpow_iff (k : ℤ) : HasDigits n (q * 10 ^ k) ↔ HasDigits n q := by
  refine ⟨fun h => ?_, fun h => h.mul_zpow k⟩
  have hback := h.mul_zpow (-k)
  rwa [mul_assoc, ← zpow_add₀ (by norm_num), add_neg_cancel, zpow_zero, mul_one] at hback

/-- What does not end in a zero has all of its digits. -/
lemma HasDigits.lt_of_not_dvd {c : ℕ} (h : HasDigits n c) (hc : ¬10 ∣ c) : c < 10 ^ n := by
  obtain ⟨m, e, hm, hvalue⟩ := h
  cases e with
  | ofNat e =>
    rw [Int.ofNat_eq_natCast, zpow_natCast] at hvalue
    have hnat : c = m * 10 ^ e := by exact_mod_cast hvalue
    cases e with
    | zero => rwa [hnat, pow_zero, mul_one]
    | succ e => exact absurd ⟨m * 10 ^ e, by rw [hnat, pow_succ']; ring⟩ hc
  | negSucc e =>
    rw [zpow_negSucc, eq_mul_inv_iff_mul_eq₀ (by positivity)] at hvalue
    have hnat : c * 10 ^ (e + 1) = m := by exact_mod_cast hvalue
    exact (Nat.le_mul_of_pos_right c (by positivity)).trans_lt (hnat ▸ hm)

end HasDigits

/-! ### Runs of digits -/

namespace Text

variable {digits : Text} {c : Char}

/-- The digits from the first to the last one that is not zero. -/
def significant (digits : Text) : Text := (digits.dropWhile (· == '0')).rdropWhile (· == '0')

lemma value_append_replicate_zero (digits : Text) (n : ℕ) :
    value (digits ++ List.replicate n '0') = value digits * 10 ^ n := by
  rw [value, Nat.ofDigitChars_append, Nat.ofDigitChars_replicate_zero, Nat.mul_comm]
  rfl

lemma value_replicate_zero_append (n : ℕ) (digits : Text) : value (List.replicate n '0' ++ digits) = value digits := by
  rw [value, Nat.ofDigitChars_append, Nat.ofDigitChars_replicate_zero, Nat.mul_zero]
  rfl

lemma value_singleton (c : Char) : value [c] = c.toNat - '0'.toNat := by
  rw [value, Nat.ofDigitChars_cons, Nat.mul_zero, Nat.zero_add, Nat.ofDigitChars_nil]

lemma value_digit_le (hc : c.isDigit) : value [c] ≤ 9 := by
  have hbound := (Char.isDigit_iff_toNat.mp hc).2
  rw [value_singleton]
  exact Nat.sub_le_of_le_add hbound

lemma one_le_value_digit (hc : c.isDigit) (hzero : c ≠ '0') : 1 ≤ value [c] := by
  have hbound := (Char.isDigit_iff_toNat.mp hc).1
  have hne : c.toNat ≠ '0'.toNat := fun h => hzero (Char.toNat_inj.mp h)
  rw [value_singleton]
  exact Nat.sub_pos_of_lt (Nat.lt_of_le_of_ne hbound hne.symm)

/-- The digits of a number tell its size. -/
lemma value_lt (hdigits : ∀ c ∈ digits, c.isDigit) : value digits < 10 ^ digits.length := by
  induction digits with
  | nil => exact Nat.one_pos
  | cons c digits ih =>
    have hrest := ih fun d hd => hdigits d (List.mem_cons_of_mem c hd)
    have hfirst := value_digit_le (hdigits c List.mem_cons_self)
    rw [← List.singleton_append, value_append, List.singleton_append, List.length_cons, Nat.pow_succ]
    calc 10 ^ digits.length * value [c] + value digits < 10 ^ digits.length * 9 + 10 ^ digits.length :=
          Nat.add_lt_add_of_le_of_lt (Nat.mul_le_mul_left _ hfirst) hrest
      _ = 10 ^ digits.length * 10 := rfl

lemma le_value_cons (hc : c.isDigit) (hzero : c ≠ '0') (digits : Text) : 10 ^ digits.length ≤ value (c :: digits) := by
  rw [← List.singleton_append, value_append]
  exact (Nat.le_mul_of_pos_right _ (one_le_value_digit hc hzero)).trans (Nat.le_add_right _ _)

lemma not_dvd_value_concat (hc : c.isDigit) (hzero : c ≠ '0') (digits : Text) : ¬10 ∣ value (digits ++ [c]) := by
  have hlow := one_le_value_digit hc hzero
  have hhigh := value_digit_le hc
  rw [value_append, List.length_singleton, pow_one]
  omega

/-! ### Zeros in front and behind -/

lemma exists_rdropWhile (digits : Text) :
    ∃ n, digits = digits.rdropWhile (· == '0') ++ List.replicate n '0' := by
  have hzeros : ∀ c ∈ digits.rtakeWhile (· == '0'), c = '0' := by
    intro c hc
    simpa using List.mem_rtakeWhile_imp hc
  exact ⟨_, by rw [← List.eq_replicate_of_mem hzeros, List.rdropWhile_append_rtakeWhile]⟩

lemma ne_zero_of_rdropWhile {front : Text} (h : digits.rdropWhile (· == '0') = front ++ [c]) : c ≠ '0' := by
  have hself := List.rdropWhile_idempotent (· == '0') digits
  rw [h] at hself
  simpa using List.rdropWhile_eq_self_iff.mp hself (List.concat_ne_nil c front)

lemma exists_dropWhile (digits : Text) : ∃ n, digits = List.replicate n '0' ++ digits.dropWhile (· == '0') := by
  have hzeros : ∀ c ∈ digits.takeWhile (· == '0'), c = '0' := by
    intro c hc
    simpa using List.mem_takeWhile_imp hc
  exact ⟨_, by rw [← List.eq_replicate_of_mem hzeros, List.takeWhile_append_dropWhile]⟩

/-- The zeros around the significant digits are a power of ten. -/
lemma exists_value_significant (digits : Text) : ∃ n, value digits = value digits.significant * 10 ^ n := by
  obtain ⟨m, hfront⟩ := exists_dropWhile digits
  obtain ⟨n, hback⟩ := exists_rdropWhile (digits.dropWhile (· == '0'))
  refine ⟨n, ?_⟩
  calc value digits = value (digits.dropWhile (· == '0')) := by
        rw [hfront, value_replicate_zero_append, ← hfront]
    _ = value digits.significant * 10 ^ n := by
        rw [significant, ← value_append_replicate_zero, ← hback]

lemma mem_of_mem_significant (hc : c ∈ digits.significant) : c ∈ digits :=
  (List.dropWhile_sublist _).subset ((List.rdropWhile_prefix _ _).subset hc)

lemma head_significant {rest : Text} (h : digits.significant = c :: rest) : c ≠ '0' := by
  obtain ⟨t, ht⟩ := List.rdropWhile_prefix (· == '0') (digits.dropWhile (· == '0'))
  have hhead := List.head?_dropWhile_not (· == '0') digits
  rw [← ht, ← significant, h, List.cons_append, List.head?_cons] at hhead
  simpa using hhead

/-- The significant digits are as many as the number needs. -/
theorem hasDigits_value_iff {n : ℕ} (hdigits : ∀ c ∈ digits, c.isDigit) :
    HasDigits n (value digits) ↔ digits.significant.length ≤ n := by
  obtain ⟨zeros, hvalue⟩ := exists_value_significant digits
  have hsignificant : ∀ c ∈ digits.significant, c.isDigit := fun c hc => hdigits c (mem_of_mem_significant hc)
  have hscaled : (value digits : ℚ) = value digits.significant * 10 ^ (zeros : ℤ) := by
    rw [hvalue, zpow_natCast]
    push_cast
    rfl
  rw [hscaled, hasDigits_mul_zpow_iff]
  constructor
  · intro hn
    cases hfirst : digits.significant with
    | nil => exact Nat.zero_le n
    | cons c rest =>
      have hlow := le_value_cons (hsignificant c (by simp [hfirst])) (head_significant hfirst) rest
      obtain ⟨front, d, hlast⟩ := (List.eq_nil_or_concat' digits.significant).resolve_left (by simp [hfirst])
      have hodd := not_dvd_value_concat (hsignificant d (by simp [hlast])) (ne_zero_of_rdropWhile hlast) front
      rw [← hlast] at hodd
      rw [← hfirst] at hlow
      exact (Nat.pow_lt_pow_iff_right (by decide)).mp (hlow.trans_lt (hn.lt_of_not_dvd hodd))
  · intro hn
    exact ⟨_, 0, (value_lt hsignificant).trans_le (Nat.pow_le_pow_right (by decide) hn), by rw [zpow_zero, mul_one]⟩

/-! ### Numerals -/

lemma isDigit_of_mem_numeral {c : Char} {n : ℕ} (hc : c ∈ numeral n) : c.isDigit :=
  Nat.isDigit_of_mem_toDigits (by decide) (by decide) hc

lemma length_numeral_le_iff {n k : ℕ} (hk : 0 < k) : (numeral n).length ≤ k ↔ n < 10 ^ k :=
  Nat.length_toDigits_le_iff (by decide) hk

lemma pow_le_of_length_numeral {n : ℕ} (hn : 0 < n) : 10 ^ ((numeral n).length - 1) ≤ n := by
  rcases Nat.eq_zero_or_pos ((numeral n).length - 1) with hzero | hpos
  · rwa [hzero]
  · exact not_lt.mp ((length_numeral_le_iff hpos).not.mp (by omega))

lemma lt_pow_length_numeral (n : ℕ) : n < 10 ^ ((numeral n).length - 1 + 1) :=
  (length_numeral_le_iff (Nat.succ_pos _)).mp (by omega)

/-- The numeral of a number does not begin with a zero, but for that of zero. -/
theorem numeral_eq_of_head {n : ℕ} (h : (numeral n).head? = some '0') : numeral n = ['0'] := by
  obtain ⟨rest, hrest⟩ : ∃ rest, numeral n = '0' :: rest := List.head?_eq_some_iff.mp h
  rcases Nat.eq_zero_or_pos rest.length with hnil | hpos
  · rw [hrest, List.length_eq_zero_iff.mp hnil]
  · have hvalue : value rest = n := by
      rw [← value_numeral n, hrest]
      exact (value_replicate_zero_append 1 rest).symm
    have hdigits : ∀ c ∈ rest, c.isDigit := fun c hc => isDigit_of_mem_numeral (hrest ▸ List.mem_cons_of_mem '0' hc)
    have hshort := (length_numeral_le_iff hpos).mpr (hvalue ▸ value_lt hdigits)
    rw [hrest, List.length_cons] at hshort
    omega

end Text

/-! ### Decimals -/

/-- A decimal as it is written: whether there is a minus sign, the digits in front of the point, of which there is
one at least, and the digits behind it. -/
structure Decimal where
  isNegative : Bool
  whole : Text
  fraction : Text
  whole_ne_nil : whole ≠ []
  isDigit_whole : ∀ c ∈ whole, c.isDigit
  isDigit_fraction : ∀ c ∈ fraction, c.isDigit

namespace Decimal

variable (d : Decimal)

def text : Text :=
  (if d.isNegative then ['-'] else []) ++ d.whole ++ (if d.fraction = [] then [] else '.' :: d.fraction)

/-- The number without its sign. -/
def magnitude : ℚ := decimalValue d.whole d.fraction

def toRat : ℚ := (if d.isNegative then -1 else 1) * d.magnitude

/-- How many digits there are from the first to the last one that is not zero. -/
def significantDigits : ℕ := (Text.significant (d.whole ++ d.fraction)).length

/-- Whether no zero is written that could be left out. -/
structure IsPlain : Prop where
  whole : d.whole.head? = some '0' → d.whole = ['0']
  fraction : d.fraction.getLast? ≠ some '0'

lemma magnitude_nonneg : 0 ≤ d.magnitude := by
  rw [magnitude, decimalValue]
  positivity

theorem hasDigits_magnitude_iff {n : ℕ} : HasDigits n d.magnitude ↔ d.significantDigits ≤ n := by
  have hdigits : ∀ c ∈ d.whole ++ d.fraction, c.isDigit := by
    intro c hc
    exact (List.mem_append.mp hc).elim (d.isDigit_whole c) (d.isDigit_fraction c)
  have hscaled : d.magnitude = Text.value (d.whole ++ d.fraction) * 10 ^ (-d.fraction.length : ℤ) := by
    rw [magnitude, decimalValue_eq, Nat.pow_eq, zpow_neg, zpow_natCast, div_eq_mul_inv]
    push_cast
    rfl
  rw [hscaled, hasDigits_mul_zpow_iff, Text.hasDigits_value_iff hdigits, significantDigits]

end Decimal

end ScriptLexer
