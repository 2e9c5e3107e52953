import LayerAnimation.Decimal.Numeral
import Mathlib

/-!
# Digits and normal forms

What lists of digits are worth, and which of the numerals of one value is the normal one.

- `digitsValue_digitChars` and `digitsValue_append` are the rules for digits.
- `Numeral.IsNormal` says that a mantissa has no factor ten; `Numeral.normal` makes it so
  (`Numeral.isNormal_normal`) and keeps the value.
- `Numeral.normal_scaled` finds the normal form again after zeros were added to the mantissa, and
  `Numeral.normal_eq` is the case of none.
-/

namespace LayerAnimation.Decimal

/-! ## §1 Digits -/

/-- Digits are worth what the library reads from them. -/
theorem digitsValue_eq (cs : List Char) : digitsValue cs = Nat.ofDigitChars 10 cs 0 :=
  Nat.ofDigitChars_eq_foldl.symm

/-- What is written of a number is worth that number. -/
@[simp] theorem digitsValue_digitChars (n : ℕ) : digitsValue (digitChars n) = n := by
  rw [digitsValue_eq]
  exact Nat.ofDigitChars_ten_toDigits

/-- Digits are worth ten times more for every digit that stands behind them. -/
theorem digitsValue_append (cs ds : List Char) :
    digitsValue (cs ++ ds) = 10 ^ ds.length * digitsValue cs + digitsValue ds := by
  rw [digitsValue_eq, digitsValue_eq, digitsValue_eq, Nat.ofDigitChars_append,
    Nat.ofDigitChars_eq_ofDigitChars_zero]

@[simp] theorem digitsValue_zeros (k : ℕ) : digitsValue (List.replicate k '0') = 0 := by
  rw [digitsValue_eq, Nat.ofDigitChars_replicate_zero, Nat.mul_zero]

theorem isDigit_of_mem_digitChars {n : ℕ} {c : Char} (h : c ∈ digitChars n) : c.isDigit = true :=
  Nat.isDigit_of_mem_toDigits (by norm_num) (by norm_num) h

theorem digitChars_ne_nil (n : ℕ) : digitChars n ≠ [] :=
  Nat.toDigits_ne_nil

@[simp] theorem digitChars_zero : digitChars 0 = ['0'] :=
  Nat.toDigits_zero 10

/-- From ten on, the last digit stands behind the digits of the tenth part. -/
theorem digitChars_of_le {n : ℕ} (h : 10 ≤ n) :
    digitChars n = digitChars (n / 10) ++ [(n % 10).digitChar] :=
  Nat.toDigits_of_base_le (by norm_num) h

/-- No number but zero is written with a zero in front. -/
theorem head?_digitChars {n : ℕ} (h : 0 < n) : (digitChars n).head? ≠ some '0' := by
  induction n using Nat.strong_induction_on with
  | _ n ih =>
    -- All digits but the last are those of the tenth part, down to a single one.
    rcases Nat.lt_or_ge n 10 with hlt | hge
    · rw [digitChars, Nat.toDigits_of_lt_base hlt, List.head?_cons, ne_eq, Option.some_inj,
        Nat.digitChar_eq_zero]
      exact h.ne'
    · rw [digitChars_of_le hge, List.head?_append_of_ne_nil _ (digitChars_ne_nil _)]
      exact ih (n / 10) (by omega) (by omega)

theorem lt_pow_length_digitChars (n : ℕ) : n < 10 ^ (digitChars n).length :=
  (Nat.length_toDigits_le_iff (by norm_num) Nat.length_toDigits_pos).mp (le_refl _)

/-! ## §2 Powers of ten in a mantissa -/

/-- Dropping zeros from a mantissa keeps the value. -/
theorem dropZeros_mul_pow (fuel n : ℕ) : (dropZeros fuel n).1 * 10 ^ (dropZeros fuel n).2 = n := by
  induction fuel generalizing n with
  | zero => simp [dropZeros]
  | succ fuel ih =>
    rw [dropZeros]
    split
    -- A zero that is dropped is a factor ten that is counted.
    · next h =>
      calc (dropZeros fuel (n / 10)).1 * 10 ^ ((dropZeros fuel (n / 10)).2 + 1)
          = (dropZeros fuel (n / 10)).1 * 10 ^ (dropZeros fuel (n / 10)).2 * 10 := by
            rw [pow_succ, mul_assoc]
        _ = n := by
          rw [ih]
          omega
    · simp

/-- A mantissa without a factor ten comes back after it was scaled, if there is fuel for the zeros.
-/
theorem dropZeros_of_mul_pow {m : ℕ} (h : m % 10 ≠ 0) {fuel k : ℕ} (hk : k ≤ fuel) :
    dropZeros fuel (m * 10 ^ k) = (m, k) := by
  induction k generalizing fuel with
  | zero => cases fuel <;> simp [dropZeros, h]
  | succ k ih =>
    obtain ⟨fuel, rfl⟩ := Nat.exists_eq_add_of_lt hk
    have hsplit : m * 10 ^ (k + 1) = m * 10 ^ k * 10 := by rw [pow_succ, mul_assoc]
    rw [dropZeros, hsplit, Nat.mul_mod_left, Nat.mul_div_cancel _ (by norm_num), if_pos rfl,
      ih (by omega)]

/-- With fuel for every digit no factor ten is left. -/
theorem dropZeros_mod_ten_ne_zero {fuel n : ℕ} (hpos : 0 < n) (hlt : n < 10 ^ fuel) :
    (dropZeros fuel n).1 % 10 ≠ 0 := by
  induction fuel generalizing n with
  | zero => omega
  | succ fuel ih =>
    rw [dropZeros]
    split
    · next h =>
      rw [pow_succ] at hlt
      exact ih (by omega) (by omega)
    · assumption

/-! ## §3 Normal forms -/

namespace Numeral

/-- The mantissa has no factor ten, and zero is written in one way. -/
def IsNormal (n : Numeral) : Prop :=
  (n.mantissa = 0 ∧ n.exponent = 0) ∨ n.mantissa % 10 ≠ 0

/-- The normal form has no factor ten, since its fuel is the number of digits. -/
theorem isNormal_normal (n : Numeral) : n.normal.IsNormal := by
  unfold normal
  split
  · next h => exact .inl ⟨h, rfl⟩
  · next h =>
    exact .inr (dropZeros_mod_ten_ne_zero (Nat.pos_of_ne_zero h) (lt_pow_length_digitChars _))

/-- Zeros behind the mantissa do not change the normal form. -/
theorem normal_scaled {n : Numeral} (h : n.IsNormal) (k : ℕ) :
    normal ⟨n.negative, n.mantissa * 10 ^ k, n.exponent - k⟩ = n := by
  obtain ⟨s, m, e⟩ := n
  rcases h with ⟨hm, he⟩ | hm
  · dsimp only at hm he
    simp [normal, hm, he]
  · dsimp only at hm ⊢
    have hpos : 0 < m := by omega
    -- The zeros that were added are digits, so there is fuel to drop them again.
    have hlength : k ≤ (digitChars (m * 10 ^ k)).length := by
      have hlt := lt_pow_length_digitChars (m * 10 ^ k)
      have hle : 10 ^ k ≤ m * 10 ^ k := Nat.le_mul_of_pos_left _ hpos
      exact ((Nat.pow_lt_pow_iff_right (by norm_num)).mp (hle.trans_lt hlt)).le
    have hne : m * 10 ^ k ≠ 0 := by positivity
    rw [normal, if_neg hne]
    simp [dropZeros_of_mul_pow hm hlength]

/-- A normal numeral is its own normal form. -/
theorem normal_eq {n : Numeral} (h : n.IsNormal) : n.normal = n := by
  simpa using normal_scaled h 0

end Numeral

end LayerAnimation.Decimal
