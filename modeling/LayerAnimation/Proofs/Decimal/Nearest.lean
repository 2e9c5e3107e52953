import LayerAnimation.Decimal.Nearest
import LayerAnimation.Proofs.Double.Order

/-!
# Numerals and the double nearest to them

The bits of the double nearest to a numeral are found with whole numbers only.  Here the same is said
with rational numbers, from which it follows that numerals of the same value have the same bits, and
that the value of a double has the bits of that double.

- `roundedBits` is the rule: how many last places the double has, counted from zero.
- `Numeral.bits_eq` says that the bits of a numeral are those of its value.
- `roundedBits_value` says that a double is nearest to its own value.
- `canonical_ofBits` takes the bits of a positive double apart.
-/

namespace LayerAnimation.Decimal

open Double

/-! ## §1 Rounding a fraction -/

/-- Rounding a quotient of whole numbers is rounding the fraction. -/
theorem roundDiv_eq (m : ℕ) {d : ℕ} (hd : 0 < d) : roundDiv m d = nearestEven ((m : ℚ) / d) := by
  have hpos : (0 : ℚ) < d := by exact_mod_cast hd
  have hlt : ((m % d : ℕ) : ℚ) < d := by exact_mod_cast Nat.mod_lt m hd
  have hsplit : (m : ℚ) / d = ((m / d : ℕ) : ℚ) + ((m % d : ℕ) : ℚ) / d := by
    have hm : (m : ℚ) = d * ((m / d : ℕ) : ℚ) + ((m % d : ℕ) : ℚ) := by
      exact_mod_cast (Nat.div_add_mod m d).symm
    field_simp
    linarith
  rw [hsplit, nearestEven_add (by positivity) ((div_lt_one hpos).mpr hlt), roundDiv]
  generalize m % d = r, m / d = q
  -- The remainder is compared with one half of the divisor.
  rcases Nat.lt_trichotomy (2 * r) d with h | h | h
  · have hr : (r : ℚ) / d < 1 / 2 := by
      have hq : ((2 * r : ℕ) : ℚ) < d := by exact_mod_cast h
      rw [div_lt_iff₀ hpos]
      push_cast at hq
      linarith
    simp only [Nat.compare_eq_lt.mpr h, if_pos hr]
  · have hr : (r : ℚ) / d = 1 / 2 := by
      have hq : ((2 * r : ℕ) : ℚ) = d := by exact_mod_cast h
      rw [div_eq_iff hpos.ne']
      push_cast at hq
      linarith
    simp only [Nat.compare_eq_eq.mpr h, hr, lt_irrefl, ↓reduceIte]
    split <;> omega
  · have hr : (1 / 2 : ℚ) < r / d := by
      have hq : (d : ℚ) < ((2 * r : ℕ) : ℚ) := by exact_mod_cast h
      rw [lt_div_iff₀ hpos]
      push_cast at hq
      linarith
    simp only [Nat.compare_eq_gt.mpr h, if_neg hr.not_gt, if_neg hr.ne']

/-- A power of two as a factor of the numerator or of the denominator. -/
theorem mul_pow_div (m d : ℕ) (e : ℤ) :
    ((m * Nat.pow 2 (-e).toNat : ℕ) : ℚ) / (d * Nat.pow 2 e.toNat : ℕ) = (m : ℚ) / d / 2 ^ e := by
  simp only [Nat.pow_eq, Nat.cast_mul, Nat.cast_pow, Nat.cast_ofNat, div_div]
  rcases Int.le_total 0 e with h | h
  · obtain ⟨k, rfl⟩ := Int.eq_ofNat_of_zero_le h
    simp
  · obtain ⟨k, hk⟩ := Int.eq_ofNat_of_zero_le (neg_nonneg.mpr h)
    obtain rfl : e = -k := by omega
    simp only [neg_neg, Int.toNat_natCast, Int.toNat_neg_natCast, pow_zero, mul_one, zpow_neg,
      zpow_natCast]
    rw [← div_div, div_inv_eq_mul, mul_div_right_comm]

theorem fullExponent_eq {m d : ℕ} (hm : 0 < m) (hd : 0 < d) :
    fullExponent m d = Int.log 2 ((m : ℚ) / d) - 52 := by
  have hm' : (0 : ℚ) < m := by exact_mod_cast hm
  have hd' : (0 : ℚ) < d := by exact_mod_cast hd
  have hv : (0 : ℚ) < m / d := div_pos hm' hd'
  have hnumerator : (2 : ℚ) ^ (m.log2 : ℤ) ≤ m ∧ (m : ℚ) < 2 ^ ((m.log2 : ℤ) + 1) :=
    ⟨by exact_mod_cast Nat.log2_self_le hm.ne', by exact_mod_cast Nat.lt_log2_self⟩
  have hdenominator : (2 : ℚ) ^ (d.log2 : ℤ) ≤ d ∧ (d : ℚ) < 2 ^ ((d.log2 : ℤ) + 1) :=
    ⟨by exact_mod_cast Nat.log2_self_le hd.ne', by exact_mod_cast Nat.lt_log2_self⟩
  unfold fullExponent
  simp only []
  generalize hk : (m.log2 : ℤ) - d.log2 = k
  have hhigh : (m : ℚ) / d < 2 ^ (k + 1) := by
    rw [div_lt_iff₀ hd']
    calc (m : ℚ) < 2 ^ ((m.log2 : ℤ) + 1) := hnumerator.2
      _ = 2 ^ (k + 1) * 2 ^ (d.log2 : ℤ) := by
        rw [← zpow_add₀ two_ne_zero]
        congr 1
        omega
      _ ≤ 2 ^ (k + 1) * d := by
        have := hdenominator.1
        gcongr
  have hlow : (2 : ℚ) ^ (k - 1) ≤ m / d := by
    rw [le_div_iff₀ hd']
    calc (2 : ℚ) ^ (k - 1) * d ≤ 2 ^ (k - 1) * 2 ^ ((d.log2 : ℤ) + 1) := by
          have := hdenominator.2.le
          gcongr
      _ = 2 ^ (m.log2 : ℤ) := by
        rw [← zpow_add₀ two_ne_zero]
        congr 1
        omega
      _ ≤ m := hnumerator.1
  -- The comparison tells which of two powers of two the fraction is above.
  have hcompare : m * Nat.pow 2 (-k).toNat < d * Nat.pow 2 k.toNat ↔ (m : ℚ) / d < 2 ^ k := by
    have hpos : (0 : ℚ) < (d * Nat.pow 2 k.toNat : ℕ) := by
      exact_mod_cast Nat.mul_pos hd (Nat.pow_pos two_pos)
    rw [← Nat.cast_lt (α := ℚ), ← div_lt_one hpos, mul_pow_div, div_lt_one (two_zpow_pos k)]
  split
  · next h =>
    have hlog : Int.log 2 ((m : ℚ) / d) = k - 1 :=
      log_eq hv hlow (by simpa using hcompare.mp h)
    omega
  · next h =>
    have hlog : Int.log 2 ((m : ℚ) / d) = k := log_eq hv (not_lt.mp (mt hcompare.mpr h)) hhigh
    omega

/-! ## §2 The rule -/

/-- The bits of the double nearest to a number that is not negative.  One more last place is one more
bit, also where the last places change their size. -/
def roundedBits (v : ℚ) : ℕ :=
  if v = 0 then 0 else min infinityBits ((unit v + 1074).toNat * binadeSize + mantissa v)

theorem nearestBits_eq (m : ℕ) {d : ℕ} (hd : 0 < d) : nearestBits m d = roundedBits ((m : ℚ) / d) := by
  have hd' : (d : ℚ) ≠ 0 := by exact_mod_cast hd.ne'
  unfold nearestBits roundedBits
  rcases Nat.eq_zero_or_pos m with rfl | hm
  · simp
  · have hm' : (m : ℚ) ≠ 0 := by exact_mod_cast hm.ne'
    have hunit : max lowestExponent (fullExponent m d) = unit ((m : ℚ) / d) := by
      rw [fullExponent_eq hm hd, max_comm]
      rfl
    simp only [hm.ne', div_ne_zero hm' hd', ↓reduceIte, hunit]
    have hpos : 0 < d * Nat.pow 2 (unit ((m : ℚ) / d)).toNat :=
      Nat.mul_pos hd (Nat.pow_pos two_pos)
    rw [roundDiv_eq _ hpos, mul_pow_div, mantissa]
    simp [lowestExponent]

/-- A double is nearest to its own value. -/
theorem roundedBits_value {m : ℕ} {e : ℤ} (h : Canonical m e) (he : e ≤ 971) :
    roundedBits ((m : ℚ) * 2 ^ e) = (e + 1074).toNat * binadeSize + m := by
  have hmantissa : mantissa ((m : ℚ) * 2 ^ e) = m := by
    rw [mantissa, h.unit_value, mul_div_cancel_right₀ _ (two_zpow_pos e).ne', nearestEven_natCast]
  rw [roundedBits, if_neg h.value_pos.ne', hmantissa, h.unit_value]
  obtain ⟨-, hlt, hle, -⟩ := h
  unfold infinityBits binadeSize
  omega

theorem roundedBits_of_lt {v : ℚ} (h₀ : 0 ≤ v) (h : v < 2 ^ (-1075 : ℤ)) : roundedBits v = 0 := by
  unfold roundedBits
  -- Below half of the least positive double the unit is the least one there is, and the nearest
  -- multiple of it is zero.
  rcases h₀.eq_or_lt with rfl | hpos
  · simp
  · have hlog : Int.log 2 v < -1075 :=
      (Int.lt_zpow_iff_log_lt one_lt_two hpos).mp (by rwa [Nat.cast_ofNat])
    have hunit : unit v = -1074 := by
      unfold unit
      omega
    have hhalf : v / 2 ^ (-1074 : ℤ) < 1 / 2 := by
      rw [div_lt_iff₀ (two_zpow_pos _)]
      calc v < 2 ^ (-1075 : ℤ) := h
        _ = 1 / 2 * 2 ^ (-1075 + 1 : ℤ) := by
          rw [zpow_add_one₀ two_ne_zero]
          ring
    have hzero : mantissa v = 0 := by
      have hround := nearestEven_add (n := 0) (f := v / 2 ^ (-1074 : ℤ)) (by positivity)
        (by linarith)
      rwa [Nat.cast_zero, zero_add, if_pos hhalf, ← hunit] at hround
    simp [hunit, hzero]

theorem roundedBits_of_le {v : ℚ} (h : (2 : ℚ) ^ (1024 : ℤ) ≤ v) : roundedBits v = infinityBits := by
  have hpos : 0 < v := lt_of_lt_of_le (two_zpow_pos _) h
  have hlog : 1024 ≤ Int.log 2 v := (Int.zpow_le_iff_le_log one_lt_two hpos).mp (by rwa [Nat.cast_ofNat])
  have hunit : 972 ≤ unit v := by
    unfold unit
    omega
  have hfull : 2 ^ 52 ≤ mantissa v := le_mantissa hpos (by omega)
  rw [roundedBits, if_neg hpos.ne']
  unfold infinityBits binadeSize
  omega

/-! ## §3 Numerals -/

namespace Numeral

/-- The value of a numeral without its sign. -/
def magnitude (n : Numeral) : ℚ :=
  n.mantissa * 10 ^ n.exponent

/-- A power of ten as a factor of the numerator or as the denominator. -/
theorem mul_pow_div_pow (m : ℕ) (e : ℤ) :
    ((m * Nat.pow 10 e.toNat : ℕ) : ℚ) / (Nat.pow 10 (-e).toNat : ℕ) = m * 10 ^ e := by
  simp only [Nat.pow_eq, Nat.cast_mul, Nat.cast_pow, Nat.cast_ofNat]
  rcases Int.le_total 0 e with h | h
  · obtain ⟨k, rfl⟩ := Int.eq_ofNat_of_zero_le h
    simp
  · obtain ⟨k, hk⟩ := Int.eq_ofNat_of_zero_le (neg_nonneg.mpr h)
    obtain rfl : e = -k := by omega
    simp [div_eq_mul_inv]

/-- The powers of ten out of reach are out of reach of the doubles. -/
theorem two_zpow_le_ten_zpow : (2 : ℚ) ^ (1075 : ℤ) ≤ 10 ^ (400 : ℤ) := by
  show (2 : ℚ) ^ (43 * 25 : ℤ) ≤ 10 ^ (16 * 25 : ℤ)
  rw [zpow_mul, zpow_mul]
  exact zpow_le_zpow_left₀ (by norm_num) (by positivity) (by norm_num)

/-- The bits of a numeral are those of its value; in particular the limits of the exponent cut
nothing off. -/
theorem bits_eq (n : Numeral) : n.bits = roundedBits n.magnitude := by
  unfold bits
  split
  · next h =>
    refine (roundedBits_of_lt (by unfold magnitude; positivity) ?_).symm
    rcases h with h | h
    · rw [magnitude, h, Nat.cast_zero, zero_mul]
      exact two_zpow_pos _
    · -- A mantissa with some binary digits is below that power of ten.
      have hmantissa : (n.mantissa : ℚ) ≤ 10 ^ ((n.mantissa.log2 + 1 : ℕ) : ℤ) := by
        have hbinary : n.mantissa < 2 ^ (n.mantissa.log2 + 1) := Nat.lt_log2_self
        have hpow : 2 ^ (n.mantissa.log2 + 1) ≤ 10 ^ (n.mantissa.log2 + 1) :=
          Nat.pow_le_pow_left (by norm_num) _
        exact_mod_cast hbinary.le.trans hpow
      calc n.magnitude ≤ 10 ^ ((n.mantissa.log2 + 1 : ℕ) : ℤ) * 10 ^ n.exponent := by
            unfold magnitude
            gcongr
        _ = 10 ^ (n.exponent + (n.mantissa.log2 + 1 : ℕ)) := by
          rw [← zpow_add₀ (by norm_num), add_comm]
        _ < 10 ^ (-400 : ℤ) := zpow_lt_zpow_right₀ (by norm_num) h
        _ ≤ 2 ^ (-1075 : ℤ) := by
          rw [zpow_neg, zpow_neg]
          exact inv_anti₀ (two_zpow_pos _) two_zpow_le_ten_zpow
  · next hreach =>
    split
    · next h =>
      have hmantissa : (1 : ℚ) ≤ n.mantissa := by
        have hne : n.mantissa ≠ 0 := fun h => hreach (.inl h)
        exact_mod_cast Nat.pos_of_ne_zero hne
      refine (roundedBits_of_le ?_).symm
      calc (2 : ℚ) ^ (1024 : ℤ) ≤ 2 ^ (1075 : ℤ) := zpow_mono (by norm_num)
        _ ≤ 10 ^ (400 : ℤ) := two_zpow_le_ten_zpow
        _ ≤ 10 ^ n.exponent := zpow_le_zpow_right₀ (by norm_num) (le_of_lt h)
        _ ≤ n.mantissa * 10 ^ n.exponent := le_mul_of_one_le_left (by positivity) hmantissa
    · have hpos : 0 < Nat.pow 10 (-n.exponent).toNat := Nat.pow_pos (by norm_num)
      rw [nearestBits_eq _ hpos, mul_pow_div_pow, magnitude]

end Numeral

/-! ## §4 The bits of a double -/

/-- The bits of a positive double give its mantissa and its exponent. -/
theorem canonical_ofBits {bits : ℕ} (hpos : 0 < bits) (hlt : bits < infinityBits) :
    Canonical (Binary.ofBits bits).mantissa (Binary.ofBits bits).exponent ∧
      (Binary.ofBits bits).exponent ≤ 971 ∧
      ((Binary.ofBits bits).exponent + 1074).toNat * binadeSize + (Binary.ofBits bits).mantissa
        = bits := by
  unfold Binary.ofBits
  split
  · next h =>
    unfold binadeSize at h ⊢
    refine ⟨⟨hpos, ?_, le_refl _, .inr rfl⟩, ?_, ?_⟩ <;> simp only [lowestExponent] <;> omega
  · next h =>
    unfold infinityBits at hlt
    unfold binadeSize at h ⊢
    have hmod : bits % 4503599627370496 < 4503599627370496 := Nat.mod_lt _ (by norm_num)
    have hsplit := Nat.div_add_mod bits 4503599627370496
    refine ⟨⟨?_, ?_, ?_, .inl ?_⟩, ?_, ?_⟩ <;> simp only [lowestExponent] <;> omega

end LayerAnimation.Decimal
