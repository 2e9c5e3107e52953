import Mathlib

/-!
# Rounding to double precision

The logical model of `Float` rounds by shifting mantissas and carrying two bits along.  Here the
same is said with rational numbers, in which rounding is seen to be monotone.

- `Double.extended` is the mantissa with its two bits that a number has; a shift by one place is a
  division by two (`Double.shiftRightOne_extended`).
- `Double.nearestEven` rounds to a whole number; it is monotone and keeps whole numbers.
- `Double.nearest` rounds to the precision of a double; it is monotone and keeps doubles.
- `Double.roundWithAccuracy_eq` says that the rounding of the model gives the mantissa and the
  exponent of `Double.nearest`.
-/

open Float.Model Float.Model.UnpackedFloat

namespace LayerAnimation

namespace Double

/-! ## §1 Mantissas with two more bits -/

/-- The whole part of a number, and the bits that tell its fraction from zero and one half. -/
def extended (x : ℚ) : ExtendedMantissa :=
  ⟨⌊x⌋₊, decide (1 / 2 ≤ Int.fract x), decide (Int.fract x ≠ 0 ∧ Int.fract x ≠ 1 / 2)⟩

/-- A number that is not negative is a whole number and a proper fraction. -/
theorem exists_add_fract {x : ℚ} (hx : 0 ≤ x) : ∃ (n : ℕ) (f : ℚ), x = n + f ∧ 0 ≤ f ∧ f < 1 := by
  refine ⟨⌊x⌋₊, Int.fract x, ?_, Int.fract_nonneg x, Int.fract_lt_one x⟩
  rw [natCast_floor_eq_intCast_floor hx, Int.floor_add_fract]

/-- The two bits of a number are those of its fraction. -/
theorem extended_add {n : ℕ} {f : ℚ} (h₀ : 0 ≤ f) (h₁ : f < 1) :
    extended (n + f) = ⟨n, decide (1 / 2 ≤ f), decide (f ≠ 0 ∧ f ≠ 1 / 2)⟩ := by
  have hfract : Int.fract ((n : ℚ) + f) = f := by
    rw [Int.fract_natCast_add, Int.fract_eq_self.mpr ⟨h₀, h₁⟩]
  have hfloor : ⌊(n : ℚ) + f⌋₊ = n := by
    rw [add_comm, Nat.floor_add_natCast h₀, Nat.floor_eq_zero.mpr h₁, Nat.zero_add]
  rw [extended, hfract, hfloor]

/-- The round bit or the sticky bit of a fraction is set exactly if it is not zero. -/
theorem round_or_sticky {f : ℚ} :
    (decide (1 / 2 ≤ f) || decide (f ≠ 0 ∧ f ≠ 1 / 2)) = decide (f ≠ 0) := by
  rw [← Bool.decide_or, decide_eq_decide]
  constructor
  · rintro (h | ⟨h, -⟩)
    · exact ne_of_gt (by linarith)
    · exact h
  · intro h
    by_cases hhalf : f = 1 / 2
    · exact .inl (le_of_eq hhalf.symm)
    · exact .inr ⟨h, hhalf⟩

/-- A shift by one place is a division by two. -/
theorem shiftRightOne_extended {x : ℚ} (hx : 0 ≤ x) :
    (extended x).shiftRightOne = extended (x / 2) := by
  obtain ⟨n, f, rfl, h₀, h₁⟩ := exists_add_fract hx
  have hhalf : ((n : ℚ) + f) / 2 = ((n / 2 : ℕ) : ℚ) + (((n % 2 : ℕ) : ℚ) + f) / 2 := by
    have hn : (n : ℚ) = 2 * ((n / 2 : ℕ) : ℚ) + ((n % 2 : ℕ) : ℚ) := by
      exact_mod_cast (Nat.div_add_mod n 2).symm
    linarith
  rw [hhalf, extended_add h₀ h₁]
  -- The last bit of the mantissa becomes the round bit, so the two parities are two cases.
  rcases Nat.mod_two_eq_zero_or_one n with hn | hn
  · have hround : ¬ (1 / 2 : ℚ) ≤ f / 2 := by linarith
    have hsticky : (f ≠ 0) ↔ (f / 2 ≠ 0 ∧ f / 2 ≠ 1 / 2) := by
      refine ⟨fun h => ⟨div_ne_zero h two_ne_zero, fun h' => ?_⟩,
        fun h h' => h.1 (by rw [h', zero_div])⟩
      linarith
    rw [hn, Nat.cast_zero, zero_add, extended_add (by linarith) (by linarith)]
    simp only [ExtendedMantissa.shiftRightOne, round_or_sticky, hn, hround, decide_false,
      bne_self_eq_false, decide_eq_decide.mpr hsticky]
  · have hround : (1 / 2 : ℚ) ≤ (1 + f) / 2 := by linarith
    have hsticky : (f ≠ 0) ↔ ((1 + f) / 2 ≠ 0 ∧ (1 + f) / 2 ≠ 1 / 2) := by
      refine ⟨fun h => ⟨by linarith, fun h' => h (by linarith)⟩,
        fun h h' => h.2 (by rw [h', add_zero])⟩
    rw [hn, Nat.cast_one, extended_add (by linarith) (by linarith)]
    simp only [ExtendedMantissa.shiftRightOne, round_or_sticky, hn, hround, decide_true,
      decide_eq_decide.mpr hsticky]
    rfl

/-- A shift by any number of places is a division by a power of two. -/
theorem shiftRight_extended {x : ℚ} (hx : 0 ≤ x) (n : ℕ) :
    extended x >>> n = extended (x / 2 ^ n) := by
  show n.repeat ExtendedMantissa.shiftRightOne (extended x) = _
  induction n with
  | zero => rw [pow_zero, div_one, Nat.repeat]
  | succ n ih =>
    rw [Nat.repeat, ih, shiftRightOne_extended (by positivity), pow_succ, div_mul_eq_div_div]

/-- A whole number sets neither bit. -/
theorem extended_natCast (n : ℕ) : extended n = .ofMantissaAndAccuracy n .exact := by
  have h := extended_add (n := n) (f := 0) (le_refl _) (by norm_num)
  rw [add_zero] at h
  rw [h]
  norm_num [ExtendedMantissa.ofMantissaAndAccuracy]

/-- The quotient of two numbers has the accuracy of its remainder. -/
theorem extended_div (m d : ℕ) (hd : 0 < d) :
    extended ((m : ℚ) / d) = .ofMantissaAndAccuracy (m / d) (accuracyOfFraction (m % d) d) := by
  have hpos : (0 : ℚ) < d := by exact_mod_cast hd
  have hlt : ((m % d : ℕ) : ℚ) < d := by exact_mod_cast Nat.mod_lt m hd
  have hsplit : (m : ℚ) / d = ((m / d : ℕ) : ℚ) + ((m % d : ℕ) : ℚ) / d := by
    have hm : (m : ℚ) = d * ((m / d : ℕ) : ℚ) + ((m % d : ℕ) : ℚ) := by
      exact_mod_cast (Nat.div_add_mod m d).symm
    field_simp
    linarith
  rw [hsplit, extended_add (by positivity) ((div_lt_one hpos).mpr hlt)]
  unfold accuracyOfFraction
  by_cases hzero : m % d = 0
  · norm_num [hzero, ExtendedMantissa.ofMantissaAndAccuracy]
  · have hne : ((m % d : ℕ) : ℚ) / d ≠ 0 := by
      have : ((m % d : ℕ) : ℚ) ≠ 0 := by exact_mod_cast hzero
      positivity
    rw [if_neg hzero]
    generalize m % d = r at hlt hne ⊢
    -- The remainder is compared with one half of the divisor.
    rcases Nat.lt_trichotomy (2 * r) d with h | h | h
    · have hq : ((2 * r : ℕ) : ℚ) < d := by exact_mod_cast h
      have hround : ¬ (1 / 2 : ℚ) ≤ r / d := by
        rw [le_div_iff₀ hpos]
        push_cast at hq
        linarith
      have hhalf : (r : ℚ) / d ≠ 1 / 2 := fun h => hround h.ge
      simp [-one_div, Nat.compare_eq_lt.mpr h, ExtendedMantissa.ofMantissaAndAccuracy, hround, hne,
        hhalf]
    · have hq : ((2 * r : ℕ) : ℚ) = d := by exact_mod_cast h
      have hhalf : (r : ℚ) / d = 1 / 2 := by
        rw [div_eq_iff (ne_of_gt hpos)]
        push_cast at hq
        linarith
      simp [Nat.compare_eq_eq.mpr h, ExtendedMantissa.ofMantissaAndAccuracy, hhalf]
    · have hq : (d : ℚ) < ((2 * r : ℕ) : ℚ) := by exact_mod_cast h
      have hround : (1 / 2 : ℚ) < r / d := by
        rw [lt_div_iff₀ hpos]
        push_cast at hq
        linarith
      simp [-one_div, Nat.compare_eq_gt.mpr h, ExtendedMantissa.ofMantissaAndAccuracy, hround.le,
        hne, hround.ne']

/-! ## §2 Rounding to whole numbers -/

/-- The nearest whole number, the even one of two. -/
def nearestEven (x : ℚ) : ℕ :=
  (extended x).roundedMantissa

/-- Rounding looks at the fraction alone, except that one half goes to the even side. -/
theorem nearestEven_add {n : ℕ} {f : ℚ} (h₀ : 0 ≤ f) (h₁ : f < 1) :
    nearestEven (n + f) = if f < 1 / 2 then n else if f = 1 / 2 then n + n % 2 else n + 1 := by
  rw [nearestEven, extended_add h₀ h₁]
  rcases lt_trichotomy f (1 / 2) with h | h | h
  -- Below one half, at one half and above it the two bits are different.
  · have hround : ¬ (1 / 2 : ℚ) ≤ f := not_le.mpr h
    rw [if_pos h]
    by_cases hzero : f = 0
    · subst hzero
      norm_num [ExtendedMantissa.roundedMantissa, ExtendedMantissa.accuracy,
        Accuracy.roundToNearestEven]
    · simp [-one_div, ExtendedMantissa.roundedMantissa, ExtendedMantissa.accuracy, hround, h.ne,
        hzero, Accuracy.roundToNearestEven]
  · subst h
    norm_num [ExtendedMantissa.roundedMantissa, ExtendedMantissa.accuracy,
      Accuracy.roundToNearestEven]
  · have hzero : f ≠ 0 := by linarith
    rw [if_neg (not_lt.mpr h.le), if_neg h.ne']
    simp [-one_div, ExtendedMantissa.roundedMantissa, ExtendedMantissa.accuracy, h.le, h.ne',
      hzero, Accuracy.roundToNearestEven]

/-- Whole numbers are kept. -/
theorem nearestEven_natCast (n : ℕ) : nearestEven n = n := by
  have h := nearestEven_add (n := n) (f := 0) (le_refl _) (by norm_num)
  rwa [add_zero, if_pos (by norm_num)] at h

/-- Rounding to whole numbers keeps the order. -/
theorem nearestEven_mono {x y : ℚ} (hx : 0 ≤ x) (hxy : x ≤ y) : nearestEven x ≤ nearestEven y := by
  obtain ⟨n, f, rfl, h₀, h₁⟩ := exists_add_fract hx
  obtain ⟨m, g, rfl, h₀', h₁'⟩ := exists_add_fract (hx.trans hxy)
  have hnm : n ≤ m := by
    by_contra h
    have hsucc : ((m + 1 : ℕ) : ℚ) ≤ n := by exact_mod_cast not_le.mp h
    push_cast at hsucc
    linarith
  rw [nearestEven_add h₀ h₁, nearestEven_add h₀' h₁']
  have hleft : (if f < 1 / 2 then n else if f = 1 / 2 then n + n % 2 else n + 1) ≤ n + 1 := by
    split
    · omega
    · split <;> omega
  rcases Nat.lt_or_eq_of_le hnm with hlt | rfl
  · -- Between different whole parts there is a whole number.
    have hright : m ≤ if g < 1 / 2 then m else if g = 1 / 2 then m + m % 2 else m + 1 := by
      split
      · omega
      · split <;> omega
    omega
  · have hfg : f ≤ g := by linarith
    rcases lt_trichotomy g (1 / 2) with hg | hg | hg
    · rw [if_pos (lt_of_le_of_lt hfg hg), if_pos hg]
    · rw [if_neg (not_lt.mpr hg.ge), if_pos hg]
      rcases lt_or_eq_of_le hfg with hf | hf
      · rw [if_pos (hg ▸ hf)]
        exact Nat.le_add_right n _
      · rw [if_neg (by rw [hf, hg]; exact lt_irrefl _), if_pos (hf.trans hg)]
    · rw [if_neg (not_lt.mpr hg.le), if_neg hg.ne']
      exact hleft

/-! ## §3 Rounding to the precision of a double -/

/-- The exponent of the last place that a double near a number has. -/
def unit (v : ℚ) : ℤ :=
  max (Int.log 2 v - 52) (-1074)

/-- How many last places the double next to a number has. -/
def mantissa (v : ℚ) : ℕ :=
  nearestEven (v / 2 ^ unit v)

/-- The number that a double next to a number has, if its exponent were not limited above. -/
def nearest (v : ℚ) : ℚ :=
  mantissa v * 2 ^ unit v

/-- The mantissas and exponents of doubles, without a limit of the exponent above. -/
structure Canonical (m : ℕ) (e : ℤ) : Prop where
  pos : 0 < m
  lt : m < 2 ^ 53
  le : -1074 ≤ e
  full : 2 ^ 52 ≤ m ∨ e = -1074

variable {v w : ℚ}

theorem zpow_log_le (hv : 0 < v) : (2 : ℚ) ^ Int.log 2 v ≤ v := by
  exact_mod_cast Int.zpow_log_le_self (b := 2) one_lt_two hv

theorem lt_zpow_log_succ (v : ℚ) : v < (2 : ℚ) ^ (Int.log 2 v + 1) := by
  exact_mod_cast Int.lt_zpow_succ_log_self (b := 2) one_lt_two v

/-- A logarithm is known from two powers next to each other. -/
theorem log_eq {k : ℤ} (hv : 0 < v) (hlow : (2 : ℚ) ^ k ≤ v) (hhigh : v < (2 : ℚ) ^ (k + 1)) :
    Int.log 2 v = k := by
  have hle : k ≤ Int.log 2 v :=
    (Int.zpow_le_iff_le_log one_lt_two hv).mp (by exact_mod_cast hlow)
  have hlt : Int.log 2 v < k + 1 :=
    (Int.lt_zpow_iff_log_lt one_lt_two hv).mp (by exact_mod_cast hhigh)
  omega

theorem zpow_mono {a b : ℤ} (h : a ≤ b) : (2 : ℚ) ^ a ≤ (2 : ℚ) ^ b :=
  zpow_le_zpow_right₀ one_le_two h

theorem two_zpow_pos (e : ℤ) : (0 : ℚ) < 2 ^ e :=
  zpow_pos two_pos e

/-- A number has at most `2 ^ 53` last places. -/
theorem div_unit_le (v : ℚ) : v / 2 ^ unit v ≤ ((2 ^ 53 : ℕ) : ℚ) := by
  rw [div_le_iff₀ (two_zpow_pos _)]
  have hle : Int.log 2 v + 1 ≤ 53 + unit v := by
    unfold unit
    omega
  calc v ≤ (2 : ℚ) ^ (Int.log 2 v + 1) := (lt_zpow_log_succ v).le
    _ ≤ (2 : ℚ) ^ (53 + unit v) := zpow_mono hle
    _ = ((2 ^ 53 : ℕ) : ℚ) * 2 ^ unit v := by
      rw [zpow_add₀ two_ne_zero]
      norm_num

/-- Unless its last place is the smallest of all, a number has at least `2 ^ 52` of them. -/
theorem le_div_unit (hv : 0 < v) (h : unit v ≠ -1074) : ((2 ^ 52 : ℕ) : ℚ) ≤ v / 2 ^ unit v := by
  rw [le_div_iff₀ (two_zpow_pos _)]
  have hle : 52 + unit v ≤ Int.log 2 v := by
    unfold unit at h ⊢
    omega
  calc ((2 ^ 52 : ℕ) : ℚ) * 2 ^ unit v = (2 : ℚ) ^ (52 + unit v) := by
        rw [zpow_add₀ two_ne_zero]
        norm_num
    _ ≤ (2 : ℚ) ^ Int.log 2 v := zpow_mono hle
    _ ≤ v := zpow_log_le hv

/-- Rounding does not lead beyond these bounds. -/
theorem mantissa_le (hv : 0 < v) : mantissa v ≤ 2 ^ 53 := by
  have h := nearestEven_mono (by positivity) (div_unit_le v)
  rwa [nearestEven_natCast] at h

theorem le_mantissa (hv : 0 < v) (h : unit v ≠ -1074) : 2 ^ 52 ≤ mantissa v := by
  have h := nearestEven_mono (by positivity) (le_div_unit hv h)
  rwa [nearestEven_natCast] at h

/-- Rounding to the precision of a double keeps the order. -/
theorem nearest_mono (hv : 0 < v) (h : v ≤ w) : nearest v ≤ nearest w := by
  have hw := lt_of_lt_of_le hv h
  have hlog : Int.log 2 v ≤ Int.log 2 w := Int.log_mono_right hv h
  have hunit : unit v ≤ unit w := by
    unfold unit
    omega
  unfold nearest
  rcases hunit.lt_or_eq with hlt | heq
  · -- The number with the larger last place has 53 places, which is more than the other can have.
    have hv' : (mantissa v : ℚ) ≤ 2 ^ 53 := by exact_mod_cast mantissa_le hv
    have hw' : (2 : ℚ) ^ 52 ≤ mantissa w := by
      have hne : unit w ≠ -1074 := by
        unfold unit at hlt ⊢
        omega
      exact_mod_cast le_mantissa hw hne
    calc (mantissa v : ℚ) * 2 ^ unit v ≤ 2 ^ 53 * 2 ^ unit v := by gcongr
      _ = 2 ^ 52 * (2 : ℚ) ^ (unit v + 1) := by
        rw [zpow_add_one₀ two_ne_zero]
        ring
      _ ≤ 2 ^ 52 * (2 : ℚ) ^ unit w := by
        gcongr
        · exact one_le_two
        · omega
      _ ≤ mantissa w * 2 ^ unit w := by gcongr
  · have hmantissa : mantissa v ≤ mantissa w := by
      unfold mantissa
      rw [heq]
      exact nearestEven_mono (by positivity) (by gcongr)
    rw [heq]
    have hcast : (mantissa v : ℚ) ≤ mantissa w := by exact_mod_cast hmantissa
    gcongr

namespace Canonical

variable {m n : ℕ} {e f : ℤ}

theorem value_pos (h : Canonical m e) : 0 < (m : ℚ) * 2 ^ e := by
  have hm : (0 : ℚ) < m := by exact_mod_cast h.pos
  positivity

/-- The last place of a double is the one that its exponent says. -/
theorem unit_value (h : Canonical m e) : unit ((m : ℚ) * 2 ^ e) = e := by
  have hlt : (m : ℚ) * 2 ^ e < 2 ^ (52 + e + 1) := by
    have hm : (m : ℚ) < 2 ^ 53 := by exact_mod_cast h.lt
    calc (m : ℚ) * 2 ^ e < 2 ^ 53 * 2 ^ e := by gcongr
      _ = 2 ^ (52 + e + 1) := by
        rw [add_assoc, add_comm e, ← add_assoc, zpow_add₀ two_ne_zero]
        norm_num
  unfold unit
  -- With a full mantissa the logarithm says it, with a short one the smallest place does.
  rcases h.full with hfull | rfl
  · have hge : (2 : ℚ) ^ (52 + e) ≤ m * 2 ^ e := by
      have hm : (2 : ℚ) ^ 52 ≤ m := by exact_mod_cast hfull
      calc (2 : ℚ) ^ (52 + e) = 2 ^ 52 * 2 ^ e := by
            rw [zpow_add₀ two_ne_zero]
            norm_num
        _ ≤ m * 2 ^ e := by gcongr
    have hle := h.le
    rw [log_eq h.value_pos hge hlt]
    omega
  · have hlog : Int.log 2 ((m : ℚ) * 2 ^ (-1074 : ℤ)) < 52 + -1074 + 1 :=
      (Int.lt_zpow_iff_log_lt one_lt_two h.value_pos).mp (by exact_mod_cast hlt)
    omega

/-- Doubles are kept. -/
theorem nearest_value (h : Canonical m e) : nearest ((m : ℚ) * 2 ^ e) = m * 2 ^ e := by
  have hdiv : (m : ℚ) * 2 ^ e / 2 ^ e = m := mul_div_cancel_right₀ _ (two_zpow_pos e).ne'
  rw [nearest, mantissa, h.unit_value, hdiv, nearestEven_natCast]

/-- Of two doubles the one with the larger exponent is larger. -/
theorem value_lt_of_exponent_lt (h : Canonical m e) (h' : Canonical n f) (hef : e < f) :
    (m : ℚ) * 2 ^ e < n * 2 ^ f := by
  have hm : (m : ℚ) < 2 ^ 53 := by exact_mod_cast h.lt
  have hn : (2 : ℚ) ^ 52 ≤ n := by
    have hle := h.le
    exact_mod_cast h'.full.resolve_right (by omega)
  calc (m : ℚ) * 2 ^ e < 2 ^ 53 * 2 ^ e := by gcongr
    _ = 2 ^ 52 * (2 : ℚ) ^ (e + 1) := by
      rw [zpow_add_one₀ two_ne_zero]
      ring
    _ ≤ 2 ^ 52 * (2 : ℚ) ^ f := by
      gcongr
      · exact one_le_two
      · omega
    _ ≤ n * 2 ^ f := by gcongr

end Canonical

/-! ## §4 Rounding in the model -/

/-- What is cut off behind a mantissa does not matter to the logarithm. -/
theorem log_eq_log2 {m : ℕ} {e : ℤ} (hv : 0 < v) (hpos : 0 < m) (hm : ⌊v / 2 ^ e⌋₊ = m) :
    Int.log 2 v = m.log2 + e := by
  obtain ⟨hlow, hhigh⟩ := (Nat.floor_eq_iff (by positivity)).mp hm
  rw [le_div_iff₀ (two_zpow_pos e)] at hlow
  rw [div_lt_iff₀ (two_zpow_pos e)] at hhigh
  refine log_eq hv ?_ ?_
  · have hself : ((2 ^ m.log2 : ℕ) : ℚ) ≤ m := by
      exact_mod_cast Nat.log2_self_le hpos.ne'
    calc (2 : ℚ) ^ ((m.log2 : ℤ) + e) = ((2 ^ m.log2 : ℕ) : ℚ) * 2 ^ e := by
          rw [zpow_add₀ two_ne_zero, zpow_natCast]
          push_cast
          rfl
      _ ≤ m * 2 ^ e := by gcongr
      _ ≤ v := hlow
  · have hself : ((m + 1 : ℕ) : ℚ) ≤ ((2 ^ (m.log2 + 1) : ℕ) : ℚ) := by
      exact_mod_cast Nat.lt_log2_self
    calc v < ((m + 1 : ℕ) : ℚ) * 2 ^ e := by exact_mod_cast hhigh
      _ ≤ ((2 ^ (m.log2 + 1) : ℕ) : ℚ) * 2 ^ e := by gcongr
      _ = (2 : ℚ) ^ ((m.log2 : ℤ) + e + 1) := by
        rw [add_right_comm, zpow_add₀ two_ne_zero]
        norm_cast

/-- The exponent to which the model shifts is that of the last place. -/
theorem targetExponent_of_pos {m : ℕ} {e : ℤ} (hv : 0 < v) (hpos : 0 < m)
    (hm : ⌊v / 2 ^ e⌋₊ = m) : Format.binary64.targetExponent (totalExponent m e) = unit v := by
  show max ((m.log2 : ℤ) + 1 + e - 53) (-1074) = unit v
  rw [unit, log_eq_log2 hv hpos hm]
  omega

theorem targetExponent_eq {m : ℕ} {e : ℤ} (hv : 0 < v) (he : e ≤ unit v)
    (hm : ⌊v / 2 ^ e⌋₊ = m) : Format.binary64.targetExponent (totalExponent m e) = unit v := by
  rcases Nat.eq_zero_or_pos m with rfl | hpos
  · -- Less than one place is left, so the number is among the smallest.
    have hlt : v / 2 ^ e < 1 := Nat.floor_eq_zero.mp hm
    rw [div_lt_one (two_zpow_pos e)] at hlt
    have hlog : Int.log 2 v < e :=
      (Int.lt_zpow_iff_log_lt one_lt_two hv).mp (by exact_mod_cast hlt)
    show max ((Nat.log2 0 : ℤ) + 1 + e - 53) (-1074) = unit v
    unfold unit at he ⊢
    rw [Nat.log2_zero]
    omega
  · exact targetExponent_of_pos hv hpos hm

/-- The first shift leads to the last place of the number. -/
theorem shiftToTargetExponent_eq {m : ℕ} {e : ℤ} {acc : Accuracy} (hv : 0 < v) (he : e ≤ unit v)
    (hm : ExtendedMantissa.ofMantissaAndAccuracy m acc = extended (v / 2 ^ e)) :
    shiftToTargetExponent .binary64 m e acc = (extended (v / 2 ^ unit v), unit v) := by
  have hfloor : ⌊v / 2 ^ e⌋₊ = m := by
    have h := congrArg ExtendedMantissa.mantissa hm
    unfold ExtendedMantissa.ofMantissaAndAccuracy at h
    split at h <;> exact h.symm
  have hamount : e + ((unit v - e).toNat : ℤ) = unit v := by omega
  have hshift : v / 2 ^ e / 2 ^ (unit v - e).toNat = v / 2 ^ unit v := by
    rw [div_div, ← zpow_natCast, ← zpow_add₀ two_ne_zero, hamount]
  rw [shiftToTargetExponent, targetExponent_eq hv he hfloor]
  show (ExtendedMantissa.ofMantissaAndAccuracy m acc >>> (unit v - e).toNat,
    e + ((unit v - e).toNat : ℤ)) = _
  rw [hm, shiftRight_extended (by positivity), hshift, hamount]

/-- The second shift does nothing to a mantissa of at most 53 places. -/
theorem shiftToTargetExponent_of_lt {q : ℕ} {t : ℤ} (hq : q < 2 ^ 53) (ht : -1074 ≤ t) :
    shiftToTargetExponent .binary64 q t .exact = (⟨q, false, false⟩, t) := by
  have hlog : q.log2 < 53 := by
    rcases Nat.eq_zero_or_pos q with rfl | hpos
    · decide
    · exact (Nat.log2_lt hpos.ne').mpr hq
  have htarget : (Format.binary64.targetExponent (totalExponent q t) - t).toNat = 0 := by
    show (max ((q.log2 : ℤ) + 1 + t - 53) (-1074) - t).toNat = 0
    omega
  rw [shiftToTargetExponent, shiftToExponent, htarget, Nat.cast_zero, add_zero]
  rfl

/-- The second shift halves a mantissa that was rounded up to a power of two. -/
theorem shiftToTargetExponent_of_eq {t : ℤ} (ht : -1074 ≤ t) :
    shiftToTargetExponent .binary64 (2 ^ 53) t .exact = (⟨2 ^ 52, false, false⟩, t + 1) := by
  have htarget : (Format.binary64.targetExponent (totalExponent (2 ^ 53) t) - t).toNat = 1 := by
    show (max (((2 ^ 53 : ℕ).log2 : ℤ) + 1 + t - 53) (-1074) - t).toNat = 1
    rw [Nat.log2_two_pow]
    omega
  rw [shiftToTargetExponent, shiftToExponent, htarget]
  rfl

/-- The model rounds a number to the double that is nearest to it. -/
theorem roundWithAccuracy_eq {m : ℕ} {e : ℤ} {acc : Accuracy} (hv : 0 < v) (he : e ≤ unit v)
    (hm : ExtendedMantissa.ofMantissaAndAccuracy m acc = extended (v / 2 ^ e)) (s : Sign) :
    (roundWithAccuracy .binary64 s m e acc = .zero s ∧ nearest v = 0) ∨
    ∃ m' e' h, roundWithAccuracy .binary64 s m e acc = .finite s m' e' h ∧
      Canonical m' e' ∧ (m' : ℚ) * 2 ^ e' = nearest v := by
  have hunit : -1074 ≤ unit v := le_max_right _ _
  have hround : (extended (v / 2 ^ unit v)).roundedMantissa = mantissa v := rfl
  unfold roundWithAccuracy
  simp only [shiftToTargetExponent_eq hv he hm, hround]
  rcases Nat.lt_or_eq_of_le (mantissa_le hv) with hlt | heq
  · simp only [shiftToTargetExponent_of_lt hlt hunit]
    -- A number may be so small that nothing is left of it.
    by_cases hzero : mantissa v = 0
    · exact .inl ⟨by simp [hzero], by simp [nearest, hzero]⟩
    · refine .inr ⟨mantissa v, unit v, Nat.pos_of_ne_zero hzero, by simp [hzero], ?_, rfl⟩
      refine ⟨Nat.pos_of_ne_zero hzero, hlt, hunit, ?_⟩
      by_cases hsmall : unit v = -1074
      · exact .inr hsmall
      · exact .inl (le_mantissa hv hsmall)
  · -- Rounded up to a power of two, the mantissa has one place too many.
    simp only [heq, shiftToTargetExponent_of_eq hunit]
    have hcanonical : Canonical (2 ^ 52) (unit v + 1) :=
      ⟨by norm_num, by norm_num, by omega, .inl (le_refl _)⟩
    refine .inr ⟨2 ^ 52, unit v + 1, by norm_num, by simp, hcanonical, ?_⟩
    rw [nearest, heq, zpow_add_one₀ two_ne_zero]
    push_cast
    ring

/-- The model rounds a mantissa and an exponent to the double that is nearest to them. -/
theorem round_eq {m : ℕ} {e : ℤ} (hpos : 0 < m) (s : Sign) :
    (UnpackedFloat.round .binary64 s m e = .zero s ∧ nearest ((m : ℚ) * 2 ^ e) = 0) ∨
    ∃ m' e' h, UnpackedFloat.round .binary64 s m e = .finite s m' e' h ∧
      Canonical m' e' ∧ (m' : ℚ) * 2 ^ e' = nearest ((m : ℚ) * 2 ^ e) := by
  have hcast : (0 : ℚ) < m := by exact_mod_cast hpos
  have hv : (0 : ℚ) < m * 2 ^ e := by positivity
  have hfloor : ⌊(m : ℚ) * 2 ^ e / 2 ^ e⌋₊ = m := by
    rw [mul_div_cancel_right₀ _ (two_zpow_pos e).ne', Nat.floor_natCast]
  unfold UnpackedFloat.round decreaseExponent
  simp only [targetExponent_of_pos hv hpos hfloor]
  generalize hk : (e - unit ((m : ℚ) * 2 ^ e)).toNat = k
  refine roundWithAccuracy_eq hv (by omega) ?_ s
  -- A smaller exponent leaves a whole mantissa.
  have hwhole : (m : ℚ) * 2 ^ e / 2 ^ (e - (k : ℤ)) = ((m <<< k : ℕ) : ℚ) := by
    rw [mul_div_assoc, ← zpow_sub₀ two_ne_zero, sub_sub_cancel, zpow_natCast, Nat.shiftLeft_eq]
    push_cast
    rfl
  rw [hwhole, extended_natCast]

end Double

end LayerAnimation
