import LayerAnimation.Proofs.Double.Order

/-!
# Products and quotients of doubles

The place of the result of an operation on positive doubles is the exact result, rounded.  Rounding
is monotone, so the operations are, whatever is lost on the way.

- `Double.rounded` is the place to which a number is rounded; what is too large goes to infinity.
- `Double.placeOf?_mul` and `Double.placeOf?_div` are the operations; `Double.div_eq` divides numbers of
  any sign.
- `Double.placeOf?_ofNat` is the place of a whole number.
-/

open Float.Model Float.Model.UnpackedFloat

namespace LayerAnimation

namespace Double

/-! ## §1 The place to which a number is rounded -/

/-- The place of a number, at infinity if it is too large for a double. -/
def capped (q : ℚ) : Line :=
  if 2 ^ 1024 ≤ q then ⊤ else point q

/-- The place to which a number is rounded. -/
def rounded (v : ℚ) : Line :=
  capped (nearest v)

theorem capped_mono {q r : ℚ} (h : q ≤ r) : capped q ≤ capped r := by
  unfold capped
  split
  · next hq => rw [if_pos (hq.trans h)]
  · split
    · exact le_top
    · exact point_le_point.mpr h

/-- Rounding keeps the order. -/
theorem rounded_mono {v w : ℚ} (hv : 0 < v) (h : v ≤ w) : rounded v ≤ rounded w :=
  capped_mono (nearest_mono hv h)

/-- Nothing is rounded to a place below zero. -/
theorem zero_le_rounded (v : ℚ) : point 0 ≤ rounded v := by
  have hnearest : 0 ≤ nearest v := by
    unfold nearest
    positivity
  have hzero : capped 0 = point 0 := if_neg (by norm_num)
  exact hzero ▸ capped_mono hnearest

/-- A number with a full mantissa is too large exactly if its exponent is. -/
theorem Canonical.le_value_iff {m : ℕ} {e : ℤ} (h : Canonical m e) :
    (2 : ℚ) ^ 1024 ≤ m * 2 ^ e ↔ 971 < e := by
  constructor
  · intro hle
    -- The greatest finite double has the mantissa of 53 ones and the exponent 971.
    by_contra hlt
    have hm : (m : ℚ) < 2 ^ 53 := by exact_mod_cast h.lt
    have hval : (m : ℚ) * 2 ^ e < 2 ^ 1024 := by
      calc (m : ℚ) * 2 ^ e < 2 ^ 53 * 2 ^ e := by gcongr
        _ ≤ 2 ^ 53 * (2 : ℚ) ^ (971 : ℤ) := by
          gcongr
          · exact one_le_two
          · omega
        _ = 2 ^ 1024 := by rw [zpow_ofNat, ← pow_add]
    exact absurd hle (not_le.mpr hval)
  · intro hlt
    have hm : (2 : ℚ) ^ 52 ≤ m := by
      exact_mod_cast h.full.resolve_right (by omega)
    calc (2 : ℚ) ^ 1024 = 2 ^ 52 * (2 : ℚ) ^ (972 : ℤ) := by rw [zpow_ofNat, ← pow_add]
      _ ≤ 2 ^ 52 * (2 : ℚ) ^ e := by
        gcongr
        · exact one_le_two
        · omega
      _ ≤ m * 2 ^ e := by gcongr

/-- What a double can hold is left as it is. -/
theorem rounded_value {m : ℕ} {e : ℤ} (h : Canonical m e) (he : e ≤ 971) :
    rounded ((m : ℚ) * 2 ^ e) = point (m * 2 ^ e) := by
  rw [rounded, h.nearest_value, capped, if_neg]
  rw [h.le_value_iff]
  omega

/-- The place of what the model rounded, after it was packed. -/
theorem place?_of_rounded {f : UnpackedFloat} {v : ℚ}
    (h : (f = .zero .positive ∧ nearest v = 0) ∨
      ∃ m e hm, f = .finite .positive m e hm ∧ Canonical m e ∧ (m : ℚ) * 2 ^ e = nearest v) :
    place? (UnpackedFloat.unpack .binary64 (UnpackedFloat.pack .binary64 f))
      = some (rounded v) := by
  rcases h with ⟨rfl, hzero⟩ | ⟨m, e, hm, rfl, hcanonical, hvalue⟩
  · have hplace : capped 0 = point 0 := if_neg (by norm_num)
    rw [unpack_pack (f := .zero .positive) trivial, rounded, hzero, hplace]
    rfl
  · rw [rounded, ← hvalue, capped]
    by_cases he : 971 < e
    · rw [unpack_pack_of_overflow he, if_pos (hcanonical.le_value_iff.mpr he)]
      rfl
    · rw [unpack_pack (f := .finite .positive m e hm) ⟨hcanonical, by omega⟩,
        if_neg (mt hcanonical.le_value_iff.mp he)]
      rfl

/-! ## §2 Operations on positive doubles -/

theorem point_inj {q r : ℚ} : point q = point r ↔ q = r := by
  simp [point]

/-- A double at a positive place has a mantissa and an exponent. -/
theorem exists_finite {x : Float} {q : ℚ} (hx : placeOf? x = some (point q)) (hq : 0 < q) :
    ∃ m e hm, x.toModel.unpack = .finite .positive m e hm ∧ Canonical m e ∧ e ≤ 971 ∧
      (m : ℚ) * 2 ^ e = q := by
  have hfits := fits_toModel x
  unfold placeOf? at hx
  generalize x.toModel.unpack = f at hx hfits
  -- All other kinds of doubles stand elsewhere.
  rcases f with ⟨_ | _⟩ | _ | ⟨s⟩ | ⟨_ | _, m, e, hm⟩ <;>
    simp only [place?, Option.some.injEq, point_inj, reduceCtorEq] at hx
  · exact absurd hx (bot_lt_point q).ne
  · exact absurd hx (point_lt_top q).ne'
  · exact absurd hx hq.ne
  · have hcast : (0 : ℚ) < m := by exact_mod_cast hm
    have hneg : -((m : ℚ) * 2 ^ e) < 0 := neg_neg_of_pos (by positivity)
    linarith
  · exact ⟨m, e, hm, rfl, hfits.1, hfits.2, hx⟩

/-- A whole mantissa at an exponent that is not too large is exact. -/
theorem ofMantissaAndAccuracy_eq (m : ℕ) (e : ℤ) :
    ExtendedMantissa.ofMantissaAndAccuracy m .exact = extended ((m : ℚ) * 2 ^ e / 2 ^ e) := by
  rw [mul_div_cancel_right₀ _ (two_zpow_pos e).ne', extended_natCast]

/-- A mantissa that is shifted makes up for a lower exponent. -/
theorem shiftLeft_mul_zpow (m : ℕ) {e t : ℤ} (h : t ≤ e) :
    ((m <<< (e - t).toNat : ℕ) : ℚ) * 2 ^ t = m * 2 ^ e := by
  have hsplit : e = ((e - t).toNat : ℤ) + t := by omega
  rw [Nat.shiftLeft_eq]
  push_cast
  rw [mul_assoc, ← zpow_natCast, ← zpow_add₀ two_ne_zero, ← hsplit]

/-- The model divides by rounding the exact quotient, whatever the signs. -/
theorem div_eq {m n : ℕ} {e f : ℤ} (hm : 0 < m) (hn : 0 < n) (s s' : Sign) :
    (UnpackedFloat.div .binary64 (.finite s m e hm) (.finite s' n f hn) = .zero (s / s') ∧
      nearest ((m : ℚ) * 2 ^ e / (n * 2 ^ f)) = 0) ∨
    ∃ m' e' h, UnpackedFloat.div .binary64 (.finite s m e hm) (.finite s' n f hn)
        = .finite (s / s') m' e' h ∧
      Canonical m' e' ∧ (m' : ℚ) * 2 ^ e' = nearest ((m : ℚ) * 2 ^ e / (n * 2 ^ f)) := by
  have hmpos : (0 : ℚ) < m := by exact_mod_cast hm
  have hnpos : (0 : ℚ) < n := by exact_mod_cast hn
  have hv : 0 < (m : ℚ) * 2 ^ e / (n * 2 ^ f) := by positivity
  -- The model shifts the dividend until the quotient of the mantissas has enough places; `t` is the
  -- exponent that this leaves.
  obtain ⟨t, ht⟩ : ∃ t, t = min (e - f)
      (Format.binary64.targetExponent (totalExponent m e - totalExponent n f)) := ⟨_, rfl⟩
  have hquotient : UnpackedFloat.div .binary64 (.finite s m e hm) (.finite s' n f hn)
      = roundWithAccuracy .binary64 (s / s') (m <<< (e - f - t).toNat / n) t
          (accuracyOfFraction (m <<< (e - f - t).toNat % n) n) := by
    rw [ht]
    rfl
  -- In units of that exponent the exact quotient is a quotient of whole numbers.
  have hshift : (m : ℚ) * 2 ^ e / (n * 2 ^ f) / 2 ^ t
      = ((m <<< (e - f - t).toNat : ℕ) : ℚ) / n := by
    have hle : t ≤ e - f := ht ▸ min_le_left _ _
    calc (m : ℚ) * 2 ^ e / (n * 2 ^ f) / 2 ^ t = m * 2 ^ (e - f) / 2 ^ t / n := by
          rw [zpow_sub₀ two_ne_zero]
          field_simp
      _ = ((m <<< (e - f - t).toNat : ℕ) : ℚ) * 2 ^ t / 2 ^ t / n := by
        rw [shiftLeft_mul_zpow m hle]
      _ = ((m <<< (e - f - t).toNat : ℕ) : ℚ) / n := by
        rw [mul_div_cancel_right₀ _ (two_zpow_pos t).ne']
  -- The quotient has at most one place less than the difference of the places says.
  have hlog : (m.log2 : ℤ) + e - (n.log2 + 1 + f) ≤ Int.log 2 ((m : ℚ) * 2 ^ e / (n * 2 ^ f)) := by
    refine (Int.zpow_le_iff_le_log one_lt_two hv).mp ?_
    have hm' : (2 : ℚ) ^ (m.log2 : ℤ) ≤ m := by
      rw [zpow_natCast]
      exact_mod_cast Nat.log2_self_le hm.ne'
    have hn' : (n : ℚ) ≤ 2 ^ ((n.log2 : ℤ) + 1) := by
      exact_mod_cast Nat.lt_log2_self.le
    calc ((2 : ℕ) : ℚ) ^ ((m.log2 : ℤ) + e - (n.log2 + 1 + f))
        = 2 ^ (m.log2 : ℤ) * 2 ^ e / (2 ^ ((n.log2 : ℤ) + 1) * 2 ^ f) := by
          rw [Nat.cast_ofNat, zpow_sub₀ two_ne_zero, zpow_add₀ two_ne_zero,
            zpow_add₀ two_ne_zero _ f]
      _ ≤ m * 2 ^ e / (n * 2 ^ f) := by gcongr
  -- So the exponent is not above the one at which the quotient is rounded.
  have hunit : t ≤ unit ((m : ℚ) * 2 ^ e / (n * 2 ^ f)) := by
    have htarget : Format.binary64.targetExponent (totalExponent m e - totalExponent n f)
        = max (((m.log2 : ℤ) + 1 + e - (n.log2 + 1 + f)) - 53) (-1074) := rfl
    rw [ht, htarget, unit]
    omega
  rw [hquotient]
  refine roundWithAccuracy_eq hv hunit ?_ (s / s')
  rw [hshift, extended_div _ _ hn]

section Positive

variable {x y : Float} {q r : ℚ}

/-- A product of positive doubles is the exact product, rounded. -/
theorem placeOf?_mul (hx : placeOf? x = some (point q)) (hq : 0 < q)
    (hy : placeOf? y = some (point r)) (hr : 0 < r) :
    placeOf? (x * y) = some (rounded (q * r)) := by
  obtain ⟨m, e, hm, hxf, hxc, -, rfl⟩ := exists_finite hx hq
  obtain ⟨n, f, hn, hyf, hyc, -, rfl⟩ := exists_finite hy hr
  show place? (UnpackedFloat.unpack .binary64 (UnpackedFloat.pack .binary64
    (UnpackedFloat.mul .binary64 x.toModel.unpack y.toModel.unpack))) = _
  rw [hxf, hyf]
  -- The exact product is a whole number at the sum of the exponents.
  have hvalue : (m : ℚ) * 2 ^ e * (n * 2 ^ f) = ((m * n : ℕ) : ℚ) * 2 ^ (e + f) := by
    rw [zpow_add₀ two_ne_zero]
    push_cast
    ring
  have hv : 0 < (m : ℚ) * 2 ^ e * (n * 2 ^ f) := mul_pos hq hr
  have hmn : 0 < m * n := Nat.mul_pos hm hn
  rw [hvalue] at hv ⊢
  have hlog : Int.log 2 (((m * n : ℕ) : ℚ) * 2 ^ (e + f)) = (m * n).log2 + (e + f) := by
    refine log_eq_log2 hv hmn ?_
    rw [mul_div_cancel_right₀ _ (two_zpow_pos _).ne', Nat.floor_natCast]
  -- One of the mantissas has 53 places, or both numbers are among the smallest.
  have hunit : e + f ≤ unit (((m * n : ℕ) : ℚ) * 2 ^ (e + f)) := by
    unfold unit
    rw [hlog]
    have he := hxc.full
    have hf := hyc.full
    by_cases hbig : 2 ^ 52 ≤ m * n
    · have hplaces : 52 ≤ (m * n).log2 := (Nat.le_log2 hmn.ne').mpr hbig
      omega
    · have hm52 : ¬ 2 ^ 52 ≤ m := fun h => hbig (h.trans (Nat.le_mul_of_pos_right m hn))
      have hn52 : ¬ 2 ^ 52 ≤ n := fun h => hbig (h.trans (Nat.le_mul_of_pos_left n hm))
      omega
  exact place?_of_rounded (roundWithAccuracy_eq hv hunit (ofMantissaAndAccuracy_eq _ _) .positive)

/-- A quotient of positive doubles is the exact quotient, rounded. -/
theorem placeOf?_div (hx : placeOf? x = some (point q)) (hq : 0 < q)
    (hy : placeOf? y = some (point r)) (hr : 0 < r) :
    placeOf? (x / y) = some (rounded (q / r)) := by
  obtain ⟨m, e, hm, hxf, -, -, rfl⟩ := exists_finite hx hq
  obtain ⟨n, f, hn, hyf, -, -, rfl⟩ := exists_finite hy hr
  show place? (UnpackedFloat.unpack .binary64 (UnpackedFloat.pack .binary64
    (UnpackedFloat.div .binary64 x.toModel.unpack y.toModel.unpack))) = _
  rw [hxf, hyf]
  exact place?_of_rounded (div_eq hm hn .positive .positive)

end Positive

/-! ## §3 Whole numbers -/

theorem unpack_one : (Float.ofBits 0x3FF0000000000000).toModel.unpack
    = .finite .positive (2 ^ 52) (-52) (Nat.two_pow_pos 52) := by
  rfl

theorem placeOf?_one : placeOf? (Float.ofBits 0x3FF0000000000000) = some (point 1) := by
  rw [placeOf?, unpack_one]
  norm_num [place?]

/-- Whole numbers below 2⁵³ are doubles. -/
theorem rounded_natCast_of_lt {n : ℕ} (hpos : 0 < n) (hn : n < 2 ^ 53) :
    rounded (n : ℚ) = point n := by
  have hcast : (0 : ℚ) < n := by exact_mod_cast hpos
  have hlog : Int.log 2 (n : ℚ) < 53 :=
    (Int.lt_zpow_iff_log_lt one_lt_two hcast).mp (by exact_mod_cast hn)
  -- The unit of such a number is at most one, so that the number is a multiple of it.
  obtain ⟨k, hk⟩ : ∃ k : ℕ, unit (n : ℚ) = -(k : ℤ) := by
    refine ⟨(-unit (n : ℚ)).toNat, ?_⟩
    unfold unit
    omega
  have hwhole : (n : ℚ) / 2 ^ unit (n : ℚ) = ((n * 2 ^ k : ℕ) : ℚ) := by
    rw [hk, zpow_neg, div_inv_eq_mul, zpow_natCast]
    push_cast
    rfl
  have hnearest : nearest (n : ℚ) = n := by
    rw [nearest, mantissa, hwhole, nearestEven_natCast, ← hwhole,
      div_mul_cancel₀ _ (two_zpow_pos _).ne']
  have hsmall : ¬ (2 : ℚ) ^ 1024 ≤ n := by
    rw [not_le]
    calc (n : ℚ) < 2 ^ 53 := by exact_mod_cast hn
      _ ≤ 2 ^ 1024 := pow_le_pow_right₀ one_le_two (by norm_num)
  rw [rounded, hnearest, capped, if_neg hsmall]

/-- A whole number is converted to the double next to it. -/
theorem placeOf?_ofNat {n : ℕ} (hpos : 0 < n) :
    placeOf? (Float.ofNat n) = some (rounded (n : ℚ)) := by
  have hcast : (0 : ℚ) < n := by exact_mod_cast hpos
  show placeOf? (Float.ofScientific n false 0) = _
  by_cases hn : n < 2 ^ 53
  · -- A small number is converted directly, and multiplied by one.
    have hdirect : placeOf? n.toUInt64.toFloat = some (point n) := by
      have htoNat : n.toUInt64.toNat = n := by
        rw [Nat.toUInt64_eq, UInt64.toNat_ofNat']
        omega
      have hround : UnpackedFloat.ofUInt64 .binary64 n.toUInt64
          = UnpackedFloat.round .binary64 .positive n 0 := by
        have hgt : (0 : ℤ) < n := by exact_mod_cast hpos
        rw [UnpackedFloat.ofUInt64, UnpackedFloat.ofNat, UnpackedFloat.ofInt,
          UnpackedFloat.normalize, htoNat, compare_gt_iff_gt.mpr hgt, Int.toNat_natCast]
      have hvalue : (n : ℚ) * 2 ^ (0 : ℤ) = n := by rw [zpow_zero, mul_one]
      show place? (UnpackedFloat.unpack .binary64 (UnpackedFloat.pack .binary64
        (UnpackedFloat.ofUInt64 .binary64 n.toUInt64))) = _
      rw [hround, place?_of_rounded (round_eq hpos .positive), hvalue,
        rounded_natCast_of_lt hpos hn]
    have hfast : Float.ofScientific n false 0
        = n.toUInt64.toFloat * Float.ofBits 0x3FF0000000000000 := by
      rw [Float.ofScientific, dif_pos ⟨hn, by decide⟩]
      rfl
    rw [hfast, placeOf?_mul hdirect hcast placeOf?_one one_pos, mul_one]
  -- A large number is shifted and rounded, as a numeral is.
  · have hslow : Float.ofScientific n false 0 = Float.ofModel (Float.Model.ofScientific n 0) := by
      rw [Float.ofScientific, dif_neg (fun h => hn h.1)]
      rfl
    have hsmall : ¬ (0 : ℤ) < -((2 ^ 11 : ℤ) + n.log2) := by omega
    have hscientific : UnpackedFloat.ofScientific .binary64 n 0
        = roundWithAccuracy .binary64 .positive (n <<< 53 * 1) (-53) .exact := by
      rw [UnpackedFloat.ofScientific, dif_neg hpos.ne', if_neg (by decide), if_neg hsmall,
        if_pos (le_refl _)]
      rfl
    have hunit : -53 ≤ unit (n : ℚ) := by
      have hlog : 0 ≤ Int.log 2 (n : ℚ) := by
        rw [Int.log_natCast]
        exact Int.natCast_nonneg _
      unfold unit
      omega
    have hwhole : (n : ℚ) / (2 : ℚ) ^ (-53 : ℤ) = ((n <<< 53 * 1 : ℕ) : ℚ) := by
      rw [Nat.shiftLeft_eq, mul_one, zpow_neg, div_inv_eq_mul]
      push_cast
      rfl
    rw [hslow]
    show place? (UnpackedFloat.unpack .binary64 (UnpackedFloat.pack .binary64
      (UnpackedFloat.ofScientific .binary64 n 0))) = _
    rw [hscientific]
    refine place?_of_rounded (roundWithAccuracy_eq hcast hunit ?_ .positive)
    rw [hwhole, extended_natCast]

/-- Whole numbers are converted in their order. -/
theorem placeOf?_ofNat_mono {m n : ℕ} (h : m ≤ n) :
    ∃ a b, placeOf? (Float.ofNat m) = some a ∧ placeOf? (Float.ofNat n) = some b ∧
      point 0 ≤ a ∧ a ≤ b := by
  have hzero : placeOf? (Float.ofNat 0) = some (point 0) := rfl
  rcases Nat.eq_zero_or_pos m with rfl | hm
  · rcases Nat.eq_zero_or_pos n with rfl | hn
    · exact ⟨_, _, hzero, hzero, le_refl _, le_refl _⟩
    · exact ⟨_, _, hzero, placeOf?_ofNat hn, le_refl _, zero_le_rounded _⟩
  · have hcast : (m : ℚ) ≤ n := by exact_mod_cast h
    exact ⟨_, _, placeOf?_ofNat hm, placeOf?_ofNat (hm.trans_le h), zero_le_rounded _,
      rounded_mono (by exact_mod_cast hm) hcast⟩

end Double

end LayerAnimation
