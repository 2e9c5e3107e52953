import LayerAnimation.Proofs.Double.Arithmetic

/-!
# Sums of either sign

The sum of two finite doubles is the exact sum, rounded, whatever the signs: both mantissas are
brought to one exponent and added with their signs, and rounding goes by the magnitude.

- `Double.landing` is the place to which a number of either sign is rounded; it is monotone and keeps
  doubles.
- `Double.placeOf?_add` is the place of a sum.
-/

open Float.Model Float.Model.UnpackedFloat

namespace LayerAnimation

namespace Double

variable {x y : Float} {q r v w : ℚ}

/-! ## §1 Rounding with a sign -/

/-- The place to which a number of either sign is rounded. -/
def landing (v : ℚ) : Line :=
  if 0 ≤ v then rounded v else if 2 ^ 1024 ≤ nearest (-v) then ⊥ else point (-nearest (-v))

theorem landing_of_nonneg (h : 0 ≤ v) : landing v = rounded v :=
  if_pos h

theorem landing_of_neg (h : v < 0) :
    landing v = if 2 ^ 1024 ≤ nearest (-v) then ⊥ else point (-nearest (-v)) :=
  if_neg (not_le.mpr h)

theorem nearest_nonneg (v : ℚ) : 0 ≤ nearest v := by
  unfold nearest
  positivity

theorem rounded_zero : rounded 0 = point 0 := by
  have hmantissa : mantissa 0 = 0 := by
    rw [mantissa, zero_div]
    exact nearestEven_natCast 0
  rw [rounded, nearest, hmantissa, Nat.cast_zero, zero_mul, capped, if_neg (by norm_num)]

theorem landing_nonpos (h : v ≤ 0) : landing v ≤ point 0 := by
  rcases h.lt_or_eq with h | rfl
  · rw [landing_of_neg h]
    split
    · exact bot_le
    · exact point_le_point.mpr (neg_nonpos.mpr (nearest_nonneg _))
  · rw [landing_of_nonneg (le_refl _), rounded_zero]

/-- Rounding keeps the order of numbers of either sign. -/
theorem landing_mono (h : v ≤ w) : landing v ≤ landing w := by
  rcases lt_or_ge v 0 with hv | hv
  · rcases lt_or_ge w 0 with hw | hw
    · have hnearest : nearest (-w) ≤ nearest (-v) := nearest_mono (by linarith) (by linarith)
      rw [landing_of_neg hv, landing_of_neg hw]
      split_ifs with hv' hw' hw'
      · exact le_refl _
      · exact bot_le
      · exact absurd (hw'.trans hnearest) hv'
      · exact point_le_point.mpr (neg_le_neg hnearest)
    · rw [landing_of_nonneg hw]
      exact (landing_nonpos hv.le).trans (zero_le_rounded w)
  · rw [landing_of_nonneg hv, landing_of_nonneg (hv.trans h)]
    rcases hv.lt_or_eq with hv | rfl
    · exact rounded_mono hv h
    · exact rounded_zero ▸ zero_le_rounded w

/-! ## §2 Finite doubles -/

theorem place?_finite (s : Sign) (m : ℕ) (e : ℤ) (hm : 0 < m) :
    place? (.finite s m e hm) = some (point ((s.apply m : ℤ) * 2 ^ e)) := by
  cases s <;> simp [place?, Sign.apply]

/-- The doubles at a point are the zeros and the numbers other than zero. -/
theorem finite_cases (hx : placeOf? x = some (point q)) :
    (∃ s, x.toModel.unpack = .zero s ∧ q = 0) ∨ ∃ s m e hm, x.toModel.unpack = .finite s m e hm ∧
      ((s.apply m : ℤ) : ℚ) * 2 ^ e = q := by
  unfold placeOf? at hx
  generalize x.toModel.unpack = f at hx
  rcases f with ⟨_ | _⟩ | _ | s | ⟨s, m, e, hm⟩
  · exact absurd (Option.some.inj hx) (bot_lt_point q).ne
  · exact absurd (Option.some.inj hx) (point_lt_top q).ne'
  · cases hx
  · exact .inl ⟨s, rfl, (point_inj.mp (Option.some.inj hx)).symm⟩
  · rw [place?_finite] at hx
    exact .inr ⟨s, m, e, hm, rfl, point_inj.mp (Option.some.inj hx)⟩

/-- A double is not changed by rounding. -/
theorem landing_eq_point (hx : placeOf? x = some (point q)) : landing q = point q := by
  have hfits := fits_toModel x
  rcases finite_cases hx with ⟨-, -, rfl⟩ | ⟨_ | _, m, e, hm, hf, rfl⟩
  · rw [landing_of_nonneg (le_refl _), rounded_zero]
  · rw [hf] at hfits
    have hvalue : ((Sign.negative.apply m : ℤ) : ℚ) * 2 ^ e = -(m * 2 ^ e) := by
      simp [Sign.apply]
    have hsmall : ¬ (2 : ℚ) ^ 1024 ≤ m * 2 ^ e :=
      mt hfits.1.le_value_iff.mp (not_lt.mpr hfits.2)
    rw [hvalue, landing_of_neg (neg_neg_of_pos hfits.1.value_pos), neg_neg, hfits.1.nearest_value,
      if_neg hsmall]
  · rw [hf] at hfits
    have hvalue : ((Sign.positive.apply m : ℤ) : ℚ) * 2 ^ e = m * 2 ^ e := by
      simp [Sign.apply]
    rw [hvalue, landing_of_nonneg hfits.1.value_pos.le, rounded_value hfits.1 hfits.2]

/-- The place of what the model rounded to a negative number, after it was packed. -/
theorem place?_of_rounded_neg {f : UnpackedFloat} (hv : 0 < v)
    (h : (f = .zero .negative ∧ nearest v = 0) ∨
      ∃ m e hm, f = .finite .negative m e hm ∧ Canonical m e ∧ (m : ℚ) * 2 ^ e = nearest v) :
    place? (UnpackedFloat.unpack .binary64 (UnpackedFloat.pack .binary64 f))
      = some (landing (-v)) := by
  rw [landing_of_neg (neg_neg_of_pos hv), neg_neg]
  rcases h with ⟨rfl, hzero⟩ | ⟨m, e, hm, rfl, hcanonical, hvalue⟩
  · rw [unpack_pack (f := .zero .negative) trivial, hzero, neg_zero, if_neg (by norm_num)]
    rfl
  · rw [← hvalue]
    by_cases he : 971 < e
    · rw [unpack_pack_of_overflow he, if_pos (hcanonical.le_value_iff.mpr he)]
      rfl
    · rw [unpack_pack (f := .finite .negative m e hm) ⟨hcanonical, by omega⟩,
        if_neg (mt hcanonical.le_value_iff.mp he)]
      rfl

/-! ## §3 Sums -/

/-- What the model makes of a sum that was formed exactly. -/
theorem place?_normalize (m e : ℤ) :
    place? (UnpackedFloat.unpack .binary64 (UnpackedFloat.pack .binary64
      (UnpackedFloat.normalize .binary64 m e .positive))) = some (landing (m * 2 ^ e)) := by
  -- The sign is taken off before rounding and put on again after it.
  rcases lt_trichotomy m 0 with hm | rfl | hm
  · obtain ⟨n, rfl⟩ : ∃ n : ℕ, m = -(n : ℤ) := ⟨m.natAbs, by omega⟩
    have hn : 0 < n := by omega
    have hpos : (0 : ℚ) < n * 2 ^ e := mul_pos (by exact_mod_cast hn) (two_zpow_pos e)
    rw [UnpackedFloat.normalize, compare_lt_iff_lt.mpr hm, neg_neg, Int.toNat_natCast, Int.cast_neg,
      Int.cast_natCast, neg_mul]
    exact place?_of_rounded_neg hpos (round_eq hn .negative)
  · rw [UnpackedFloat.normalize, compare_eq_iff_eq.mpr rfl, Int.cast_zero, zero_mul,
      landing_of_nonneg (le_refl _), rounded_zero]
    exact congrArg place? (unpack_pack (f := .zero .positive) trivial)
  · obtain ⟨n, rfl⟩ : ∃ n : ℕ, m = n := ⟨m.toNat, by omega⟩
    have hn : 0 < n := by omega
    rw [UnpackedFloat.normalize, compare_gt_iff_gt.mpr hm, Int.toNat_natCast, Int.cast_natCast,
      landing_of_nonneg (by positivity)]
    exact place?_of_rounded (round_eq hn .positive)

/-- A mantissa is brought to a smaller exponent with its sign. -/
theorem apply_shiftLeft_mul_zpow (s : Sign) (m : ℕ) {e t : ℤ} (h : t ≤ e) :
    ((s.apply ((m <<< (e - t).toNat : ℕ) : ℤ) : ℤ) : ℚ) * 2 ^ t = (s.apply m : ℤ) * 2 ^ e := by
  have hshift := shiftLeft_mul_zpow m h
  cases s with
  | positive => simpa only [Sign.apply, Int.cast_natCast] using hshift
  | negative => simpa only [Sign.apply, Int.cast_neg, Int.cast_natCast, neg_mul, neg_inj] using hshift

theorem placeOf?_add_zero {s : Sign} (hy : y.toModel.unpack = .zero s) :
    placeOf? (x + y) = placeOf? x := by
  have hfits := fits_toModel x
  show place? (UnpackedFloat.unpack .binary64 (UnpackedFloat.pack .binary64
    (UnpackedFloat.add .binary64 x.toModel.unpack y.toModel.unpack))) = place? x.toModel.unpack
  rw [hy]
  generalize x.toModel.unpack = f at hfits
  rcases f with s' | _ | s' | ⟨s', m, e, hm⟩
  · exact congrArg place? (unpack_pack hfits)
  · exact congrArg place? (unpack_pack hfits)
  · rw [UnpackedFloat.add]
    split
    · exact congrArg place? (unpack_pack hfits)
    · rw [unpack_pack (f := .zero .positive) trivial]
      rfl
  · exact congrArg place? (unpack_pack hfits)

theorem placeOf?_zero_add {s : Sign} (hx : x.toModel.unpack = .zero s) :
    placeOf? (x + y) = placeOf? y := by
  have hfits := fits_toModel y
  show place? (UnpackedFloat.unpack .binary64 (UnpackedFloat.pack .binary64
    (UnpackedFloat.add .binary64 x.toModel.unpack y.toModel.unpack))) = place? y.toModel.unpack
  rw [hx]
  generalize y.toModel.unpack = f at hfits
  rcases f with s' | _ | s' | ⟨s', m, e, hm⟩
  · exact congrArg place? (unpack_pack hfits)
  · exact congrArg place? (unpack_pack hfits)
  · rw [UnpackedFloat.add]
    split
    · rw [unpack_pack (f := .zero s) trivial]
      rfl
    · rw [unpack_pack (f := .zero .positive) trivial]
      rfl
  · exact congrArg place? (unpack_pack hfits)

/-- The sum of finite doubles is the exact sum, rounded. -/
theorem placeOf?_add (hx : placeOf? x = some (point q)) (hy : placeOf? y = some (point r)) :
    placeOf? (x + y) = some (landing (q + r)) := by
  rcases finite_cases hx with ⟨s, hs, rfl⟩ | ⟨s, m, e, hm, hf, rfl⟩
  · rw [placeOf?_zero_add hs, hy, zero_add, landing_eq_point hy]
  · rcases finite_cases hy with ⟨s', hs', rfl⟩ | ⟨s', n, f, hn, hf', rfl⟩
    · rw [placeOf?_add_zero hs', hx, add_zero, landing_eq_point hx]
    · show place? (UnpackedFloat.unpack .binary64 (UnpackedFloat.pack .binary64
        (UnpackedFloat.add .binary64 x.toModel.unpack y.toModel.unpack))) = _
      -- Both mantissas are brought to the smaller exponent, where they can be added.
      have hsum : UnpackedFloat.add .binary64 (.finite s m e hm) (.finite s' n f hn)
          = UnpackedFloat.normalize .binary64 (s.apply ((m <<< (e - min e f).toNat : ℕ) : ℤ)
              + s'.apply ((n <<< (f - min e f).toNat : ℕ) : ℤ)) (min e f) .positive := rfl
      rw [hf, hf', hsum, place?_normalize, Int.cast_add, add_mul,
        apply_shiftLeft_mul_zpow s m (min_le_left e f),
        apply_shiftLeft_mul_zpow s' n (min_le_right e f)]

end Double

end LayerAnimation
