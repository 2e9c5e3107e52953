import LayerAnimation.Proofs.Double.Zeros

/-!
# Differences of doubles

What remains of a way is a difference, and how much of it has gone is a quotient of differences.

- `Double.placeOf?_sub` is the place of a difference.
- `Double.exists_placeOf?_div` says when a quotient reaches one: as soon as the dividend reaches the
  divisor, and not before.
- `Double.times_one` says that the whole of a number is that number.
-/

open Float.Model Float.Model.UnpackedFloat

namespace LayerAnimation

namespace Double

variable {x y : Float} {q r : ℚ}

/-! ## §1 One double at every place -/

/-- A double is known by its unpacked number. -/
theorem eq_of_unpack_eq (h : x.toModel.unpack = y.toModel.unpack) : x = y := by
  have hbits : x.toModel.toBits.toBitVec = y.toModel.toBits.toBitVec := by
    rw [← pack_unpack_of_valid x.toModel.valid, ← pack_unpack_of_valid y.toModel.valid]
    exact congrArg (UnpackedFloat.pack .binary64) h
  obtain ⟨⟨b, hb⟩⟩ := x
  obtain ⟨⟨c, hc⟩⟩ := y
  obtain rfl : b = c := UInt64.toBitVec_inj.mp hbits
  rfl

/-- Mantissas and exponents of the same value are the same. -/
theorem Canonical.eq_of_value_eq {m n : ℕ} {e f : ℤ} (h : Canonical m e) (h' : Canonical n f)
    (hvalue : (m : ℚ) * 2 ^ e = n * 2 ^ f) : m = n ∧ e = f := by
  have hsame := h.cmp_value h'
  rw [hvalue, cmp_self_eq_eq, eq_comm, Ordering.then_eq_eq, compare_eq_iff_eq, compare_eq_iff_eq]
    at hsame
  exact hsame.symm

/-- Only the double one lies at one. -/
theorem eq_one_of_place (h : placeOf? x = some (point 1)) : x = 1.0 := by
  obtain ⟨m, e, hm, hf, hcanonical, -, hvalue⟩ := exists_finite h one_pos
  obtain ⟨n, f, hn, hf', hcanonical', -, hvalue'⟩ := exists_finite placeOf?_one one_pos
  obtain ⟨rfl, rfl⟩ := hcanonical.eq_of_value_eq hcanonical' (hvalue.trans hvalue'.symm)
  exact eq_of_unpack_eq (hf.trans hf'.symm)

/-- The whole of a number is that number. -/
theorem times_one (z : Float) : z * 1.0 = z := by
  have hfits := fits_toModel z
  apply eq_of_unpack_eq
  show UnpackedFloat.unpack .binary64 (UnpackedFloat.pack .binary64
    (UnpackedFloat.mul .binary64 z.toModel.unpack
      (Float.ofBits 0x3FF0000000000000).toModel.unpack)) = _
  rw [unpack_one]
  have hmul : UnpackedFloat.mul .binary64 z.toModel.unpack
      (.finite .positive (2 ^ 52) (-52) (Nat.two_pow_pos 52)) = z.toModel.unpack := by
    generalize z.toModel.unpack = f at hfits
    rcases f with s | _ | s | ⟨s, m, e, hm⟩
    · cases s <;> rfl
    · rfl
    · cases s <;> rfl
    · obtain ⟨hcanonical, -⟩ := hfits
      have hvalue : ((m * 2 ^ 52 : ℕ) : ℚ) * 2 ^ (e + -52) = m * 2 ^ e := by
        rw [zpow_add₀ two_ne_zero]
        push_cast
        norm_num [mul_assoc, mul_comm, mul_left_comm]
      have hpos : (0 : ℚ) < ((m * 2 ^ 52 : ℕ) : ℚ) * 2 ^ (e + -52) := hvalue ▸ hcanonical.value_pos
      have hunit : e + -52 ≤ unit (((m * 2 ^ 52 : ℕ) : ℚ) * 2 ^ (e + -52)) := by
        rw [hvalue, hcanonical.unit_value]
        omega
      have hsign : s * .positive = s := by cases s <;> rfl
      -- Rounding the value of a double gives its own mantissa and exponent.
      rcases roundWithAccuracy_eq hpos hunit (ofMantissaAndAccuracy_eq _ _) s with
        ⟨-, hzero⟩ | ⟨n, f, hn, hround, hcanonical', hrounded⟩
      · rw [hvalue, hcanonical.nearest_value] at hzero
        exact absurd hzero hcanonical.value_pos.ne'
      · rw [hvalue, hcanonical.nearest_value] at hrounded
        obtain ⟨rfl, rfl⟩ := hcanonical'.eq_of_value_eq hcanonical hrounded
        rw [UnpackedFloat.mul, hsign, hround]
  rw [hmul, unpack_pack hfits]

/-! ## §2 Differences -/

theorem fits_neg {f : UnpackedFloat} (h : Fits f) : Fits f.neg := by
  cases f <;> exact h

theorem unpack_neg (x : Float) : (-x).toModel.unpack = x.toModel.unpack.neg :=
  unpack_pack (fits_neg (fits_toModel x))

theorem placeOf?_neg (hx : placeOf? x = some (point q)) : placeOf? (-x) = some (point (-q)) := by
  rcases finite_cases hx with ⟨s, hs, rfl⟩ | ⟨s, m, e, hm, hf, rfl⟩
  · rw [placeOf?, unpack_neg, hs, neg_zero]
    rfl
  · rw [placeOf?, unpack_neg, hf]
    cases s with
    | positive => simp only [Sign.apply, Int.cast_natCast]; rfl
    | negative => simp only [Sign.apply, Int.cast_neg, Int.cast_natCast, neg_mul, neg_neg]; rfl

/-- A difference is a sum with the opposite number. -/
theorem sub_eq_add_opposite (x y : Float) : x - y = x + -y := by
  have hsub : UnpackedFloat.sub .binary64 x.toModel.unpack y.toModel.unpack
      = UnpackedFloat.add .binary64 x.toModel.unpack y.toModel.unpack.neg := by
    generalize x.toModel.unpack = f
    generalize y.toModel.unpack = g
    rcases f with s | _ | s | ⟨s, m, e, hm⟩ <;>
      rcases g with ⟨_ | _⟩ | _ | ⟨_ | _⟩ | ⟨_ | _, n, k, hn⟩ <;> try rfl
    -- The model subtracts a negative mantissa where it adds a positive one.
    exact congrArg (UnpackedFloat.normalize .binary64 · (min e k) .positive) (sub_neg_eq_add _ _)
  apply eq_of_unpack_eq
  show UnpackedFloat.unpack .binary64 (UnpackedFloat.pack .binary64
    (UnpackedFloat.sub .binary64 x.toModel.unpack y.toModel.unpack))
      = UnpackedFloat.unpack .binary64 (UnpackedFloat.pack .binary64
        (UnpackedFloat.add .binary64 x.toModel.unpack (-y).toModel.unpack))
  rw [unpack_neg, hsub]

/-- The difference of finite doubles is the exact difference, rounded. -/
theorem placeOf?_sub (hx : placeOf? x = some (point q)) (hy : placeOf? y = some (point r)) :
    placeOf? (x - y) = some (landing (q - r)) := by
  rw [sub_eq_add_opposite, placeOf?_add hx (placeOf?_neg hy), sub_eq_add_neg]

/-! ## §3 Quotients that reach one -/

/-- A number smaller than another one falls short of it by a whole unit of 53 places at least. -/
theorem Canonical.value_mul_le {m n : ℕ} {e f : ℤ} (h : Canonical m e) (h' : Canonical n f)
    (hlt : (m : ℚ) * 2 ^ e < n * 2 ^ f) :
    (m : ℚ) * 2 ^ e * 2 ^ 53 ≤ (2 ^ 53 - 1) * (n * 2 ^ f) := by
  have he := two_zpow_pos e
  rcases lt_trichotomy e f with hef | rfl | hef
  · -- Of the larger exponent there are 52 places at least, and each is worth two of the smaller.
    have hm : (m : ℚ) ≤ 2 ^ 53 - 1 := by
      have hm' : ((m + 1 : ℕ) : ℚ) ≤ ((2 ^ 53 : ℕ) : ℚ) := by exact_mod_cast h.lt
      push_cast at hm'
      linarith
    have hn : (2 : ℚ) ^ 52 ≤ n := by
      have hle := h.le
      exact_mod_cast h'.full.resolve_right (by omega)
    calc (m : ℚ) * 2 ^ e * 2 ^ 53 ≤ (2 ^ 53 - 1) * 2 ^ e * 2 ^ 53 := by gcongr
      _ = (2 ^ 53 - 1) * (2 ^ 52 * 2 ^ (e + 1)) := by
        rw [zpow_add_one₀ two_ne_zero]
        ring
      _ ≤ (2 ^ 53 - 1) * (n * 2 ^ f) := by
        have hpos : (0 : ℚ) ≤ 2 ^ 53 - 1 := by norm_num
        gcongr
        · exact one_le_two
        · omega
  · have hmn : ((m + 1 : ℕ) : ℚ) ≤ n := by
      exact_mod_cast lt_of_mul_lt_mul_right hlt he.le
    have hn : (n : ℚ) ≤ 2 ^ 53 := by exact_mod_cast h'.lt.le
    have hshort : (m : ℚ) * 2 ^ 53 ≤ (2 ^ 53 - 1) * n := by
      push_cast at hmn
      linarith
    calc (m : ℚ) * 2 ^ e * 2 ^ 53 = (m : ℚ) * 2 ^ 53 * 2 ^ e := mul_right_comm ..
      _ ≤ (2 ^ 53 - 1) * n * 2 ^ e := by gcongr
      _ = (2 ^ 53 - 1) * (n * 2 ^ e) := mul_assoc ..
  · exact absurd hlt (h'.value_lt_of_exponent_lt h hef).asymm

/-- Rounding does not carry a quotient up to one. -/
theorem landing_div_lt_one (hx : placeOf? x = some (point q)) (hy : placeOf? y = some (point r))
    (hr : 0 < r) (h : q < r) : landing (q / r) < point 1 := by
  rcases le_or_gt q 0 with hq | hq
  · exact (landing_nonpos (div_nonpos_of_nonpos_of_nonneg hq hr.le)).trans_lt
      (point_lt_point.mpr one_pos)
  · obtain ⟨m, e, -, -, hm, -, rfl⟩ := exists_finite hx hq
    obtain ⟨n, f, -, -, hn, -, rfl⟩ := exists_finite hy hr
    -- The greatest double below one has the mantissa of 53 ones, and no quotient of a smaller
    -- double by a greater one lies above it.
    have hlast : Canonical (2 ^ 53 - 1) (-53) :=
      ⟨by norm_num, by norm_num, by norm_num, .inl (by norm_num)⟩
    have hle : (m : ℚ) * 2 ^ e / (n * 2 ^ f) ≤ ((2 ^ 53 - 1 : ℕ) : ℚ) * 2 ^ (-53 : ℤ) := by
      have hshort := hm.value_mul_le hn h
      rw [div_le_iff₀ hr]
      norm_num at hshort ⊢
      linarith
    rw [landing_of_nonneg (div_pos hq hr).le]
    refine lt_of_le_of_lt (rounded_mono (div_pos hq hr) hle) ?_
    rw [rounded_value hlast (by norm_num), point_lt_point]
    norm_num

/-- The quotient by a positive double is the exact quotient, rounded. -/
theorem placeOf?_div_of_pos (hx : placeOf? x = some (point q)) (hy : placeOf? y = some (point r))
    (hr : 0 < r) : placeOf? (x / y) = some (landing (q / r)) := by
  rcases finite_cases hx with ⟨s, hs, rfl⟩ | ⟨_ | _, m, e, hm, hf, rfl⟩
  · rw [placeOf?_zero_div hs hy hr, zero_div, landing_of_nonneg (le_refl _), rounded_zero]
  · obtain ⟨n, f, hn, hf', -, -, rfl⟩ := exists_finite hy hr
    have hvalue : ((Sign.negative.apply m : ℤ) : ℚ) * 2 ^ e / (n * 2 ^ f)
        = -((m : ℚ) * 2 ^ e / (n * 2 ^ f)) := by
      simp [Sign.apply, neg_div]
    have hmq : (0 : ℚ) < m := by exact_mod_cast hm
    rw [hvalue]
    show place? (UnpackedFloat.unpack .binary64 (UnpackedFloat.pack .binary64
      (UnpackedFloat.div .binary64 x.toModel.unpack y.toModel.unpack))) = _
    rw [hf, hf']
    exact place?_of_rounded_neg (by positivity) (div_eq hm hn .negative .positive)
  · have hq : (0 : ℚ) < (Sign.positive.apply m : ℤ) * 2 ^ e := by
      have hmq : (0 : ℚ) < m := by exact_mod_cast hm
      simp only [Sign.apply, Int.cast_natCast]
      positivity
    rw [placeOf?_div hx hq hy hr, landing_of_nonneg (by positivity)]

/-- A quotient reaches one exactly if the dividend reaches the divisor. -/
theorem exists_placeOf?_div {a : Line} (hx : placeOf? x = some a)
    (hy : placeOf? y = some (point r)) (hr : 0 < r) :
    ∃ c, placeOf? (x / y) = some c ∧ (point 1 ≤ c ↔ point r ≤ a) := by
  by_cases hfinite : x.isFinite = true
  · obtain ⟨q, hq⟩ := exists_point_of_isFinite hfinite
    obtain rfl : point q = a := Option.some.inj (hq.symm.trans hx)
    refine ⟨_, placeOf?_div_of_pos hq hy hr, ?_⟩
    rcases lt_or_ge q r with hlt | hge
    · exact iff_of_false (not_le.mpr (landing_div_lt_one hq hy hr hlt))
        (not_le.mpr (point_lt_point.mpr hlt))
    · refine iff_of_true ?_ (point_le_point.mpr hge)
      rw [← landing_eq_point placeOf?_one]
      exact landing_mono ((one_le_div hr).mpr hge)
  · -- What is infinite stays so with its sign.
    have hx' := hx
    unfold placeOf? at hx'
    rw [show x.isFinite = x.toModel.unpack.isFinite from rfl] at hfinite
    rcases hu : x.toModel.unpack with ⟨_ | _⟩ | _ | s | ⟨s, m, e, hm⟩ <;> rw [hu] at hx' hfinite
    · obtain rfl : ⊥ = a := Option.some.inj hx'
      obtain ⟨n, f, hn, hf, -⟩ := exists_finite hy hr
      refine ⟨⊥, ?_, iff_of_false (not_le.mpr (bot_lt_point 1)) (not_le.mpr (bot_lt_point r))⟩
      show place? (UnpackedFloat.unpack .binary64 (UnpackedFloat.pack .binary64
        (UnpackedFloat.div .binary64 x.toModel.unpack y.toModel.unpack))) = _
      rw [hu, hf]
      exact congrArg place? (unpack_pack (f := .infinity .negative) trivial)
    · obtain rfl : ⊤ = a := Option.some.inj hx'
      exact ⟨⊤, placeOf?_infinity_div hu hy hr, iff_of_true le_top le_top⟩
    · cases hx'
    · exact absurd rfl hfinite
    · exact absurd rfl hfinite

end Double

end LayerAnimation
