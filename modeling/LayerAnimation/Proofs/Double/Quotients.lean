import LayerAnimation.Proofs.Double.Clock

/-!
# Quotients of whole numbers

Frames are counted in whole numbers and timed by dividing the count by a rate.  Two things matter for
how far a count leads: a higher rate leads less far, and at every rate some count leads past any
moment, if only because it is too large for a double.

- `Double.div_le_div_of_le`: dividing by more gives no more.
- `Double.exists_lt_ofNat_div`: quotients of whole numbers pass every finite double.
- `Double.ofNat_succ_le`: from 2⁵² on the doubles are whole numbers, so that between two neighbours
  there is nothing.
-/

open Float.Model Float.Model.UnpackedFloat

namespace LayerAnimation

namespace Double

variable {x y z : Float} {q : ℚ}

/-! ## §1 Divisors -/

/-- Dividing by a larger double gives no more. -/
theorem div_le_div_of_le (hx : (0.0 : Float) ≤ x) (hy : y.isFinite = true)
    (hpos : ¬ y ≤ (0.0 : Float)) (hz : z.isFinite = true) (hle : y ≤ z) : x / z ≤ x / y := by
  obtain ⟨r, hr, hplace⟩ := exists_pos_of_finite hy hpos
  obtain ⟨r', hplace'⟩ := exists_point_of_isFinite hz
  have hrr : r ≤ r' := point_le_point.mp ((le_iff_of_placeOf? hplace hplace').mp hle)
  have hr' : 0 < r' := hr.trans_le hrr
  rcases nonneg_cases hx with ⟨s, hs⟩ | ⟨q, hq, hq'⟩ | hs
  · exact le_iff.mpr ⟨_, _, placeOf?_zero_div hs hplace' hr', placeOf?_zero_div hs hplace hr,
      le_refl _⟩
  · exact le_iff.mpr ⟨_, _, placeOf?_div hq' hq hplace' hr', placeOf?_div hq' hq hplace hr,
      rounded_mono (div_pos hq hr') (div_le_div_of_nonneg_left hq.le hr hrr)⟩
  · exact le_iff.mpr ⟨_, _, placeOf?_infinity_div hs hplace' hr', placeOf?_infinity_div hs hplace hr,
      le_refl _⟩

/-! ## §2 Numbers that are too large -/

/-- From `2 ^ 1024` on numbers are rounded to infinity. -/
theorem rounded_eq_top {v : ℚ} (h : (2 : ℚ) ^ 1024 ≤ v) : rounded v = ⊤ := by
  have hcanonical : Canonical (2 ^ 52) 972 :=
    ⟨by norm_num, by norm_num, by norm_num, .inl (le_refl _)⟩
  have hvalue : (2 : ℚ) ^ 1024 = ((2 ^ 52 : ℕ) : ℚ) * 2 ^ (972 : ℤ) := by
    rw [Nat.cast_pow, Nat.cast_ofNat, zpow_ofNat, ← pow_add]
  have hpower : rounded (2 ^ 1024) = ⊤ := by
    rw [rounded, hvalue, hcanonical.nearest_value, ← hvalue, capped, if_pos (le_refl _)]
  have hle : rounded (2 ^ 1024) ≤ rounded v := rounded_mono (by positivity) h
  rwa [hpower, top_le_iff] at hle

/-- So is a count that is converted. -/
theorem unpack_ofNat_of_le {n : ℕ} (h : (2 : ℚ) ^ 1024 ≤ n) :
    (Float.ofNat n).toModel.unpack = .infinity .positive := by
  have hpos : (0 : ℚ) < n := lt_of_lt_of_le (by positivity) h
  have hplace : placeOf? (Float.ofNat n) = some ⊤ := by
    rw [placeOf?_ofNat (Nat.cast_pos.mp hpos), rounded_eq_top h]
  rcases point_or_infinity (ofNat_le_ofNat (le_refl n)).1 with ⟨q, hq⟩ | hinfinite
  · exact absurd (Option.some.inj (hq.symm.trans hplace)) (point_lt_top q).ne
  · exact hinfinite

/-- At every rate some count leads past any moment. -/
theorem exists_lt_ofNat_div (hx : x.isFinite = true) (hy : y.isFinite = true)
    (hpos : ¬ y ≤ (0.0 : Float)) : ∃ n, x < Float.ofNat n / y := by
  obtain ⟨q, hq⟩ := exists_point_of_isFinite hx
  obtain ⟨r, hr, hplace⟩ := exists_pos_of_finite hy hpos
  obtain ⟨n, hn⟩ := exists_nat_ge ((2 : ℚ) ^ 1024)
  exact ⟨n, lt_iff.mpr ⟨_, _, hq, placeOf?_infinity_div (unpack_ofNat_of_le hn) hplace hr,
    point_lt_top q⟩⟩

/-! ## §3 Neighbours -/

/-- The doubles from 2⁵² on are whole numbers. -/
theorem Canonical.exists_natCast {m : ℕ} {e : ℤ} (h : Canonical m e)
    (large : (2 : ℚ) ^ 52 ≤ m * 2 ^ e) : ∃ n : ℕ, (m : ℚ) * 2 ^ e = n := by
  by_cases he : 0 ≤ e
  · obtain ⟨k, rfl⟩ := Int.eq_ofNat_of_zero_le he
    exact ⟨m * 2 ^ k, by push_cast; rfl⟩
  · -- With a fraction the mantissa would be shifted down below 2⁵².
    have hm : (m : ℚ) < 2 ^ 53 := by exact_mod_cast h.lt
    have hsmall : (m : ℚ) * 2 ^ e < 2 ^ 52 := by
      calc (m : ℚ) * 2 ^ e ≤ m * 2 ^ (-1 : ℤ) := by
            gcongr
            · exact one_le_two
            · omega
        _ < 2 ^ 53 * 2 ^ (-1 : ℤ) := by gcongr
        _ = 2 ^ 52 := by norm_num
    exact absurd large (not_le.mpr hsmall)

/-- A count below 2⁵³ is converted without a loss. -/
theorem placeOf?_ofNat_of_lt {n : ℕ} (hpos : 0 < n) (hn : n < 2 ^ 53) :
    placeOf? (Float.ofNat n) = some (point n) := by
  rw [placeOf?_ofNat hpos, rounded_natCast_of_lt hpos hn]

/-- There is no double between neighbouring whole numbers from 2⁵² on. -/
theorem ofNat_succ_le {n : ℕ} (low : 2 ^ 52 ≤ n) (high : n + 1 < 2 ^ 53)
    (h : Float.ofNat n < x) : Float.ofNat (n + 1) ≤ x := by
  have hn := placeOf?_ofNat_of_lt (n := n) (by omega) (by omega)
  have hsucc := placeOf?_ofNat_of_lt (n := n + 1) (by omega) high
  have hzero : (0.0 : Float) ≤ x :=
    LawfulTime.le_trans (ofNat_le_ofNat (le_refl n)).1 (LawfulTime.le_of_lt h)
  rcases nonneg_cases hzero with ⟨s, hs⟩ | ⟨q, hq, hplace⟩ | hs
  · have hplace : placeOf? x = some (point 0) := by
      rw [placeOf?, hs]
      rfl
    have hlt := point_lt_point.mp ((lt_iff_of_placeOf? hn hplace).mp h)
    exact absurd hlt (not_lt.mpr (Nat.cast_nonneg n))
  · obtain ⟨m, e, -, -, hcanonical, -, rfl⟩ := exists_finite hplace hq
    have hlt := point_lt_point.mp ((lt_iff_of_placeOf? hn hplace).mp h)
    have hlow : (2 : ℚ) ^ 52 ≤ n := by exact_mod_cast low
    -- Above 2⁵² the double is a whole number as well, so it is the next one or a later one.
    obtain ⟨k, hk⟩ := hcanonical.exists_natCast (hlow.trans hlt.le)
    rw [hk] at hlt hplace
    have hnk : n < k := by exact_mod_cast hlt
    exact (le_iff_of_placeOf? hsucc hplace).mpr (point_le_point.mpr (by exact_mod_cast hnk))
  · have hplace : placeOf? x = some ⊤ := by
      rw [placeOf?, hs]
      rfl
    exact (le_iff_of_placeOf? hsucc hplace).mpr le_top

end Double

end LayerAnimation
