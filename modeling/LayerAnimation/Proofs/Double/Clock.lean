import LayerAnimation.Proofs.Double.Addition
import LayerAnimation.Proofs.Time

/-!
# Doubles as time

A clock whose moments are doubles obeys the laws of time, rounded sums or not: a sum of moments that
are not negative is rounded to nothing smaller than either of them.  Quotients by a positive double
keep the order, so the times of frames are in order too.
-/

open Float.Model Float.Model.UnpackedFloat

namespace LayerAnimation

namespace Double

/-! ## §1 Places of finite doubles -/

/-- Zero stands in the middle of the line. -/
theorem placeOf?_zero : placeOf? (0.0 : Float) = some (point 0) :=
  rfl

/-- A finite double stands at a point. -/
theorem exists_point_of_isFinite {x : Float} (h : x.isFinite = true) :
    ∃ q, placeOf? x = some (point q) := by
  have hfinite : x.toModel.unpack.isFinite = true := h
  unfold placeOf?
  generalize x.toModel.unpack = f at hfinite
  rcases f with ⟨_ | _⟩ | _ | ⟨s⟩ | ⟨_ | _, m, e, hm⟩
  · cases hfinite
  · cases hfinite
  · cases hfinite
  · exact ⟨0, rfl⟩
  · exact ⟨_, rfl⟩
  · exact ⟨_, rfl⟩

/-- The doubles from zero on are zeros, positive numbers and infinity. -/
theorem nonneg_cases {x : Float} (h : (0.0 : Float) ≤ x) :
    (∃ s, x.toModel.unpack = .zero s) ∨
    (∃ q, 0 < q ∧ placeOf? x = some (point q)) ∨
    x.toModel.unpack = .infinity .positive := by
  obtain ⟨a, b, ha, hb, hab⟩ := le_iff.mp h
  rw [placeOf?_zero, Option.some.injEq] at ha
  subst ha
  unfold placeOf? at hb ⊢
  generalize x.toModel.unpack = f at hb ⊢
  rcases f with ⟨_ | _⟩ | _ | ⟨s⟩ | ⟨_ | _, m, e, hm⟩
  -- Minus infinity and the negative numbers lie before zero.
  · obtain rfl : ⊥ = b := by simpa [place?] using hb
    exact absurd hab (not_le.mpr (bot_lt_point 0))
  · exact .inr (.inr rfl)
  · cases hb
  · exact .inl ⟨s, rfl⟩
  · obtain rfl : point (-(m * 2 ^ e)) = b := by simpa [place?] using hb
    have hcast : (0 : ℚ) < m := by exact_mod_cast hm
    have hneg : -((m : ℚ) * 2 ^ e) < 0 := neg_neg_of_pos (by positivity)
    exact absurd hab (not_le.mpr (point_lt_point.mpr hneg))
  · have hcast : (0 : ℚ) < m := by exact_mod_cast hm
    exact .inr (.inl ⟨m * 2 ^ e, by positivity, rfl⟩)

/-- A double from zero on stands at a point, or is infinity. -/
theorem point_or_infinity {x : Float} (h : (0.0 : Float) ≤ x) :
    (∃ q, placeOf? x = some (point q)) ∨ x.toModel.unpack = .infinity .positive := by
  rcases nonneg_cases h with ⟨s, hs⟩ | ⟨q, -, hq⟩ | hs
  · exact .inl ⟨0, by rw [placeOf?, hs]; rfl⟩
  · exact .inl ⟨q, hq⟩
  · exact .inr hs

theorem zero_le_iff {x : Float} : (0.0 : Float) ≤ x ↔ ∃ a, placeOf? x = some a ∧ point 0 ≤ a := by
  rw [le_iff, placeOf?_zero]
  simp

/-! ## §2 Sums with infinity -/

/-- An infinite moment stays infinite after any finite wait. -/
theorem placeOf?_infinity_add {x y : Float} {r : ℚ} (hx : x.toModel.unpack = .infinity .positive)
    (hy : placeOf? y = some (point r)) : placeOf? (x + y) = some ⊤ := by
  show place? (UnpackedFloat.unpack .binary64 (UnpackedFloat.pack .binary64
    (UnpackedFloat.add .binary64 x.toModel.unpack y.toModel.unpack))) = _
  rcases finite_cases hy with ⟨s, hs, -⟩ | ⟨s, m, e, hm, hf, -⟩
  · rw [hx, hs]
    exact congrArg place? (unpack_pack (f := .infinity .positive) trivial)
  · rw [hx, hf]
    exact congrArg place? (unpack_pack (f := .infinity .positive) trivial)

/-- After an infinite wait every moment is infinite. -/
theorem placeOf?_add_infinity {x y : Float} (hx : (0.0 : Float) ≤ x)
    (hy : y.toModel.unpack = .infinity .positive) : placeOf? (x + y) = some ⊤ := by
  show place? (UnpackedFloat.unpack .binary64 (UnpackedFloat.pack .binary64
    (UnpackedFloat.add .binary64 x.toModel.unpack y.toModel.unpack))) = _
  rcases nonneg_cases hx with ⟨s, hs⟩ | ⟨q, hq, hplace⟩ | hs
  · rw [hs, hy]
    exact congrArg place? (unpack_pack (f := .infinity .positive) trivial)
  · obtain ⟨m, e, hm, hf, -⟩ := exists_finite hplace hq
    rw [hf, hy]
    exact congrArg place? (unpack_pack (f := .infinity .positive) trivial)
  · rw [hs, hy]
    exact congrArg place? (unpack_pack (f := .infinity .positive) trivial)

/-! ## §3 The laws of time -/

/-- Adding a wait to a moment does not lead back. -/
theorem le_add_of_nonneg {x y : Float} (hx : (0.0 : Float) ≤ x) (hfinite : y.isFinite = true)
    (hy : (0.0 : Float) ≤ y) : x ≤ x + y := by
  obtain ⟨r, hr⟩ := exists_point_of_isFinite hfinite
  have hahead : 0 ≤ r := point_le_point.mp ((le_iff_of_placeOf? placeOf?_zero hr).mp hy)
  -- A sum of two points is rounded from a number that is no less than the first.
  rcases point_or_infinity hx with ⟨q, hq⟩ | hs
  · refine (le_iff_of_placeOf? hq (placeOf?_add hq hr)).mpr ?_
    rw [← landing_eq_point hq]
    exact landing_mono (le_add_of_nonneg_right hahead)
  · obtain ⟨-, b, -, hb, -⟩ := le_iff.mp hx
    exact (le_iff_of_placeOf? hb (placeOf?_infinity_add hs hr)).mpr le_top

/-- Nor does adding an infinite one. -/
theorem le_add_of_zero_le {x y : Float} (hx : (0.0 : Float) ≤ x) (hy : (0.0 : Float) ≤ y) :
    x ≤ x + y := by
  by_cases hfinite : y.isFinite = true
  · exact le_add_of_nonneg hx hfinite hy
  · have hinfinite : y.toModel.unpack = .infinity .positive := by
      rcases nonneg_cases hy with ⟨s, hs⟩ | ⟨q, hq, hplace⟩ | hs
      · exact absurd (by rw [Float.isFinite, Float.Model.isFinite, hs]; rfl) hfinite
      · obtain ⟨m, e, hm, hf, -⟩ := exists_finite hplace hq
        exact absurd (by rw [Float.isFinite, Float.Model.isFinite, hf]; rfl) hfinite
      · exact hs
    obtain ⟨a, b, -, hb, -⟩ := le_iff.mp hx
    exact le_iff.mpr ⟨b, ⊤, hb, placeOf?_add_infinity hx hinfinite, le_top⟩

/-- Doubles are equal as numbers if neither is smaller than the other. -/
theorem beq_iff_le {x y : Float} : (x == y) = true ↔ x ≤ y ∧ y ≤ x := by
  rw [beq_iff, le_iff, le_iff]
  constructor
  · rintro ⟨a, b, ha, hb, rfl⟩
    exact ⟨⟨a, a, ha, hb, le_refl a⟩, ⟨a, a, hb, ha, le_refl a⟩⟩
  · rintro ⟨⟨a, b, ha, hb, hab⟩, ⟨b', a', hb', ha', hba⟩⟩
    obtain rfl : a = a' := Option.some.inj (ha.symm.trans ha')
    obtain rfl : b = b' := Option.some.inj (hb.symm.trans hb')
    exact ⟨a, b, ha, hb, le_antisymm hab hba⟩

/-- Exactly the doubles that are not a not-a-number are at most themselves. -/
theorem isNaN_eq_false_iff {x : Float} : x.isNaN = false ↔ x ≤ x := by
  rw [le_iff, show x.isNaN = x.toModel.unpack.isNaN from rfl, placeOf?]
  generalize x.toModel.unpack = f
  rcases f with ⟨_ | _⟩ | _ | ⟨s⟩ | ⟨_ | _, m, e, hm⟩ <;> simp [UnpackedFloat.isNaN, place?]

/-- Doubles obey the laws of time. -/
instance : LawfulTime Float where
  -- All laws of the order are those of the places on the line; a not-a-number has no place, and
  -- stands in no relation.
  le_left h := by
    obtain ⟨a, b, ha, -, -⟩ := le_iff.mp h
    exact le_iff.mpr ⟨a, a, ha, ha, le_refl _⟩
  le_right h := by
    obtain ⟨a, b, -, hb, -⟩ := le_iff.mp h
    exact le_iff.mpr ⟨b, b, hb, hb, le_refl _⟩
  le_trans h h' := by
    obtain ⟨a, b, ha, hb, hab⟩ := le_iff.mp h
    obtain ⟨b', c, hb', hc, hbc⟩ := le_iff.mp h'
    obtain rfl : b = b' := Option.some.inj (hb.symm.trans hb')
    exact le_iff.mpr ⟨a, c, ha, hc, hab.trans hbc⟩
  le_total h h' := by
    obtain ⟨a, -, ha, -, -⟩ := le_iff.mp h
    obtain ⟨b, -, hb, -, -⟩ := le_iff.mp h'
    rcases le_total a b with hab | hba
    · exact .inl (le_iff.mpr ⟨a, b, ha, hb, hab⟩)
    · exact .inr (le_iff.mpr ⟨b, a, hb, ha, hba⟩)
  lt_iff := by
    intro x y
    rw [Double.lt_iff, le_iff, le_iff]
    constructor
    · rintro ⟨a, b, ha, hb, hab⟩
      refine ⟨⟨a, b, ha, hb, hab.le⟩, ?_⟩
      rintro ⟨b', a', hb', ha', hba⟩
      obtain rfl : a = a' := Option.some.inj (ha.symm.trans ha')
      obtain rfl : b = b' := Option.some.inj (hb.symm.trans hb')
      exact not_le.mpr hab hba
    · rintro ⟨⟨a, b, ha, hb, hab⟩, hnot⟩
      exact ⟨a, b, ha, hb, lt_of_le_not_ge hab fun hba => hnot ⟨b, a, hb, ha, hba⟩⟩
  beq_self_iff := by
    intro x
    rw [le_iff, beq_iff]
    constructor
    · rintro ⟨a, b, ha, hb, hab⟩
      exact ⟨a, b, ha, hb, hab.le⟩
    · rintro ⟨a, -, ha, -, -⟩
      exact ⟨a, a, ha, ha, rfl⟩
  zero_le_zero := zero_le_iff.mpr ⟨_, placeOf?_zero, le_refl _⟩
  isFinite_zero := rfl
  le_self_of_isFinite h := by
    obtain ⟨q, hq⟩ := exists_point_of_isFinite h
    exact le_iff.mpr ⟨_, _, hq, hq, le_refl _⟩
  le_add := le_add_of_nonneg
  add_zero_le h := by
    obtain ⟨a, b, -, hb, -⟩ := le_iff.mp h
    exact le_iff.mpr ⟨b, b, (placeOf?_add_zero (s := .positive) rfl).trans hb, hb, le_refl _⟩

/-- To wait for no time at all leads to the same moment, though maybe not to the same double. -/
theorem add_zero_beq {x : Float} (hx : (0.0 : Float) ≤ x) : (x + 0.0 == x) = true :=
  beq_iff_le.mpr ⟨LawfulTime.add_zero_le hx,
    LawfulTime.le_add hx LawfulTime.isFinite_zero LawfulTime.zero_le_zero⟩

/-! ## §4 Quotients -/

/-- Nothing divided by something positive is nothing. -/
theorem placeOf?_zero_div {x y : Float} {s : Sign} {r : ℚ} (hx : x.toModel.unpack = .zero s)
    (hy : placeOf? y = some (point r)) (hr : 0 < r) : placeOf? (x / y) = some (point 0) := by
  obtain ⟨m, e, hm, hf, -⟩ := exists_finite hy hr
  show place? (UnpackedFloat.unpack .binary64 (UnpackedFloat.pack .binary64
    (UnpackedFloat.div .binary64 x.toModel.unpack y.toModel.unpack))) = _
  rw [hx, hf]
  show place? (UnpackedFloat.unpack .binary64 (UnpackedFloat.pack .binary64
    (.zero (s / Sign.positive)))) = _
  rw [unpack_pack (f := .zero (s / Sign.positive)) trivial]
  rfl

/-- Infinity divided by something positive and finite stays infinite. -/
theorem placeOf?_infinity_div {x y : Float} {r : ℚ} (hx : x.toModel.unpack = .infinity .positive)
    (hy : placeOf? y = some (point r)) (hr : 0 < r) : placeOf? (x / y) = some ⊤ := by
  obtain ⟨m, e, hm, hf, -⟩ := exists_finite hy hr
  show place? (UnpackedFloat.unpack .binary64 (UnpackedFloat.pack .binary64
    (UnpackedFloat.div .binary64 x.toModel.unpack y.toModel.unpack))) = _
  rw [hx, hf]
  exact congrArg place? (unpack_pack (f := .infinity .positive) trivial)

theorem exists_pos_of_finite {y : Float} (hfinite : y.isFinite = true)
    (hy : ¬ y ≤ (0.0 : Float)) : ∃ r, 0 < r ∧ placeOf? y = some (point r) := by
  obtain ⟨r, hr⟩ := exists_point_of_isFinite hfinite
  refine ⟨r, ?_, hr⟩
  by_contra hle
  exact hy (le_iff.mpr ⟨_, _, hr, placeOf?_zero, point_le_point.mpr (not_lt.mp hle)⟩)

/-- A quotient by something positive is not negative. -/
theorem zero_le_div {x y : Float} (hx : (0.0 : Float) ≤ x) (hfinite : y.isFinite = true)
    (hy : ¬ y ≤ (0.0 : Float)) : (0.0 : Float) ≤ x / y := by
  obtain ⟨r, hr, hplace⟩ := exists_pos_of_finite hfinite hy
  rw [zero_le_iff]
  rcases nonneg_cases hx with ⟨s, hs⟩ | ⟨q, hq, hplace'⟩ | hs
  · exact ⟨_, placeOf?_zero_div hs hplace hr, le_refl _⟩
  · exact ⟨_, placeOf?_div hplace' hq hplace hr, zero_le_rounded _⟩
  · exact ⟨_, placeOf?_infinity_div hs hplace hr, le_top⟩

/-- Dividing by a positive double keeps the order. -/
theorem div_le_div_of_nonneg {x x' y : Float} (hx : (0.0 : Float) ≤ x) (hle : x ≤ x')
    (hfinite : y.isFinite = true) (hy : ¬ y ≤ (0.0 : Float)) : x / y ≤ x' / y := by
  obtain ⟨r, hr, hplace⟩ := exists_pos_of_finite hfinite hy
  obtain ⟨a, b, ha, hb, hab⟩ := le_iff.mp hle
  have hx' : (0.0 : Float) ≤ x' := LawfulTime.le_trans hx hle
  -- Zero, a positive number and infinity come in this order, and so do their quotients; between two
  -- numbers it is the rounding that keeps the order.
  rcases nonneg_cases hx with ⟨s, hs⟩ | ⟨q, hq, hq'⟩ | hs
  · obtain ⟨c, hc, hzero⟩ := zero_le_iff.mp (zero_le_div hx' hfinite hy)
    exact le_iff.mpr ⟨_, c, placeOf?_zero_div hs hplace hr, hc, hzero⟩
  · obtain rfl : point q = a := Option.some.inj (hq'.symm.trans ha)
    have hquotient := placeOf?_div hq' hq hplace hr
    rcases nonneg_cases hx' with ⟨s, hs⟩ | ⟨q', hpos, hq''⟩ | hs
    · obtain rfl : point 0 = b := Option.some.inj (by rw [← hb, placeOf?, hs]; rfl)
      exact absurd (point_le_point.mp hab) (not_le.mpr hq)
    · obtain rfl : point q' = b := Option.some.inj (hq''.symm.trans hb)
      have hle' : q / r ≤ q' / r := div_le_div_of_nonneg_right (point_le_point.mp hab) hr.le
      exact le_iff.mpr ⟨_, _, hquotient, placeOf?_div hq'' hpos hplace hr,
        rounded_mono (div_pos hq hr) hle'⟩
    · exact le_iff.mpr ⟨_, _, hquotient, placeOf?_infinity_div hs hplace hr, le_top⟩
  · obtain rfl : (⊤ : Line) = a := Option.some.inj (by rw [← ha, placeOf?, hs]; rfl)
    have hquotient := placeOf?_infinity_div hs hplace hr
    rcases nonneg_cases hx' with ⟨s, hs⟩ | ⟨q', hpos, hq''⟩ | hs
    · obtain rfl : point 0 = b := Option.some.inj (by rw [← hb, placeOf?, hs]; rfl)
      exact absurd hab (not_le.mpr (point_lt_top 0))
    · obtain rfl : point q' = b := Option.some.inj (hq''.symm.trans hb)
      exact absurd hab (not_le.mpr (point_lt_top q'))
    · exact le_iff.mpr ⟨_, _, hquotient, placeOf?_infinity_div hs hplace hr, le_refl _⟩

/-- Counters that are converted keep their order. -/
theorem ofNat_le_ofNat {m n : ℕ} (h : m ≤ n) :
    (0.0 : Float) ≤ Float.ofNat m ∧ Float.ofNat m ≤ Float.ofNat n := by
  obtain ⟨a, b, ha, hb, hzero, hab⟩ := placeOf?_ofNat_mono h
  exact ⟨zero_le_iff.mpr ⟨a, ha, hzero⟩, le_iff.mpr ⟨a, b, ha, hb, hab⟩⟩

end Double

end LayerAnimation
