import LayerAnimation.Proofs.Double.Clock

/-!
# Sums of doubles in order

Rounding keeps the order of sums, so a moment and a longer wait lead no less far than the same
moment and a shorter one.

- `Double.add_le_add_left` compares the sums of a moment with two waits.
- `Double.add_le_of_nonpos` says that a step back does not lead ahead.
- `Double.add_infinite_le_iff` is what the infinite waits do.
-/

open Float.Model Float.Model.UnpackedFloat

namespace LayerAnimation

namespace Double

/-! ## §1 Waits that are not negative -/

variable {x y z : Float}

/-- Adding more to a moment leads no less far. -/
theorem add_le_add_left (hx : (0.0 : Float) ≤ x) (hy : (0.0 : Float) ≤ y) (hle : y ≤ z) :
    x + y ≤ x + z := by
  have hz : (0.0 : Float) ≤ z := LawfulTime.le_trans hy hle
  rcases point_or_infinity hz with ⟨r', hr'⟩ | hs
  · rcases point_or_infinity hy with ⟨r, hr⟩ | hs
    · rcases point_or_infinity hx with ⟨q, hq⟩ | hs
      · have hwait : r ≤ r' := point_le_point.mp ((le_iff_of_placeOf? hr hr').mp hle)
        exact (le_iff_of_placeOf? (placeOf?_add hq hr) (placeOf?_add hq hr')).mpr
          (landing_mono (by gcongr))
      · exact (le_iff_of_placeOf? (placeOf?_infinity_add hs hr) (placeOf?_infinity_add hs hr')).mpr
          (le_refl _)
    · -- No finite wait is longer than an infinite one.
      have htop : placeOf? y = some ⊤ := by rw [placeOf?, hs]; rfl
      exact absurd ((le_iff_of_placeOf? htop hr').mp hle) (not_le.mpr (point_lt_top r'))
  · obtain ⟨a, ha, -⟩ := zero_le_iff.mp (LawfulTime.le_trans hx (le_add_of_zero_le hx hy))
    exact (le_iff_of_placeOf? ha (placeOf?_add_infinity hx hs)).mpr le_top

/-! ## §2 Steps back -/

/-- A step back from a finite number does not lead ahead. -/
theorem add_le_of_point {q r : ℚ} (hx : placeOf? x = some (point q))
    (hy : placeOf? y = some (point r)) (hr : r ≤ 0) : x + y ≤ x := by
  refine (le_iff_of_placeOf? (placeOf?_add hx hy) hx).mpr ?_
  rw [← landing_eq_point hx]
  exact landing_mono (by linarith)

/-- A finite step back does not lead ahead. -/
theorem add_le_of_nonpos (hx : (0.0 : Float) ≤ x) (hfinite : y.isFinite = true)
    (hy : y ≤ (0.0 : Float)) : x + y ≤ x := by
  obtain ⟨r, hr⟩ := exists_point_of_isFinite hfinite
  have hback : r ≤ 0 := point_le_point.mp ((le_iff_of_placeOf? hr placeOf?_zero).mp hy)
  rcases point_or_infinity hx with ⟨q, hq⟩ | hs
  · exact add_le_of_point hq hr hback
  · have htop : placeOf? x = some ⊤ := by rw [placeOf?, hs]; rfl
    exact (le_iff_of_placeOf? (placeOf?_infinity_add hs hr) htop).mpr (le_refl _)

/-! ## §3 Infinite waits -/

/-- A moment lies at infinity exactly if it is not finite. -/
theorem isFinite_eq_false_iff (hx : (0.0 : Float) ≤ x) :
    x.isFinite = false ↔ x.toModel.unpack = .infinity .positive := by
  rw [show x.isFinite = x.toModel.unpack.isFinite from rfl]
  rcases nonneg_cases hx with ⟨s, hs⟩ | ⟨q, hq, hplace⟩ | hs
  · simp [hs, UnpackedFloat.isFinite]
  · obtain ⟨m, e, hm, hf, -⟩ := exists_finite hplace hq
    simp [hf, UnpackedFloat.isFinite]
  · simp [hs, UnpackedFloat.isFinite]

/-- A wait of minus infinity leads there from a finite moment, and nowhere from infinity. -/
theorem placeOf?_add_negative_infinity (hx : (0.0 : Float) ≤ x)
    (hy : y.toModel.unpack = .infinity .negative) :
    placeOf? (x + y) = if x.isFinite then some ⊥ else none := by
  have hbottom : place? (UnpackedFloat.unpack .binary64 (UnpackedFloat.pack .binary64
      (.infinity .negative))) = some ⊥ := by
    rw [unpack_pack (f := .infinity .negative) trivial]
    rfl
  show place? (UnpackedFloat.unpack .binary64 (UnpackedFloat.pack .binary64
    (UnpackedFloat.add .binary64 x.toModel.unpack y.toModel.unpack)))
      = if x.toModel.unpack.isFinite then some ⊥ else none
  rw [hy]
  -- The sum of both infinities is the only one that is not a number.
  rcases nonneg_cases hx with ⟨s, hs⟩ | ⟨q, hq, hplace⟩ | hs
  · rw [hs]
    exact hbottom
  · obtain ⟨m, e, hm, hf, -⟩ := exists_finite hplace hq
    rw [hf]
    exact hbottom
  · rw [hs]
    rfl

/-- A wait that is a not-a-number leads nowhere. -/
theorem not_add_le_of_not_proper (h : ¬ y ≤ y) : ¬ x + y ≤ z := by
  have hy : y.toModel.unpack = .notANumber := by
    rw [← isNaN_eq_false_iff, show y.isNaN = y.toModel.unpack.isNaN from rfl] at h
    generalize y.toModel.unpack = f at h ⊢
    cases f <;> simp [UnpackedFloat.isNaN] at h ⊢
  have hsum : placeOf? (x + y) = none := by
    show place? (UnpackedFloat.unpack .binary64 (UnpackedFloat.pack .binary64
      (UnpackedFloat.add .binary64 x.toModel.unpack y.toModel.unpack))) = none
    rw [hy]
    cases x.toModel.unpack <;>
      exact congrArg place? (unpack_pack (f := .notANumber) trivial)
  simp [le_iff, hsum]

/-- An infinite wait leads no further than to the moment itself if it goes back from a finite
moment, or ahead from an infinite one. -/
theorem add_infinite_le_iff (hx : (0.0 : Float) ≤ x) (proper : y ≤ y)
    (infinite : y.isFinite = false) :
    x + y ≤ x ↔ (x.isFinite = true ↔ y < (0.0 : Float)) := by
  obtain ⟨-, b, -, hb, -⟩ := le_iff.mp hx
  have hunpack : y.toModel.unpack.isFinite = false := infinite
  rcases hf : y.toModel.unpack with ⟨_ | _⟩ | _ | s | ⟨s, m, e, hm⟩
  · have hback : y < (0.0 : Float) :=
      lt_iff.mpr ⟨⊥, point 0, by rw [placeOf?, hf]; rfl, placeOf?_zero, bot_lt_point 0⟩
    -- Backwards: from a finite moment to minus infinity, from infinity to no moment at all.
    have hsum := placeOf?_add_negative_infinity hx hf
    cases hfinite : x.isFinite with
    | true =>
      simp only [hfinite, ↓reduceIte] at hsum
      simp [hback, le_iff_of_placeOf? hsum hb]
    | false =>
      simp only [hfinite, Bool.false_eq_true, ↓reduceIte] at hsum
      simp [hback, le_iff, hsum]
  · have hahead : ¬ y < (0.0 : Float) := by
      rw [lt_iff, placeOf?, hf, placeOf?_zero]
      rintro ⟨a, c, ha, hc, hac⟩
      cases ha
      cases hc
      exact absurd hac (not_lt.mpr (point_lt_top 0).le)
    have hsum := placeOf?_add_infinity hx hf
    rw [le_iff_of_placeOf? hsum hb, top_le_iff]
    cases hfinite : x.isFinite with
    | true =>
      obtain ⟨q, hq⟩ := exists_point_of_isFinite hfinite
      obtain rfl : point q = b := Option.some.inj (hq.symm.trans hb)
      simp [hahead, (point_lt_top q).ne]
    | false =>
      have htop : placeOf? x = some ⊤ := by
        rw [placeOf?, (isFinite_eq_false_iff hx).mp hfinite]
        rfl
      obtain rfl : ⊤ = b := Option.some.inj (htop.symm.trans hb)
      simp [hahead]
  · -- A not-a-number is not proper.
    obtain ⟨a, -, ha, -, -⟩ := le_iff.mp proper
    rw [placeOf?, hf] at ha
    cases ha
  · rw [hf] at hunpack
    cases hunpack
  · rw [hf] at hunpack
    cases hunpack

end Double

end LayerAnimation
