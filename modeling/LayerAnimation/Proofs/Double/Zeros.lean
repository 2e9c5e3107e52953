import LayerAnimation.Proofs.Double.Sums

/-!
# Doubles around zero

At the moment at which an animation begins, the time that has passed is a zero of one sign or the
other, and so is every product with it.  A zero changes no sum.

- `Double.IsZero` is either zero; differences of a number with itself, quotients and products keep to
  it.
- `Double.beq_add_of_isZero` says that adding a zero leads to the same number.
- `Double.isFinite_of_lt_add` and `Double.zero_lt_of_lt_add` say that only from a finite moment and
  only by a positive wait one comes to a later moment.
-/

open Float.Model Float.Model.UnpackedFloat

namespace LayerAnimation

namespace Double

variable {x y : Float}

/-! ## §1 Zeros -/

/-- Whether a double is the positive or the negative zero. -/
def IsZero (x : Float) : Prop :=
  ∃ s, x.toModel.unpack = .zero s

/-- The two zeros stand at the same place. -/
theorem IsZero.placeOf? (h : IsZero x) : placeOf? x = some (point 0) := by
  obtain ⟨s, hs⟩ := h
  rw [Double.placeOf?, hs]
  rfl

/-- An unpacked zero is still one when it was packed. -/
theorem isZero_of_unpack {s : Sign}
    (h : x.toModel.unpack = UnpackedFloat.unpack .binary64 (UnpackedFloat.pack .binary64 (.zero s))) :
    IsZero x :=
  ⟨s, h.trans (unpack_pack (f := .zero s) trivial)⟩

/-- A finite number less itself is a zero. -/
theorem isZero_sub_self (finite : x.isFinite = true) : IsZero (x - x) := by
  have hfinite : x.toModel.unpack.isFinite = true := finite
  have hsub : (x - x).toModel.unpack = UnpackedFloat.unpack .binary64 (UnpackedFloat.pack .binary64
      (UnpackedFloat.sub .binary64 x.toModel.unpack x.toModel.unpack)) := rfl
  generalize x.toModel.unpack = f at hfinite hsub
  rcases f with s | _ | s | ⟨s, m, e, hm⟩
  · cases hfinite
  · cases hfinite
  · cases s <;> exact isZero_of_unpack hsub
  · -- Both mantissas are brought to the same exponent, and nothing is left.
    rw [UnpackedFloat.sub] at hsub
    simp only [Int.sub_self, UnpackedFloat.normalize] at hsub
    exact isZero_of_unpack hsub

/-- A zero divided by something positive is a zero. -/
theorem isZero_div (hx : IsZero x) (hy : (0.0 : Float) < y) : IsZero (x / y) := by
  obtain ⟨s, hs⟩ := hx
  have hdiv : (x / y).toModel.unpack = UnpackedFloat.unpack .binary64 (UnpackedFloat.pack .binary64
      (UnpackedFloat.div .binary64 x.toModel.unpack y.toModel.unpack)) := rfl
  obtain ⟨a, b, ha, hb, hab⟩ := lt_iff.mp hy
  rw [hs] at hdiv
  unfold Double.placeOf? at hb
  generalize y.toModel.unpack = f at hb hdiv
  rcases f with s' | _ | s' | ⟨s', m, e, hm⟩
  · exact isZero_of_unpack hdiv
  · cases hb
  · -- Only a quotient of two zeros is no number.
    rw [placeOf?_zero] at ha
    cases ha
    cases hb
    exact absurd hab (lt_irrefl _)
  · exact isZero_of_unpack hdiv

/-- A finite number times a zero is a zero. -/
theorem isZero_mul (finite : x.isFinite = true) (hy : IsZero y) : IsZero (x * y) := by
  obtain ⟨s, hs⟩ := hy
  have hfinite : x.toModel.unpack.isFinite = true := finite
  have hmul : (x * y).toModel.unpack = UnpackedFloat.unpack .binary64 (UnpackedFloat.pack .binary64
      (UnpackedFloat.mul .binary64 x.toModel.unpack y.toModel.unpack)) := rfl
  rw [hs] at hmul
  generalize x.toModel.unpack = f at hfinite hmul
  rcases f with s' | _ | s' | ⟨s', m, e, hm⟩
  · cases hfinite
  · cases hfinite
  · exact isZero_of_unpack hmul
  · exact isZero_of_unpack hmul

/-- Adding a zero to a finite number leads to the same number, though perhaps to its other zero. -/
theorem beq_add_of_isZero (finite : x.isFinite = true) (hy : IsZero y) : (x + y == x) = true := by
  obtain ⟨s, hs⟩ := hy
  obtain ⟨q, hq⟩ := exists_point_of_isFinite finite
  exact beq_iff.mpr ⟨_, _, (placeOf?_add_zero hs).trans hq, hq, rfl⟩

theorem beq_self_of_isFinite (finite : x.isFinite = true) : (x == x) = true := by
  obtain ⟨q, hq⟩ := exists_point_of_isFinite finite
  exact beq_iff.mpr ⟨_, _, hq, hq, rfl⟩

/-- A number in the unit interval stays where it is when it is clamped. -/
theorem clamp_of_mem (h₀ : (0.0 : Float) ≤ x) (h₁ : x ≤ (1.0 : Float)) :
    Scalar.clamp 0.0 1.0 x = x := by
  rw [Scalar.clamp, if_neg fun h => (LawfulTime.lt_iff.mp h).2 h₀,
    if_neg fun h => (LawfulTime.lt_iff.mp h).2 h₁]

/-- A zero lies in the unit interval, so it stays where it is. -/
theorem clamp_of_isZero (h : IsZero x) : Scalar.clamp 0.0 1.0 x = x := by
  have hone : placeOf? (1.0 : Float) = some (point 1) := placeOf?_one
  refine clamp_of_mem ?_ ?_
  · exact (le_iff_of_placeOf? placeOf?_zero h.placeOf?).mpr (le_refl _)
  · exact (le_iff_of_placeOf? h.placeOf? hone).mpr (point_le_point.mpr zero_le_one)

/-! ## §2 Waits that lead ahead -/

/-- A sum with minus infinity is minus infinity, if it is a number. -/
theorem place?_add_minus_infinity {f g : UnpackedFloat} {b : Line}
    (h : f = .infinity .negative ∨ g = .infinity .negative)
    (hb : some b = place? (UnpackedFloat.unpack .binary64 (UnpackedFloat.pack .binary64
      (UnpackedFloat.add .binary64 f g)))) : b = ⊥ := by
  have hsum : UnpackedFloat.add .binary64 f g = .infinity .negative
      ∨ UnpackedFloat.add .binary64 f g = .notANumber := by
    rcases h with rfl | rfl
    · rcases g with ⟨_ | _⟩ | _ | s | ⟨s, m, e, hm⟩ <;> simp [UnpackedFloat.add]
    · rcases f with ⟨_ | _⟩ | _ | s | ⟨s, m, e, hm⟩ <;> simp [UnpackedFloat.add]
  rcases hsum with hsum | hsum
  · rw [hsum, unpack_pack (f := .infinity .negative) trivial] at hb
    exact Option.some.inj hb
  · rw [hsum, unpack_pack (f := .notANumber) trivial] at hb
    cases hb

/-- From infinity nothing leads ahead. -/
theorem isFinite_of_lt_add (h : x < x + y) : x.isFinite = true := by
  obtain ⟨a, b, ha, hb, hab⟩ := lt_iff.mp h
  have hsum : placeOf? (x + y) = place? (UnpackedFloat.unpack .binary64 (UnpackedFloat.pack .binary64
    (UnpackedFloat.add .binary64 x.toModel.unpack y.toModel.unpack))) := rfl
  rw [show x.isFinite = x.toModel.unpack.isFinite from rfl]
  rw [hb] at hsum
  unfold placeOf? at ha
  generalize x.toModel.unpack = f at ha hsum
  rcases f with ⟨_ | _⟩ | _ | s | ⟨s, m, e, hm⟩
  · exact absurd hab (not_lt.mpr (le_of_eq_of_le (place?_add_minus_infinity (.inl rfl) hsum) bot_le))
  · cases ha
    exact absurd hab (not_lt.mpr le_top)
  · cases ha
  · rfl
  · rfl

/-- Only a positive wait leads ahead. -/
theorem zero_lt_of_lt_add (h : x < x + y) : (0.0 : Float) < y := by
  have hfinite := isFinite_of_lt_add h
  obtain ⟨a, b, ha, hb, hab⟩ := lt_iff.mp h
  -- A wait is infinite, not a number, a zero, or finite; only a positive one does not lead back.
  rcases hy : y.toModel.unpack with ⟨_ | _⟩ | _ | s | ⟨_ | _, m, e, hm⟩
  · exact absurd hab (not_lt.mpr (le_of_eq_of_le (place?_add_minus_infinity (.inr hy) hb.symm) bot_le))
  · exact lt_iff.mpr ⟨_, ⊤, placeOf?_zero, by rw [placeOf?, hy]; rfl, point_lt_top 0⟩
  · have hproper : ¬ y ≤ y := by
      intro hle
      obtain ⟨c, -, hc, -⟩ := le_iff.mp hle
      rw [placeOf?, hy] at hc
      cases hc
    exact absurd (LawfulTime.le_right (LawfulTime.le_of_lt h)) (not_add_le_of_not_proper hproper)
  · rw [placeOf?_add_zero hy, ha] at hb
    cases hb
    exact absurd hab (lt_irrefl _)
  · obtain ⟨q, hq⟩ := exists_point_of_isFinite hfinite
    have hplace : placeOf? y = some (point (-(m * 2 ^ e))) := by rw [placeOf?, hy]; rfl
    have hmq : (0 : ℚ) ≤ m := Nat.cast_nonneg m
    have hback : -((m : ℚ) * 2 ^ e) ≤ 0 := neg_nonpos.mpr (by positivity)
    exact absurd (add_le_of_point hq hplace hback) (LawfulTime.lt_iff.mp h).2
  · have hmq : (0 : ℚ) < m := by exact_mod_cast hm
    refine lt_iff.mpr ⟨_, _, placeOf?_zero, by rw [placeOf?, hy]; rfl, point_lt_point.mpr ?_⟩
    positivity

end Double

end LayerAnimation
