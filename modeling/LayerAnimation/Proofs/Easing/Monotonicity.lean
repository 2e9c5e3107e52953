import LayerAnimation.Proofs.Continuity
import LayerAnimation.Proofs.Overshoot

/-!
# Order of eased fractions

The ordinate of a timing curve does not fall, but easing reads it at a parameter that is right up to
the tolerance only.  How many steps the solver takes changes with the fraction, and where it changes
a later fraction may be eased to a smaller one.  The statements are about exact numbers.

- `Easing.Moderate.read_off` says at which parameters a moderate curve is read off.
- Fractions that are two tolerances apart keep their order (`Easing.Moderate.rises_across`).
- A curve that rises no more than `l` times as fast as time goes by falls back by no more than
  `2 * l` tolerances (`Easing.Moderate.falls_back`); for presets `l` is 5 / 2 (`Easing.gentle_of_mem`).
- `Easing.presets_rise` is the statement for presets, and `Easing.apply_easeInOut_falls` a pair of
  fractions that are eased in the wrong order.
-/

namespace LayerAnimation

open Exact

variable {K : Type} [Field K] [LinearOrder K] [IsStrictOrderedRing K]

/-! ## §1 Two coordinates of one curve -/

namespace UnitCubic

variable (c d : UnitCubic K) {a b l : K}

/-- Heights compare as slopes do. -/
theorem height_sub_le_mul (hslope : ∀ s, 0 ≤ s → s ≤ 1 → d.slope s ≤ l * c.slope s) (h0 : 0 ≤ a)
    (hab : a ≤ b) (h1 : b ≤ 1) : d.height b - d.height a ≤ l * (c.height b - c.height a) := by
  have ha := hslope a h0 (hab.trans h1)
  have hb := hslope b (h0.trans hab) h1
  have hm := hslope ((a + b) / 2) (by linarith) (by linarith)
  have hd : 0 ≤ (b - a) / 6 := by linarith
  calc d.height b - d.height a
      = (d.slope a + 4 * d.slope ((a + b) / 2) + d.slope b) * ((b - a) / 6) :=
        d.height_sub_height a b
    _ ≤ (l * c.slope a + 4 * (l * c.slope ((a + b) / 2)) + l * c.slope b) * ((b - a) / 6) :=
        mul_le_mul_of_nonneg_right (by linarith) hd
    _ = l * (c.height b - c.height a) := by
      rw [c.height_sub_height a b]
      ring

/-- A parameter at which the curve is lower does not lie behind. -/
theorem le_of_height_lt (h1 : a ≤ 1) (h0 : 0 ≤ b) (h : c.height a < c.height b) : a ≤ b := by
  by_contra hlt
  exact absurd h (not_lt.mpr (c.height_mono h0 (not_le.mp hlt).le h1))

end UnitCubic

namespace Easing

variable {e : Easing (Exact K)}

/-! ## §2 Where a curve is read off -/

/-- The coordinates of a curve as cubics. -/
structure Coordinates (e : Easing (Exact K)) (c d : UnitCubic K) : Prop where
  x₁ : e.controlPoints.x₁ = number c.first
  y₁ : e.controlPoints.y₁ = number d.first
  x₂ : e.controlPoints.x₂ = number c.second
  y₂ : e.controlPoints.y₂ = number d.second

/-- The parameter `a` is one at which a curve may be read off for the elapsed fraction `x`. -/
structure ReadAt (e : Easing (Exact K)) (c d : UnitCubic K) (x a : K) : Prop where
  nonneg : 0 ≤ a
  le_one : a ≤ 1
  close : |c.height a - x| < 1e-9
  apply_eq : e.apply (number x) = number (d.height a)

/-- A curve is read off less than a tolerance ahead of the fraction. -/
theorem ReadAt.lt_add {c d : UnitCubic K} {x a : K} (h : e.ReadAt c d x a) :
    c.height a < x + 1e-9 := by
  linarith [(abs_lt.mp h.close).2]

/-- Nor is it read off a tolerance behind it. -/
theorem ReadAt.sub_lt {c d : UnitCubic K} {x a : K} (h : e.ReadAt c d x a) :
    x - 1e-9 < c.height a := by
  linarith [(abs_lt.mp h.close).1]

/-- Easing leaves the start of the way where it is. -/
theorem apply_zero (e : Easing (Exact K)) : e.apply (number 0) = number 0 := by
  simp [apply, Scalar.clamp, (zero_le_one (α := K)).not_gt]

theorem apply_number_one (e : Easing (Exact K)) : e.apply (number 1) = number 1 := by
  simpa only [one_eq] using e.apply_one

omit [IsStrictOrderedRing K] in
/-- The fractions between start and end are the two ends and those inside. -/
theorem end_or_interior {x : K} (h0 : 0 ≤ x) (h1 : x ≤ 1) : x = 0 ∨ x = 1 ∨ 0 < x ∧ x < 1 := by
  rcases h0.lt_or_eq with h0 | rfl
  · rcases h1.lt_or_eq with h1 | rfl
    · exact .inr (.inr ⟨h0, h1⟩)
    · exact .inr (.inl rfl)
  · exact .inl rfl

/-- A curve along the diagonal changes nothing. -/
theorem apply_of_diagonal (hdiag : (e.controlPoints.x₁ == e.controlPoints.y₁ &&
    e.controlPoints.x₂ == e.controlPoints.y₂) = true) {x : K} (h0 : 0 ≤ x) (h1 : x ≤ 1) :
    e.apply (number x) = number x := by
  obtain rfl | rfl | ⟨h0, h1⟩ := end_or_interior h0 h1
  · exact e.apply_zero
  · exact e.apply_number_one
  · rw [apply_interior e h0 h1, if_pos hdiag]

/-- A moderate curve runs along the diagonal, or it is read off at parameters that are right up to
the tolerance. -/
theorem Moderate.read_off (he : e.Moderate) :
    (e.controlPoints.x₁ == e.controlPoints.y₁ && e.controlPoints.x₂ == e.controlPoints.y₂) = true ∨
    ∃ c d, e.Coordinates c d ∧ ∀ x, 0 ≤ x → x ≤ 1 → ∃ a, e.ReadAt c d x a := by
  obtain ⟨hp, hq⟩ := abscissas_of_check he.checked
  obtain ⟨c, hx₁, hx₂⟩ := exists_unitCubic hp hq
  obtain ⟨d, hy₁, hy₂⟩ := exists_unitCubic he.first he.second
  cases hdiag : e.controlPoints.x₁ == e.controlPoints.y₁ &&
      e.controlPoints.x₂ == e.controlPoints.y₂ with
  | true => exact .inl rfl
  | false =>
    refine .inr ⟨c, d, ⟨hx₁, hy₁, hx₂, hy₂⟩, fun x h0 h1 => ?_⟩
    -- At the ends the curve is not searched: it is read off at the ends themselves.
    obtain rfl | rfl | ⟨h0, h1⟩ := end_or_interior h0 h1
    · exact ⟨0, le_rfl, zero_le_one, by norm_num, by simp [e.apply_zero]⟩
    · exact ⟨1, zero_le_one, le_rfl, by norm_num, by simp [e.apply_number_one]⟩
    · obtain ⟨a, ha, ha0, ha1, hclose⟩ := solve_number c h0 h1
      refine ⟨a, ha0, ha1, hclose, ?_⟩
      rw [apply_interior e h0 h1, hdiag, if_neg Bool.false_ne_true, hx₁, hx₂, ha, hy₁, hy₂,
        cubic_number]

/-! ## §3 How far the order is kept -/

variable {x y : K}

/-- Fractions that are two tolerances apart keep their order. -/
theorem Moderate.rises_across (he : e.Moderate) (h0 : 0 ≤ x) (h1 : y ≤ 1)
    (apart : x + 2 * 1e-9 ≤ y) : e.apply (number x) ≤ e.apply (number y) := by
  have hxy : x ≤ y := by linarith
  obtain hdiag | ⟨c, d, -, hread⟩ := he.read_off
  · rw [apply_of_diagonal hdiag h0 (hxy.trans h1), apply_of_diagonal hdiag (h0.trans hxy) h1,
      number_le_number]
    exact hxy
  · obtain ⟨a, ha⟩ := hread x h0 (hxy.trans h1)
    obtain ⟨b, hb⟩ := hread y (h0.trans hxy) h1
    -- Each abscissa is off by less than a tolerance, so two of them cannot close the gap.
    have hlt : c.height a < c.height b := by linarith [ha.lt_add, hb.sub_lt]
    rw [ha.apply_eq, hb.apply_eq, number_le_number]
    exact d.height_mono ha.nonneg (c.le_of_height_lt ha.le_one hb.nonneg hlt) hb.le_one

/-- The ordinate rises no more than `l` times as fast as the abscissa. -/
def Gentle (e : Easing (Exact K)) (l : K) : Prop :=
  ∀ c d, e.Coordinates c d → ∀ s, 0 ≤ s → s ≤ 1 → d.slope s ≤ l * c.slope s

/-- Later fractions are eased to no less, up to `2 * l` tolerances. -/
theorem Moderate.falls_back (he : e.Moderate) {l : K} (hl : 0 ≤ l) (gentle : e.Gentle l)
    (h0 : 0 ≤ x) (hxy : x ≤ y) (h1 : y ≤ 1) :
    e.apply (number x) ≤ e.apply (number y) + number (2 * l * 1e-9) := by
  obtain hdiag | ⟨c, d, hcoordinates, hread⟩ := he.read_off
  · have hslack : (0 : K) ≤ 2 * l * 1e-9 := by positivity
    rw [apply_of_diagonal hdiag h0 (hxy.trans h1), apply_of_diagonal hdiag (h0.trans hxy) h1,
      number_add_number, number_le_number]
    linarith
  · obtain ⟨a, ha⟩ := hread x h0 (hxy.trans h1)
    obtain ⟨b, hb⟩ := hread y (h0.trans hxy) h1
    rw [ha.apply_eq, hb.apply_eq, number_add_number, number_le_number]
    rcases le_total a b with hab | hba
    · have hrise := d.height_mono ha.nonneg hab hb.le_one
      have hslack : (0 : K) ≤ 2 * l * 1e-9 := by positivity
      linarith
    · -- The parameters are in the wrong order, so the abscissas differ by the tolerances at most.
      have hfall := c.height_sub_le_mul d (gentle c d hcoordinates) hb.nonneg hba ha.le_one
      have hclose : c.height a - c.height b ≤ 2 * 1e-9 := by linarith [ha.lt_add, hb.sub_lt]
      linarith [mul_le_mul_of_nonneg_left hclose hl]

/-! ## §4 Presets -/

/-- No preset rises more than 5 / 2 times as fast as time goes by. -/
theorem gentle_of_mem (h : e ∈ presets) : e.Gentle (5 / 2) := by
  rintro c d ⟨hx₁, hy₁, hx₂, hy₂⟩ s h0 h1
  have hu : 0 ≤ 1 - s := sub_nonneg.mpr h1
  have hus := mul_nonneg hu h0
  have huu := mul_nonneg hu hu
  have hss := mul_nonneg h0 h0
  have h042 : (0.42 : Exact K) = number 0.42 := rfl
  have h058 : (0.58 : Exact K) = number 0.58 := rfl
  have h025 : (0.25 : Exact K) = number 0.25 := rfl
  have h01 : (0.1 : Exact K) = number 0.1 := rfl
  simp only [presets, List.mem_cons, List.not_mem_nil, or_false] at h
  rcases h with rfl | rfl | rfl | rfl | rfl <;>
    simp only [controlPoints, zero_eq, one_eq, h042, h058, h025, h01, number.injEq]
      at hx₁ hy₁ hx₂ hy₂ <;>
    simp only [UnitCubic.slope, ← hx₁, ← hy₁, ← hx₂, ← hy₂]
  -- Written in `1 - s` and `s`, the difference of the slopes is a form with no negative value.
  case inl => linarith
  case inr.inl => linarith
  case inr.inr.inl => linarith
  case inr.inr.inr.inl => linarith [sq_nonneg (1 - s - s)]
  case inr.inr.inr.inr => linarith [sq_nonneg (7 * (1 - s) - 12 * s)]

@[simp] theorem two_eq : (2.0 : Exact K) = number 2 := by
  show number (OfScientific.ofScientific 20 true 1 : K) = number 2
  norm_num

@[simp] theorem five_eq : (5.0 : Exact K) = number 5 := by
  show number (OfScientific.ofScientific 50 true 1 : K) = number 5
  norm_num

/-- A preset eases a later fraction to no less than an earlier one if it is the line, if one of them
is an end, or if they are at least two tolerances apart.  In any case it falls back by no more than
five tolerances. -/
theorem presets_rise {e : Easing (Exact K)} (preset : e ∈ presets) {t u : Exact K} (h0 : 0.0 ≤ t)
    (le : t ≤ u) (h1 : u ≤ 1.0) :
    (e = .linear ∨ t = 0.0 ∨ u = 1.0 ∨ t + 2.0 * tolerance ≤ u → e.apply t ≤ e.apply u) ∧
    e.apply t ≤ e.apply u + 5.0 * tolerance := by
  have hmoderate := moderate_of_mem preset
  obtain ⟨x, rfl, hx0, hx1⟩ := exists_number_of_unit h0 (LawfulTime.le_trans le h1)
  obtain ⟨y, rfl, hy0, hy1⟩ := exists_number_of_unit (LawfulTime.le_trans h0 le) h1
  rw [number_le_number] at le
  constructor
  -- The line is not searched, the ends are exact, and two tolerances outweigh what the search may
  -- miss on both sides.
  · rintro (rfl | hstart | hend | hapart)
    · have hdiag : ((linear : Easing (Exact K)).controlPoints.x₁ == linear.controlPoints.y₁ &&
          (linear : Easing (Exact K)).controlPoints.x₂ == linear.controlPoints.y₂) = true := by
        simp [controlPoints]
      rw [apply_of_diagonal hdiag hx0 hx1, apply_of_diagonal hdiag hy0 hy1, number_le_number]
      exact le
    · obtain ⟨a, ha, ha0, -⟩ := hmoderate.exists_number_apply (t := number y) (by simp)
      rw [hstart, zero_eq, e.apply_zero, ha, number_le_number]
      exact ha0
    · obtain ⟨a, ha, -, ha1⟩ := hmoderate.exists_number_apply (t := number x) (by simp)
      rw [hend, e.apply_one, one_eq, ha, number_le_number]
      exact ha1
    · simp only [two_eq, tolerance_eq, number_mul_number, number_add_number, number_le_number]
        at hapart
      exact hmoderate.rises_across hx0 hy1 hapart
  · have hfall := hmoderate.falls_back (by norm_num) (gentle_of_mem preset) hx0 le hy1
    have hslack : (5.0 * tolerance : Exact K) = number (2 * (5 / 2) * 1e-9) := by
      simp only [five_eq, tolerance_eq, number_mul_number]
      norm_num
    rwa [hslack]

/-- The curve that eases in and out falls back where a fraction is solved in two steps of Newton's
method and a later one in one step. -/
theorem apply_easeInOut_falls :
    easeInOut ∈ (presets : List (Easing (Exact ℚ))) ∧ (0.0 : Exact ℚ) ≤ 0.4969870774 ∧
      (0.4969870774 : Exact ℚ) ≤ 0.4969870775 ∧ (0.4969870775 : Exact ℚ) ≤ 1.0 ∧
      ¬ (easeInOut : Easing (Exact ℚ)).apply 0.4969870774 ≤ easeInOut.apply 0.4969870775 :=
  ⟨by simp [presets], by decide +kernel, by decide +kernel, by decide +kernel, by decide +kernel⟩

/-- Two tolerances further on it does not. -/
theorem presets_rise_easeInOut :
    (0.4969870774 : Exact ℚ) + 2.0 * tolerance ≤ 0.4969870794 ∧
      (easeInOut : Easing (Exact ℚ)).apply 0.4969870774 ≤ easeInOut.apply 0.4969870794 ∧
      (easeInOut : Easing (Exact ℚ)).apply 0.4969870774
        ≤ easeInOut.apply 0.4969870775 + 5.0 * tolerance := by
  have hpreset : easeInOut ∈ (presets : List (Easing (Exact ℚ))) := by simp [presets]
  have hstart : (0.0 : Exact ℚ) ≤ 0.4969870774 := by decide +kernel
  have hapart : (0.4969870774 : Exact ℚ) + 2.0 * tolerance ≤ 0.4969870794 := by decide +kernel
  have hfar := presets_rise hpreset hstart (u := 0.4969870794) (by decide +kernel)
    (by decide +kernel)
  have hnear := presets_rise hpreset hstart (u := 0.4969870775) (by decide +kernel)
    (by decide +kernel)
  exact ⟨hapart, hfar.1 (.inr (.inr (.inr hapart))), hnear.2⟩

end Easing

end LayerAnimation
