import LayerAnimation.Easing
import LayerAnimation.Proofs.Easing.Iterates
import LayerAnimation.Proofs.Exact
import Mathlib.Tactic.NormNum.OfScientific

/-!
# Solving a timing curve

Easing looks for the parameter at which the abscissa of a timing curve reaches the elapsed
fraction.  Without rounding what it finds is right, whichever way it is found.

- `newton_visits`: what Newton's method returns is a point that its steps visit, and close enough.
- `bisect_number`: halving keeps the solution between its bounds, and every halving brings the
  point twice as near.
- `solve_number` puts the two together, and `solve_sound` says it of any control abscissas between
  zero and one.
-/

namespace LayerAnimation

namespace Easing

open Exact

variable {K : Type} [Field K] [LinearOrder K] [IsStrictOrderedRing K]

/-! ## §1 Curves of numbers -/

@[simp] theorem three_eq : (3.0 : Exact K) = number 3 := by
  show number (OfScientific.ofScientific 30 true 1 : K) = number 3
  norm_num

@[simp] theorem six_eq : (6.0 : Exact K) = number 6 := by
  show number (OfScientific.ofScientific 60 true 1 : K) = number 6
  norm_num

@[simp] theorem half_eq : (0.5 : Exact K) = number (1 / 2) := by
  show number (OfScientific.ofScientific 5 true 1 : K) = number (1 / 2)
  norm_num

omit [IsStrictOrderedRing K] in
@[simp] theorem tolerance_eq : (tolerance : Exact K) = number 1e-9 := rfl

omit [IsStrictOrderedRing K] in
@[simp] theorem flatSlope_eq : (flatSlope : Exact K) = number 1e-6 := rfl

variable (c : UnitCubic K) {x : K}

@[simp] theorem cubic_number (s : K) :
    cubic (number c.first) (number c.second) (number s) = number (c.height s) := by
  simp [cubic, UnitCubic.height]

@[simp] theorem cubicSlope_number (s : K) :
    cubicSlope (number c.first) (number c.second) (number s) = number (c.slope s) := by
  simp [cubicSlope, UnitCubic.slope]

/-! ## §2 Newton's method -/

/-- What Newton's method returns is close enough, and its steps lead there. -/
theorem newton_visits {n : Nat} {s : K} {r : Exact K}
    (h : newton (number c.first) (number c.second) (number x) n (number s) = some r) :
    ∃ a, r = number a ∧ Relation.ReflTransGen (c.Step 1e-9 x) s a ∧ |c.height a - x| < 1e-9 := by
  induction n generalizing s with
  | zero => simp [newton] at h
  | succ n ih =>
    simp only [newton, cubic_number, cubicSlope_number, number_sub_number, abs_number,
      tolerance_eq, flatSlope_eq, number_lt_number] at h
    split at h
    · rename_i hclose
      exact ⟨s, (Option.some.inj h).symm, .refl, hclose⟩
    rename_i hfar
    split at h
    · cases h
    rename_i hsteep
    have hslope : c.slope s ≠ 0 := by
      intro hzero
      apply hsteep
      rw [hzero, abs_zero]
      norm_num
    rw [number_div_number _ hslope, number_sub_number] at h
    obtain ⟨a, hr, hsteps, hclose⟩ := ih h
    -- The method has gone on, so the height is not close yet and the curve is not flat here.
    have hstep : c.Step 1e-9 x s (s - (c.height s - x) / c.slope s) :=
      ⟨not_lt.mp hfar, hslope, by field_simp; ring⟩
    exact ⟨a, hr, hsteps.head hstep, hclose⟩

/-! ## §3 Bisection -/

/-- Between bounds whose heights enclose `x`, a point is off by no more than three times its
distance from the farther bound. -/
theorem abs_height_sub_le {lo hi s w : K} (h0 : 0 ≤ lo) (hlo : lo ≤ s) (hhi : s ≤ hi) (h1 : hi ≤ 1)
    (hbelow : c.height lo ≤ x) (habove : x ≤ c.height hi) (hwlo : s - lo ≤ w) (hwhi : hi - s ≤ w) :
    |c.height s - x| ≤ 3 * w := by
  have hrise := c.height_sub_le h0 hlo (hhi.trans h1)
  have hrest := c.height_sub_le (h0.trans hlo) hhi h1
  exact abs_le.mpr ⟨by linarith, by linarith⟩

/-- `n` halvings of an interval whose ends are at most `w` away from the starting point. -/
theorem bisect_number (n : Nat) (lo hi s w : K) (h0 : 0 ≤ lo) (hlo : lo ≤ s) (hhi : s ≤ hi)
    (h1 : hi ≤ 1) (hbelow : c.height lo ≤ x) (habove : x ≤ c.height hi) (hwlo : s - lo ≤ w)
    (hwhi : hi - s ≤ w) :
    ∃ a, bisect (number c.first) (number c.second) (number x) n (number lo) (number hi) (number s)
        = number a ∧ 0 ≤ a ∧ a ≤ 1 ∧
      (|c.height a - x| < 1e-9 ∨ |c.height a - x| ≤ 3 * (w / 2 ^ n)) := by
  induction n generalizing lo hi s w with
  | zero =>
    have hoff := abs_height_sub_le c h0 hlo hhi h1 hbelow habove hwlo hwhi
    exact ⟨s, rfl, h0.trans hlo, hhi.trans h1, .inr (by simpa using hoff)⟩
  | succ n ih =>
    have hhalf : w / 2 / 2 ^ n = w / 2 ^ (n + 1) := by
      rw [div_div, pow_succ']
    simp only [bisect, cubic_number, number_sub_number, abs_number, tolerance_eq, number_lt_number,
      half_eq, number_add_number, number_mul_number]
    split
    · rename_i hclose
      exact ⟨s, rfl, h0.trans hlo, hhi.trans h1, .inl hclose⟩
    split
    · -- The solution lies above the point.
      rename_i hless
      obtain ⟨a, ha, hunit⟩ := ih s hi (1 / 2 * (s + hi)) (w / 2)
        (h0.trans hlo) (by linarith) (by linarith) h1 hless.le habove (by linarith) (by linarith)
      exact ⟨a, ha, hhalf ▸ hunit⟩
    · rename_i hless
      obtain ⟨a, ha, hunit⟩ := ih lo s (1 / 2 * (lo + s)) (w / 2)
        h0 (by linarith) (by linarith) (hhi.trans h1) hbelow (not_lt.mp hless) (by linarith)
        (by linarith)
      exact ⟨a, ha, hhalf ▸ hunit⟩

/-! ## §4 The solution -/

theorem solve_number (hx0 : 0 < x) (hx1 : x < 1) :
    ∃ a, solve (number c.first) (number c.second) (number x) = number a ∧ 0 ≤ a ∧ a ≤ 1 ∧
      |c.height a - x| < 1e-9 := by
  unfold solve
  cases hnewton : newton (number c.first) (number c.second) (number x) 8 (number x) with
  | some r =>
    obtain ⟨a, rfl, hvisited, hclose⟩ := newton_visits c hnewton
    have hunit := UnitCubic.Visited.mem_unit (by norm_num) hx0 hx1 hvisited hclose
    exact ⟨a, rfl, hunit.1, hunit.2, hclose⟩
  | none =>
    simp only [Option.getD_none, zero_eq, one_eq]
    obtain ⟨a, ha, h0, h1, hclose⟩ := bisect_number c 64 0 1 x 1 le_rfl hx0.le hx1.le le_rfl
      (by simpa using hx0.le) (by simpa using hx1.le) (by linarith) (by linarith)
    refine ⟨a, ha, h0, h1, hclose.elim id fun hle => hle.trans_lt ?_⟩
    norm_num

/-- Two control values between zero and one are those of a cubic over the unit interval. -/
theorem exists_unitCubic {p q : Exact K} (hp : 0.0 ≤ p ∧ p ≤ 1.0) (hq : 0.0 ≤ q ∧ q ≤ 1.0) :
    ∃ c : UnitCubic K, p = number c.first ∧ q = number c.second := by
  obtain ⟨a, rfl, ha⟩ := exists_number_of_unit hp.1 hp.2
  obtain ⟨b, rfl, hb⟩ := exists_number_of_unit hq.1 hq.2
  exact ⟨⟨a, b, ha.1, ha.2, hb.1, hb.2⟩, rfl, rfl⟩

/-! ## §5 Eased progress inside -/

/-- The abscissas of a curve that passes the check are between zero and one. -/
theorem abscissas_of_check {α : Type} [Scalar α] {e : Easing α} (h : e.check = .ok ()) :
    ((0.0 : α) ≤ e.controlPoints.x₁ ∧ e.controlPoints.x₁ ≤ (1.0 : α)) ∧
      ((0.0 : α) ≤ e.controlPoints.x₂ ∧ e.controlPoints.x₂ ≤ (1.0 : α)) := by
  simp only [check] at h
  split at h
  · split at h
    · assumption
    · cases h
  · cases h

/-- Strictly between start and end nothing is cut off: a curve along the diagonal changes nothing,
and any other curve is read off at the solution. -/
theorem apply_interior (e : Easing (Exact K)) (h0 : 0 < x) (h1 : x < 1) :
    e.apply (number x) =
      if e.controlPoints.x₁ == e.controlPoints.y₁ && e.controlPoints.x₂ == e.controlPoints.y₂ then
        number x
      else
        cubic e.controlPoints.y₁ e.controlPoints.y₂
          (solve e.controlPoints.x₁ e.controlPoints.x₂ (number x)) := by
  have hclamp : Scalar.clamp 0.0 1.0 (number x) = number x := by
    simp [Scalar.clamp, h0.not_gt, h1.not_gt]
  have hends : ((number x == 0.0) || (number x == 1.0)) = false := by
    rw [Bool.or_eq_false_iff, zero_eq, one_eq, Bool.eq_false_iff, Bool.eq_false_iff, ne_eq, ne_eq,
      number_beq_number, number_beq_number]
    exact ⟨h0.ne', h1.ne⟩
  simp only [apply, hclamp, hends, Bool.false_eq_true, if_false]

/-- For control abscissas between zero and one the solver returns, for every fraction strictly
between zero and one, a parameter of the unit interval at which the curve is within the tolerance of
that fraction.  So a curve along the diagonal, which is not solved, is eased as its solution would
ease it, up to the tolerance. -/
theorem solve_sound :
    (∀ p q x : Exact K, 0.0 ≤ p ∧ p ≤ 1.0 → 0.0 ≤ q ∧ q ≤ 1.0 → 0.0 < x ∧ x < 1.0 →
      0.0 ≤ solve p q x ∧ solve p q x ≤ 1.0 ∧
        Scalar.abs (cubic p q (solve p q x) - x) < tolerance) ∧
    ∀ (e : Easing (Exact K)) (t : Exact K), e.check = .ok () →
      e.controlPoints.x₁ == e.controlPoints.y₁ → e.controlPoints.x₂ == e.controlPoints.y₂ →
      0.0 < t ∧ t < 1.0 →
      e.apply t = t ∧
        Scalar.abs (cubic e.controlPoints.y₁ e.controlPoints.y₂
          (solve e.controlPoints.x₁ e.controlPoints.x₂ t) - e.apply t) < tolerance := by
  constructor
  · intro p q x hp hq hx
    obtain ⟨c, rfl, rfl⟩ := exists_unitCubic hp hq
    obtain ⟨x, rfl, hx0, hx1⟩ := exists_number_of_interior hx
    obtain ⟨a, ha, h0, h1, hclose⟩ := solve_number c hx0 hx1
    simp [ha, h0, h1, hclose]
  · intro e t hcheck hdiag₁ hdiag₂ ht
    obtain ⟨hp, hq⟩ := abscissas_of_check hcheck
    obtain ⟨c, hc₁, hc₂⟩ := exists_unitCubic hp hq
    obtain ⟨x, rfl, hx0, hx1⟩ := exists_number_of_interior ht
    obtain ⟨a, ha, -, -, hclose⟩ := solve_number c hx0 hx1
    have happly : e.apply (number x) = number x := by
      rw [apply_interior e hx0 hx1, hdiag₁, hdiag₂]
      rfl
    refine ⟨happly, ?_⟩
    -- On the diagonal the ordinates are the abscissas.
    rw [hc₁] at hdiag₁
    rw [hc₂] at hdiag₂
    rw [happly, hc₁, hc₂, eq_number_of_beq hdiag₁, eq_number_of_beq hdiag₂, ha]
    simpa using hclose

theorem solve_sound_linear :
    ((0.0 : Exact ℚ) ≤ 0.42 ∧ (0.42 : Exact ℚ) ≤ 1.0) ∧
    ((0.0 : Exact ℚ) ≤ 1.0 ∧ (1.0 : Exact ℚ) ≤ 1.0) ∧
    ((0.0 : Exact ℚ) < 0.9 ∧ (0.9 : Exact ℚ) < 1.0) ∧
    (linear : Easing (Exact ℚ)).check = .ok () ∧
    (0.0 ≤ solve (0.42 : Exact ℚ) 1.0 0.9 ∧
      Scalar.abs (cubic (0.42 : Exact ℚ) 1.0 (solve 0.42 1.0 0.9) - 0.9) < tolerance) ∧
    (linear : Easing (Exact ℚ)).apply 0.9 = 0.9 := by
  have hp : (0.0 : Exact ℚ) ≤ 0.42 ∧ (0.42 : Exact ℚ) ≤ 1.0 := by decide +kernel
  have hq : (0.0 : Exact ℚ) ≤ 1.0 ∧ (1.0 : Exact ℚ) ≤ 1.0 := by decide +kernel
  have hx : (0.0 : Exact ℚ) < 0.9 ∧ (0.9 : Exact ℚ) < 1.0 := by decide +kernel
  have hlinear : (linear : Easing (Exact ℚ)).check = .ok () := by
    simp [check, controlPoints, isFinite_iff]
  obtain ⟨hrange, hline⟩ := solve_sound (K := ℚ)
  obtain ⟨hlow, -, hclose⟩ := hrange 0.42 1.0 0.9 hp hq hx
  exact ⟨hp, hq, hx, hlinear, ⟨hlow, hclose⟩,
    (hline linear 0.9 hlinear (by decide +kernel) (by decide +kernel) hx).1⟩

end Easing

end LayerAnimation
