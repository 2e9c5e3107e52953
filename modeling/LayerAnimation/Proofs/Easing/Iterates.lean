import LayerAnimation.Proofs.Easing.Cubic
import Mathlib.Algebra.Order.Group.Abs
import Mathlib.Logic.Relation

/-!
# Where the tangents lead

Newton's method goes from a point of a curve to where its tangent has the wanted height.  Nothing
keeps the points it visits between the ends of the curve.  The statements here say that it
nevertheless never comes to rest outside: every visited point at which the curve is close to the
wanted height `x` lies between zero and one, whatever the control values, when the first point is
`x` itself.

- `UnitCubic.Step` is one step, taken only where the curve is not close enough yet and not flat.
- If the curve bends up in the long run, the points may leave the interval, but there the height is
  too far off (`Visited.nonneg_of_close`).
- If it bends down in the long run, no visited point lies outside
  (`Visited.mem_unit_of_bend_nonpos`, `Visited.mem_unit`): under the arch of the curve the points
  climb (`Under.step`); when the first step crosses the inflection they stay between it and the
  start, or within the start's distance of the inflection (`mem_unit_of_crossing`).
- `Visited.mem_unit` puts all cases together; `flip` exchanges the two ends.
-/

namespace LayerAnimation

namespace UnitCubic

variable {K : Type} [Field K] [LinearOrder K]

/-! ## §1 Steps -/

/-- One step towards the height `x`, from a point that is at least `ε` off and not flat. -/
structure Step (c : UnitCubic K) (ε x s s' : K) : Prop where
  far : ε ≤ |c.height s - x|
  slope_ne_zero : c.slope s ≠ 0
  tangent : c.height s + c.slope s * (s' - s) = x

/-- The points that steps lead to when they start at the wanted height. -/
def Visited (c : UnitCubic K) (ε x : K) : K → Prop :=
  Relation.ReflTransGen (c.Step ε x) x

variable {c : UnitCubic K} {ε x s s' : K}

theorem Step.slope_mul (h : c.Step ε x s s') :
    c.slope s * s' = c.slope s * s - c.height s + x := by
  linear_combination h.tangent

/-- What every step keeps holds wherever the steps lead. -/
theorem keeps {P : K → Prop} (hstep : ∀ s s', c.Step ε x s s' → P s → P s') {a : K}
    (h : Relation.ReflTransGen (c.Step ε x) a s) (ha : P a) : P s := by
  induction h with
  | refl => exact ha
  | tail _ hs ih => exact hstep _ _ hs ih

variable [IsStrictOrderedRing K]

theorem Step.slope_pos (h : c.Step ε x s s') (h0 : 0 ≤ s) (h1 : s ≤ 1) : 0 < c.slope s :=
  lt_of_le_of_ne (c.slope_nonneg h0 h1) h.slope_ne_zero.symm

theorem Step.flip (h : c.Step ε x s s') : c.flip.Step ε (1 - x) (1 - s) (1 - s') where
  far := by
    have hswap : 1 - c.height s - (1 - x) = x - c.height s := by ring
    simpa [hswap, abs_sub_comm] using h.far
  slope_ne_zero := by simpa using h.slope_ne_zero
  tangent := by
    simp only [height_flip, slope_flip]
    linear_combination -h.tangent

theorem steps_flip {a : K} (h : Relation.ReflTransGen (c.Step ε x) a s) :
    Relation.ReflTransGen (c.flip.Step ε (1 - x)) (1 - a) (1 - s) :=
  Relation.ReflTransGen.lift (fun s => 1 - s) (fun _ _ (hs : c.Step ε x _ _) => hs.flip) _ _ h

/-! ## §2 Curves that bend up in the long run -/

omit [IsStrictOrderedRing K] in
theorem slope_mul_self_sub_height (c : UnitCubic K) (s : K) :
    c.slope s * s - c.height s = (2 * c.lead * s + c.bend 0) * (s * s) := by
  simp only [slope, height, lead, bend]
  ring

/-- A curve that bends up from its start on sends no point back past the start. -/
theorem Step.nonneg_of_bend_zero (hlead : 0 ≤ c.lead) (hbend : 0 ≤ c.bend 0) (hx : 0 ≤ x)
    (h : c.Step ε x s s') (h0 : 0 ≤ s) : 0 ≤ s' := by
  have hstart := c.slope_nonneg le_rfl zero_le_one
  have hslope : 0 < c.slope s := by
    refine lt_of_le_of_ne ?_ h.slope_ne_zero.symm
    rw [c.slope_about 0 s, sub_zero]
    positivity
  have hmul : c.slope s * s' = (2 * c.lead * s + c.bend 0) * (s * s) + x := by
    linear_combination h.slope_mul + c.slope_mul_self_sub_height s
  apply nonneg_of_mul_nonneg_right _ hslope
  rw [hmul]
  positivity

/-- A curve that bends down at its start and up in the long run is negative before the start. -/
theorem height_nonpos_of_neg (hlead : 0 ≤ c.lead) (hbend : c.bend 0 ≤ 0) (hs : s < 0) :
    c.height s ≤ 0 := by
  have hstart := mul_nonpos_of_nonneg_of_nonpos (c.slope_nonneg le_rfl zero_le_one) hs.le
  have hthird := mul_nonpos_of_nonneg_of_nonpos hlead hs.le
  have hrest : (c.bend 0 + c.lead * s) * (s * s) ≤ 0 :=
    mul_nonpos_of_nonpos_of_nonneg (by linarith) (mul_self_nonneg s)
  have h := c.height_about 0 s
  simp only [height_zero, sub_zero, zero_add] at h
  linarith

/-- When the wanted height itself is within the tolerance of zero, the points go back towards the
start and not past it. -/
theorem Step.mem_of_lt_tolerance (hlead : 0 ≤ c.lead) (hε : 6 * ε ≤ 1) (hx1 : x ≤ 1) (hxε : x < ε)
    (h : c.Step ε x s s') (hs : 0 ≤ s ∧ s ≤ x) : 0 ≤ s' ∧ s' ≤ x := by
  obtain ⟨h0, hsx⟩ := hs
  have hslope := h.slope_pos h0 (hsx.trans hx1)
  -- The point is far off, and it cannot be so from below.
  have hheight : x < c.height s := by
    have hnonneg := (c.height_mem h0 (hsx.trans hx1)).1
    by_contra hle
    have habs : |c.height s - x| = x - c.height s := by
      rw [abs_sub_comm]
      exact abs_of_nonneg (by linarith)
    linarith [h.far]
  have hmul : c.slope s * s' = (2 * c.lead * s + c.bend 0) * (s * s) + x := by
    linear_combination h.slope_mul + c.slope_mul_self_sub_height s
  constructor
  · apply nonneg_of_mul_nonneg_right _ hslope
    have hbend : -6 ≤ c.bend 0 := by
      simp only [bend, mul_zero, zero_add]
      linarith [c.first_le_one, c.second_nonneg]
    have hthird := mul_nonneg hlead h0
    have hsquare : s * s ≤ x * x := mul_self_le_mul_self h0 hsx
    have hsmall : x * (6 * x) ≤ x * 1 :=
      mul_le_mul_of_nonneg_left (by linarith) (h0.trans hsx)
    have hdrop : -6 * (s * s) ≤ (2 * c.lead * s + c.bend 0) * (s * s) :=
      mul_le_mul_of_nonneg_right (by linarith) (mul_self_nonneg s)
    linarith
  · have hback : c.slope s * (s' - s) < 0 := by linarith [h.tangent]
    have := neg_of_mul_neg_right hback hslope.le
    linarith

/-- A visited point that is close enough does not lie before the start. -/
theorem Visited.nonneg_of_close (hlead : 0 ≤ c.lead) (hε : 6 * ε ≤ 1) (hx0 : 0 < x) (hx1 : x < 1)
    (h : c.Visited ε x s) (hclose : |c.height s - x| < ε) : 0 ≤ s := by
  rcases le_total 0 (c.bend 0) with hbend | hbend
  · exact keeps (fun _ _ hs h0 => hs.nonneg_of_bend_zero hlead hbend hx0.le h0) h hx0.le
  rcases lt_or_ge x ε with hxε | hxε
  · exact (keeps (P := fun s => 0 ≤ s ∧ s ≤ x)
      (fun _ _ hs => hs.mem_of_lt_tolerance hlead hε hx1.le hxε) h ⟨hx0.le, le_rfl⟩).1
  -- Before the start the height is negative, and the wanted one is not within the tolerance.
  · by_contra hneg
    have hheight := height_nonpos_of_neg hlead hbend (not_le.mp hneg)
    linarith [(abs_lt.mp hclose).1]

/-! ## §3 Under the arch -/

/-- A point of the unit interval where the curve bends down and is no higher than `x`. -/
structure Under (c : UnitCubic K) (x s : K) : Prop where
  nonneg : 0 ≤ s
  le_one : s ≤ 1
  bend_nonpos : c.bend s ≤ 0
  height_le : c.height s ≤ x

/-- Under the arch a step leads forward and not past the end: there the tangent lies above the
curve, which ends at one. -/
theorem Under.step (hlead : c.lead ≤ 0) (hx1 : x ≤ 1) (h : c.Step ε x s s') (hs : c.Under x s) :
    c.Under x s' := by
  have hslope := h.slope_pos hs.nonneg hs.le_one
  have hforward : s ≤ s' := by
    have hrise : 0 ≤ c.slope s * (s' - s) := by linarith [h.tangent, hs.height_le]
    linarith [nonneg_of_mul_nonneg_right hrise hslope]
  have hbend := (c.bend_antitone hlead hforward).trans hs.bend_nonpos
  have hend : c.height 1 ≤ c.height s + c.slope s * (1 - s) :=
    c.height_le_tangent hs.bend_nonpos ((c.bend_antitone hlead hs.le_one).trans hs.bend_nonpos)
  refine ⟨hs.nonneg.trans hforward, ?_, hbend, ?_⟩
  · rw [height_one] at hend
    have hreach : c.slope s * (s' - s) ≤ c.slope s * (1 - s) := by linarith [h.tangent]
    linarith [le_of_mul_le_mul_left hreach hslope]
  · calc c.height s' ≤ c.height s + c.slope s * (s' - s) :=
          c.height_le_tangent hs.bend_nonpos hbend
      _ = x := h.tangent

theorem Under.mem_unit (hlead : c.lead ≤ 0) (hx1 : x ≤ 1) {a : K} (ha : c.Under x a)
    (h : Relation.ReflTransGen (c.Step ε x) a s) : 0 ≤ s ∧ s ≤ 1 := by
  have hs := keeps (fun _ _ hs hu => Under.step hlead hx1 hs hu) h ha
  exact ⟨hs.nonneg, hs.le_one⟩

/-- The first step does not lead past the start. -/
theorem Step.nonneg_of_first (hlead : c.lead ≤ 0) (hx0 : 0 < x) (hx1 : x < 1)
    (h : c.Step ε x x s') : 0 ≤ s' := by
  apply nonneg_of_mul_nonneg_right _ (h.slope_pos hx0.le hx1.le)
  have hmul : c.slope x * s' =
      x * ((1 - x) + x * (3 * (1 - c.second)) + 2 * -c.lead * (x * (1 - x))) := by
    rw [h.slope_mul]
    simp only [slope, height, lead]
    ring
  have := sub_nonneg.mpr c.second_le_one
  have := sub_pos.mpr hx1
  have := neg_nonneg.mpr hlead
  rw [hmul]
  positivity

/-! ## §4 About the inflection -/

section Reach

variable {d m r : K}

/-- If the first tangent from the distance `r` behind the inflection `m` leads across it, to where
the height is no more than wanted, that distance is at most half of `m`. -/
theorem two_mul_reach_le (hd : 0 ≤ d) (hsecond : d * (2 - 3 * m) ≤ 1) (hm : 0 < m)
    (hend : m + r < 1)
    (hcross : r - 2 * d * r ^ 3 < d * (m * (1 - m) * (1 - 2 * m))) : 2 * r ≤ m := by
  by_contra hlt
  have hlow : 0 < r - m / 2 := by linarith
  have hhigh : 0 < 1 - m - r := by linarith
  -- The gap is concave in the reach, and not negative at either end of the range.
  have hnear : 0 ≤ m / 2 - 2 * d * (m / 2) ^ 3
      - d * (m * (1 - m) * (1 - 2 * m)) := by
    have hsquare : d * (2 - 3 * m) * (2 - 3 * m) ≤ 1 * (2 - 3 * m) :=
      mul_le_mul_of_nonneg_right hsecond (by linarith)
    have htwo : d * (2 - 3 * m) * (2 - 3 * m) ≤ 2 := by linarith
    linarith [mul_le_mul_of_nonneg_left htwo hm.le]
  have hfar : 0 ≤ 1 - m - 2 * d * (1 - m) ^ 3
      - d * (m * (1 - m) * (1 - 2 * m)) := by
    have hm1 : 0 ≤ 1 - m := by linarith
    linarith [mul_le_mul_of_nonneg_right hsecond hm1]
  have hchord : 0 ≤ (1 - m - m / 2)
      * (r - 2 * d * r ^ 3 - d * (m * (1 - m) * (1 - 2 * m))) := by
    have hremainder : 0 ≤ 2 * d * (1 - m - m / 2)
        * ((r - m / 2) * (1 - m - r) * (1 - m / 2 + r)) := by
      have : 0 ≤ 1 - m - m / 2 := by linarith
      have : 0 ≤ 1 - m / 2 + r := by linarith
      positivity
    linarith [mul_nonneg hhigh.le hnear, mul_nonneg hlow.le hfar]
  have := nonneg_of_mul_nonneg_right hchord (by linarith)
  linarith

/-- If the height at the inflection `m` is more than the one wanted at `m + r`, the slope there
outweighs the curvature within twice the distance `r`. -/
theorem reach_le_slope (hd : 0 ≤ d) (hd2 : d ≤ 2) (hm : 0 < m) (hm1 : m < 1)
    (hsecond : d * (2 - 3 * m) ≤ 1) (hr : 0 ≤ r)
    (habove : r ≤ d * (m * (1 - m) * (1 - 2 * m))) :
    28 * d * r ^ 2 ≤ 1 + d * (1 - 3 * m + 3 * m ^ 2) := by
  have hsquare := sq_nonneg (1 - 2 * m)
  have hquarter : m * (1 - m) ≤ 1 / 4 := by linarith
  have hhalf : d * (1 - 2 * m) ≤ 1 / 2 := by linarith [mul_nonneg hd hm.le]
  have hr8 : r ≤ 1 / 8 := by
    calc r ≤ m * (1 - m) * (d * (1 - 2 * m)) := by linarith
      _ ≤ m * (1 - m) * (1 / 2) :=
        mul_le_mul_of_nonneg_left hhalf (mul_nonneg hm.le (by linarith))
      _ ≤ 1 / 8 := by linarith
  have hrr : r ^ 2 ≤ (1 / 8) ^ 2 := pow_le_pow_left₀ hr hr8 2
  have hslope : 1 / 4 ≤ 1 - 3 * m + 3 * m ^ 2 := by linarith
  linarith [mul_le_mul_of_nonneg_left hrr hd, mul_le_mul_of_nonneg_left hslope hd]

end Reach

section Inflection

variable {m d : K} (hm : c.bend m = 0) (hd : c.lead = -d)

include hm hd

omit [IsStrictOrderedRing K] in
theorem first_eq : 3 * c.first = 1 - d * (3 * m - 1) := by
  simp only [bend, lead] at hm hd
  linear_combination -hm + (3 * m - 1) * hd

omit [IsStrictOrderedRing K] in
theorem second_eq : 3 * c.second = 2 + d * (2 - 3 * m) := by
  simp only [bend, lead] at hm hd
  linear_combination -hm + (3 * m - 2) * hd

omit [IsStrictOrderedRing K] in
theorem height_inflection : c.height m = m + d * (m * (1 - m) * (1 - 2 * m)) := by
  simp only [height]
  linear_combination (1 - m) ^ 2 * m * first_eq hm hd + (1 - m) * m ^ 2 * second_eq hm hd

omit [IsStrictOrderedRing K] in
theorem slope_inflection : c.slope m = 1 + d * (1 - 3 * m + 3 * m ^ 2) := by
  simp only [slope]
  linear_combination ((1 - m) ^ 2 - 2 * (1 - m) * m) * first_eq hm hd
    + (2 * (1 - m) * m - m ^ 2) * second_eq hm hd

omit [IsStrictOrderedRing K] in
theorem bend_eq_inflection (s : K) : c.bend s = 3 * d * (m - s) := by
  have h := c.bend_about m s
  rw [hm, hd] at h
  linear_combination h

omit [IsStrictOrderedRing K] in
theorem slope_eq_inflection (s : K) : c.slope s = c.slope m - 3 * d * (s - m) ^ 2 := by
  have h := c.slope_about m s
  rw [hm, hd] at h
  linear_combination h

omit [IsStrictOrderedRing K] in
/-- A step in terms of the distances from the inflection. -/
theorem Step.slope_mul_inflection (h : c.Step ε x s s') : c.slope s * (s' - m)
    = x - c.height m - 2 * d * (s - m) ^ 3 := by
  have habout := c.height_about m s
  rw [hm, hd] at habout
  linear_combination h.tangent - habout + (s - m) * slope_eq_inflection hm hd s

/-- Steps that keep within the distance `r` of the inflection, when the height there is at most the
wanted one and the slope outweighs the curvature. -/
theorem Step.mem_about {r : K} (hd0 : 0 ≤ d) (hslope : 7 * d * r ^ 2 ≤ c.slope m)
    (hbelow : c.height m ≤ x) (hheight : x - c.height m ≤ 2 * d * r ^ 3)
    (h : c.Step ε x s s') (hs : -r ≤ s - m ∧ s - m ≤ r) : -r ≤ s' - m ∧ s' - m ≤ r := by
  have hr : 0 ≤ r := by linarith
  have hmul := h.slope_mul_inflection hm hd
  have hsquare : d * (s - m) ^ 2 ≤ d * r ^ 2 :=
    mul_le_mul_of_nonneg_left (sq_le_sq' hs.1 hs.2) hd0
  have hrest : 4 * d * r ^ 2 ≤ c.slope s := by
    linarith [slope_eq_inflection hm hd s]
  have hpos : 0 < c.slope s := by
    refine lt_of_le_of_ne (le_trans ?_ hrest) h.slope_ne_zero.symm
    positivity
  -- Around the inflection the height is the slope there times the distance, up to a cube;
  -- multiplied out, the step is bounded from both sides.
  have hturn : 4 * d * r ^ 3 ≤ c.slope s * r := by
    linarith [mul_le_mul_of_nonneg_right hrest hr]
  have hlow : d * (-r) ^ 3 ≤ d * (s - m) ^ 3 :=
    mul_le_mul_of_nonneg_left ((Odd.pow_le_pow (by decide)).mpr hs.1) hd0
  have hhigh : d * (s - m) ^ 3 ≤ d * r ^ 3 :=
    mul_le_mul_of_nonneg_left ((Odd.pow_le_pow (by decide)).mpr hs.2) hd0
  have hcube : 0 ≤ d * r ^ 3 := by positivity
  constructor
  · have : c.slope s * -r ≤ c.slope s * (s' - m) := by linarith
    exact le_of_mul_le_mul_left this hpos
  · have : c.slope s * (s' - m) ≤ c.slope s * r := by linarith
    exact le_of_mul_le_mul_left this hpos

/-- Steps that keep between where the first tangent leads and the start, when the height at the
inflection is more than the wanted one and the slope outweighs the curvature.  The first tangent
leads no farther than twice the distance of the start. -/
theorem Step.mem_between {r z : K} (hd0 : 0 ≤ d) (hslope : 28 * d * r ^ 2 ≤ c.slope m)
    (habove : x ≤ c.height m) (hr : 0 ≤ r) (hz : -(2 * r) ≤ z) (hz0 : z ≤ 0)
    (hfirst : c.slope (m + r) * z = x - c.height m - 2 * d * r ^ 3)
    (h : c.Step ε x s s') (hs : z ≤ s - m ∧ s - m ≤ r) : z ≤ s' - m ∧ s' - m ≤ r := by
  have hmul := h.slope_mul_inflection hm hd
  have hsquare : d * (s - m) ^ 2 ≤ d * (2 * r) ^ 2 :=
    mul_le_mul_of_nonneg_left (sq_le_sq' (by linarith) (by linarith)) hd0
  have hrest : 16 * d * r ^ 2 ≤ c.slope s := by
    linarith [slope_eq_inflection hm hd s]
  have hpos : 0 < c.slope s := by
    refine lt_of_le_of_ne (le_trans ?_ hrest) h.slope_ne_zero.symm
    positivity
  constructor
  · -- The tangent of a point at least as far left leads no farther left than the first one.
    have hgap : 0 ≤ d * (r - (s - m))
        * (2 * ((s - m) ^ 2 + (s - m) * r + r ^ 2) - 3 * z * (s - m + r)) := by
      refine mul_nonneg (mul_nonneg hd0 (sub_nonneg.mpr hs.2)) ?_
      rcases le_total 0 (s - m + r) with hside | hside
      · have := mul_nonpos_of_nonpos_of_nonneg hz0 hside
        linarith [sq_nonneg (s - m + r), sq_nonneg (s - m), sq_nonneg r]
      · have := mul_le_mul_of_nonpos_right hz hside
        linarith [sq_nonneg (s - m + 2 * r)]
    have : c.slope s * z ≤ c.slope s * (s' - m) := by
      have hstart := slope_eq_inflection hm hd (m + r)
      rw [hstart] at hfirst
      rw [hmul, slope_eq_inflection hm hd s]
      linarith
    exact le_of_mul_le_mul_left this hpos
  · have hlow : d * (-(2 * r)) ^ 3 ≤ d * (s - m) ^ 3 :=
      mul_le_mul_of_nonneg_left ((Odd.pow_le_pow (by decide)).mpr (by linarith)) hd0
    have hturn := mul_le_mul_of_nonneg_right hrest hr
    have : c.slope s * (s' - m) ≤ c.slope s * r := by linarith
    exact le_of_mul_le_mul_left this hpos

end Inflection

/-- No visited point lies outside when the first step crosses the inflection. -/
theorem mem_unit_of_crossing {a m d : K} (hm : c.bend m = 0) (hd : c.lead = -d) (hd0 : 0 < d)
    (hx1 : x < 1) (ha0 : 0 ≤ a) (ham : a < m) (hmx : m ≤ x) (hfirst : c.Step ε x x a)
    (hrest : Relation.ReflTransGen (c.Step ε x) a s) : 0 ≤ s ∧ s ≤ 1 := by
  have hm0 : 0 < m := ha0.trans_lt ham
  have hslope := hfirst.slope_pos (hm0.le.trans hmx) hx1.le
  have hmul := hfirst.slope_mul_inflection hm hd
  have hcentre := height_inflection hm hd
  have hfirst0 : d * (3 * m - 1) ≤ 1 := by linarith [first_eq hm hd, c.first_nonneg]
  have hsecond : d * (2 - 3 * m) ≤ 1 := by linarith [second_eq hm hd, c.second_le_one]
  have hbend : 0 < c.bend a := by
    rw [bend_eq_inflection hm hd]
    exact mul_pos (by linarith) (sub_pos.mpr ham)
  have hall := hrest.head hfirst
  rcases le_or_gt (c.height m) x with hbelow | habove
  · -- The points stay within the distance of the start.
    have hcross : x - c.height m < 2 * d * (x - m) ^ 3 := by
      linarith [mul_neg_of_pos_of_neg hslope (sub_neg.mpr ham)]
    have hreach : 2 * (x - m) ≤ m :=
      two_mul_reach_le hd0.le hsecond hm0 (by linarith) (by linarith)
    have hcurve : 7 * d * (x - m) ^ 2 ≤ c.slope m := by
      have hquarter : d * (2 * (x - m)) ^ 2 ≤ d * m ^ 2 :=
        mul_le_mul_of_nonneg_left (pow_le_pow_left₀ (by linarith) hreach 2) hd0.le
      have : 0 ≤ d * m ^ 2 := by positivity
      linarith [slope_inflection hm hd]
    have hs := keeps (fun _ _ hs => hs.mem_about hm hd hd0.le hcurve hbelow hcross.le) hall
      ⟨by linarith, le_rfl⟩
    exact ⟨by linarith, by linarith⟩
  rcases le_or_gt x (c.height a) with hheight | hheight
  · -- Seen from the other end, the rest of the way is under the arch.
    have hover : c.flip.Under (1 - x) (1 - a) :=
      ⟨by linarith, by linarith, by simpa using hbend.le, by
        simp only [height_flip]
        linarith⟩
    have hs := hover.mem_unit (by simp [hd, hd0.le]) (by linarith) (steps_flip hrest)
    exact ⟨by linarith, by linarith⟩
  · -- The points stay between the first one and the start.
    have hd2 : d ≤ 2 := by linarith
    have hreach : x - m ≤ d * (m * (1 - m) * (1 - 2 * m)) := by linarith
    have hcurve : 28 * d * (x - m) ^ 2 ≤ c.slope m := by
      rw [slope_inflection hm hd]
      exact reach_le_slope hd0.le hd2 hm0 (by linarith) hsecond (by linarith) hreach
    have hback : -(2 * (x - m)) ≤ a - m := by
      by_contra hlong
      have habout := c.height_about x a
      rw [bend_eq_inflection hm hd, hd, hfirst.tangent] at habout
      have hrise : 0 ≤ d * (3 * m - 2 * x - a) * ((a - x) * (a - x)) :=
        mul_nonneg (mul_nonneg hd0.le (by linarith)) (mul_self_nonneg _)
      linarith
    have hs := keeps (fun _ _ hs => hs.mem_between hm hd hd0.le hcurve habove.le (by linarith)
      hback (by linarith) (by simpa using hmul)) hall ⟨by linarith, le_rfl⟩
    exact ⟨by linarith, by linarith⟩

/-- No visited point lies outside when the curve bends down in the long run and already does so at
the start. -/
theorem Visited.mem_unit_of_bend_nonpos (hlead : c.lead < 0) (hbend : c.bend x ≤ 0) (hx0 : 0 < x)
    (hx1 : x < 1) (h : c.Visited ε x s) : 0 ≤ s ∧ s ≤ 1 := by
  rcases le_or_gt (c.height x) x with hheight | hheight
  · exact Under.mem_unit hlead.le hx1.le ⟨hx0.le, hx1.le, hbend, hheight⟩ h
  obtain rfl | ⟨a, hfirst, hrest⟩ := Relation.ReflTransGen.cases_head h
  · exact ⟨hx0.le, hx1.le⟩
  have ha0 := hfirst.nonneg_of_first hlead.le hx0 hx1
  have hax : a ≤ x := by
    have : c.slope x * (a - x) < 0 := by linarith [hfirst.tangent]
    linarith [neg_of_mul_neg_right this (hfirst.slope_pos hx0.le hx1.le).le]
  rcases le_or_gt (c.bend a) 0 with hbenda | hbenda
  · -- The first step stays on the part that bends down.
    refine Under.mem_unit hlead.le hx1.le ⟨ha0, hax.trans hx1.le, hbenda, ?_⟩ hrest
    calc c.height a ≤ c.height x + c.slope x * (a - x) := c.height_le_tangent hbend hbenda
      _ = x := hfirst.tangent
  -- The first step crosses the inflection.
  obtain ⟨d, hd, hd0⟩ : ∃ d, c.lead = -d ∧ 0 < d := ⟨-c.lead, by ring, by linarith⟩
  obtain ⟨m, hm⟩ : ∃ m, c.bend m = 0 := by
    refine ⟨x - c.bend x / (3 * c.lead), ?_⟩
    rw [c.bend_about x]
    have := hlead.ne
    field_simp
    ring
  rw [bend_eq_inflection hm hd] at hbend hbenda
  have ham : a < m := sub_pos.mp (pos_of_mul_pos_right hbenda (by linarith))
  have hmx : m ≤ x := sub_nonpos.mp (nonpos_of_mul_nonpos_right hbend (by linarith))
  exact mem_unit_of_crossing hm hd hd0 hx1 ha0 ham hmx hfirst hrest

/-! ## §5 Both ends -/

/-- A visited point that is close enough lies between the ends. -/
theorem Visited.mem_unit (hε : 6 * ε ≤ 1) (hx0 : 0 < x) (hx1 : x < 1) (h : c.Visited ε x s)
    (hclose : |c.height s - x| < ε) : 0 ≤ s ∧ s ≤ 1 := by
  have hflip0 : 0 < 1 - x := by linarith
  have hflip1 : 1 - x < 1 := by linarith
  rcases le_or_gt 0 c.lead with hlead | hlead
  · have hcloseflip : |c.flip.height (1 - s) - (1 - x)| < ε := by
      have hswap : 1 - c.height s - (1 - x) = x - c.height s := by ring
      simpa [hswap, abs_sub_comm] using hclose
    have hstart := h.nonneg_of_close hlead hε hx0 hx1 hclose
    have hend := Visited.nonneg_of_close (by simpa using hlead) hε hflip0 hflip1 (steps_flip h)
      hcloseflip
    exact ⟨hstart, by linarith⟩
  rcases le_total (c.bend x) 0 with hbend | hbend
  · exact h.mem_unit_of_bend_nonpos hlead hbend hx0 hx1
  · have hs := Visited.mem_unit_of_bend_nonpos (by simpa using hlead) (by simpa using hbend)
      hflip0 hflip1 (steps_flip h)
    exact ⟨by linarith, by linarith⟩

end UnitCubic

end LayerAnimation
