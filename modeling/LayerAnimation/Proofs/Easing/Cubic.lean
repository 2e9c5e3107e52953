import Mathlib.Algebra.Order.Field.Basic
import Mathlib.Tactic.FieldSimp
import Mathlib.Tactic.Linarith
import Mathlib.Tactic.LinearCombination
import Mathlib.Tactic.Positivity
import Mathlib.Tactic.Ring

/-!
# Cubics over the unit interval

One coordinate of a timing curve is a cubic from zero to one with two inner control values.  The
statements here are about that polynomial over any ordered field, for control values between zero
and one.

- `UnitCubic.height_about` expands the cubic about any point.  Where its second derivative is not
  positive it lies below its tangents (`UnitCubic.height_le_tangent`).
- Turned by half a circle about the middle of the square (`UnitCubic.flip`) such a cubic is one
  again.
- Over the unit interval it does not fall, rises at a slope of at most three, and stays between
  zero and one.
-/

namespace LayerAnimation

/-- A coordinate of a curve whose inner control values lie between zero and one. -/
structure UnitCubic (K : Type) [Field K] [LinearOrder K] where
  first : K
  second : K
  first_nonneg : 0 ≤ first
  first_le_one : first ≤ 1
  second_nonneg : 0 ≤ second
  second_le_one : second ≤ 1

namespace UnitCubic

variable {K : Type} [Field K] [LinearOrder K]

/-! ## §1 The polynomial and its derivatives -/

/-- The height of the curve at a parameter. -/
def height (c : UnitCubic K) (s : K) : K :=
  3 * (1 - s) * (1 - s) * s * c.first + 3 * (1 - s) * s * s * c.second + s * s * s

/-- The derivative of the height. -/
def slope (c : UnitCubic K) (s : K) : K :=
  3 * (1 - s) * (1 - s) * c.first + 6 * (1 - s) * s * (c.second - c.first)
    + 3 * s * s * (1 - c.second)

/-- The coefficient of the third power. -/
def lead (c : UnitCubic K) : K := 1 + 3 * c.first - 3 * c.second

/-- Half the second derivative. -/
def bend (c : UnitCubic K) (s : K) : K := 3 * c.lead * s + 3 * c.second - 6 * c.first

variable (c : UnitCubic K) {a b s : K}

@[simp] theorem height_zero : c.height 0 = 0 := by
  simp [height]

@[simp] theorem height_one : c.height 1 = 1 := by
  simp [height]

/-- The curve expanded about one of its points. -/
theorem height_about (a b : K) : c.height b
    = c.height a + c.slope a * (b - a) + (c.bend a + c.lead * (b - a)) * ((b - a) * (b - a)) := by
  simp only [height, slope, bend, lead]
  ring

/-- So is its slope. -/
theorem slope_about (a b : K) :
    c.slope b = c.slope a + (2 * c.bend a + 3 * c.lead * (b - a)) * (b - a) := by
  simp only [bend, slope, lead]
  ring

theorem bend_about (a b : K) : c.bend b = c.bend a + 3 * c.lead * (b - a) := by
  simp only [bend]
  ring

variable [IsStrictOrderedRing K]

/-- Where the curve bends down from one point to another, it lies below the tangent of the one. -/
theorem height_le_tangent (ha : c.bend a ≤ 0) (hb : c.bend b ≤ 0) :
    c.height b ≤ c.height a + c.slope a * (b - a) := by
  have hbend := c.bend_about a b
  -- The remainder weighs the two bends two to one.
  have hrest : c.bend a + c.lead * (b - a) ≤ 0 := by linarith
  have := mul_nonpos_of_nonpos_of_nonneg hrest (mul_self_nonneg (b - a))
  linarith [c.height_about a b]

/-- A curve whose third power has no positive weight bends down more and more. -/
theorem bend_antitone (hlead : c.lead ≤ 0) (hab : a ≤ b) : c.bend b ≤ c.bend a := by
  have := mul_nonpos_of_nonpos_of_nonneg hlead (sub_nonneg.mpr hab)
  linarith [c.bend_about a b]

/-! ## §2 Half a turn -/

/-- The cubic seen from the other end. -/
def flip : UnitCubic K where
  first := 1 - c.second
  second := 1 - c.first
  first_nonneg := sub_nonneg.mpr c.second_le_one
  first_le_one := sub_le_self 1 c.second_nonneg
  second_nonneg := sub_nonneg.mpr c.first_le_one
  second_le_one := sub_le_self 1 c.first_nonneg

/-- Seen from the other end, the heights are what the curve still has to climb. -/
@[simp] theorem height_flip (s : K) : c.flip.height (1 - s) = 1 - c.height s := by
  simp only [height, flip]
  ring

/-- The slopes are the same from both ends, and the bends opposite. -/
@[simp] theorem slope_flip (s : K) : c.flip.slope (1 - s) = c.slope s := by
  simp only [slope, flip]
  ring

@[simp] theorem bend_flip (s : K) : c.flip.bend (1 - s) = - c.bend s := by
  simp only [bend, lead, flip]
  ring

@[simp] theorem lead_flip : c.flip.lead = c.lead := by
  simp only [lead, flip]
  ring

/-! ## §3 Over the unit interval -/

omit [IsStrictOrderedRing K] in
/-- The slope is linear in each control value, and at the four corners it is three times a
quantity that is no less than zero. -/
theorem slope_eq (s : K) : c.slope s =
    3 * ((1 - c.first) * (1 - c.second) * (s * s)
      + (1 - c.first) * c.second * (2 * s * (1 - s))
      + c.first * (1 - c.second) * ((1 - 2 * s) * (1 - 2 * s))
      + c.first * c.second * ((1 - s) * (1 - s))) := by
  simp only [slope]
  ring

/-- Over the unit interval the curve does not fall. -/
theorem slope_nonneg (h0 : 0 ≤ s) (h1 : s ≤ 1) : 0 ≤ c.slope s := by
  have := c.first_nonneg
  have := c.second_nonneg
  have := sub_nonneg.mpr c.first_le_one
  have := sub_nonneg.mpr c.second_le_one
  have := sub_nonneg.mpr h1
  have := mul_self_nonneg (1 - 2 * s)
  -- Each of the four terms is a product of what is no less than zero.
  rw [slope_eq]
  positivity

/-- Nor does it rise at a slope of more than three. -/
theorem slope_le (h0 : 0 ≤ s) (h1 : s ≤ 1) : c.slope s ≤ 3 := by
  have hf := c.first_nonneg
  have hs := c.second_nonneg
  have hf' := sub_nonneg.mpr c.first_le_one
  have hs' := sub_nonneg.mpr c.second_le_one
  -- At each corner the quantity is at most one.
  have h₁ : s * s ≤ 1 := by nlinarith
  have h₂ : 2 * s * (1 - s) ≤ 1 := by nlinarith [mul_self_nonneg (1 - 2 * s)]
  have h₃ : (1 - 2 * s) * (1 - 2 * s) ≤ 1 := by nlinarith
  have h₄ : (1 - s) * (1 - s) ≤ 1 := by nlinarith
  have w₁ := mul_le_mul_of_nonneg_left h₁ (mul_nonneg hf' hs')
  have w₂ := mul_le_mul_of_nonneg_left h₂ (mul_nonneg hf' hs)
  have w₃ := mul_le_mul_of_nonneg_left h₃ (mul_nonneg hf hs')
  have w₄ := mul_le_mul_of_nonneg_left h₄ (mul_nonneg hf hs)
  -- The slope is three times a mean of the four, whose weights add up to one.
  rw [slope_eq]
  nlinarith

/-- A difference of heights by the slopes at both ends and in the middle. -/
theorem height_sub_height (a b : K) : c.height b - c.height a =
    (c.slope a + 4 * c.slope ((a + b) / 2) + c.slope b) * ((b - a) / 6) := by
  simp only [height, slope]
  field_simp
  ring

/-- The heights are in the order of the parameters. -/
theorem height_mono (h0 : 0 ≤ a) (hab : a ≤ b) (h1 : b ≤ 1) : c.height a ≤ c.height b := by
  have ha := c.slope_nonneg h0 (hab.trans h1)
  have hb := c.slope_nonneg (h0.trans hab) h1
  have hm := c.slope_nonneg (s := (a + b) / 2) (by linarith) (by linarith)
  have hd : 0 ≤ (b - a) / 6 := by linarith
  apply sub_nonneg.mp
  rw [c.height_sub_height a b]
  positivity

/-- Between two parameters the curve rises by no more than three times their distance. -/
theorem height_sub_le (h0 : 0 ≤ a) (hab : a ≤ b) (h1 : b ≤ 1) :
    c.height b - c.height a ≤ 3 * (b - a) := by
  have ha := c.slope_le h0 (hab.trans h1)
  have hb := c.slope_le (h0.trans hab) h1
  have hm := c.slope_le (s := (a + b) / 2) (by linarith) (by linarith)
  have hd : 0 ≤ (b - a) / 6 := by linarith
  calc c.height b - c.height a
      = (c.slope a + 4 * c.slope ((a + b) / 2) + c.slope b) * ((b - a) / 6) :=
        c.height_sub_height a b
    _ ≤ 18 * ((b - a) / 6) := mul_le_mul_of_nonneg_right (by linarith) hd
    _ = 3 * (b - a) := by ring

/-- Between its ends the curve stays between their heights. -/
theorem height_mem (h0 : 0 ≤ s) (h1 : s ≤ 1) : 0 ≤ c.height s ∧ c.height s ≤ 1 := by
  constructor
  · simpa using c.height_mono le_rfl h0 h1
  · simpa using c.height_mono h0 h1 le_rfl

end UnitCubic

end LayerAnimation
