import LayerAnimation.Problem
import LayerAnimation.Scalar

/-!
# Easing

Timing curves map the elapsed fraction of an animation to the fraction of the way it has gone.
Each curve is a cubic Bézier curve from (0, 0) to (1, 1) with two control points.

- `Easing.check` refuses a curve whose control points are not finite or lie outside the unit
  interval of time.
- `Easing.apply` finds the parameter at which the curve reaches the elapsed fraction, by at most
  eight steps of Newton's method and after that by at most 64 halvings, and reads off the height
  there.
-/

namespace LayerAnimation

variable {α : Type}

/-! ## §1 Curves -/

/-- The two inner control points of a timing curve. -/
structure ControlPoints (α : Type) where
  x₁ : α
  y₁ : α
  x₂ : α
  y₂ : α
  deriving BEq, Repr

/-- A timing curve: one of five presets or a curve with control points of its own. -/
inductive Easing (α : Type) where
  | linear
  | easeIn
  | easeOut
  | easeInOut
  | standard
  | bezier (points : ControlPoints α)
  deriving BEq, Repr

namespace Easing

/-- The curves that have a name. -/
def presets : List (Easing α) :=
  [.linear, .easeIn, .easeOut, .easeInOut, .standard]

instance : Inhabited (Easing α) := ⟨.easeInOut⟩

variable [Scalar α]

/-- The control points of a curve. -/
def controlPoints : Easing α → ControlPoints α
  | .linear => ⟨0.0, 0.0, 1.0, 1.0⟩
  | .easeIn => ⟨0.42, 0.0, 1.0, 1.0⟩
  | .easeOut => ⟨0.0, 0.0, 0.58, 1.0⟩
  | .easeInOut => ⟨0.42, 0.0, 0.58, 1.0⟩
  | .standard => ⟨0.25, 0.1, 0.25, 1.0⟩
  | .bezier points => points

/-- Refuse a curve that is not a function of time: its control points must be finite and lie
between start and end. -/
def check (e : Easing α) : Except (Problem α) Unit :=
  let p := e.controlPoints
  -- A point that is not finite is reported as such, also if it lies outside.
  if Scalar.isFinite p.x₁ && Scalar.isFinite p.y₁ && Scalar.isFinite p.x₂ && Scalar.isFinite p.y₂ then
    if ((0.0 : α) ≤ p.x₁ ∧ p.x₁ ≤ (1.0 : α)) ∧ ((0.0 : α) ≤ p.x₂ ∧ p.x₂ ≤ (1.0 : α)) then
      .ok ()
    else
      .error .controlPointOutside
  else
    .error .controlPointNotFinite

/-- The curve with the given control points, if it passes `check`. -/
def bezier? (points : ControlPoints α) : Except (Problem α) (Easing α) :=
  (Easing.bezier points).check.map fun _ => .bezier points

/-! ## §2 The cubic and its inverse -/

/-- One coordinate of the curve at the parameter `s`, for control coordinates `p` and `q`. -/
@[specialize] def cubic (p q s : α) : α :=
  let u := 1.0 - s
  3.0 * u * u * s * p + 3.0 * u * s * s * q + s * s * s

/-- The derivative of `cubic p q` at the parameter `s`. -/
@[specialize] def cubicSlope (p q s : α) : α :=
  let u := 1.0 - s
  3.0 * u * u * p + 6.0 * u * s * (q - p) + 3.0 * s * s * (1.0 - q)

/-- How far a solution may be off. -/
def tolerance : α := 1e-9

/-- Below this slope a curve counts as flat. -/
def flatSlope : α := 1e-6

/-- Newton's method for `cubic p q s = x` with at most `n` steps from `s`; `none` if it meets a
flat part or uses up its steps. -/
@[specialize] def newton (p q x : α) : Nat → α → Option α
  | 0, _ => none
  | n + 1, s =>
      let err := cubic p q s - x
      if Scalar.abs err < tolerance then
        -- Close enough, wherever the steps have led.
        some s
      else
        -- On a flat part the next step would lead far away.
        let slope := cubicSlope p q s
        if Scalar.abs slope < flatSlope then none else newton p q x n (s - err / slope)

/-- At most `n` halvings of the interval from `lo` to `hi`, starting with the parameter `s`. -/
@[specialize] def bisect (p q x : α) : Nat → α → α → α → α
  | 0, _, _, s => s
  | n + 1, lo, hi, s =>
      let v := cubic p q s
      if Scalar.abs (v - x) < tolerance then s
      -- The curve does not fall, so the solution lies on the side that is kept.
      else if v < x then bisect p q x n s hi (0.5 * (s + hi))
      else bisect p q x n lo s (0.5 * (lo + s))

/-- The parameter at which the curve with control abscissas `p` and `q` reaches `x`. -/
@[specialize] def solve (p q x : α) : α :=
  (newton p q x 8 x).getD (bisect p q x 64 0.0 1.0 x)

/-! ## §3 Eased progress -/

/-- The eased fraction for an elapsed fraction.  Start and end are fixed, and a curve along the
diagonal changes nothing. -/
@[specialize] def apply (e : Easing α) (t : α) : α :=
  let t := Scalar.clamp 0.0 1.0 t
  -- Both ends are exact, whatever the tolerance of the solution.
  if t == 0.0 || t == 1.0 then t
  else
    let p := e.controlPoints
    -- Control points on the diagonal make the curve a line.
    if p.x₁ == p.y₁ && p.x₂ == p.y₂ then t
    else cubic p.y₁ p.y₂ (solve p.x₁ p.x₂ t)

end Easing

end LayerAnimation
