import LayerAnimation.Geometry

/-!
# Attribute values

A value of a layer attribute and the way from one value to another.  Numeric kinds interpolate
component by component; outlines, and values of different kinds, jump at the end.
-/

namespace LayerAnimation

variable {α : Type}

/-- What a layer attribute can hold. -/
inductive Value (α : Type) where
  | scalar (x : α)
  | point (p : Point α)
  | color (c : Color α)
  | transform (t : Transform α)
  | path (p : Path α)
  deriving BEq, Repr

/-- The five kinds of values. -/
inductive ValueKind where
  | scalar
  | point
  | color
  | transform
  | path
  deriving DecidableEq, Repr

/-! ## §1 Views -/

namespace Value

/-- The kind of a value. -/
def kind : Value α → ValueKind
  | .scalar _ => .scalar
  | .point _ => .point
  | .color _ => .color
  | .transform _ => .transform
  | .path _ => .path

/-- The number, if the value is one. -/
def scalar? : Value α → Option α
  | .scalar x => some x
  | _ => none

/-- The point, if the value is one. -/
def point? : Value α → Option (Point α)
  | .point p => some p
  | _ => none

/-- The colour, if the value is one. -/
def color? : Value α → Option (Color α)
  | .color c => some c
  | _ => none

end Value

/-! ## §2 Interpolation -/

section Interpolation

variable [Scalar α]

/-- The number at the fraction `t` of the way from `a` to `b`. -/
def Scalar.lerp (a b t : α) : α :=
  a + (b - a) * t

/-- The point at the fraction `t` of the way from `a` to `b`. -/
def Point.lerp (a b : Point α) (t : α) : Point α :=
  ⟨Scalar.lerp a.x b.x t, Scalar.lerp a.y b.y t⟩

/-- The colour at the fraction `t` of the way from `a` to `b`. -/
def Color.lerp (a b : Color α) (t : α) : Color α :=
  ⟨Scalar.lerp a.r b.r t, Scalar.lerp a.g b.g t, Scalar.lerp a.b b.b t, Scalar.lerp a.a b.a t⟩

/-- The transform at the fraction `t` of the way from `a` to `b`, entry by entry. -/
def Transform.lerp (a b : Transform α) (t : α) : Transform α :=
  ⟨Vector.zipWith (fun x y => Scalar.lerp x y t) a.entries b.entries⟩

/-- The value at the fraction `t` of the way from `a` to `b`.  Outlines and values of different
kinds stay at `a` until the way is complete. -/
def Value.lerp (a b : Value α) (t : α) : Value α :=
  match a, b with
  | .scalar x, .scalar y => .scalar (Scalar.lerp x y t)
  | .point p, .point q => .point (p.lerp q t)
  | .color c, .color d => .color (c.lerp d t)
  | .transform m, .transform n => .transform (m.lerp n t)
  -- There is no way between an outline and another, or between two kinds.
  | a, b => if (1.0 : α) ≤ t then b else a

end Interpolation

end LayerAnimation
