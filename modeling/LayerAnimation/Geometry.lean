import LayerAnimation.Scalar

/-!
# Geometry and colour

The compound quantities that a layer attribute can hold: points, colours, affine transforms and
outlines.  A transform is stored column by column: entry `4 * c + r` stands in row `r` of column
`c`, and the translation stands in entries 12, 13 and 14.
-/

namespace LayerAnimation

variable {α : Type}

/-! ## §1 Points and colours -/

/-- A position or a displacement in the plane. -/
structure Point (α : Type) where
  x : α
  y : α
  deriving BEq, Repr

/-- A colour by its red, green and blue components and its opacity. -/
structure Color (α : Type) where
  r : α
  g : α
  b : α
  a : α
  deriving BEq, Repr

namespace Point

variable [Scalar α]

/-- The origin. -/
def zero : Point α := ⟨0.0, 0.0⟩

end Point

namespace Color

variable [Scalar α]

/-- No colour at all. -/
def transparent : Color α := ⟨0.0, 0.0, 0.0, 0.0⟩

/-- Opaque black. -/
def black : Color α := ⟨0.0, 0.0, 0.0, 1.0⟩

/-- Opaque white. -/
def white : Color α := ⟨1.0, 1.0, 1.0, 1.0⟩

/-- An opaque colour. -/
def rgb (r g b : α) : Color α := ⟨r, g, b, 1.0⟩

/-- A colour from components that count from 0 to 255. -/
def ofBytes (r g b a : UInt8) : Color α :=
  let unit (c : UInt8) : α := (c.toNat : α) / 255.0
  ⟨unit r, unit g, unit b, unit a⟩

end Color

/-! ## §2 Transforms -/

/-- A homogeneous transform of space, stored column by column. -/
structure Transform (α : Type) where
  entries : Vector α 16
  deriving BEq, Repr

namespace Transform

variable [Scalar α]

/-- The entry in row `r` of column `c`. -/
def entry (t : Transform α) (r c : Fin 4) : α :=
  t.entries[4 * c.val + r.val]

/-- The transform whose entry in row `r` of column `c` is `f r c`. -/
def ofEntries (f : Fin 4 → Fin 4 → α) : Transform α :=
  ⟨Vector.ofFn fun i => f ⟨i.val % 4, by omega⟩ ⟨i.val / 4, by omega⟩⟩

/-- The transform that moves nothing. -/
def identity : Transform α :=
  ⟨#v[1.0, 0.0, 0.0, 0.0,
      0.0, 1.0, 0.0, 0.0,
      0.0, 0.0, 1.0, 0.0,
      0.0, 0.0, 0.0, 1.0]⟩

/-- A displacement along the three axes. -/
def translation (x y z : α) : Transform α :=
  ⟨#v[1.0, 0.0, 0.0, 0.0,
      0.0, 1.0, 0.0, 0.0,
      0.0, 0.0, 1.0, 0.0,
      x, y, z, 1.0]⟩

/-- A magnification along the three axes. -/
def scale (x y z : α) : Transform α :=
  ⟨#v[x, 0.0, 0.0, 0.0,
      0.0, y, 0.0, 0.0,
      0.0, 0.0, z, 0.0,
      0.0, 0.0, 0.0, 1.0]⟩

/-- The turn about the third axis with the given cosine and sine. -/
def turnZ (cos sin : α) : Transform α :=
  ⟨#v[cos, sin, 0.0, 0.0,
      -sin, cos, 0.0, 0.0,
      0.0, 0.0, 1.0, 0.0,
      0.0, 0.0, 0.0, 1.0]⟩

/-- The transform that applies `b` first and `a` second. -/
def concat (a b : Transform α) : Transform α :=
  ofEntries fun r c =>
    a.entry r 0 * b.entry 0 c + a.entry r 1 * b.entry 1 c
      + a.entry r 2 * b.entry 2 c + a.entry r 3 * b.entry 3 c

/-- Whether every entry equals that of the identity. -/
def isIdentity (t : Transform α) : Bool :=
  t == identity

/-- The turn about the third axis by an angle in radians. -/
def rotationZ (angle : Float) : Transform Float :=
  turnZ angle.cos angle.sin

end Transform

/-! ## §3 Outlines -/

/-- One step of an outline: a jump, a line, a curve with one or two control points, or the way
back to where the contour began. -/
inductive PathElement (α : Type) where
  | moveTo (p : Point α)
  | lineTo (p : Point α)
  | quadTo (control p : Point α)
  | curveTo (control₁ control₂ p : Point α)
  | close
  deriving BEq, Repr

/-- An outline, as its elements in drawing order; no order is refused. -/
abbrev Path (α : Type) := List (PathElement α)

end LayerAnimation
