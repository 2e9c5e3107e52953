import LayerAnimation.Format.Basic

/-!
# Formats of values

How points, colours, transforms, outlines and attribute values stand in documents.
-/

namespace LayerAnimation.Format

variable {α : Type}

open Reader (Variant)

/-! ## §1 Geometry and colour -/

/-- A point by its coordinates. -/
def point (num : Format α) : Format (Point α) where
  read d := (Reader.record [num.field "x", num.field "y"] d).map fun (x, y, _) => ⟨x, y⟩
  write p := .object [("x", num.write p.x), ("y", num.write p.y)]

/-- A colour by its components. -/
def color (num : Format α) : Format (Color α) where
  read d :=
    (Reader.record [num.field "r", num.field "g", num.field "b", num.field "a"] d).map
      fun (r, g, b, a, _) => ⟨r, g, b, a⟩
  write c :=
    .object [("r", num.write c.r), ("g", num.write c.g), ("b", num.write c.b), ("a", num.write c.a)]

/-- The sixteen entries of a transform, column by column. -/
def entries (num : Format α) : Format (Vector α 16) where
  read := Reader.vector 16 num.read
  write v := .array (v.toList.map num.write)

/-- A transform by its entries. -/
def transform (num : Format α) : Format (Transform α) where
  read d := (Reader.record [(entries num).field "m"] d).map fun (m, _) => ⟨m⟩
  write t := .object [("m", (entries num).write t.entries)]

/-! ## §2 Outlines -/

/-- An element of an outline, with its points in the order of drawing. -/
def pathElement (num : Format α) : Format (PathElement α) where
  read :=
    let p := (point num).field ""
    Reader.choice [
      .holding "MoveTo" fun d => ((point num).read d).map .moveTo,
      .holding "LineTo" fun d => ((point num).read d).map .lineTo,
      .holding "QuadTo" fun d =>
        (Reader.tuple [p, p] d).map fun (q, r, _) => .quadTo q r,
      .holding "CurveTo" fun d =>
        (Reader.tuple [p, p, p] d).map fun (q, r, s, _) => .curveTo q r s,
      .unit "ClosePath" .close]
  write
    | .moveTo p => .object [("MoveTo", (point num).write p)]
    | .lineTo p => .object [("LineTo", (point num).write p)]
    | .quadTo p q => .object [("QuadTo", .array [(point num).write p, (point num).write q])]
    | .curveTo p q r =>
        .object [("CurveTo",
          .array [(point num).write p, (point num).write q, (point num).write r])]
    | .close => .text "ClosePath"

/-- An outline as the list of its elements. -/
def path (num : Format α) : Format (Path α) :=
  list (pathElement num)

/-! ## §3 Values -/

/-- An attribute value under the name of its kind. -/
def value (num : Format α) : Format (Value α) where
  read := Reader.choice [
    .holding "scalar" fun d => (num.read d).map .scalar,
    .holding "point" fun d => ((point num).read d).map .point,
    .holding "color" fun d => ((color num).read d).map .color,
    .holding "transform" fun d => ((transform num).read d).map .transform,
    .holding "path" fun d => ((path num).read d).map .path]
  write
    | .scalar x => .object [("scalar", num.write x)]
    | .point p => .object [("point", (point num).write p)]
    | .color c => .object [("color", (color num).write c)]
    | .transform t => .object [("transform", (transform num).write t)]
    | .path p => .object [("path", (path num).write p)]

end LayerAnimation.Format
