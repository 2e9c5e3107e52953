import LayerAnimation.Format.Value
import LayerAnimation.Intent

/-!
# Formats of animations

How timing curves, fills, tracks, groups and intents stand in documents.  The contents of a curve
can also be read from a document that was kept for later, where the single-member rule of choices
is checked before the name.
-/

namespace LayerAnimation.Format

variable {α : Type}

open Reader (Variant)

/-! ## §1 Timing -/

/-- The control points of a curve. -/
def controlPoints (num : Format α) : Format (ControlPoints α) where
  read d :=
    (Reader.record [num.field "x1", num.field "y1", num.field "x2", num.field "y2"] d).map
      fun (x₁, y₁, x₂, y₂, _) => ⟨x₁, y₁, x₂, y₂⟩
  write c :=
    .object [("x1", num.write c.x₁), ("y1", num.write c.y₁),
      ("x2", num.write c.x₂), ("y2", num.write c.y₂)]

/-- The named curves and the curve with control points of its own. -/
def easings (num : Format α) : List (Variant (Easing α)) :=
  [.unit "linear" .linear,
   .unit "ease_in" .easeIn,
   .unit "ease_out" .easeOut,
   .unit "ease_in_ease_out" .easeInOut,
   .unit "default" .standard,
   .holding "cubic_bezier" fun d => ((controlPoints num).read d).map .bezier]

/-- A timing curve. -/
def easing (num : Format α) : Format (Easing α) where
  read := Reader.choice (easings num)
  write
    | .linear => .text "linear"
    | .easeIn => .text "ease_in"
    | .easeOut => .text "ease_out"
    | .easeInOut => .text "ease_in_ease_out"
    | .standard => .text "default"
    | .bezier points => .object [("cubic_bezier", (controlPoints num).write points)]

/-- A timing curve in a document that was kept for later. -/
def keptEasing (num : Format α) : Format (Easing α) :=
  ⟨Reader.keptChoice (easings num), (easing num).write⟩

/-- What an animation contributes outside its time. -/
def fill : Format Fill where
  read := Reader.choice [
    .unit "removed" .removed,
    .unit "forwards" .forwards,
    .unit "backwards" .backwards,
    .unit "both" .both]
  write
    | .removed => .text "removed"
    | .forwards => .text "forwards"
    | .backwards => .text "backwards"
    | .both => .text "both"

/-! ## §2 Animations -/

/-- A track; start, goal and duration may be absent. -/
def track (num : Format α) : Format (Track α) where
  read d :=
    (Reader.record [
        attributePath.field "key_path",
        (optional (value num)).fieldOr "from_value" none,
        (optional (value num)).fieldOr "to_value" none,
        (optional num).fieldOr "duration" none] d).map
      fun (key, start, goal, duration, _) => ⟨key, start, goal, duration⟩
  write t :=
    .object [
      ("key_path", attributePath.write t.key),
      ("from_value", (optional (value num)).write t.start),
      ("to_value", (optional (value num)).write t.goal),
      ("duration", (optional num).write t.duration)]

/-- A group with all its fields. -/
def group (num : Format α) : Format (Group α) where
  read d :=
    (Reader.record [
        (list (track num)).field "members",
        num.field "duration",
        (easing num).field "timing",
        fill.field "fill_mode",
        bool.field "removed_on_completion"] d).map
      fun (members, duration, easing, fill, removed, _) =>
        ⟨members, duration, easing, fill, removed⟩
  write g :=
    .object [
      ("members", (list (track num)).write g.members),
      ("duration", num.write g.duration),
      ("timing", (easing num).write g.easing),
      ("fill_mode", fill.write g.fill),
      ("removed_on_completion", bool.write g.removedOnCompletion)]

/-- A lone track or a group. -/
def animation (num : Format α) : Format (Animation α) where
  read := Reader.choice [
    .holding "primitive" fun d => ((track num).read d).map .track,
    .holding "group" fun d => ((group num).read d).map .group]
  write
    | .track t => .object [("primitive", (track num).write t)]
    | .group g => .object [("group", (group num).write g)]

/-! ## §3 Intents -/

/-- An outline as the only field of a record. -/
def outline (num : Format α) : Format (Path α) where
  read d := (Reader.record [(path num).field "path"] d).map fun (p, _) => p
  write p := .object [("path", (path num).write p)]

/-- An intent under its name. -/
def intent (num : Format α) : Format (Intent α) where
  read := Reader.choice [
    .holding "custom" fun d => ((track num).read d).map .custom,
    .holding "background_color" fun d => ((color num).read d).map .backgroundColor,
    .holding "corners" fun d => (num.read d).map .corners,
    .holding "transform" fun d => ((transform num).read d).map .transform,
    .holding "rotate" fun d => (num.read d).map .rotate,
    .holding "rotate_x" fun d => (num.read d).map .rotateX,
    .holding "rotate_y" fun d => (num.read d).map .rotateY,
    .holding "rotate_z" fun d => (num.read d).map .rotateZ,
    .holding "spin" fun d => (num.read d).map .spin,
    .holding "spin_x" fun d => (num.read d).map .spinX,
    .holding "spin_y" fun d => (num.read d).map .spinY,
    .holding "spin_z" fun d => (num.read d).map .spinZ,
    .holding "scale" fun d => (num.read d).map .scale,
    .holding "scale_x" fun d => (num.read d).map .scaleX,
    .holding "scale_y" fun d => (num.read d).map .scaleY,
    .holding "scale_z" fun d => (num.read d).map .scaleZ,
    .holding "translate" fun d => ((point num).read d).map .translate,
    .holding "translate_x" fun d => (num.read d).map .translateX,
    .holding "translate_y" fun d => (num.read d).map .translateY,
    .holding "translate_z" fun d => (num.read d).map .translateZ,
    .holding "position" fun d => ((point num).read d).map .position,
    .holding "shadow" fun d => ((outline num).read d).map .shadow,
    .holding "fade" fun d => (num.read d).map .fade]
  write
    | .custom t => .object [("custom", (track num).write t)]
    | .backgroundColor c => .object [("background_color", (color num).write c)]
    | .corners x => .object [("corners", num.write x)]
    | .transform t => .object [("transform", (transform num).write t)]
    | .rotate x => .object [("rotate", num.write x)]
    | .rotateX x => .object [("rotate_x", num.write x)]
    | .rotateY x => .object [("rotate_y", num.write x)]
    | .rotateZ x => .object [("rotate_z", num.write x)]
    | .spin x => .object [("spin", num.write x)]
    | .spinX x => .object [("spin_x", num.write x)]
    | .spinY x => .object [("spin_y", num.write x)]
    | .spinZ x => .object [("spin_z", num.write x)]
    | .scale x => .object [("scale", num.write x)]
    | .scaleX x => .object [("scale_x", num.write x)]
    | .scaleY x => .object [("scale_y", num.write x)]
    | .scaleZ x => .object [("scale_z", num.write x)]
    | .translate p => .object [("translate", (point num).write p)]
    | .translateX x => .object [("translate_x", num.write x)]
    | .translateY x => .object [("translate_y", num.write x)]
    | .translateZ x => .object [("translate_z", num.write x)]
    | .position p => .object [("position", (point num).write p)]
    | .shadow p => .object [("shadow", (outline num).write p)]
    | .fade x => .object [("fade", num.write x)]

end LayerAnimation.Format
