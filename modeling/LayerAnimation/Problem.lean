import LayerAnimation.Decimal.Layout

/-!
# Problems

Why a timing curve, an options record or a script is refused, as causes rather than texts.  The
wording of each cause is in `Problem.message`; `Fault` adds the other ways in which the library
can fail and the heading that each of them puts before its text.
-/

namespace LayerAnimation

/-- Why an animation description is refused. -/
inductive Problem (α : Type) where
  /-- A duration that is not a positive finite number. -/
  | duration (got : α)
  /-- A delay that is negative or not finite. -/
  | delay (got : α)
  /-- A control point of a timing curve that is not finite. -/
  | controlPointNotFinite
  /-- A control point of a timing curve that lies before the start or after the end. -/
  | controlPointOutside
  /-- A step whose start time is negative or not finite. -/
  | startTime (step : Nat)
  /-- A step whose options are refused. -/
  | options (step : Nat) (cause : Problem α)
  /-- Steps that do not stand in the order of their start times. -/
  | unsorted
  /-- A sampling rate that is not a positive finite number. -/
  | frameRate
  /-- A simulation that is still busy when its time is over. -/
  | unfinished
  /-- A simulation that is still busy when its frames are used up. -/
  | outOfFrames
  /-- A path that names no attribute. -/
  | unknownAttribute (path : String)
  deriving BEq, Repr

/-- How the library fails: a description is refused, a text cannot be decoded, or something else
went wrong. -/
inductive Fault where
  | validation (text : String)
  | serialization (text : String)
  | other (text : String)
  deriving BEq, Repr

/-- The full text of a fault, with the heading of its sort. -/
def Fault.message : Fault → String
  | .validation text => "validation error: " ++ text
  | .serialization text => "serialization error: " ++ text
  | .other text => text

namespace Problem

/-- The wording of a problem. -/
def message : Problem Float → String
  | .duration got => "duration must be finite and > 0 (got " ++ Decimal.Layout.plain.text got ++ ")"
  | .delay got => "delay must be finite and >= 0 (got " ++ Decimal.Layout.plain.text got ++ ")"
  | .controlPointNotFinite => "timing curve control points must be finite"
  | .controlPointOutside => "timing curve control point x must be in [0, 1]"
  | .startTime step => "step " ++ toString step ++ ": 'at' must be finite and >= 0"
  | .options step cause =>
      "step " ++ toString step ++ ": " ++ (Fault.validation cause.message).message
  | .unsorted => "steps must be sorted by 'at'"
  | .frameRate => "fps must be finite and > 0"
  | .unfinished => "script still animating after 3600s"
  | .outOfFrames => "frame counter exhausted"
  | .unknownAttribute path => "unknown key path '" ++ path ++ "'"

/-- A problem as a fault of the library. -/
def fault (p : Problem Float) : Fault :=
  .validation p.message

end Problem

end LayerAnimation
