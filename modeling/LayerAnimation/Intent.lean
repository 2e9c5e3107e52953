import LayerAnimation.Animation

/-!
# Intents

What a motion should change, without saying how it is timed.  Turns are given in degrees and spins
in full revolutions.  `Intent.track` turns an intent into a track; only a fade looks at the
layer, because it starts at the opacity that the layer holds.
-/

namespace LayerAnimation

variable {α : Type}

/-- One change that a motion should make. -/
inductive Intent (α : Type) where
  | custom (track : Track α)
  | backgroundColor (color : Color α)
  | corners (radius : α)
  | transform (t : Transform α)
  | rotate (degrees : α)
  | rotateX (degrees : α)
  | rotateY (degrees : α)
  | rotateZ (degrees : α)
  | spin (revolutions : α)
  | spinX (revolutions : α)
  | spinY (revolutions : α)
  | spinZ (revolutions : α)
  | scale (factor : α)
  | scaleX (factor : α)
  | scaleY (factor : α)
  | scaleZ (factor : α)
  | translate (offset : Point α)
  | translateX (offset : α)
  | translateY (offset : α)
  | translateZ (offset : α)
  | position (point : Point α)
  | shadow (path : Path α)
  | fade (opacity : α)
  deriving BEq, Repr

/-! ## §1 Angles -/

section Angles

variable [Scalar α]

/-- An angle in degrees as radians. -/
def radiansOfDegrees (degrees : α) : α :=
  Scalar.pi * degrees / 180.0

/-- A count of revolutions as radians. -/
def radiansOfRevolutions (revolutions : α) : α :=
  2.0 * Scalar.pi * revolutions

end Angles

/-! ## §2 From intents to tracks -/

namespace Intent

/-- The attribute that an intent changes. -/
def key : Intent α → Attribute
  | .custom track => track.key
  | .backgroundColor _ => .backgroundColor
  | .corners _ => .cornerRadius
  | .transform _ => .transform
  | .rotate _ | .spin _ => .rotation
  | .rotateX _ | .spinX _ => .rotationX
  | .rotateY _ | .spinY _ => .rotationY
  | .rotateZ _ | .spinZ _ => .rotationZ
  | .scale _ => .scale
  | .scaleX _ => .scaleX
  | .scaleY _ => .scaleY
  | .scaleZ _ => .scaleZ
  | .translate _ => .translation
  | .translateX _ => .translationX
  | .translateY _ => .translationY
  | .translateZ _ => .translationZ
  | .position _ => .position
  | .shadow _ => .shadowPath
  | .fade _ => .opacity

variable [Scalar α]

/-- Where a fade starts on a layer whose opacity was never set. -/
def fullOpacity : α := 1.0

/-- The value to which an intent leads, if it is not a track of its own making. -/
def goal? : Intent α → Option (Value α)
  | .custom track => track.goal
  | .backgroundColor c => some (.color c)
  | .transform t => some (.transform t)
  | .rotate d | .rotateX d | .rotateY d | .rotateZ d => some (.scalar (radiansOfDegrees d))
  | .spin r | .spinX r | .spinY r | .spinZ r => some (.scalar (radiansOfRevolutions r))
  | .corners x | .scale x | .scaleX x | .scaleY x | .scaleZ x => some (.scalar x)
  | .translateX x | .translateY x | .translateZ x | .fade x => some (.scalar x)
  | .translate p | .position p => some (.point p)
  | .shadow p => some (.path p)

/-- The track of an intent on a layer with the given opacity. -/
def track (opacity : Option (Value α)) : Intent α → Track α
  | .custom track => track
  -- A fade starts at the value that is held, not at the one that is shown.
  | .fade x =>
      (Track.toward .opacity (.scalar x)).startingAt (opacity.getD (.scalar fullOpacity))
  -- All others start at what is shown when the track is attached.
  | intent => ⟨intent.key, none, intent.goal?, none⟩

end Intent

end LayerAnimation
