import LayerAnimation.Attribute
import LayerAnimation.Easing

/-!
# Animations

What an animation is before it runs: a track that leads one attribute to a value, or a group of
tracks under common timing.  `Group.trackDuration` resolves how long a member of a group runs.
-/

namespace LayerAnimation

variable {α : Type}

/-- What an animation contributes outside the time in which it runs. -/
inductive Fill where
  | removed
  | forwards
  | backwards
  | both
  deriving DecidableEq, Repr

namespace Fill

instance : Inhabited Fill := ⟨.removed⟩

/-- Whether the last value stays on screen after the end. -/
def holdsAfterEnd : Fill → Bool
  | .forwards | .both => true
  | .removed | .backwards => false

end Fill

/-- The way of one attribute to a value.  An unset start is filled in when the track is attached;
an unset goal contributes nothing. -/
structure Track (α : Type) where
  /-- The attribute that the track drives. -/
  key : Attribute
  start : Option (Value α)
  goal : Option (Value α)
  duration : Option α
  deriving BEq, Repr

namespace Track

/-- The track that leads an attribute to a value. -/
def toward (key : Attribute) (goal : Value α) : Track α :=
  ⟨key, none, some goal, none⟩

/-- The track with its start set. -/
def startingAt (t : Track α) (start : Value α) : Track α :=
  { t with start := some start }

/-- The track with a duration of its own. -/
def lasting (t : Track α) (duration : α) : Track α :=
  { t with duration := some duration }

end Track

/-- Tracks that run together. -/
structure Group (α : Type) where
  members : List (Track α)
  duration : α
  easing : Easing α
  fill : Fill
  removedOnCompletion : Bool
  deriving BEq, Repr

namespace Group

/-- The group of a motion: it holds its last values until they are committed. -/
def assemble (members : List (Track α)) (duration : α) (easing : Easing α) : Group α :=
  ⟨members, duration, easing, .forwards, false⟩

variable [Scalar α]

/-- How long the group itself runs: not at all if its duration is negative or not finite. -/
def span (g : Group α) : α :=
  if Scalar.isFinite g.duration then Scalar.larger g.duration 0.0 else 0.0

/-- How long a member runs: as long as the group, or for a duration of its own cut to the group. -/
def trackDuration (g : Group α) (t : Track α) : α :=
  match t.duration with
  | none => g.span
  | some d => Scalar.larger (Scalar.smaller d g.span) 0.0

end Group

/-- What can be attached to a layer. -/
inductive Animation (α : Type) where
  | track (t : Track α)
  | group (g : Group α)
  deriving BEq, Repr

namespace Animation

/-- The tracks of an animation in their order. -/
def tracks : Animation α → List (Track α)
  | .track t => [t]
  | .group g => g.members

/-- The animation with every track changed. -/
def mapTracks (f : Track α → Track α) : Animation α → Animation α
  | .track t => .track (f t)
  | .group g => .group { g with members := g.members.map f }

/-- The duration of an animation, or another one where a lone track has none. -/
def durationOr (default : α) : Animation α → α
  | .track t => t.duration.getD default
  | .group g => g.duration

end Animation

end LayerAnimation
