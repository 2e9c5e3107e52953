import LayerAnimation.Easing

/-!
# Options of a motion

How long a motion takes, along which curve, and after which delay it starts.  `Options.check`
refuses unusable options; `Options.repaired` replaces each unusable part by its default instead.
-/

namespace LayerAnimation

variable {α : Type}

/-- The timing of a motion. -/
structure Options (α : Type) where
  duration : α
  easing : Easing α
  delay : α
  deriving BEq, Repr

namespace Options

variable [Scalar α]

/-- How long a motion takes unless told otherwise. -/
def standardDuration : α := 0.15

/-- How long a motion waits unless told otherwise. -/
def standardDelay : α := 0.0

/-- The timing of a motion unless told otherwise. -/
def standard : Options α :=
  ⟨standardDuration, .easeInOut, standardDelay⟩

/-- Whether a duration is a positive finite number. -/
def usableDuration (d : α) : Bool :=
  -- Said through what is excluded, so that the order need not be total.
  Scalar.isFinite d && !decide (d ≤ 0.0)

/-- Whether a delay is a finite number that is not negative. -/
def usableDelay (d : α) : Bool :=
  Scalar.isFinite d && !decide (d < 0.0)

/-- Refuse unusable options; of several objections the duration comes first and the curve last. -/
def check (o : Options α) : Except (Problem α) Unit :=
  if !usableDuration o.duration then .error (.duration o.duration)
  else if !usableDelay o.delay then .error (.delay o.delay)
  else o.easing.check

/-- The options with each unusable part replaced by its default. -/
def repaired (o : Options α) : Options α where
  duration := if usableDuration o.duration then o.duration else standardDuration
  easing := match o.easing.check with
    | .ok _ => o.easing
    | .error _ => .easeInOut
  delay := if usableDelay o.delay then o.delay else standardDelay

end Options

end LayerAnimation
