import LayerAnimation.Intent
import LayerAnimation.Options

/-!
# Layers

A layer holds committed values, at most one running track per attribute, and a clock that says for
which moment its presented values are asked.

- `Playback.value?` is what a running track shows at a moment.
- `Layer.presented?` is what the layer shows: the running track first, the committed value next, the
  resting value last.
- `Layer.attach` starts the tracks of an animation, and `Layer.commit` ends those that are still its
  own by writing their goals.
-/

namespace LayerAnimation

variable {α : Type}

/-- The number under which an animation was attached. -/
abbrev AnimationId := Nat

/-! ## §1 Running tracks -/

/-- A track that runs on a layer, with its timing resolved. -/
structure Playback (α : Type) where
  id : AnimationId
  track : Track α
  begin : α
  duration : α
  easing : Easing α
  fill : Fill
  deriving BEq, Repr

namespace Playback

/-- The attribute on which a track runs. -/
def key (p : Playback α) : Attribute :=
  p.track.key

variable [Scalar α]

/-- The elapsed fraction at a moment; a track without duration is always over. -/
def progress (p : Playback α) (now : α) : α :=
  if p.duration ≤ 0.0 then 1.0
  else Scalar.clamp 0.0 1.0 ((now - p.begin) / p.duration)

/-- Whether a track has run its course at a moment. -/
def isOver (p : Playback α) (now : α) : Bool :=
  p.begin + p.duration ≤ now

/-- What a running track shows at a moment.  Without a start it is at its goal throughout. -/
def value? (p : Playback α) (now : α) : Option (Value α) :=
  match p.track.goal with
  | none => none
  | some goal =>
      if p.isOver now && !p.fill.holdsAfterEnd then none
      else
        -- A goal without a start is shown as it is at every fraction.
        let start := p.track.start.getD goal
        some (start.lerp goal (p.easing.apply (p.progress now)))

end Playback

/-! ## §2 Layers -/

/-- The state of a layer. -/
structure Layer (α : Type) where
  /-- The committed values. -/
  values : AttributeMap (Value α)
  /-- The running tracks, each under its attribute. -/
  playing : AttributeMap (Playback α)
  /-- The moment for which the layer presents. -/
  clock : α
  deriving BEq, Repr

namespace Layer

variable [Scalar α]

/-- A layer at rest that holds the given values. -/
def ofValues (values : AttributeMap (Value α)) : Layer α :=
  ⟨values, .empty, 0.0⟩

/-- The layer with one committed value set. -/
def setValue (l : Layer α) (a : Attribute) (v : Value α) : Layer α :=
  { l with values := l.values.insert a v }

/-- The layer with its clock at a moment. -/
def sync (l : Layer α) (now : α) : Layer α :=
  { l with clock := now }

/-- What the layer shows for an attribute. -/
def presented? (l : Layer α) (a : Attribute) : Option (Value α) :=
  ((l.playing.get? a).bind (·.value? l.clock)).or ((l.values.get? a).or a.rest?)

/-- What the layer shows for every attribute. -/
def snapshot (l : Layer α) : AttributeMap (Value α) :=
  .ofFn l.presented?

/-- The layer with a track running under its attribute, in place of any other. -/
def play (l : Layer α) (p : Playback α) : Layer α :=
  { l with playing := l.playing.insert p.key p }

/-- The layer with nothing running under an attribute. -/
def stop (l : Layer α) (a : Attribute) : Layer α :=
  { l with playing := l.playing.erase a }

/-- The tracks of some intents on this layer. -/
def compile (l : Layer α) (intents : List (Intent α)) : List (Track α) :=
  intents.map (Intent.track (l.values.get? .opacity))

/-! ## §3 Attaching and committing -/

/-- The animation with unset starts filled in by what the layer shows. -/
def fillStarts (l : Layer α) (a : Animation α) : Animation α :=
  a.mapTracks fun t => { t with start := t.start.or (l.presented? t.key) }

/-- The running tracks of an animation that begins at a moment. -/
def playbacks (id : AnimationId) (now : α) (a : Animation α) : List (Playback α) :=
  match a with
  -- A lone track brings the timing that a motion has unless told otherwise.
  | .track t => [⟨id, t, now, t.duration.getD Options.standardDuration, .easeInOut, .forwards⟩]
  | .group g => g.members.map fun t => ⟨id, t, now, g.trackDuration t, g.easing, g.fill⟩

/-- Start an animation on a layer.  Unset starts are taken from what the layer shows before the
first track is added, and a later track replaces an earlier one on its attribute.  Beside the layer
stands the animation with its starts. -/
def attach (l : Layer α) (id : AnimationId) (now : α) (a : Animation α) : Layer α × Animation α :=
  -- Every start is taken before any track is added.
  let filled := (l.sync now).fillStarts a
  ((playbacks id now filled).foldl play (l.sync now), filled)

/-- End one track of an animation.  A track that runs under another number is left alone; otherwise
the goal it has while running is committed.  Beside the layer stands whether a value was written. -/
def commitTrack (l : Layer α) (id : AnimationId) (a : Attribute) : Layer α × Bool :=
  match l.playing.get? a with
  | none => (l, false)
  | some p =>
      if p.id = id then
        -- The track that runs decides, not the one with which it was attached.
        match p.track.goal with
        | some v => ((l.setValue a v).stop a, true)
        | none => (l.stop a, false)
      else (l, false)

/-- End the tracks of an animation under some attributes, counting the values written. -/
def commitTracks (id : AnimationId) : List Attribute → Layer α → Layer α × Nat
  | [], l => (l, 0)
  | a :: rest, l =>
      let first := l.commitTrack id a
      let others := commitTracks id rest first.1
      (others.1, others.2 + first.2.toNat)

/-- End an animation on a layer, counting the values written. -/
def commit (l : Layer α) (id : AnimationId) (a : Animation α) : Layer α × Nat :=
  commitTracks id (a.tracks.map Track.key) l

end Layer

end LayerAnimation
