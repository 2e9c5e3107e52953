import LayerAnimation.Stage.Basic

/-!
# Motions on a stage

Attaching animations to layers, and the two ways of a motion: at once, or put off by its delay.

- `Stage.attach` draws a number for the animation, starts its tracks and hands out the completion
  that has to be fired when it ends.
- `Stage.animate` registers that completion with the clock of the stage.
- `Stage.motion` compiles intents into a group and animates it, at once or after the delay.
- `Stage.fire` commits a completion, or hands it back if its layer is in use.
-/

namespace LayerAnimation

namespace Stage

variable {α κ σ : Type} [Scalar α]

/-! ## §1 Attaching -/

/-- The stage with the next number used up. -/
def drawId (s : Stage α κ σ) : Stage α κ σ :=
  { s with nextId := s.nextId + 1 }

/-- Start an animation on a layer at a moment.  A number is drawn in any case; if the layer is not
free, nothing else happens. -/
def attach (s : Stage α κ σ) (now : α) (id : LayerId) (a : Animation α) :
    Stage α κ σ × Option (Completion α) :=
  match s.writable? id with
  -- The number is lost.
  | none => (s.drawId, none)
  | some l =>
      let attached := l.attach s.nextId now a
      (s.drawId.setLayer id attached.1, some ⟨id, s.nextId, attached.2⟩)

/-- After how long the completion of an animation is due. -/
def completionDelay (a : Animation α) : α :=
  a.durationOr Options.standardDuration

/-- Start an animation now and complete it when its duration is over. -/
def animate (s : Stage α κ σ) (id : LayerId) (a : Animation α) :
    Stage α κ σ × Option AnimationId :=
  match s.attach s.now id a with
  | (s, none) => (s, none)
  | (s, some c) => (s.enqueueCompletion (completionDelay a) c, some c.id)

/-! ## §2 Motions -/

/-- Compile intents into one group and start it now, if the layer can be read. -/
def perform (s : Stage α κ σ) (id : LayerId) (intents : List (Intent α)) (duration : α)
    (easing : Easing α) : Stage α κ σ × Option AnimationId :=
  match s.readable? id with
  -- Without a look at the layer there is nothing to attach, and no number is drawn.
  | none => (s, none)
  | some l => s.animate id (.group (.assemble (l.compile intents) duration easing))

/-- Put a motion off by the delay of its options, taken as they are. -/
def schedule (s : Stage α κ σ) (id : LayerId) (intents : List (Intent α)) (o : Options α) :
    Stage α κ σ :=
  s.enqueue o.delay (.deferred ⟨id, intents, o.duration, o.easing⟩)

/-- Make a motion with repaired options: at once, or later if it has a delay. -/
def motion (s : Stage α κ σ) (id : LayerId) (intents : List (Intent α)) (o : Options α) :
    Stage α κ σ × Option AnimationId :=
  if (0.0 : α) < o.repaired.delay then (s.schedule id intents o.repaired, none)
  else s.perform id intents o.repaired.duration o.repaired.easing

/-- Start a motion that was put off, unless its layer is gone. -/
def startDeferred (s : Stage α κ σ) (d : Deferred α) : Stage α κ σ × Option AnimationId :=
  s.perform d.layer d.intents d.duration d.easing

/-! ## §3 Completions -/

/-- Commit a completion on its layer and count the values written, however the animation ended.
If the layer is gone there is nothing to write; if it is in use the completion is handed back. -/
def fire (s : Stage α κ σ) (c : Completion α) (_ending : Ending) :
    Stage α κ σ × Except (Completion α) Nat :=
  match s.cell? c.layer with
  -- With the layer its running tracks are gone.
  | none => (s, .ok 0)
  | some cell =>
      if cell.hold.admitsWriter then
        let committed := cell.layer.commit c.id c.animation
        (s.setLayer c.layer committed.1, .ok committed.2)
      else (s, .error c)

/-- The stage without the first completion of an animation. -/
def cancel (s : Stage α κ σ) (id : AnimationId) : Stage α κ σ :=
  { s with timers := s.timers.eraseP (Timer.isCompletionOf id) }

/-- End an animation early: its completion fires now, or is due now if its layer is in use.  Beside
the stage stands whether there was such a completion. -/
def interrupt (s : Stage α κ σ) (id : AnimationId) : Stage α κ σ × Bool :=
  match s.timers.find? (Timer.isCompletionOf id) with
  | some ⟨_, _, .completion c⟩ =>
      match (s.cancel id).fire c .interrupted with
      | (s, .ok _) => (s, true)
      -- The layer is in use, so the completion waits again.
      | (s, .error c) => (s.enqueue 0.0 (.completion c), true)
  | _ => (s, false)

end Stage

end LayerAnimation
