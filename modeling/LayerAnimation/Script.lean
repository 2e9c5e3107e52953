import LayerAnimation.Stage.Clock

/-!
# Motion scripts

A script holds the initial values of a layer and motions with the times at which they are issued.

- `Script.check` refuses a script with an unusable step or with steps out of order, and says which
  step is at fault.
- `Script.simulate` runs a script on a fresh layer and samples what the layer shows at a fixed rate,
  from time zero to the first frame at which every step is issued and no job waits.

Frames are counted by a 64-bit counter and simulated time is limited to one hour.
-/

namespace LayerAnimation

variable {α : Type}

/-! ## §1 Scripts -/

/-- A motion and the time at which it is issued. -/
structure Step (α : Type) where
  time : α
  options : Options α
  intents : List (Intent α)
  deriving BEq, Repr

/-- The initial values of a layer and the motions made on it. -/
structure Script (α : Type) where
  initial : AttributeMap (Value α)
  steps : List (Step α)
  deriving BEq, Repr

/-- What a layer shows at a time. -/
structure Sample (α : Type) where
  t : α
  values : AttributeMap (Value α)
  deriving BEq, Repr

/-- What a layer shows frame by frame, and the values it is left with. -/
structure Simulation (α : Type) where
  samples : List (Sample α)
  final : AttributeMap (Value α)
  deriving BEq, Repr

namespace Script

variable [Scalar α]

/-! ## §2 Checking -/

/-- Refuse the step at a place of the script if it is unusable by itself. -/
def checkStep (index : Nat) (step : Step α) : Except (Problem α) Unit :=
  -- The time of a step is refused on the same grounds as a delay, and before its options.
  if !Options.usableDelay step.time then .error (.startTime index)
  else
    match step.options.check with
    | .ok _ => .ok ()
    | .error cause => .error (.options index cause)

/-- Refuse the first unusable step among those that begin at a place of the script. -/
def checkSteps : Nat → List (Step α) → Except (Problem α) Unit
  | _, [] => .ok ()
  | index, step :: rest => do
      checkStep index step
      checkSteps (index + 1) rest

/-- Whether no step starts before the one in front of it. -/
def isSorted : List (Step α) → Bool
  | first :: second :: rest => decide (first.time ≤ second.time) && isSorted (second :: rest)
  | _ => true

/-- Refuse a script with an unusable step, or with steps out of order. -/
def check (s : Script α) : Except (Problem α) Unit := do
  checkSteps 0 s.steps
  if isSorted s.steps then return () else throw .unsorted

/-! ## §3 Simulation -/

/-- The longest time that is simulated. -/
def timeLimit : α := 3600.0

/-- How many frames a 64-bit counter can count. -/
def frameLimit : Nat := Nat.pow 2 64

/-- The only layer of a simulation. -/
def stageLayer : LayerId := 0

/-- A stage with a layer that holds the initial values and whose clock follows. -/
def opening (s : Script α) : PlainStage α :=
  ((Stage.empty () : PlainStage α).addLayer (.ofValues s.initial)).1.watch stageLayer

/-- Issue a step at its time. -/
def issue (stage : PlainStage α) (step : Step α) : PlainStage α :=
  ((stage.advanceTo step.time).1.motion stageLayer step.intents step.options).1

/-- Issue the steps whose time has come, and keep the others. -/
def issueDue (t : α) : List (Step α) → PlainStage α → PlainStage α × List (Step α)
  | [], stage => (stage, [])
  | step :: rest, stage =>
      if step.time ≤ t then issueDue t rest (issue stage step) else (stage, step :: rest)

/-- What the layer shows, if it is still there. -/
def shown (stage : PlainStage α) : AttributeMap (Value α) :=
  match stage.cell? stageLayer with
  | some c => c.layer.snapshot
  | none => .empty

/-- The values that the layer holds, if it is still there. -/
def held (stage : PlainStage α) : AttributeMap (Value α) :=
  match stage.cell? stageLayer with
  | some c => c.layer.values
  | none => .empty

/-- The time of a frame. -/
def frameTime (fps : α) (frame : Nat) : α :=
  (frame : α) / fps

/-- Run the frames from a given one on, at most `fuel` of them.  Samples already taken are passed in
reverse. -/
def frames (fps : α) :
    Nat → Nat → List (Step α) → PlainStage α → List (Sample α) → Except (Problem α) (Simulation α)
  | 0, _, _, _, _ => .error .outOfFrames
  | fuel + 1, frame, steps, stage, done =>
      let t := frameTime fps frame
      -- A frame on the limit itself is still taken.
      if timeLimit < t then .error .unfinished
      else
        let issued := issueDue t steps stage
        let arrived := (issued.1.advanceTo t).1
        let samples := ⟨t, shown arrived⟩ :: done
        -- With no step and no job left nothing can change any more.
        if issued.2.isEmpty && arrived.pending == 0 then .ok ⟨samples.reverse, held arrived⟩
        else frames fps fuel (frame + 1) issued.2 arrived samples

/-- Run a script on a fresh layer and sample it at a rate, in frames per second. -/
def simulate (s : Script α) (fps : α) : Except (Problem α) (Simulation α) :=
  -- The rate is refused on the same grounds as a duration, and before the script is looked at.
  if !Options.usableDuration fps then .error .frameRate
  else do
    s.check
    frames fps frameLimit 0 s.steps s.opening []

end Script

end LayerAnimation
