import LayerAnimation.Layer

/-!
# The stage

A stage holds layers, a clock that only its owner moves, and the jobs that wait for a moment of that
clock.

- A layer lives in a cell as long as it is owned or held.  A reader may share a cell with other
  readers; a writer needs it free.
- Jobs stand in the order in which they start: by due time, and among equal ones by registration.
- Layers that take part in animations are followed: whenever the clock moves, the clocks of those
  that are alive and not held move with it.

A job can be the completion of an animation, a motion that was put off, or a routine of the caller;
the type of routines is a parameter, as is what the caller keeps beside the stage.
-/

namespace LayerAnimation

variable {α κ σ : Type}

/-! ## §1 Cells -/

/-- The name of a layer on a stage. -/
abbrev LayerId := Nat

/-- Who is using a layer. -/
inductive Hold where
  /-- No one. -/
  | free
  /-- Readers. -/
  | shared
  /-- One writer. -/
  | exclusive
  deriving DecidableEq, Repr

namespace Hold

/-- Whether a reader may join. -/
def admitsReader : Hold → Bool
  | .free | .shared => true
  | .exclusive => false

/-- Whether a writer may enter. -/
def admitsWriter : Hold → Bool
  | .free => true
  | .shared | .exclusive => false

/-- Whether someone who asks for the hold `wanted` is let in. -/
def admits (held wanted : Hold) : Bool :=
  match wanted with
  | .free => true
  | .shared => held.admitsReader
  | .exclusive => held.admitsWriter

end Hold

/-- A layer, who is using it, and whether it has an owner. -/
structure Cell (α : Type) where
  layer : Layer α
  hold : Hold
  owned : Bool
  deriving Repr

namespace Cell

/-- The cell with the clock of its layer moved, unless the layer is held. -/
def sync (c : Cell α) (now : α) : Cell α :=
  match c.hold with
  | .free => { c with layer := c.layer.sync now }
  | _ => c

end Cell

/-! ## §2 Jobs -/

/-- What remains to be done when an animation ends: commit it on its layer. -/
structure Completion (α : Type) where
  layer : LayerId
  id : AnimationId
  animation : Animation α
  deriving Repr

/-- How an animation came to its end. -/
inductive Ending where
  /-- Its duration was over. -/
  | finished
  /-- It was stopped early. -/
  | interrupted
  deriving DecidableEq, Repr

/-- A motion that was put off. -/
structure Deferred (α : Type) where
  layer : LayerId
  intents : List (Intent α)
  duration : α
  easing : Easing α
  deriving Repr

/-- What can wait for a moment. -/
inductive Job (α κ : Type) where
  | completion (c : Completion α)
  | deferred (d : Deferred α)
  | routine (r : κ)
  deriving Repr

/-- A job, the moment for which it waits, and the number of its registration. -/
structure Timer (α κ : Type) where
  due : α
  seq : Nat
  job : Job α κ
  deriving Repr

namespace Timer

variable [Scalar α]

/-- Put a newly registered timer among others, behind all that are due no later. -/
def insert (t : Timer α κ) : List (Timer α κ) → List (Timer α κ)
  | [] => [t]
  | u :: us => if t.due < u.due then t :: u :: us else u :: insert t us

/-- Whether a timer is the completion of the animation with the given number. -/
def isCompletionOf (id : AnimationId) (t : Timer α κ) : Bool :=
  match t.job with
  | .completion c => c.id == id
  | _ => false

end Timer

/-! ## §3 Stages -/

/-- Layers, a clock and waiting jobs. -/
structure Stage (α κ σ : Type) where
  /-- The cells by name; a layer that is gone leaves an empty place. -/
  layers : List (Option (Cell α))
  /-- The number of the next animation. -/
  nextId : AnimationId
  /-- The clock. -/
  now : α
  /-- How many jobs were ever registered. -/
  seq : Nat
  /-- The waiting jobs in their order. -/
  timers : List (Timer α κ)
  /-- The layers whose clocks follow. -/
  followed : List LayerId
  /-- What the caller keeps beside the stage. -/
  desk : σ

namespace Stage

variable [Scalar α]

/-- A stage without layers and jobs at time zero. -/
def empty (desk : σ) : Stage α κ σ :=
  ⟨[], 1, 0.0, 0, [], [], desk⟩

/-- How many jobs wait. -/
def pending (s : Stage α κ σ) : Nat :=
  s.timers.length

/-! ## §4 Access to layers -/

/-- The cell of a layer that is alive. -/
def cell? (s : Stage α κ σ) (id : LayerId) : Option (Cell α) :=
  s.layers[id]?.join

/-- Whether a layer is alive. -/
def isAlive (s : Stage α κ σ) (id : LayerId) : Bool :=
  (s.cell? id).isSome

/-- A layer, if it can be read. -/
def readable? (s : Stage α κ σ) (id : LayerId) : Option (Layer α) :=
  match s.cell? id with
  | some c => if c.hold.admitsReader then some c.layer else none
  | none => none

/-- A layer, if it can be written. -/
def writable? (s : Stage α κ σ) (id : LayerId) : Option (Layer α) :=
  match s.cell? id with
  | some c => if c.hold.admitsWriter then some c.layer else none
  | none => none

/-- The stage with the cell of a layer changed. -/
def modifyCell (s : Stage α κ σ) (id : LayerId) (f : Cell α → Option (Cell α)) : Stage α κ σ :=
  { s with layers := s.layers.modify id fun place => place.bind f }

/-- The stage with the state of a living layer replaced. -/
def setLayer (s : Stage α κ σ) (id : LayerId) (l : Layer α) : Stage α κ σ :=
  s.modifyCell id fun c => some { c with layer := l }

/-- Add a layer that is owned and free. -/
def addLayer (s : Stage α κ σ) (l : Layer α) : Stage α κ σ × LayerId :=
  ({ s with layers := s.layers ++ [some ⟨l, .free, true⟩] }, s.layers.length)

/-- Give up the ownership of a layer.  It is gone unless someone is still using it. -/
def dropLayer (s : Stage α κ σ) (id : LayerId) : Stage α κ σ :=
  s.modifyCell id fun c => if c.hold = .free then none else some { c with owned := false }

/-- Change who is using a layer.  A layer without owner is gone as soon as no one uses it. -/
def setHold (s : Stage α κ σ) (id : LayerId) (hold : Hold) : Stage α κ σ :=
  s.modifyCell id fun c =>
    if hold = .free ∧ c.owned = false then none else some { c with hold := hold }

/-- Do something while a layer is held, if the hold is granted, and restore its hold afterwards. -/
def whileHeld (s : Stage α κ σ) (id : LayerId) (hold : Hold) {β : Type}
    (body : Stage α κ σ → Stage α κ σ × β) : Stage α κ σ × Option β :=
  match s.cell? id with
  | none => (s, none)
  | some c =>
      if c.hold.admits hold then
        let result := body (s.setHold id hold)
        -- A layer that lost its owner meanwhile is gone once it is free again.
        (result.1.setHold id c.hold, some result.2)
      else (s, none)

/-! ## §5 The clock and its followers -/

/-- The stage with its clock moved to a moment, unless that lies in the past. -/
def moveClock (s : Stage α κ σ) (t : α) : Stage α κ σ :=
  { s with now := Scalar.larger s.now t }

/-- Let the clock of a layer follow that of the stage. -/
def follow (s : Stage α κ σ) (id : LayerId) : Stage α κ σ :=
  if id ∈ s.followed then s else { s with followed := s.followed ++ [id] }

/-- Forget followers that are gone and move the clocks of the others. -/
def sync (s : Stage α κ σ) : Stage α κ σ :=
  { s with
    -- A held layer is still followed; it keeps its clock until it is free.
    followed := s.followed.filter s.isAlive
    layers := s.layers.mapIdx fun id place =>
      if id ∈ s.followed then place.map (·.sync s.now) else place }

/-- Let the clock of a layer follow that of the stage, beginning now. -/
def watch (s : Stage α κ σ) (id : LayerId) : Stage α κ σ :=
  (s.follow id).sync

/-! ## §6 Registering jobs -/

/-- How long a job waits: not at all if the wait is negative or not finite. -/
def wait (after : α) : α :=
  if Scalar.isFinite after then Scalar.larger after 0.0 else 0.0

/-- Register a job that is due after a while. -/
def enqueue (s : Stage α κ σ) (after : α) (job : Job α κ) : Stage α κ σ :=
  { s with
    -- The new number is the highest, so among equal due times the new job comes last.
    seq := s.seq + 1
    timers := Timer.insert ⟨s.now + wait after, s.seq + 1, job⟩ s.timers }

/-- Register a completion and follow its layer. -/
def enqueueCompletion (s : Stage α κ σ) (after : α) (c : Completion α) : Stage α κ σ :=
  (s.follow c.layer).enqueue after (.completion c)

/-- Take the first job if it is due at a moment. -/
def popDue (s : Stage α κ σ) (t : α) : Option (Timer α κ × Stage α κ σ) :=
  match s.timers with
  | [] => none
  | u :: us => if u.due ≤ t then some (u, { s with timers := us }) else none

end Stage

end LayerAnimation
