import LayerAnimation.Stage.Clock
import LayerAnimation.Json.Basic

/-!
# Commands of a session

A session is a stage whose layers have names, together with a recorder that keeps completions
instead of firing them.  Commands are what a caller can do with it; some of them contain commands of
their own, to be done while a layer is held or when a moment comes.

Every command is answered by an `Entry`: its reply, the clock and the number of waiting jobs
afterwards, and the jobs that it started.
-/

namespace LayerAnimation

/-! ## §1 Commands -/

/-- What can be done in a session. -/
inductive Command (α : Type) where
  /-- Add a layer under a name, in place of any other. -/
  | newLayer (name : String) (values : AttributeMap (Value α))
  /-- Add a copy of a layer under a name, in place of any other. -/
  | copyLayer (name copy : String)
  /-- Give a layer up. -/
  | dropLayer (name : String)
  /-- Do commands while a layer is held. -/
  | whileHeld (name : String) (hold : Hold) (body : List (Command α))
  /-- Set a committed value. -/
  | setValue (name : String) (key : Attribute) (value : Value α)
  /-- Ask for all that concerns an attribute. -/
  | inspect (name : String) (key : Attribute)
  /-- Move the clock of a layer. -/
  | syncLayer (name : String) (t : α)
  /-- Start a track with its timing resolved. -/
  | play (name : String) (playback : Playback α)
  /-- Take the running track of an attribute away. -/
  | stop (name : String) (key : Attribute)
  /-- Ask for all that a layer shows. -/
  | snapshot (name : String)
  /-- Ask for the tracks of some intents. -/
  | compile (name : String) (intents : List (Intent α))
  /-- Ask for all layers. -/
  | dump
  | motion (name : String) (intents : List (Intent α)) (options : Options α)
  | schedule (name : String) (intents : List (Intent α)) (options : Options α)
  | animate (name : String) (animation : Animation α)
  /-- Commit an animation by its number. -/
  | commit (name : String) (id : AnimationId) (animation : Animation α)
  /-- Set the clock of the recorder. -/
  | recorderClock (t : α)
  /-- Attach an animation and leave its completion to the recorder. -/
  | record (name : String) (animation : Animation α)
  /-- Ask for the completions that the recorder keeps. -/
  | recordings
  /-- Fire a completion of the recorder. -/
  | fireRecording (n : Nat) (ending : Ending)
  /-- Hand a completion of the recorder to the clock of the stage. -/
  | handOver (n : Nat) (after : α)
  /-- Do commands after a while. -/
  | later (delay : α) (label : Json) (body : List (Command α))
  /-- Let the clock of a layer follow that of the stage. -/
  | watch (name : String)
  | advance (dt : α)
  | advanceTo (t : α)
  | settle
  | interrupt (id : AnimationId)
  /-- Ask for the clock and the sizes of the stage. -/
  | describe
  deriving Repr

/-- Commands that wait for a moment, under a label. -/
structure Routine (α : Type) where
  label : Json
  body : List (Command α)
  deriving Repr

/-! ## §2 Costs -/

namespace Command

mutual

/-- A bound for the steps that a command can cause, itself included. -/
def cost {α : Type} : Command α → Nat
  | .whileHeld _ _ body => 1 + costAll body
  | .later _ _ body => 2 + costAll body
  | .motion _ _ _ => 3
  | .schedule _ _ _ => 3
  | .animate _ _ => 2
  | .handOver _ _ => 2
  | _ => 1

/-- A bound for the steps that some commands can cause. -/
def costAll {α : Type} : List (Command α) → Nat
  | [] => 0
  | c :: rest => cost c + costAll rest

end

end Command

/-! ## §3 Replies -/

/-- A completion that the recorder keeps. -/
structure Recording (α : Type) where
  after : α
  completion : Completion α
  deriving Repr

/-- The answer to a command; `ε` stands for the entries of commands inside it. -/
inductive Reply (α ε : Type) where
  | done
  /-- The layer is in use. -/
  | busy
  /-- There is no such completion any more. -/
  | gone
  /-- There is no layer of that name. -/
  | unknownLayer
  | flag (b : Bool)
  | count (n : Nat)
  | time (t : α)
  /-- The number of an animation, if it was attached. -/
  | attached (id : Option AnimationId)
  /-- The running track that was there before. -/
  | previous (p : Option (Playback α))
  /-- The committed value, the presented value and the running track of an attribute. -/
  | attribute (committed presented : Option (Value α)) (running : Option (Playback α))
  /-- What a layer shows, and the attributes on which tracks run. -/
  | snapshot (values : AttributeMap (Value α)) (running : List Attribute)
  | tracks (ts : List (Track α))
  /-- The layers by name, as far as they can be read. -/
  | layers (ls : List (String × Option (Layer α)))
  /-- The completions that were not used, and whether their layers are alive. -/
  | recordings (rs : List (Option (Recording α × Bool)))
  /-- The clock, the number of waiting jobs and the number of followed layers. -/
  | summary (now : α) (pending followed : Nat)
  /-- The entries of commands inside the command. -/
  | entries (es : List ε)
  deriving Repr

/-- What a routine did: its label, the clock when it began, and the entries of its commands. -/
structure Report (α ε : Type) where
  label : Json
  began : α
  steps : List ε
  deriving Repr

/-- The answer to a command, with the clock and the number of waiting jobs afterwards and the jobs
that it started. -/
inductive Entry (α : Type) where
  | mk (reply : Reply α (Entry α)) (now : α) (pending : Nat)
      (firings : List (Firing α (Report α (Entry α))))

namespace Entry

variable {α : Type}

/-- The reply to the command. -/
def reply : Entry α → Reply α (Entry α)
  | .mk reply _ _ _ => reply

/-- The clock after the command. -/
def now : Entry α → α
  | .mk _ now _ _ => now

/-- The number of waiting jobs after the command. -/
def pending : Entry α → Nat
  | .mk _ _ pending _ => pending

/-- The jobs that the command started. -/
def firings : Entry α → List (Firing α (Report α (Entry α)))
  | .mk _ _ _ firings => firings

/-- The reports of the routines that the command started. -/
def reports (e : Entry α) : List (Report α (Entry α)) :=
  e.firings.filterMap Firing.record?

end Entry

/-! ## §4 Summaries -/

/-- The text of a summary: the clock, the number of waiting jobs and that of followed layers. -/
def summaryText (now : Float) (pending followed : Nat) : String :=
  "Compositor \x7b now: " ++ Decimal.Layout.debug.text now ++ ", pending: " ++ toString pending
    ++ ", layers: " ++ toString followed ++ " \x7d"

end LayerAnimation
