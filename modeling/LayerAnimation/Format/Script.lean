import LayerAnimation.Format.Animation
import LayerAnimation.Script

/-!
# Formats of scripts

How options, steps, scripts and samples stand in documents.  The options of a step stand among its
own members: members that are neither its time nor its intents are kept until its end and the
options are read from them then, so such members must be complete even if nothing asks for them.

`Script.parse` reads a script from a text and checks it.
-/

namespace LayerAnimation

namespace Format

variable {α : Type} [Scalar α]

/-! ## §1 Options -/

/-- The fields of options, each of which may be absent. -/
def optionFields (num : Format α) (curve : Format (Easing α)) : List Reader.Field :=
  [num.fieldOr "duration" Options.standardDuration,
   curve.fieldOr "timing" .easeInOut,
   num.fieldOr "delay" Options.standardDelay]

/-- The options with the given values. -/
def optionsOf {num : Format α} {curve : Format (Easing α)}
    (values : Reader.Values (optionFields num curve)) : Options α :=
  let (duration, easing, delay, _) := values
  ⟨duration, easing, delay⟩

/-- The members of options. -/
def optionMembers (num : Format α) (o : Options α) : List (String × Json) :=
  [("duration", num.write o.duration),
   ("timing", (easing num).write o.easing),
   ("delay", num.write o.delay)]

/-- The options of a motion. -/
def options (num : Format α) : Format (Options α) where
  read d := (Reader.record (optionFields num (easing num)) d).map optionsOf
  write o := .object (optionMembers num o)

/-! ## §2 Steps -/

/-- How deep containers may be nested in a document whose values are kept. -/
def nestingLimit : Nat := 127

/-- What is known of a step while its members are read. -/
structure StepDraft (α : Type) where
  time : Option α := none
  intents : Option (List (Intent α)) := none
  /-- The members that are kept, last one first. -/
  kept : List (Option String × Document) := []

/-- Read a member of a step; `room` is how deep containers in it may be nested. -/
def StepDraft.accept (num : Format α) (room : Nat) (draft : StepDraft α) (key : String)
    (d : Document) : Except Objection (StepDraft α) :=
  if key = "at" then
    match draft.time with
    | some _ => .error (.duplicate "at")
    | none => (num.read d).map fun t => { draft with time := some t }
  else if key = "intents" then
    match draft.intents with
    | some _ => .error (.duplicate "intents")
    | none => ((list (intent num)).read d).map fun is => { draft with intents := some is }
  -- It may belong to the options or to nothing at all; that is settled at the end.
  else if d.plain room then .ok { draft with kept := (some key, d) :: draft.kept }
  else .error .malformed

/-- Read the members of a step. -/
def StepDraft.acceptAll (num : Format α) (room : Nat) :
    List (Option String × Document) → StepDraft α → Except Objection (StepDraft α)
  | [], draft => .ok draft
  | (none, _) :: _, _ => .error .malformed
  | (some key, d) :: rest, draft => do
      let draft ← draft.accept num room key d
      StepDraft.acceptAll num room rest draft

/-- The step, once every member is read. -/
def StepDraft.finish (num : Format α) (draft : StepDraft α) : Except Objection (Step α) :=
  match draft.intents with
  -- The intents come before the options, and the time may be absent.
  | none => .error (.missing "intents")
  | some intents => do
      let values ←
        Reader.record (optionFields num (keptEasing num)) (.object draft.kept.reverse true)
      return ⟨draft.time.getD 0.0, optionsOf values, intents⟩

/-- A step that stands inside `depth` containers. -/
def step (num : Format α) (depth : Nat) : Format (Step α) where
  read
    | .object members closed => do
        let draft ← StepDraft.acceptAll num (nestingLimit - (depth + 1)) members {}
        Reader.closing closed
        draft.finish num
    | _ => .error .malformed
  write s :=
    .object (("at", num.write s.time) ::
      (optionMembers num s.options ++ [("intents", (list (intent num)).write s.intents)]))

/-! ## §3 Scripts and samples -/

/-- A script; both of its fields may be absent. -/
def script (num : Format α) : Format (Script α) where
  read d :=
    (Reader.record [
        (attributeMap (value num)).fieldOr "initial" .empty,
        (list (step num 2)).fieldOr "steps" []] d).map
      fun (initial, steps, _) => ⟨initial, steps⟩
  write s :=
    .object [
      ("initial", (attributeMap (value num)).write s.initial),
      ("steps", (list (step num 2)).write s.steps)]

/-- What is written of a sample. -/
def writeSample (num : Format α) (s : Sample α) : Json :=
  .object [("t", num.write s.t), ("values", (attributeMap (value num)).write s.values)]

end Format

/-! ## §4 Scripts from texts -/

/-- Why a text is not accepted as a script. -/
inductive ScriptError where
  /-- It does not decode. -/
  | format (objection : Objection)
  /-- It decodes to a script that is refused. -/
  | problem (problem : Problem Float)
  deriving BEq, Repr

/-- Read a script from a text and check it. -/
def Script.parse (text : String) : Except ScriptError (Script Float) := do
  let s ← ((Format.script Format.number).parse text).mapError ScriptError.format
  s.check.mapError ScriptError.problem
  return s

/-- The text of a script with one member or element per line. -/
def Script.pretty (s : Script Float) : String :=
  (Format.script Format.number).pretty s

end LayerAnimation
