import LayerAnimation.Session.Command

/-!
# Running a session

`Session.run` does commands one after the other on a fresh session and returns their entries.

Commands contain commands, and routines contain commands that move the clock again, so the depth of
the recursion is bounded by fuel.  The cost of all commands is enough: every command that is done
and every job that is started takes at least one unit of it away.
-/

namespace LayerAnimation

variable {α : Type} [Scalar α]

/-! ## §1 Sessions -/

/-- The names of layers and the state of the recorder. -/
structure Desk (α : Type) where
  names : List (String × LayerId)
  clock : α
  recordings : List (Option (Recording α))

/-- A stage with named layers and a recorder. -/
abbrev Session (α : Type) := Stage α (Routine α) (Desk α)

/-- A command's answer, before the clock is added. -/
abbrev Answer (α : Type) :=
  Session α × Reply α (Entry α) × List (Firing α (Report α (Entry α)))

/-- How a command is done. -/
abbrev Performer (α : Type) := Command α → Session α → Session α × Entry α

namespace Session

/-- A session in which nothing has happened. -/
def fresh : Session α :=
  Stage.empty ⟨[], 0.0, []⟩

/-! ## §2 Names -/

/-- The layer with a name. -/
def layer? (s : Session α) (name : String) : Option LayerId :=
  s.desk.names.lookup name

/-- Forget a name and give its layer up. -/
def release (s : Session α) (name : String) : Session α :=
  match s.layer? name with
  | none => s
  | some id =>
      { s.dropLayer id with
        desk := { s.desk with names := s.desk.names.filter fun e => e.1 != name } }

/-- Add a layer under a name, in place of any other. -/
def addNamed (s : Session α) (name : String) (l : Layer α) : Session α :=
  let added := (s.release name).addLayer l
  { added.1 with desk := { added.1.desk with names := added.1.desk.names ++ [(name, added.2)] } }

/-- Answer a question about a layer that can be read. -/
def asking (s : Session α) (name : String) (answer : Layer α → Reply α (Entry α)) : Answer α :=
  match s.layer? name with
  | none => (s, .unknownLayer, [])
  | some id =>
      match s.readable? id with
      | none => (s, .busy, [])
      | some l => (s, answer l, [])

/-- Change a layer that can be written. -/
def changing (s : Session α) (name : String) (change : Layer α → Layer α × Reply α (Entry α)) :
    Answer α :=
  match s.layer? name with
  | none => (s, .unknownLayer, [])
  | some id =>
      match s.writable? id with
      | none => (s, .busy, [])
      | some l =>
          let changed := change l
          (s.setLayer id changed.1, changed.2, [])

/-- Do something with a layer, whoever is using it. -/
def acting (s : Session α) (name : String)
    (act : LayerId → Session α × Reply α (Entry α)) : Answer α :=
  match s.layer? name with
  | none => (s, .unknownLayer, [])
  | some id =>
      let acted := act id
      (acted.1, acted.2, [])

/-! ## §3 The recorder -/

/-- A completion that the recorder still keeps. -/
def recording? (s : Session α) (n : Nat) : Option (Recording α) :=
  s.desk.recordings[n]?.join

/-- The session with a completion of the recorder marked as used. -/
def useRecording (s : Session α) (n : Nat) : Session α :=
  { s with desk := { s.desk with recordings := s.desk.recordings.set n none } }

/-- Attach an animation by the clock of the recorder and let the recorder keep its completion. -/
def record (s : Session α) (id : LayerId) (a : Animation α) : Session α × Option AnimationId :=
  match s.attach s.desk.clock id a with
  | (s, none) => (s, none)
  | (s, some c) =>
      let recordings := s.desk.recordings ++ [some ⟨Stage.completionDelay a, c⟩]
      ({ s with desk := { s.desk with recordings := recordings } }, some c.id)

/-- Fire a completion of the recorder; it is kept if its layer is in use. -/
def fireRecording (s : Session α) (n : Nat) (ending : Ending) : Session α × Reply α (Entry α) :=
  match s.recording? n with
  | none => (s, .gone)
  | some r =>
      match s.fire r.completion ending with
      -- The recorder keeps what is handed back.
      | (s, .error _) => (s, .busy)
      | (s, .ok count) => (useRecording s n, .count count)

/-- Hand a completion of the recorder to the clock of the stage. -/
def handOver (s : Session α) (n : Nat) (after : α) : Session α × Reply α (Entry α) :=
  match s.recording? n with
  | none => (s, .gone)
  | some r => ((s.useRecording n).enqueueCompletion after r.completion, .done)

/-! ## §4 Commands -/

/-- Do commands one after the other. -/
def performAll (step : Performer α) :
    List (Command α) → Session α → Session α × List (Entry α)
  | [], s => (s, [])
  | c :: rest, s =>
      let first := step c s
      let others := performAll step rest first.1
      (others.1, first.2 :: others.2)

/-- Do the commands of a routine. -/
def runRoutine (step : Performer α) (r : Routine α) (s : Session α) :
    Session α × Report α (Entry α) :=
  let done := performAll step r.body s
  (done.1, ⟨r.label, s.now, done.2⟩)

/-- Move the clock and count the jobs that are done. -/
def moved (result : Session α × List (Firing α (Report α (Entry α)))) : Answer α :=
  (result.1, .count (doneCount result.2), result.2)

/-- Do a command; `step` does the commands inside it, and `fuel` bounds the jobs that it starts. -/
def respond (fuel : Nat) (step : Performer α) (c : Command α) (s : Session α) : Answer α :=
  match c with
  | .newLayer name values => (s.addNamed name (.ofValues values), .done, [])
  | .copyLayer name copy =>
      match s.layer? name with
      | none => (s, .unknownLayer, [])
      | some id =>
          match s.readable? id with
          | none => (s, .busy, [])
          | some l => (s.addNamed copy l, .done, [])
  | .dropLayer name => (s.release name, .flag (s.layer? name).isSome, [])
  | .whileHeld name hold body =>
      s.acting name fun id =>
        let result := s.whileHeld id hold (performAll step body)
        (result.1, result.2.elim .busy .entries)
  | .setValue name key value => s.changing name fun l => (l.setValue key value, .done)
  | .inspect name key =>
      s.asking name fun l =>
        .attribute (l.values.get? key) (l.presented? key) (l.playing.get? key)
  | .syncLayer name t => s.changing name fun l => (l.sync t, .time (l.sync t).clock)
  | .play name p => s.changing name fun l => (l.play p, .previous (l.playing.get? p.key))
  | .stop name key => s.changing name fun l => (l.stop key, .previous (l.playing.get? key))
  | .snapshot name => s.asking name fun l => .snapshot l.snapshot l.playing.keys
  | .compile name intents => s.asking name fun l => .tracks (l.compile intents)
  | .dump => (s, .layers (s.desk.names.map fun (name, id) => (name, s.readable? id)), [])
  | .motion name intents options =>
      s.acting name fun id =>
        let result := s.motion id intents options
        (result.1, .attached result.2)
  | .schedule name intents options =>
      s.acting name fun id => (s.schedule id intents options, .done)
  | .animate name animation =>
      s.acting name fun id =>
        let result := s.animate id animation
        (result.1, .attached result.2)
  | .commit name id animation =>
      s.changing name fun l =>
        let result := l.commit id animation
        (result.1, .count result.2)
  | .recorderClock t => ({ s with desk := { s.desk with clock := t } }, .done, [])
  | .record name animation =>
      s.acting name fun id =>
        let result := s.record id animation
        (result.1, .attached result.2)
  | .recordings =>
      let kept := s.desk.recordings.map fun r =>
        r.map fun r => (r, s.isAlive r.completion.layer)
      (s, .recordings kept, [])
  | .fireRecording n ending =>
      let result := s.fireRecording n ending
      (result.1, result.2, [])
  | .handOver n after =>
      let result := s.handOver n after
      (result.1, result.2, [])
  | .later delay label body => (s.enqueue delay (.routine ⟨label, body⟩), .done, [])
  | .watch name => s.acting name fun id => (s.watch id, .done)
  | .advance dt => moved (Stage.advanceWithin (runRoutine step) fuel (s.ahead dt) s)
  | .advanceTo t => moved (Stage.advanceWithin (runRoutine step) fuel t s)
  | .settle => moved (Stage.settleWithin (runRoutine step) fuel fuel s)
  | .interrupt id =>
      let result := s.interrupt id
      (result.1, .flag result.2, [])
  | .describe => (s, .summary s.now s.pending s.followed.length, [])

/-- Do a command and everything that it causes, to a depth of at most `fuel`. -/
def perform : Nat → Command α → Session α → Session α × Entry α
  | 0, _, s => (s, .mk .done s.now s.pending [])
  | fuel + 1, c, s =>
      let answer := respond fuel (perform fuel) c s
      -- Clock and queue are read off after all that the command has caused.
      (answer.1, .mk answer.2.1 answer.1.now answer.1.pending answer.2.2)

/-- Do commands on a fresh session. -/
def run (commands : List (Command α)) : List (Entry α) :=
  (performAll (perform (Command.costAll commands)) commands fresh).2

end Session

end LayerAnimation
