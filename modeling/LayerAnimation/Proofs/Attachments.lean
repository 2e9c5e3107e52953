import LayerAnimation.Proofs.Sampling

/-!
# What an attachment does

An attachment walks over the tracks of an animation twice, first to fill in where they start and then
to put them on the layer, where they replace what runs and each other.  Both walks together are one
simultaneous update: every start is read from the layer as it was, and under each attribute runs the
last track that names it.

- `Layer.Attached` is such an update, whatever carries it out.  There is only one for a given
  animation (`Layer.Attached.unique`), and it is the attachment (`Layer.attached_attach`).
- `Stage.animate_effect` says what becomes of the whole stage: the layer is updated, one completion is
  registered, and everything else stays.
-/

namespace LayerAnimation

variable {α κ σ : Type}

/-! ## §1 Tracks that are filled in -/

/-- The track with its start, or, if it has none, with the one that is offered. -/
def Track.startingFrom (t : Track α) (offered : Option (Value α)) : Track α :=
  { t with start := t.start.or offered }

namespace Animation

theorem tracks_mapTracks (a : Animation α) (f : Track α → Track α) :
    (a.mapTracks f).tracks = a.tracks.map f := by
  cases a <;> rfl

/-- Where tracks keep their attributes, the last track of an attribute is the last one still. -/
theorem lastTrack?_mapTracks (a : Animation α) {f : Track α → Track α}
    (key : ∀ t, (f t).key = t.key) (k : Attribute) :
    (a.mapTracks f).lastTrack? k = (a.lastTrack? k).map f := by
  simp only [lastTrack?, tracks_mapTracks, ← List.map_reverse, List.find?_map, Function.comp_def, key]

/-- An attribute is without a last track only if no track names it. -/
theorem lastTrack?_eq_none_iff {a : Animation α} {k : Attribute} :
    a.lastTrack? k = none ↔ ¬ a.names k := by
  rw [← isSome_lastTrack?_iff, Option.not_isSome_iff_eq_none]

variable [Scalar α]

/-- How long a track of an animation runs. -/
def resolvedDuration (a : Animation α) (t : Track α) : α :=
  match a with
  | .track _ => t.duration.getD Options.standardDuration
  | .group g => g.trackDuration t

@[simp] theorem duration_playback (a : Animation α) (id : AnimationId) (now : α) (t : Track α) :
    (a.playback id now t).duration = a.resolvedDuration t := by
  cases a <;> rfl

/-- Where a track starts has nothing to do with how long it runs. -/
theorem resolvedDuration_startingFrom (a : Animation α) (t : Track α) (offered : Option (Value α)) :
    a.resolvedDuration (t.startingFrom offered) = a.resolvedDuration t := by
  cases a <;> rfl

/-- The timing of a playback is that of the animation, whatever becomes of its tracks. -/
theorem playback_mapTracks (a : Animation α) (f : Track α → Track α) (id : AnimationId) (now : α)
    (t : Track α) : (a.mapTracks f).playback id now t = a.playback id now t := by
  cases a <;> rfl

end Animation

/-! ## §2 The update -/

namespace Layer

variable [Scalar α]

/-- The result of an update that lets an animation run under a number from a moment on.  Beside the
layer stands the animation with its starts. -/
structure Attached (l : Layer α) (id : AnimationId) (now : α) (a : Animation α)
    (r : Layer α × Animation α) : Prop where
  clock : r.1.clock = now
  values : r.1.values = l.values
  /-- The last track of an attribute runs there, from its own start or from what was shown. -/
  last : ∀ k t, a.lastTrack? k = some t →
    r.1.playing.get? k = some (a.playback id now (t.startingFrom ((l.sync now).presented? k)))
  /-- Where no track leads, the same runs as before. -/
  others : ∀ k, ¬ a.names k → r.1.playing.get? k = l.playing.get? k
  /-- All tracks stay in their order, also those that do not come to run. -/
  animation : r.2 = a.mapTracks fun t => t.startingFrom ((l.sync now).presented? t.key)

/-- Nothing about such an update is left open. -/
theorem Attached.unique {l : Layer α} {id : AnimationId} {now : α} {a : Animation α}
    {r r' : Layer α × Animation α} (h : l.Attached id now a r) (h' : l.Attached id now a r') :
    r = r' := by
  have hplaying : r.1.playing = r'.1.playing := by
    refine AttributeMap.ext_get? fun k => ?_
    -- An attribute is led by its last track, or by none, and both cases are settled.
    cases hlast : a.lastTrack? k with
    | some t => rw [h.last k t hlast, h'.last k t hlast]
    | none =>
      have hnames := Animation.lastTrack?_eq_none_iff.mp hlast
      rw [h.others k hnames, h'.others k hnames]
  have hlayer : r.1 = r'.1 :=
    Eq.mpr (Layer.mk.injEq ..)
      ⟨h.values.trans h'.values.symm, hplaying, h.clock.trans h'.clock.symm⟩
  exact Prod.ext hlayer (h.animation.trans h'.animation.symm)

variable (l : Layer α) (id : AnimationId) (now : α) (a : Animation α)

omit [Scalar α] in
theorem sync_of_clock {l : Layer α} {now : α} (h : l.clock = now) : l.sync now = l := by
  rw [← h]
  rfl

/-- The track that an attachment brings to an attribute. -/
def incoming? (k : Attribute) : Option (Playback α) :=
  (a.lastTrack? k).map fun t => a.playback id now (t.startingFrom ((l.sync now).presented? k))

/-- What runs after an attachment, said by the animation as it was before its starts were filled
in. -/
theorem playing_attach_eq (k : Attribute) : (l.attach id now a).1.playing.get? k
    = (l.incoming? id now a k).or (l.playing.get? k) := by
  have hfilled : (l.attach id now a).2
      = a.mapTracks fun t => t.startingFrom ((l.sync now).presented? t.key) := rfl
  -- Filling in a start moves no track to another attribute, so the last one there stays the last.
  rw [playing_attach, hfilled, Animation.lastTrack?_mapTracks, incoming?]
  · cases hlast : a.lastTrack? k with
    | none => rfl
    | some t =>
      rw [Option.map_some, Option.map_some, Option.map_some, Animation.playback_mapTracks,
        (Animation.mem_of_lastTrack? hlast).2]
  · exact fun _ => rfl

theorem attached_attach : l.Attached id now a (l.attach id now a) where
  clock := clock_attach l id now a
  values := values_attach l id now a
  last := fun k t hlast => by rw [playing_attach_eq, incoming?, hlast, Option.map_some, Option.some_or]
  others := fun k hnames => by
    rw [playing_attach_eq, incoming?, Animation.lastTrack?_eq_none_iff.mpr hnames, Option.map_none,
      Option.none_or]
  animation := rfl

variable {now a} {k : Attribute}

/-- What an animation does not name is shown as before, on a layer that has the time already. -/
theorem presented?_attach_of_not_names (synced : l.clock = now) (names : ¬ a.names k) :
    (l.attach id now a).1.presented? k = l.presented? k := by
  rw [presented?, presented?, (l.attached_attach id now a).others k names, values_attach,
    clock_attach, synced]

/-- What an animation does name is shown by the last track that names it. -/
theorem presented?_attach_of_last (synced : l.clock = now) {t : Track α}
    (last : a.lastTrack? k = some t) : (l.attach id now a).1.presented? k
      = ((a.playback id now (t.startingFrom (l.presented? k))).value? now).or
          ((l.values.get? k).or k.rest?) := by
  rw [presented?, (l.attached_attach id now a).last k t last, values_attach, clock_attach,
    sync_of_clock synced, Option.bind_some]

end Layer

/-! ## §3 The stage around the layer -/

namespace Stage

variable [Scalar α]

/-- Registering a completion changes no layer. -/
theorem cell?_enqueueCompletion (s : Stage α κ σ) (after : α) (c : Completion α) (j : LayerId) :
    (s.enqueueCompletion after c).cell? j = s.cell? j := by
  rw [enqueueCompletion, cell?_enqueue, cell?_follow]

/-- What the start of an animation does to a stage on which no one is using the layer.  A new number
is drawn, the layer is updated at once for all tracks, and one completion is registered: it carries
the tracks in their order, each with the start that was read before any of them was on the layer. -/
theorem animate_effect {s : Stage α κ σ} {id : LayerId} {cell : Cell α}
    (alive : s.cell? id = some cell) (free : cell.hold = .free) (a : Animation α) :
    ∃ s' l c, s.animate id a = (s', some s.nextId) ∧
      s'.cell? id = some { cell with layer := l } ∧
      cell.layer.Attached s.nextId s.now a (l, c.animation) ∧
      c.layer = id ∧ c.id = s.nextId ∧
      s'.timers = Timer.insert ⟨s.now + wait (completionDelay a), s.seq + 1, .completion c⟩ s.timers ∧
      s'.waiting = c ::ₘ s.waiting ∧
      (∀ j, j ≠ id → s'.cell? j = s.cell? j) ∧
      s'.nextId = s.nextId + 1 ∧ s'.now = s.now := by
  have hwritable : s.writable? id = some cell.layer :=
    writable?_eq_some_iff.mpr ⟨cell, alive, free, rfl⟩
  have hattached := cell.layer.attached_attach s.nextId s.now a
  have hanimate := animate_of_writable? hwritable a
  -- From here on only what the description of the attachment says is used, not how it is made.
  generalize cell.layer.attach s.nextId s.now a = attached at hattached hanimate
  obtain ⟨l, filled⟩ := attached
  refine ⟨_, l, ⟨id, s.nextId, filled⟩, hanimate, ?_, hattached, rfl, rfl,
    timers_enqueueCompletion _ _ _, waiting_enqueueCompletion _ _ _, fun j hj => ?_,
    nextId_follow _ _, now_follow _ _⟩
  · rw [cell?_enqueueCompletion, cell?_setLayer, if_pos rfl, cell?_drawId, alive, Option.map_some]
  · rw [cell?_enqueueCompletion, cell?_setLayer, if_neg (Ne.symm hj), cell?_drawId]

/-- A stage at half a second, on whose layer a fade of a second has been running since the
beginning. -/
def fadingIn : PlainStage Float :=
  let fade : Playback Float :=
    ⟨1, (Track.toward .opacity (.scalar 1.0)).startingAt (.scalar 0.0), 0.0, 1.0, .linear, .forwards⟩
  { ofLayers [((Layer.ofValues .empty).play fade).sync 0.5] with nextId := 2, now := 0.5 }

/-- An animation that fades twice, the second time for a shorter while, and grows. -/
def fadesTwice : Animation Float :=
  .group (.assemble [.toward .opacity (.scalar 0.0), (Track.toward .opacity (.scalar 0.25)).lasting 0.1,
    .toward .scale (.scalar 2.0)] 1.0 .easeIn)

/-- Both fades of the animation start at the opacity that is on screen, and the second one runs. -/
theorem animate_fadingIn :
    ∃ (s' : PlainStage Float) (l : Layer Float) (c : Completion Float),
      fadingIn.animate 0 fadesTwice = (s', some 2) ∧
      l.playing.get? .opacity = some ⟨2,
        ((Track.toward .opacity (.scalar 0.25)).lasting 0.1).startingAt (.scalar 0.5), 0.5, 0.1,
        .easeIn, .forwards⟩ ∧
      c.animation.tracks.map Track.start
        = [some (.scalar 0.5), some (.scalar 0.5), some (.scalar 1.0)] ∧
      l.playing.get? .rotation = none ∧ s'.waiting = c ::ₘ fadingIn.waiting := by
  obtain ⟨s', l, c, hanimate, -, hattached, -, -, -, hwaiting, -⟩ :=
    animate_effect (show fadingIn.cell? 0 = some _ from rfl) rfl fadesTwice
  refine ⟨s', l, c, hanimate, ?_, ?_, ?_, hwaiting⟩
  · have hlast := hattached.last .opacity ((Track.toward .opacity (.scalar 0.25)).lasting 0.1) rfl
    exact hlast.trans rfl
  · exact (congrArg (fun a => a.tracks.map Track.start) hattached.animation).trans rfl
  · refine (hattached.others .rotation ?_).trans rfl
    rw [← Animation.lastTrack?_eq_none_iff]
    rfl

end Stage

end LayerAnimation
