import LayerAnimation.Proofs.Attachments
import LayerAnimation.Proofs.Grouping

/-!
# Stages that cannot be told apart

A running track that is over from the start and holds its goal shows that goal at any moment, no
matter how far from positive its duration is.  Two stages that differ in such durations, and in how
their completions are wrapped, are twins: whatever is done to both, they stay twins.

- `Playback.Twin`, `Layer.Twin` and `Stage.Twin` relate what differs in nothing else.
- `Layer.Twin.attach` and `Layer.Twin.commit` are the two changes of a layer that read or write
  running tracks; what a commit counts is the same on both sides.
- Every operation of a stage keeps twins, and so do the loops of its clock, provided that the
  routines of the caller do (`Stage.Blind`): `Stage.Twin.advanceWithin`, `Stage.Twin.settleWithin`.
-/

namespace LayerAnimation

variable {α κ σ ρ : Type} [Scalar α]

/-! ## §1 Running tracks -/

/-- Two running tracks that differ at most in how long they run, and then both are over from the
start and hold their goal. -/
structure Playback.Twin (p q : Playback α) : Prop where
  id : q.id = p.id
  track : q.track = p.track
  begin : q.begin = p.begin
  easing : q.easing = p.easing
  fill : q.fill = p.fill
  duration : q.duration = p.duration ∨
    p.fill.holdsAfterEnd = true ∧ p.duration ≤ 0.0 ∧ q.duration ≤ 0.0

theorem Playback.Twin.refl (p : Playback α) : p.Twin p :=
  ⟨rfl, rfl, rfl, rfl, rfl, .inl rfl⟩

/-- Twins show the same at any moment. -/
theorem Playback.Twin.value?_eq {p q : Playback α} (h : p.Twin q) (now : α) :
    q.value? now = p.value? now := by
  cases p
  cases q
  obtain ⟨rfl, rfl, rfl, rfl, rfl, hsame | ⟨hholds, hp, hq⟩⟩ := h
  · cases hsame
    rfl
  · simp only [value?, progress, hholds, hp, hq, Bool.not_true, Bool.and_false, if_true]

/-! ## §2 Layers -/

/-- Layers on which twins run. -/
structure Layer.Twin (l l' : Layer α) : Prop where
  values : l'.values = l.values
  clock : l'.clock = l.clock
  playing : ∀ k, Option.Rel Playback.Twin (l.playing.get? k) (l'.playing.get? k)

/-- Animations with the same tracks, which run as twins of each other and end together. -/
structure Animation.Twin (a a' : Animation α) : Prop where
  tracks : a'.tracks = a.tracks
  playback : ∀ t ∈ a.tracks, ∀ start id now,
    (a.playback id now { t with start }).Twin (a'.playback id now { t with start })
  delay : Stage.completionDelay a' = Stage.completionDelay a

theorem Animation.Twin.refl (a : Animation α) : a.Twin a :=
  ⟨rfl, fun _ _ _ _ _ => .refl _, rfl⟩

namespace Layer.Twin

variable {l l' : Layer α}

theorem refl (l : Layer α) : l.Twin l where
  values := rfl
  clock := rfl
  playing k := by
    cases l.playing.get? k with
    | none => exact .none
    | some p => exact .some (.refl p)

theorem sync (h : l.Twin l') (now : α) : (l.sync now).Twin (l'.sync now) where
  values := h.values
  clock := rfl
  playing := h.playing

/-- Twins show the same under every attribute. -/
theorem presented?_eq (h : l.Twin l') (k : Attribute) : l'.presented? k = l.presented? k := by
  have hshown : (l'.playing.get? k).bind (·.value? l'.clock)
      = (l.playing.get? k).bind (·.value? l.clock) := by
    have hplaying := h.playing k
    -- The clocks agree, so both tracks are looked at in the same moment.
    rw [h.clock]
    generalize l.playing.get? k = p at hplaying ⊢
    generalize l'.playing.get? k = q at hplaying ⊢
    cases hplaying with
    | none => rfl
    | some htwin => exact htwin.value?_eq l.clock
  simp only [presented?, hshown, h.values]

theorem snapshot_eq (h : l.Twin l') : l'.snapshot = l.snapshot := by
  simp only [snapshot, funext h.presented?_eq]

/-- Twins may be attached to twins. -/
theorem attach (h : l.Twin l') {a a' : Animation α} (animations : a.Twin a') (id : AnimationId)
    (now : α) : (l.attach id now a).1.Twin (l'.attach id now a').1 where
  values := by simp [h.values]
  clock := by simp [clock_attach]
  playing k := by
    -- What starts under an attribute was shown by both layers before, and it is the same track that
    -- starts.
    rw [playing_attach_eq, playing_attach_eq, incoming?, incoming?, (h.sync now).presented?_eq k]
    have hlast : a'.lastTrack? k = a.lastTrack? k := by
      simp only [Animation.lastTrack?, animations.tracks]
    rw [hlast]
    cases hfound : a.lastTrack? k with
    | none => exact h.playing k
    | some t =>
      have hmem := (Animation.mem_of_lastTrack? hfound).1
      exact .some (animations.playback t hmem _ id now)

/-- Attaching leaves the tracks under their attributes. -/
theorem keys_attach (l : Layer α) (id : AnimationId) (now : α) (a : Animation α) :
    (l.attach id now a).2.tracks.map Track.key = a.tracks.map Track.key := by
  have hfilled : (l.attach id now a).2
      = a.mapTracks fun t => t.startingFrom ((l.sync now).presented? t.key) := rfl
  simp only [hfilled, Animation.tracks_mapTracks, List.map_map]
  rfl

theorem setValue (h : l.Twin l') (k : Attribute) (v : Value α) :
    (l.setValue k v).Twin (l'.setValue k v) where
  values := by simp only [Layer.setValue, h.values]
  clock := h.clock
  playing := h.playing

theorem play (h : l.Twin l') (p : Playback α) : (l.play p).Twin (l'.play p) where
  values := h.values
  clock := h.clock
  playing k := by
    simp only [Layer.play, AttributeMap.get?_insert]
    split
    · exact .some (.refl p)
    · exact h.playing k

theorem stop (h : l.Twin l') (a : Attribute) : (l.stop a).Twin (l'.stop a) where
  values := h.values
  clock := h.clock
  playing k := by
    simp only [Layer.stop, AttributeMap.get?_erase]
    split
    · exact .none
    · exact h.playing k

/-- A track is committed on both layers or on none, and writes a value on both or on none. -/
theorem commitTrack (h : l.Twin l') (id : AnimationId) (k : Attribute) :
    (l.commitTrack id k).1.Twin (l'.commitTrack id k).1 ∧
      (l'.commitTrack id k).2 = (l.commitTrack id k).2 := by
  have hplaying := h.playing k
  unfold Layer.commitTrack
  generalize l.playing.get? k = p at hplaying ⊢
  generalize l'.playing.get? k = q at hplaying ⊢
  cases hplaying with
  | none => exact ⟨h, rfl⟩
  | @some p q htwin =>
    -- Who owns the track and where it leads is the same.
    simp only [htwin.id, htwin.track]
    split
    · cases p.track.goal with
      | none => exact ⟨h.stop k, rfl⟩
      | some v => exact ⟨(h.setValue k v).stop k, rfl⟩
    · exact ⟨h, rfl⟩

/-- Committing attributes one by one writes as much on both layers. -/
theorem commitTracks (h : l.Twin l') (id : AnimationId) (ks : List Attribute) :
    (Layer.commitTracks id ks l).1.Twin (Layer.commitTracks id ks l').1 ∧
      (Layer.commitTracks id ks l').2 = (Layer.commitTracks id ks l).2 := by
  induction ks generalizing l l' with
  | nil => exact ⟨h, rfl⟩
  | cons k ks ih =>
    obtain ⟨hfirst, hwritten⟩ := h.commitTrack id k
    obtain ⟨hrest, hcount⟩ := ih hfirst
    refine ⟨hrest, ?_⟩
    simp only [Layer.commitTracks, hwritten, hcount]

/-- Animations with tracks under the same attributes end the same of what runs. -/
theorem commit (h : l.Twin l') (id : AnimationId) {a a' : Animation α}
    (keys : a'.tracks.map Track.key = a.tracks.map Track.key) :
    (l.commit id a).1.Twin (l'.commit id a').1 ∧ (l'.commit id a').2 = (l.commit id a).2 := by
  unfold Layer.commit
  rw [keys]
  exact h.commitTracks id _

end Layer.Twin

/-! ## §3 Cells and jobs -/

/-- Cells in the same hands, with twins in them. -/
structure Cell.Twin (c c' : Cell α) : Prop where
  layer : c.layer.Twin c'.layer
  hold : c'.hold = c.hold
  owned : c'.owned = c.owned

/-- Completions that end the same attributes under the same number. -/
structure Completion.Twin (c c' : Completion α) : Prop where
  layer : c'.layer = c.layer
  id : c'.id = c.id
  keys : c'.animation.tracks.map Track.key = c.animation.tracks.map Track.key

/-- Twins among completions, and equal jobs of other sorts. -/
inductive Job.Twin : Job α κ → Job α κ → Prop where
  | completion {c c' : Completion α} (h : c.Twin c') : Job.Twin (.completion c) (.completion c')
  | deferred (d : Deferred α) : Job.Twin (.deferred d) (.deferred d)
  | routine (r : κ) : Job.Twin (.routine r) (.routine r)

/-- Timers that are due at the same moment, for jobs that are twins. -/
structure Timer.Twin (u u' : Timer α κ) : Prop where
  due : u'.due = u.due
  seq : u'.seq = u.seq
  job : u.job.Twin u'.job

omit [Scalar α] in
theorem Completion.Twin.refl (c : Completion α) : c.Twin c :=
  ⟨rfl, rfl, rfl⟩

omit [Scalar α] in
theorem Job.Twin.refl (j : Job α κ) : j.Twin j := by
  cases j with
  | completion c => exact .completion (.refl c)
  | deferred d => exact .deferred d
  | routine r => exact .routine r

theorem Cell.Twin.sync {c c' : Cell α} (h : c.Twin c') (now : α) :
    (c.sync now).Twin (c'.sync now) := by
  by_cases hfree : c.hold = .free
  · rw [sync_of_free hfree, sync_of_free (h.hold.trans hfree)]
    exact ⟨h.layer.sync now, h.hold, h.owned⟩
  · rw [sync_of_held hfree, sync_of_held (h.hold ▸ hfree)]
    exact h

/-- A timer takes the same place among twins. -/
theorem Timer.Twin.insert {u u' : Timer α κ} {us us' : List (Timer α κ)} (h : u.Twin u')
    (rest : List.Forall₂ Timer.Twin us us') :
    List.Forall₂ Timer.Twin (u.insert us) (u'.insert us') := by
  induction rest with
  | nil => exact .cons h .nil
  | cons first rest ih =>
    simp only [Timer.insert, h.due, first.due]
    split
    · exact .cons h (.cons first rest)
    · exact .cons first ih

/-! ## §4 Stages -/

/-- Stages with twins in the same places and the same jobs, but for twins among completions. -/
structure Stage.Twin (s r : Stage α κ σ) : Prop where
  cell : ∀ b, Option.Rel Cell.Twin (s.cell? b) (r.cell? b)
  places : r.layers.length = s.layers.length
  nextId : r.nextId = s.nextId
  now : r.now = s.now
  seq : r.seq = s.seq
  timers : List.Forall₂ Timer.Twin s.timers r.timers
  followed : r.followed = s.followed
  desk : r.desk = s.desk

namespace Stage.Twin

variable {s r : Stage α κ σ}

theorem refl (s : Stage α κ σ) : s.Twin s where
  cell b := by
    cases s.cell? b with
    | none => exact .none
    | some c => exact .some ⟨.refl c.layer, rfl, rfl⟩
  places := rfl
  nextId := rfl
  now := rfl
  seq := rfl
  timers := List.forall₂_same.mpr fun u _ => ⟨rfl, rfl, .refl u.job⟩
  followed := rfl
  desk := rfl

/-- A layer is gone from both stages, or stands on both. -/
theorem cell_cases (h : s.Twin r) (b : LayerId) :
    (s.cell? b = none ∧ r.cell? b = none) ∨
    ∃ c c', s.cell? b = some c ∧ r.cell? b = some c' ∧ c.Twin c' := by
  have hcell := h.cell b
  generalize s.cell? b = p at hcell ⊢
  generalize r.cell? b = q at hcell ⊢
  cases hcell with
  | none => exact .inl ⟨rfl, rfl⟩
  | some htwin => exact .inr ⟨_, _, rfl, rfl, htwin⟩

/-- The same layers are alive. -/
theorem isAlive_eq (h : s.Twin r) : r.isAlive = s.isAlive := by
  funext b
  unfold Stage.isAlive
  rcases h.cell_cases b with ⟨hs, hr⟩ | ⟨c, c', hs, hr, -⟩ <;> simp [hs, hr]

/-- The same layers can be read, and they are twins. -/
theorem readable? (h : s.Twin r) (b : LayerId) :
    Option.Rel Layer.Twin (s.readable? b) (r.readable? b) := by
  unfold Stage.readable?
  rcases h.cell_cases b with ⟨hs, hr⟩ | ⟨c, c', hs, hr, htwin⟩
  · simp only [hs, hr]
    exact .none
  · simp only [hs, hr, htwin.hold]
    split
    · exact .some htwin.layer
    · exact .none

theorem writable? (h : s.Twin r) (b : LayerId) :
    Option.Rel Layer.Twin (s.writable? b) (r.writable? b) := by
  unfold Stage.writable?
  rcases h.cell_cases b with ⟨hs, hr⟩ | ⟨c, c', hs, hr, htwin⟩
  · simp only [hs, hr]
    exact .none
  · simp only [hs, hr, htwin.hold]
    split
    · exact .some htwin.layer
    · exact .none

/-! ### Cells, the clock and the queue -/

/-- A change that makes twins of twins may be made in a cell of both stages. -/
theorem modifyCell (h : s.Twin r) (id : LayerId) {f g : Cell α → Option (Cell α)}
    (same : ∀ c c', c.Twin c' → Option.Rel Cell.Twin (f c) (g c')) :
    (s.modifyCell id f).Twin (r.modifyCell id g) :=
  { h with
    cell := by
      intro b
      simp only [cell?_modifyCell]
      split
      · rcases h.cell_cases b with ⟨hs, hr⟩ | ⟨c, c', hs, hr, htwin⟩
        · simp only [hs, hr]
          exact .none
        · simp only [hs, hr]
          exact same c c' htwin
      · exact h.cell b
    places := by simpa [Stage.modifyCell] using h.places }

theorem setLayer (h : s.Twin r) (id : LayerId) {l l' : Layer α} (layers : l.Twin l') :
    (s.setLayer id l).Twin (r.setLayer id l') :=
  h.modifyCell id fun _ _ htwin => .some ⟨layers, htwin.hold, htwin.owned⟩

theorem setHold (h : s.Twin r) (id : LayerId) (hold : Hold) :
    (s.setHold id hold).Twin (r.setHold id hold) := by
  refine h.modifyCell id fun c c' htwin => ?_
  rw [htwin.owned]
  split
  · exact .none
  · exact .some ⟨htwin.layer, rfl, rfl⟩

theorem dropLayer (h : s.Twin r) (id : LayerId) : (s.dropLayer id).Twin (r.dropLayer id) := by
  refine h.modifyCell id fun c c' htwin => ?_
  rw [htwin.hold]
  split
  · exact .none
  · exact .some ⟨htwin.layer, rfl, rfl⟩

theorem follow (h : s.Twin r) (id : LayerId) : (s.follow id).Twin (r.follow id) := by
  unfold Stage.follow
  rw [h.followed]
  split
  · exact h
  · exact { h with followed := rfl }

theorem sync (h : s.Twin r) : s.sync.Twin r.sync :=
  { h with
    cell := by
      intro b
      simp only [cell?_sync, h.now, h.followed]
      split
      · rcases h.cell_cases b with ⟨hs, hr⟩ | ⟨c, c', hs, hr, htwin⟩
        · simp only [hs, hr]
          exact .none
        · simp only [hs, hr]
          exact .some (htwin.sync s.now)
      · exact h.cell b
    places := by simpa [Stage.sync] using h.places
    followed := by simp only [Stage.sync, h.followed, h.isAlive_eq] }

theorem watch (h : s.Twin r) (id : LayerId) : (s.watch id).Twin (r.watch id) :=
  (h.follow id).sync

theorem moveClock (h : s.Twin r) (t : α) : (s.moveClock t).Twin (r.moveClock t) :=
  { h with now := by simp only [Stage.moveClock, h.now] }

/-- The clocks agree, so a job is due at the same moment on both stages. -/
theorem enqueue (h : s.Twin r) (after : α) {j j' : Job α κ} (jobs : j.Twin j') :
    (s.enqueue after j).Twin (r.enqueue after j') :=
  { h with
    seq := by simp only [Stage.enqueue, h.seq]
    timers := by
      apply Timer.Twin.insert _ h.timers
      exact ⟨by simp only [h.now], by simp only [h.seq], jobs⟩ }

theorem enqueueCompletion (h : s.Twin r) (after : α) {c c' : Completion α} (twins : c.Twin c') :
    (s.enqueueCompletion after c).Twin (r.enqueueCompletion after c') := by
  unfold Stage.enqueueCompletion
  rw [twins.layer]
  exact (h.follow c.layer).enqueue after (.completion twins)

theorem drawId (h : s.Twin r) : s.drawId.Twin r.drawId :=
  { h with nextId := by simp only [Stage.drawId, h.nextId] }

/-! ### Animations -/

theorem attach (h : s.Twin r) (now : α) (id : LayerId) {a a' : Animation α} (twins : a.Twin a') :
    (s.attach now id a).1.Twin (r.attach now id a').1 ∧
      Option.Rel Completion.Twin (s.attach now id a).2 (r.attach now id a').2 := by
  have hlayer := h.writable? id
  unfold Stage.attach
  generalize s.writable? id = p at hlayer ⊢
  generalize r.writable? id = q at hlayer ⊢
  cases hlayer with
  | none => exact ⟨h.drawId, .none⟩
  | @some l l' layers =>
    dsimp only
    rw [h.nextId]
    refine ⟨h.drawId.setLayer id (layers.attach twins s.nextId now), .some ⟨rfl, rfl, ?_⟩⟩
    simp only [Layer.Twin.keys_attach, twins.tracks]

/-- An animation starts on both stages, under the same number, or on none. -/
theorem animate (h : s.Twin r) (id : LayerId) {a a' : Animation α} (twins : a.Twin a') :
    (s.animate id a).1.Twin (r.animate id a').1 ∧ (r.animate id a').2 = (s.animate id a).2 := by
  obtain ⟨hstage, hcompletion⟩ := h.attach s.now id twins
  unfold Stage.animate
  rw [h.now, twins.delay]
  generalize s.attach s.now id a = x at hstage hcompletion ⊢
  generalize r.attach s.now id a' = y at hstage hcompletion ⊢
  obtain ⟨s', p⟩ := x
  obtain ⟨r', q⟩ := y
  cases hcompletion with
  | none => exact ⟨hstage, rfl⟩
  | some hc => exact ⟨hstage.enqueueCompletion _ hc, congrArg some hc.id⟩

/-- Twins have the same values, so intents are compiled to the same group. -/
theorem perform (h : s.Twin r) (id : LayerId) (intents : List (Intent α)) (duration : α)
    (easing : Easing α) :
    (s.perform id intents duration easing).1.Twin (r.perform id intents duration easing).1 ∧
      (r.perform id intents duration easing).2 = (s.perform id intents duration easing).2 := by
  have hlayer := h.readable? id
  unfold Stage.perform
  generalize s.readable? id = p at hlayer ⊢
  generalize r.readable? id = q at hlayer ⊢
  cases hlayer with
  | none => exact ⟨h, rfl⟩
  | @some l l' layers =>
    have hcompiled : l'.compile intents = l.compile intents := by
      simp only [Layer.compile, layers.values]
    dsimp only
    rw [hcompiled]
    exact h.animate id (.refl _)

theorem schedule (h : s.Twin r) (id : LayerId) (intents : List (Intent α)) (o : Options α) :
    (s.schedule id intents o).Twin (r.schedule id intents o) :=
  h.enqueue o.delay (.deferred _)

theorem motion (h : s.Twin r) (id : LayerId) (intents : List (Intent α)) (o : Options α) :
    (s.motion id intents o).1.Twin (r.motion id intents o).1 ∧
      (r.motion id intents o).2 = (s.motion id intents o).2 := by
  unfold Stage.motion
  split
  · exact ⟨h.schedule id intents o.repaired, rfl⟩
  · exact h.perform id intents _ _

/-! ### Completions -/

/-- A completion writes as many values on both stages, or is handed back by both. -/
theorem fire (h : s.Twin r) {c c' : Completion α} (twins : c.Twin c') (ending : Ending) :
    (s.fire c ending).1.Twin (r.fire c' ending).1 ∧
      ((∃ n, (s.fire c ending).2 = .ok n ∧ (r.fire c' ending).2 = .ok n) ∨
        ((s.fire c ending).2 = .error c ∧ (r.fire c' ending).2 = .error c')) := by
  unfold Stage.fire
  rw [twins.layer]
  rcases h.cell_cases c.layer with ⟨hs, hr⟩ | ⟨x, y, hs, hr, htwin⟩
  · simp only [hs, hr]
    exact ⟨h, .inl ⟨0, rfl, rfl⟩⟩
  -- The layer is in the same hands on both stages.
  · simp only [hs, hr, htwin.hold, twins.id]
    split
    · obtain ⟨hlayer, hcount⟩ := htwin.layer.commit c.id twins.keys
      refine ⟨h.setLayer c.layer hlayer, .inl ⟨_, rfl, ?_⟩⟩
      rw [hcount]
    · exact ⟨h, .inr ⟨rfl, rfl⟩⟩

omit [Scalar α] in
theorem isCompletionOf_eq {u u' : Timer α κ} (h : u.Twin u') (id : AnimationId) :
    u.isCompletionOf id = u'.isCompletionOf id := by
  obtain ⟨due, seq, job⟩ := u
  obtain ⟨due', seq', job'⟩ := u'
  cases h.job with
  | completion htwin => simp only [Timer.isCompletionOf, htwin.id]
  | deferred d => rfl
  | routine r => rfl

theorem cancel (h : s.Twin r) (id : AnimationId) : (s.cancel id).Twin (r.cancel id) :=
  { h with timers := eraseP_of_forall₂ h.timers fun _ _ hu => isCompletionOf_eq hu id }

/-- The same timer is found on both stages, and the same is told of it. -/
theorem interrupt (h : s.Twin r) (id : AnimationId) :
    (s.interrupt id).1.Twin (r.interrupt id).1 ∧ (r.interrupt id).2 = (s.interrupt id).2 := by
  have hfound := find?_of_forall₂ h.timers fun _ _ hu => isCompletionOf_eq hu id
  unfold Stage.interrupt
  generalize s.timers.find? (Timer.isCompletionOf id) = p at hfound ⊢
  generalize r.timers.find? (Timer.isCompletionOf id) = q at hfound ⊢
  cases hfound with
  | none => exact ⟨h, rfl⟩
  | @some u u' hu =>
    obtain ⟨due, seq, job⟩ := u
    obtain ⟨due', seq', job'⟩ := u'
    -- Only a completion is ended; no other job is found in this way.
    cases hu.job with
    | deferred d => exact ⟨h, rfl⟩
    | routine r => exact ⟨h, rfl⟩
    | @completion c c' htwin =>
      obtain ⟨hstage, hresult⟩ := (h.cancel id).fire htwin .interrupted
      dsimp only
      generalize (s.cancel id).fire c .interrupted = x at hstage hresult ⊢
      generalize (r.cancel id).fire c' .interrupted = y at hstage hresult ⊢
      obtain ⟨s', x⟩ := x
      obtain ⟨r', y⟩ := y
      rcases hresult with ⟨n, rfl, rfl⟩ | ⟨rfl, rfl⟩
      · exact ⟨hstage, rfl⟩
      · exact ⟨hstage.enqueue 0.0 (.completion htwin), rfl⟩

end Stage.Twin

/-! ## §5 The clock -/

/-- Routines that cannot tell twins apart. -/
def Stage.Blind (exec : κ → Stage α κ σ → Stage α κ σ × ρ) : Prop :=
  ∀ (task : κ) (s r : Stage α κ σ), s.Twin r → (exec task s).1.Twin (exec task r).1

/-- Jobs that were started at the same time, and either both are done or were both refused. -/
structure Firing.Twin (f g : Firing α ρ) : Prop where
  due : g.due = f.due
  seq : g.seq = f.seq
  refused : Option.Rel Completion.Twin f.refused? g.refused?

omit [Scalar α] in
/-- What was refused on both stages are twins, in the same order. -/
theorem Firing.Twin.refused?_of_forall₂ {fs gs : List (Firing α ρ)}
    (h : List.Forall₂ Firing.Twin fs gs) :
    List.Forall₂ Completion.Twin (fs.filterMap Firing.refused?) (gs.filterMap Firing.refused?) := by
  induction h with
  | nil => exact .nil
  | @cons f g fs gs first rest ih =>
    have hrefused := first.refused
    simp only [List.filterMap_cons]
    generalize f.refused? = p at hrefused ⊢
    generalize g.refused? = q at hrefused ⊢
    cases hrefused with
    | none => exact ih
    | some htwin => exact .cons htwin ih

omit [Scalar α] in
/-- As many jobs are done. -/
theorem Firing.Twin.doneCount_eq {fs gs : List (Firing α ρ)} (h : List.Forall₂ Firing.Twin fs gs) :
    doneCount gs = doneCount fs := by
  have hs := Stage.doneCount_add_refused fs
  have hr := Stage.doneCount_add_refused gs
  have hlength := h.length_eq
  have hrefused := (refused?_of_forall₂ h).length_eq
  omega

namespace Stage.Twin

variable {s r : Stage α κ σ} {exec : κ → Stage α κ σ → Stage α κ σ × ρ}

omit [Scalar α] in
theorem job_load_eq (cost : κ → Nat) {j j' : Job α κ} (h : j.Twin j') :
    j'.load cost = j.load cost := by
  cases h <;> rfl

omit [Scalar α] in
theorem loads_eq (cost : κ → Nat) {us us' : List (Timer α κ)} (h : List.Forall₂ Timer.Twin us us') :
    Timer.loads cost us' = Timer.loads cost us := by
  induction h with
  | nil => rfl
  | @cons u u' us us' first rest ih =>
    show u'.job.load cost + Timer.loads cost us' = u.job.load cost + Timer.loads cost us
    rw [job_load_eq cost first.job, ih]

/-- As many jobs can come of those that wait. -/
theorem load_eq (h : s.Twin r) (cost : κ → Nat) : r.load cost = s.load cost :=
  loads_eq cost h.timers

/-- The same timer is due first. -/
theorem popDue (h : s.Twin r) (t : α) :
    Option.Rel (fun x y => x.1.Twin y.1 ∧ x.2.Twin y.2) (s.popDue t) (r.popDue t) := by
  have htimers := h.timers
  unfold Stage.popDue
  generalize hs : s.timers = us at htimers ⊢
  generalize hr : r.timers = us' at htimers ⊢
  cases htimers with
  | nil => exact .none
  | cons first rest =>
    simp only [first.due]
    split
    · exact .some ⟨first, { h with timers := rest }⟩
    · exact .none

/-- A job that is started does the same on both stages, as far as one can see. -/
theorem start (h : s.Twin r) (blind : Blind exec) {j j' : Job α κ} (jobs : j.Twin j') :
    (Stage.start exec j s).1.Twin (Stage.start exec j' r).1 ∧ ∀ (due : α) (seq : Nat),
      Firing.Twin ⟨due, seq, (Stage.start exec j s).2⟩ ⟨due, seq, (Stage.start exec j' r).2⟩ := by
  -- Two completions may hold animations that are told apart by how long their tracks run, which a
  -- commit does not ask for.
  cases jobs with
  | @completion c c' htwin =>
    obtain ⟨hstage, hresult⟩ := h.fire htwin .finished
    unfold Stage.start
    dsimp only
    generalize s.fire c .finished = x at hstage hresult ⊢
    generalize r.fire c' .finished = y at hstage hresult ⊢
    obtain ⟨s', x⟩ := x
    obtain ⟨r', y⟩ := y
    rcases hresult with ⟨n, rfl, rfl⟩ | ⟨rfl, rfl⟩
    · exact ⟨hstage, fun _ _ => ⟨rfl, rfl, .none⟩⟩
    · exact ⟨hstage, fun _ _ => ⟨rfl, rfl, .some htwin⟩⟩
  | deferred d =>
    exact ⟨(h.perform d.layer d.intents d.duration d.easing).1, fun _ _ => ⟨rfl, rfl, .none⟩⟩
  | routine task => exact ⟨blind task s r h, fun _ _ => ⟨rfl, rfl, .none⟩⟩

/-- The jobs that are due start on both stages. -/
theorem startDue (h : s.Twin r) (blind : Blind exec) (t : α) (fuel : Nat) :
    (Stage.startDue exec t fuel s).1.Twin (Stage.startDue exec t fuel r).1 ∧
      List.Forall₂ Firing.Twin (Stage.startDue exec t fuel s).2
        (Stage.startDue exec t fuel r).2 := by
  induction fuel generalizing s r with
  | zero => exact ⟨h, .nil⟩
  | succ fuel ih =>
    have hpopped := h.popDue t
    unfold Stage.startDue
    generalize s.popDue t = x at hpopped ⊢
    generalize r.popDue t = y at hpopped ⊢
    cases hpopped with
    | none => exact ⟨h, .nil⟩
    | @some x y hpair =>
      obtain ⟨u, s'⟩ := x
      obtain ⟨u', r'⟩ := y
      -- The same job is due on both stages, so the loops go on together.
      obtain ⟨htimer, hrest⟩ := hpair
      dsimp only at htimer hrest ⊢
      rw [htimer.due, htimer.seq]
      obtain ⟨hstart, hfired⟩ := (hrest.moveClock u.due).sync.start blind htimer.job
      obtain ⟨hstage, hfirings⟩ := ih hstart
      exact ⟨hstage, .cons (hfired u.due u.seq) hfirings⟩

theorem requeue (h : s.Twin r) {cs cs' : List (Completion α)}
    (twins : List.Forall₂ Completion.Twin cs cs') : (s.requeue cs).Twin (r.requeue cs') := by
  induction twins generalizing s r with
  | nil => exact h
  | cons first rest ih => exact ih (h.enqueue 0.0 (.completion first))

/-- An advance gets as much done on both stages. -/
theorem advanceWithin (h : s.Twin r) (blind : Blind exec) (fuel : Nat) (t : α) :
    (Stage.advanceWithin exec fuel t s).1.Twin (Stage.advanceWithin exec fuel t r).1 ∧
      doneCount (Stage.advanceWithin exec fuel t r).2
        = doneCount (Stage.advanceWithin exec fuel t s).2 := by
  obtain ⟨hstage, hfirings⟩ := h.startDue blind t fuel
  exact ⟨((hstage.moveClock t).requeue (Firing.Twin.refused?_of_forall₂ hfirings)).sync,
    Firing.Twin.doneCount_eq hfirings⟩

/-- As long as something is done on one stage, something is on the other. -/
theorem settleWithin (h : s.Twin r) (blind : Blind exec) (fuel rounds : Nat) :
    (Stage.settleWithin exec fuel rounds s).1.Twin (Stage.settleWithin exec fuel rounds r).1 ∧
      doneCount (Stage.settleWithin exec fuel rounds r).2
        = doneCount (Stage.settleWithin exec fuel rounds s).2 := by
  induction rounds generalizing s r with
  | zero => exact ⟨h, rfl⟩
  | succ rounds ih =>
    have htimers := h.timers
    unfold Stage.settleWithin
    generalize s.timers = us at htimers ⊢
    generalize r.timers = us' at htimers ⊢
    cases htimers with
    | nil => exact ⟨h, rfl⟩
    | @cons u u' us us' first rest =>
      obtain ⟨hstage, hdone⟩ := h.advanceWithin blind fuel u.due
      simp only [first.due, hdone]
      split
      · exact ⟨hstage, hdone⟩
      -- Something was done on both stages, so both go on.
      · obtain ⟨hend, hcount⟩ := ih hstage
        refine ⟨hend, ?_⟩
        simp only [doneCount, List.countP_append] at hdone hcount ⊢
        rw [hdone, hcount]

end Stage.Twin

end LayerAnimation
