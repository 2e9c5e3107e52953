import LayerAnimation.Proofs.Finiteness
import LayerAnimation.Proofs.Sampling

/-!
# Values keep their kind

An attribute has values of one kind, that of its resting value.  Nothing in the type of a map of
values says so: it is the intents, the resting values, and the starts that are read off a layer which
agree.  So between two values of a running track there always is a way, and the jump that is left for
values of different kinds is taken by outlines only.

- `Attribute.kind` is the kind of an attribute, and `Value.Fits` says that a value has it.
- `Value.kind_lerp` and `Value.numbers_lerp` say what lies between two values of one kind.
- `Playback.Fits`, `Layer.Fitting` and `Stage.Fitting` are one invariant for tracks, layers and
  stages; whatever a stage does keeps it, as long as intents have no tracks of their own making.
- `PlainStage.kinds_kept` is the statement for all runs.
-/

namespace LayerAnimation

variable {α κ σ ρ : Type} [Scalar α]

/-! ## §1 Kinds of attributes -/

/-- The kind of the resting value; the shadow outline, which has none, is an outline. -/
def Attribute.kind (α : Type) [Scalar α] (k : Attribute) : ValueKind :=
  (k.rest? : Option (Value α)).elim .path Value.kind

theorem Attribute.kind_eq_path_iff {k : Attribute} : k.kind α = .path ↔ k = .shadowPath := by
  cases k <;> simp [kind, rest?, Value.kind]

theorem Attribute.isSome_rest?_iff {k : Attribute} :
    (k.rest? : Option (Value α)).isSome ↔ k ≠ .shadowPath := by
  cases k <;> simp [rest?]

namespace Value

/-- A value has the kind of an attribute. -/
def Fits (v : Value α) (k : Attribute) : Prop :=
  v.kind = k.kind α

instance (v : Value α) (k : Attribute) : Decidable (v.Fits k) :=
  inferInstanceAs (Decidable (v.kind = k.kind α))

theorem fits_of_rest? {v : Value α} {k : Attribute} (resting : k.rest? = some v) : v.Fits k := by
  rw [Fits, Attribute.kind, resting]
  rfl

variable {a b : Value α} {k : Attribute}

/-- Between two values of one kind lie values of that kind. -/
theorem kind_lerp (same : a.kind = b.kind) (t : α) : (a.lerp b t).kind = b.kind := by
  cases a <;> cases b <;> first | rfl | cases same
  -- Of two outlines one or the other is taken.
  dsimp only [lerp]
  split <;> rfl

/-- Between two values of one kind, if they are not outlines, every number goes its own way. -/
theorem numbers_lerp (same : a.kind = b.kind) (numeric : b.kind ≠ .path) (t : α) :
    (a.lerp b t).numbers = List.zipWith (fun x y => Scalar.lerp x y t) a.numbers b.numbers := by
  cases a <;> cases b <;> first | rfl | cases same
  case transform m n =>
    exact Vector.toList_zipWith
  case path p q =>
    exact absurd rfl numeric

theorem Fits.lerp (ha : a.Fits k) (hb : b.Fits k) (t : α) : (a.lerp b t).Fits k :=
  (kind_lerp (ha.trans hb.symm) t).trans hb

end Value

/-! ## §2 Tracks of motions -/

/-- An intent without a track of a caller's own making. -/
def Intent.Plain : Intent α → Prop
  | .custom _ => False
  | _ => True

/-- A track leads to a value of the kind of its attribute, from one of that kind if its start is
set. -/
structure Track.Fits (t : Track α) : Prop where
  start : ∀ v ∈ t.start, v.Fits t.key
  goal : ∃ v, t.goal = some v ∧ v.Fits t.key

theorem Intent.Plain.fits_track {i : Intent α} (plain : i.Plain) {opacity : Option (Value α)}
    (fits : ∀ v ∈ opacity, v.Fits .opacity) : (i.track opacity).Fits := by
  refine ⟨fun v hv => ?_, ?_⟩
  · cases i
    case custom => exact plain.elim
    case fade x =>
      -- A fade starts at the opacity that is held, or else at a number.
      obtain rfl : opacity.getD (.scalar fullOpacity) = v := Option.some.inj hv
      cases opacity with
      | none => rfl
      | some w => exact fits w rfl
    all_goals cases hv
  · cases i
    case custom => exact plain.elim
    all_goals exact ⟨_, rfl, rfl⟩

/-- A running track leads from a value of the kind of its attribute to another one, and shows
something at any time.  Only the shadow outline can be without a start. -/
structure Playback.Fits (p : Playback α) : Prop where
  track : p.track.Fits
  started : p.key ≠ .shadowPath → p.track.start.isSome
  holds : p.fill.holdsAfterEnd = true

namespace Playback.Fits

variable {p : Playback α}

theorem value?_eq (h : p.Fits) {goal : Value α} (leads : p.track.goal = some goal) (now : α) :
    p.value? now
      = some ((p.track.start.getD goal).lerp goal (p.easing.apply (p.progress now))) := by
  simp only [Playback.value?, leads, h.holds, Bool.not_true, Bool.and_false, Bool.false_eq_true,
    ↓reduceIte]

/-- A running track shows a value of the kind of its attribute. -/
theorem value? (h : p.Fits) {now : α} {v : Value α} (shown : p.value? now = some v) :
    v.Fits p.key := by
  obtain ⟨goal, hgoal, hfits⟩ := h.track.goal
  rw [h.value?_eq hgoal] at shown
  rw [← Option.some.inj shown]
  refine Value.Fits.lerp ?_ hfits _
  -- Without a start the track is at its goal throughout.
  cases hstart : p.track.start with
  | none => exact hfits
  | some w => exact h.track.start w hstart

/-- A running track that does not lead to an outline moves each number on its own. -/
theorem numbers_value? (h : p.Fits) (numeric : p.key ≠ .shadowPath) :
    ∃ start goal, p.track.start = some start ∧ p.track.goal = some goal ∧
      ∀ now, ∃ v, p.value? now = some v ∧ v.Fits p.key ∧
        v.numbers = List.zipWith (fun x y => Scalar.lerp x y (p.easing.apply (p.progress now)))
          start.numbers goal.numbers := by
  obtain ⟨start, hstart⟩ := Option.isSome_iff_exists.mp (h.started numeric)
  obtain ⟨goal, hgoal, hfits⟩ := h.track.goal
  have hsame : start.kind = goal.kind := (h.track.start start hstart).trans hfits.symm
  have hpath : goal.kind ≠ .path := by
    rw [hfits]
    exact mt Attribute.kind_eq_path_iff.mp numeric
  refine ⟨start, goal, hstart, hgoal, fun now => ?_⟩
  have hshown := h.value?_eq hgoal now
  refine ⟨_, hshown, h.value? hshown, ?_⟩
  rw [hstart, Option.getD_some]
  exact Value.numbers_lerp hsame hpath _

end Playback.Fits

/-! ## §3 Layers -/

namespace Layer

/-- The values of a layer have the kinds of their attributes, and so have the tracks that run on
it. -/
structure Fitting (l : Layer α) : Prop where
  values : ∀ k v, l.values.get? k = some v → v.Fits k
  playing : ∀ k p, l.playing.get? k = some p → p.key = k ∧ p.Fits

variable {l l' : Layer α}

theorem Fitting.congr (h : l.Fitting) (values : l'.values = l.values)
    (playing : l'.playing = l.playing) : l'.Fitting where
  values := by
    rw [values]
    exact h.values
  playing := by
    rw [playing]
    exact h.playing

theorem Fitting.sync (h : l.Fitting) (now : α) : (l.sync now).Fitting :=
  h.congr rfl rfl

/-- What a layer shows for an attribute has its kind. -/
theorem Fitting.presented? (h : l.Fitting) {k : Attribute} {v : Value α}
    (shown : l.presented? k = some v) : v.Fits k := by
  rcases Option.or_eq_some_iff.mp shown with hrunning | ⟨-, hrest⟩
  · obtain ⟨p, hp, hv⟩ := Option.bind_eq_some_iff.mp hrunning
    obtain ⟨hkey, hfits⟩ := h.playing k p hp
    rw [← hkey]
    exact hfits.value? hv
  · rcases Option.or_eq_some_iff.mp hrest with hvalue | ⟨-, hresting⟩
    · exact h.values k v hvalue
    · exact Value.fits_of_rest? hresting

/-- A layer shows something for every attribute but the shadow outline. -/
theorem isSome_presented? (l : Layer α) {k : Attribute} (numeric : k ≠ .shadowPath) :
    (l.presented? k).isSome := by
  have hrest : (k.rest? : Option (Value α)).isSome := Attribute.isSome_rest?_iff.mpr numeric
  simp [Layer.presented?, hrest]

/-- Tracks whose starts are filled in by a layer fit, and lack no start but that of an outline. -/
theorem Fitting.fillStart (h : l.Fitting) {t : Track α} (fits : t.Fits) :
    let filled : Track α := { t with start := t.start.or (l.presented? t.key) }
    filled.Fits ∧ (t.key ≠ .shadowPath → filled.start.isSome) := by
  refine ⟨⟨fun v hv => ?_, fits.goal⟩, fun numeric => ?_⟩
  · rcases Option.or_eq_some_iff.mp hv with hstart | ⟨-, hshown⟩
    · exact fits.start v hstart
    · exact h.presented? hshown
  · simp [l.isSome_presented? numeric]

/-- A motion that begins on a layer starts fitting tracks. -/
theorem Fitting.attach (h : l.Fitting) {members : List (Track α)} (fits : ∀ t ∈ members, t.Fits)
    (id : AnimationId) (now duration : α) (easing : Easing α) :
    (l.attach id now (.group (.assemble members duration easing))).1.Fitting where
  values := by
    rw [values_attach]
    exact h.values
  playing := by
    intro k p hp
    rw [playing_attach] at hp
    -- What runs was started by the motion, with its start filled in, or ran before.
    rcases Option.or_eq_some_iff.mp hp with hnew | ⟨-, hbefore⟩
    · obtain ⟨t, hlast, rfl⟩ := Option.map_eq_some_iff.mp hnew
      obtain ⟨hmem, hkey⟩ := Animation.mem_of_lastTrack? hlast
      obtain ⟨t, ht, rfl⟩ := List.mem_map.mp hmem
      obtain ⟨hfilled, hstarted⟩ := (h.sync now).fillStart (fits t ht)
      exact ⟨hkey, hfilled, hstarted, rfl⟩
    · exact h.playing k p hbefore

/-- The tracks of plain intents fit. -/
theorem Fitting.compile (h : l.Fitting) {intents : List (Intent α)}
    (plain : ∀ i ∈ intents, i.Plain) : ∀ t ∈ l.compile intents, t.Fits := by
  intro t ht
  obtain ⟨i, hi, rfl⟩ := List.mem_map.mp ht
  exact (plain i hi).fits_track fun v hv => h.values .opacity v hv

/-- A commit writes goals, which have the kinds of their attributes. -/
theorem Fitting.commit (h : l.Fitting) (id : AnimationId) (a : Animation α) :
    (l.commit id a).1.Fitting where
  values := by
    intro k v hv
    -- A value that is new was the goal of a track that ran under this very attribute.
    by_cases hk : a.names k
    · rw [(commit_of_names l id k hk).2] at hv
      rcases Option.or_eq_some_iff.mp hv with hgoal | ⟨-, hvalue⟩
      · obtain ⟨p, hp, hv⟩ := Option.bind_eq_some_iff.mp hgoal
        obtain ⟨hkey, hfits⟩ := h.playing k p (owned?_eq_some_iff.mp hp).1
        obtain ⟨goal, hgoal, hgoalFits⟩ := hfits.track.goal
        obtain rfl := Option.some.inj (hgoal.symm.trans hv)
        rwa [← hkey]
      · exact h.values k v hvalue
    · rw [(commit_of_not_names l id k hk).2] at hv
      exact h.values k v hv
  playing := fun k p hp => h.playing k p (playing_of_playing_commit l id a hp).1

end Layer

/-! ## §4 Stages -/

namespace Stage

/-- The layers of a stage have fitting values and tracks, and motions that were put off have plain
intents. -/
structure Fitting (s : Stage α κ σ) : Prop where
  layers : ∀ id cell, s.cell? id = some cell → cell.layer.Fitting
  deferred : ∀ u ∈ s.timers, ∀ d, u.job = .deferred d → ∀ i ∈ d.intents, i.Plain

variable {s s' r : Stage α κ σ}

theorem Fitting.mono (h : s.Fitting) (layers : KeepsLayers s s')
    (timers : s'.timers ⊆ s.timers) : s'.Fitting where
  layers := by
    intro id cell' hcell'
    obtain ⟨cell, hcell, hvalues, hplaying⟩ := layers id cell' hcell'
    exact (h.layers id cell hcell).congr hvalues hplaying
  deferred := fun u hu => h.deferred u (timers hu)

theorem Fitting.follow (h : s.Fitting) (id : LayerId) : (s.follow id).Fitting :=
  h.mono (keepsLayers_follow s id) (by rw [timers_follow]; exact List.Subset.refl _)

theorem Fitting.sync (h : s.Fitting) : s.sync.Fitting :=
  h.mono (keepsLayers_sync s) (List.Subset.refl _)

theorem Fitting.setLayer (h : s.Fitting) (id : LayerId) {l : Layer α} (fits : l.Fitting) :
    (s.setLayer id l).Fitting where
  layers := by
    intro j cell hcell
    rw [cell?_setLayer] at hcell
    split at hcell
    · obtain ⟨before, -, rfl⟩ := Option.map_eq_some_iff.mp hcell
      exact fits
    · exact h.layers j cell hcell
  deferred := h.deferred

theorem Fitting.enqueue (h : s.Fitting) (after : α) {job : Job α κ}
    (plain : ∀ d, job = .deferred d → ∀ i ∈ d.intents, i.Plain) : (s.enqueue after job).Fitting where
  layers := h.layers
  deferred := by
    intro u hu d hd
    rcases Timer.mem_insert.mp hu with rfl | hu
    · exact plain d hd
    · exact h.deferred u hu d hd

theorem Fitting.enqueue_completion (h : s.Fitting) (after : α) (c : Completion α) :
    (s.enqueue after (.completion c)).Fitting := by
  refine h.enqueue after fun d hd => ?_
  cases hd

theorem Fitting.fire (h : s.Fitting) (c : Completion α) (ending : Ending) :
    (s.fire c ending).1.Fitting := by
  unfold Stage.fire
  split
  · exact h
  · next cell hcell =>
    split
    · exact h.setLayer c.layer ((h.layers c.layer cell hcell).commit c.id c.animation)
    · exact h

theorem Fitting.layer_of_readable? (h : s.Fitting) {id : LayerId} {l : Layer α}
    (readable : s.readable? id = some l) : l.Fitting := by
  unfold readable? at readable
  split at readable
  · next cell hcell =>
    split at readable
    · rw [← Option.some.inj readable]
      exact h.layers id cell hcell
    · cases readable
  · cases readable

/-- A motion of plain intents keeps the kinds. -/
theorem Fitting.perform (h : s.Fitting) (id : LayerId) {intents : List (Intent α)}
    (plain : ∀ i ∈ intents, i.Plain) (duration : α) (easing : Easing α) :
    (s.perform id intents duration easing).1.Fitting := by
  have hdraw : s.drawId.Fitting := h.mono (.of_cell? rfl) (List.Subset.refl _)
  unfold Stage.perform
  cases hreadable : s.readable? id with
  | none => exact h
  | some l =>
    -- The tracks are compiled from the values that are there, which are of the right kinds already.
    have hmembers := (h.layer_of_readable? hreadable).compile plain
    cases hwritable : s.writable? id with
    | none =>
      dsimp only
      rwa [animate_of_not_writable? hwritable]
    | some l' =>
      obtain ⟨cell, hcell, -, rfl⟩ := writable?_eq_some_iff.mp hwritable
      dsimp only
      rw [animate_of_writable? hwritable]
      have hattached := (h.layers id cell hcell).attach hmembers s.nextId s.now duration easing
      exact ((hdraw.setLayer id hattached).follow id).enqueue_completion _ _

theorem Fitting.schedule (h : s.Fitting) (id : LayerId) {intents : List (Intent α)}
    (plain : ∀ i ∈ intents, i.Plain) (o : Options α) : (s.schedule id intents o).Fitting := by
  refine h.enqueue o.delay fun d hd => ?_
  rw [← Job.deferred.inj hd]
  exact plain

theorem Fitting.motion (h : s.Fitting) (id : LayerId) {intents : List (Intent α)}
    (plain : ∀ i ∈ intents, i.Plain) (o : Options α) : (s.motion id intents o).1.Fitting := by
  unfold Stage.motion
  split
  · exact h.schedule id plain o.repaired
  · exact h.perform id plain _ _

theorem Fitting.interrupt (h : s.Fitting) (id : AnimationId) : (s.interrupt id).1.Fitting := by
  have hcancel : (s.cancel id).Fitting :=
    h.mono (.of_cell? rfl) fun _ hu => List.mem_of_mem_eraseP hu
  rcases interrupt_cases s id with ⟨-, hsame⟩ | ⟨u, c, -, -, ⟨n, hfired⟩ | ⟨-, hheld⟩, -⟩
  · rwa [hsame]
  · have hfire := hcancel.fire c .interrupted
    rwa [hfired] at hfire
  · rw [hheld]
    exact hcancel.enqueue_completion 0.0 c

theorem Fitting.requeue (h : s.Fitting) (cs : List (Completion α)) : (s.requeue cs).Fitting := by
  induction cs generalizing s with
  | nil => exact h
  | cons c cs ih => exact ih (h.enqueue_completion 0.0 c)

/-! ## §5 While the clock moves -/

section Loops

variable {exec : κ → Stage α κ σ → Stage α κ σ × ρ}
  (hexec : ∀ k (s : Stage α κ σ), s.Fitting → (exec k s).1.Fitting)

include hexec

/-- The first due job is started with the clock at its own due time. -/
theorem Fitting.start (h : s.Fitting) {t : α} {u : Timer α κ} (popped : s.popDue t = some (u, r)) :
    (start exec u.job (r.moveClock u.due).sync).1.Fitting := by
  obtain ⟨us, hus, -, rfl⟩ := popDue_eq_some_iff.mp popped
  -- Without the job that is taken the queue is a part of what it was.
  have hrest : Fitting { s with timers := us } := by
    refine h.mono (.of_cell? rfl) ?_
    rw [hus]
    exact List.subset_cons_self u us
  have hmoved : (moveClock { s with timers := us } u.due).Fitting :=
    hrest.mono (.of_cell? rfl) (List.Subset.refl _)
  have hsynced := hmoved.sync
  -- A motion that was put off is made on the layer as it is now, from the intents it had then.
  have hplain : ∀ d, u.job = .deferred d → ∀ i ∈ d.intents, i.Plain := by
    refine h.deferred u ?_
    rw [hus]
    exact List.mem_cons_self
  cases hjob : u.job with
  | completion c =>
    have hfire := hsynced.fire c .finished
    unfold Stage.start
    dsimp only
    split <;> next e => rwa [e] at hfire
  | deferred d => exact hsynced.perform d.layer (hplain d hjob) d.duration d.easing
  | routine k => exact hexec k _ hsynced

theorem Fitting.startDue (h : s.Fitting) (t : α) (fuel : Nat) :
    (startDue exec t fuel s).1.Fitting := by
  induction fuel generalizing s with
  | zero => exact h
  | succ fuel ih =>
    unfold Stage.startDue
    cases hpopped : s.popDue t with
    | none => exact h
    | some popped => exact ih (h.start hexec hpopped)

/-- Moving the clock keeps the kinds, if the routines that it starts keep them. -/
theorem Fitting.advanceWithin (h : s.Fitting) (t : α) (fuel : Nat) :
    (advanceWithin exec fuel t s).1.Fitting := by
  have hdue := h.startDue hexec t fuel
  have harrived : ((Stage.startDue exec t fuel s).1.moveClock t).Fitting :=
    hdue.mono (.of_cell? rfl) (List.Subset.refl _)
  exact (harrived.requeue _).sync

theorem Fitting.settleWithin (h : s.Fitting) (fuel rounds : Nat) :
    (settleWithin exec fuel rounds s).1.Fitting := by
  induction rounds generalizing s with
  | zero => exact h
  | succ rounds ih =>
    unfold Stage.settleWithin
    cases s.timers with
    | nil => exact h
    | cons u us =>
      have hadvance := h.advanceWithin hexec u.due fuel
      dsimp only
      split
      · exact hadvance
      · exact ih hadvance

end Loops

end Stage

/-! ## §6 Runs -/

/-- A call without tracks of the caller's own making. -/
def Operation.Plain : Operation α → Prop
  | .motion _ intents _ | .schedule _ intents _ => ∀ i ∈ intents, i.Plain
  | .animate _ _ => False
  | _ => True

namespace PlainStage

open Stage

theorem fitting_ofLayers {layers : List (Layer α)} (rest : ∀ l ∈ layers, l.playing = .empty)
    (fits : ∀ l ∈ layers, ∀ k v, l.values.get? k = some v → v.Fits k) :
    (Stage.ofLayers layers).Fitting where
  layers := by
    intro id cell hcell
    rw [cell?_ofLayers] at hcell
    obtain ⟨l, hl, rfl⟩ := Option.map_eq_some_iff.mp hcell
    have hmem := List.mem_of_getElem? hl
    refine ⟨fits l hmem, fun k p hp => ?_⟩
    rw [rest l hmem, AttributeMap.get?_empty] at hp
    cases hp
  deferred := fun u hu => absurd hu List.not_mem_nil

theorem fitting_exec (e : Empty) (s : PlainStage α) (_ : s.Fitting) : (exec e s).1.Fitting :=
  e.elim

theorem fitting_perform {s : PlainStage α} (h : s.Fitting) {op : Operation α} (plain : op.Plain) :
    (op.perform s).Fitting := by
  cases op with
  | motion id intents o => exact h.motion id plain o
  | schedule id intents o => exact h.schedule id plain o
  | animate => exact plain.elim
  | advance dt => exact h.advanceWithin fitting_exec _ _
  | advanceTo t => exact h.advanceWithin fitting_exec t _
  | settle => exact h.settleWithin fitting_exec _ _
  | interrupt id => exact h.interrupt id
  | watch id => exact (h.follow id).sync
  | hold id hold => exact h.mono (keepsLayers_setHold s id hold) (List.Subset.refl _)
  | drop id => exact h.mono (keepsLayers_dropLayer s id) (List.Subset.refl _)

theorem fitting_run {s : PlainStage α} (h : s.Fitting) {ops : List (Operation α)}
    (plain : ∀ op ∈ ops, op.Plain) : (s.run ops).Fitting := by
  induction ops generalizing s with
  | nil => exact h
  | cons op ops ih =>
    obtain ⟨hop, hops⟩ := List.forall_mem_cons.mp plain
    exact ih (fitting_perform h hop) hops

/-- Layers that begin at rest with values of the kinds of their attributes keep to these kinds,
whatever is done with them but animations of a caller's own making, and also while the clock moves:
the values that they hold, the starts and the goals of the tracks that run, and what they show at any
time.  Except for outlines every running track has a start and a goal, and at any time it shows the
value between them in which each number has gone its own part of the way. -/
theorem kinds_kept {layers : List (Layer α)} (rest : ∀ l ∈ layers, l.playing = .empty)
    (fits : ∀ l ∈ layers, ∀ k v, l.values.get? k = some v → v.Fits k)
    {ops : List (Operation α)} (plain : ∀ op ∈ ops, op.Plain) (t : α) (n : Nat) {id : LayerId}
    {cell : Cell α}
    (found : (startDue exec t n ((Stage.ofLayers layers).run ops)).1.cell? id = some cell)
    (k : Attribute) :
    (∀ v, cell.layer.values.get? k = some v → v.Fits k) ∧
    (∀ now v, (cell.layer.sync now).presented? k = some v → v.Fits k) ∧
    ∀ p, cell.layer.playing.get? k = some p →
      (∀ v, p.track.start = some v → v.Fits k) ∧ (∀ v, p.track.goal = some v → v.Fits k) ∧
      (k ≠ .shadowPath → ∃ start goal, p.track.start = some start ∧ p.track.goal = some goal ∧
        ∀ now, ∃ v, p.value? now = some v ∧ v.Fits k ∧
          v.numbers = List.zipWith (fun x y => Scalar.lerp x y (p.easing.apply (p.progress now)))
            start.numbers goal.numbers) := by
  have hrun := fitting_run (fitting_ofLayers rest fits) plain
  have hlayer := (hrun.startDue fitting_exec t n).layers id cell found
  refine ⟨hlayer.values k, fun now v => (hlayer.sync now).presented?, fun p hp => ?_⟩
  obtain ⟨rfl, hfits⟩ := hlayer.playing k p hp
  obtain ⟨goal, hgoal, hgoalFits⟩ := hfits.track.goal
  refine ⟨hfits.track.start, fun v hv => ?_, hfits.numbers_value?⟩
  rwa [← Option.some.inj (hgoal.symm.trans hv)]

/-- A layer that holds an opacity of a half. -/
def translucent : Layer Float :=
  .ofValues (AttributeMap.empty.insert .opacity (.scalar 0.5))

/-- A fade that is put off for a while. -/
def fadeLater : Operation Float :=
  .schedule 0 [.fade 0.0] { Options.standard with delay := 0.25 }

/-- The fade runs on that layer, from a number to a number, when the clock has started it on the way to
another moment. -/
theorem kinds_kept_translucent :
    ∃ p start goal, (startDue exec 1.0 1 ((Stage.ofLayers [translucent]).run
        [fadeLater])).1.playing? 0 .opacity = some p ∧
      p.track.start = some start ∧ p.track.goal = some goal ∧ start.kind = .scalar ∧
      goal.kind = .scalar := by
  have hrest : ∀ l ∈ [translucent], l.playing = .empty := by
    intro l hl
    rw [List.mem_singleton.mp hl]
    rfl
  have hfits : ∀ l ∈ [translucent], ∀ k v, l.values.get? k = some v → v.Fits k := by
    intro l hl k v hv
    rw [List.mem_singleton.mp hl, translucent, Layer.ofValues, AttributeMap.get?_insert,
      AttributeMap.get?_empty] at hv
    split at hv
    · next hk =>
      rw [← hk, ← Option.some.inj hv]
      rfl
    · cases hv
  have hplain : ∀ op ∈ [fadeLater], op.Plain := by
    simp [fadeLater, Operation.Plain, Intent.Plain]
  have hruns : ((startDue exec 1.0 1 ((Stage.ofLayers [translucent]).run
      [fadeLater])).1.playing? 0 .opacity).isSome = true := by decide +kernel
  obtain ⟨p, hp⟩ := Option.isSome_iff_exists.mp hruns
  obtain ⟨cell, hcell, hget⟩ := playing?_eq_some_iff.mp hp
  obtain ⟨hstart, hgoal, hnumeric⟩ :=
    (kinds_kept hrest hfits hplain 1.0 1 hcell .opacity).2.2 p hget
  obtain ⟨start, goal, hstarts, hleads, -⟩ := hnumeric (by decide)
  exact ⟨p, start, goal, hp, hstarts, hleads, hstart start hstarts, hgoal goal hleads⟩

end PlainStage

end LayerAnimation
